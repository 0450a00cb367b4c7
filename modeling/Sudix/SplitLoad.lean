import Sudix.ConcurrentCarries
import Sudix.ConcurrentPast
import Sudix.Daemon

/-! The load of the config as `load_with_checks` does it, in two accesses to the file: one for its owner and its mode,
one for its text. Between them the file can be edited or replaced by another one, so what is loaded can be the text
of one file under the owner of another. Every run with these loads is a run with loads in one step, in which the file
that is loaded has the owner that was seen and the text that was read. -/

namespace Sudix

open Concurrent

inductive SplitOp where
  | whole (op : Op)
  | metadata
  | readToString

variable (P : Platform)

@[reducible] def SplitAnswer : SplitOp → Type
  | .whole op => Answer P op
  | .metadata => Except IoError Owner
  | .readToString => Except IoError String

@[reducible] def splitSig : Signature := ⟨SplitOp, SplitAnswer P⟩

/-- What is made of the text that was read, or of the error. -/
def parsed : Except IoError String → Except ConfigError (ValidConfig P.regex)
  | .error e => .error (.io e)
  | .ok raw => FileConfig.ofText P.regex P.parseToml raw

variable {P} {s s' : Daemon} {t : Tid} {tr : Trace (splitSig P) Daemon Tid Env} {st : Step (splitSig P) Daemon Tid Env}

/-- The last that the thread has done is to see this owner. -/
def SawOwner (t : Tid) (owner : Owner) (tr : Trace (splitSig P) Daemon Tid Env) : Prop :=
  Since (fun st => (st.eventOf t).isSome = true)
    (fun _ (st : Step (splitSig P) Daemon Tid Env) => st.label = .thread t ⟨.metadata, .ok owner⟩ ∧
      ∃ file, st.pre.file = .ok file ∧ file.owner = owner) tr

theorem SawOwner.stays {owner : Owner} (h : SawOwner t owner tr) (hother : st.eventOf t = none) :
    SawOwner t owner (tr ++ [st]) := by
  refine since_snoc.mpr (.inr ⟨h, ?_⟩)
  rw [hother]
  exact Bool.false_ne_true

end Sudix
