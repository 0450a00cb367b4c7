import Sudix.AuditTrail
import Sudix.DecisionRecord

/-! What the daemon executes for a connection, and which responses tell of it. -/

namespace Sudix

open Concurrent

variable {P : Platform} {approver : Approver} {approvalMutex : Bool} {c : Conn} {own : History (sig P)}

/-- A command the daemon has tried to start, with the directory and what came of it. -/
structure Execution where
  argv : List String
  dir : String
  result : Except IoError ProcessOutput

def execution (event : Event (sig P)) : Option Execution :=
  match event with
  | ⟨.spawn program args dir, result⟩ => some ⟨program :: args, dir, result⟩
  | _ => none

/-- What the worker of connection `c` has executed. -/
def executedBy (c : Conn) (tr : Trace (sig P) Daemon Tid Env) : List Execution := (history c tr).filterMap execution

/-- A response that tells what was executed before it. -/
inductive Reflects : List Execution → Response → Prop
  | executed {argv dir output} : Reflects [⟨argv, dir, .ok output⟩] output.response
  | failed {argv dir e} : Reflects [⟨argv, dir, .error e⟩] (.denied ("execution failed: " ++ e))
  | denied {why} : Reflects [] (.denied why)
  | error {why} : Reflects [] (.error why)

variable {ctx : RequestCtx} {req : Request}

theorem unexecuted {q : Op → Bool} (h : Only q own) (hq : ∀ program args dir, q (.spawn program args dir) = false) :
    own.filterMap execution = [] := by
  rw [List.filterMap_eq_nil_iff]
  rintro ⟨op, answer⟩ he
  cases op with
  | spawn program args dir =>
      have hop := h _ he
      rw [hq] at hop
      cases hop
  | _ => rfl

theorem checked_unexecuted {ruleIndex : Nat} {cwd : String} {verdict : CacheVerdict} :
    (checked (P := P) ctx req ruleIndex cwd verdict).filterMap execution = [] := rfl

theorem Ready.unexecuted {cwd : String} {outcome : Int32 → Outcome}
    (h : Ready ctx approver approvalMutex req own cwd outcome) : own.filterMap execution = [] := by
  cases h with
  | cached _ => rfl
  | fresh _ hgate =>
      rw [List.filterMap_append, List.filterMap_append, checked_unexecuted,
        Sudix.unexecuted hgate.only fun _ _ _ => rfl]
      rfl

/-- The command of a request that has come to be executed, and the directory it is executed in. -/
theorem Ready.command {cwd : String} {outcome : Int32 → Outcome}
    (h : Ready ctx approver approvalMutex req own cwd outcome) :
    req.argv.headD "" :: req.argv.tail = req.argv ∧ ⟨.canonicalize req.cwd, .ok cwd⟩ ∈ own := by
  have hargv : req.argv ≠ [] := by
    cases h with
    | cached hscreened | fresh hscreened _ => exact hscreened.argv
  constructor
  · cases hcases : req.argv with
    | nil => exact absurd hcases hargv
    | cons program args => rfl
  · cases h with
    | cached _ | fresh _ _ => simp [checked, unlimited, Sudix.located]

theorem Decided.reflects {outcome : Outcome} {resp : Response}
    (h : Decided ctx approver approvalMutex req own outcome resp) : Reflects (own.filterMap execution) resp := by
  cases h with
  | empty _ | reason _ _ | policy _ _ _ | noPath _ | noDir _ | limited _ => exact .denied
  | deniedUser _ hgate =>
      rw [List.filterMap_append, checked_unexecuted, unexecuted hgate.only fun _ _ _ => rfl]
      exact .denied
  | approverError _ hgate =>
      rw [List.filterMap_append, checked_unexecuted, unexecuted hgate.only fun _ _ _ => rfl]
      exact .error
  | executed hready =>
      rw [List.filterMap_append, hready.unexecuted]
      exact .executed
  | executeError hready =>
      rw [List.filterMap_append, hready.unexecuted]
      exact .failed

theorem Unevaluated.reflects {resp : Response} (h : Unevaluated c own resp) :
    Reflects (own.filterMap execution) resp := by
  rw [unexecuted h.only fun _ _ _ => rfl]
  cases h with
  | reloadFailed _ => exact .error
  | unauthorized _ _ | tooLarge _ _ | malformed _ _ => exact .denied

theorem Answered.reflects {resp : Response} (h : Answered c approver approvalMutex own resp) :
    Reflects (own.filterMap execution) resp := by
  rcases h.cases with hrefused |
      ⟨own₁, loaded, callerUid, req, own₂, outcome, unixSecs, logged, hadmitted, hdecided, rfl⟩
  · exact hrefused.reflects
  · rw [List.filterMap_append, unexecuted hadmitted.only fun _ _ _ => rfl, List.filterMap_append,
      List.filterMap_append]
    show Reflects (_ ++ [] ++ []) _
    rw [List.append_nil, List.append_nil]
    exact hdecided.reflects

end Sudix
