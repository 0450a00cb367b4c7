import Sudix.ConcurrentPast
import Sudix.Daemon

/-! What a step can change. Each component of the daemon's state is written by few operations and
read by the rest; an invariant about a component only looks at the operations that write it. -/

namespace Sudix

open Concurrent

variable {P : Platform}

namespace Op

def writesCurrent : Op → Bool
  | .swapCurrent _ => true
  | _ => false

def writesApprovals : Op → Bool
  | .resetApprovals | .isRateLimited _ _ | .recordCacheHit _ _ | .recordApproval _ _ _ => true
  | _ => false

def writesRegistry : Op → Bool
  | .insertAgent _ _ | .removeAgent _ => true
  | _ => false

def writesDisconnected : Op → Bool
  | .signalDisconnected _ => true
  | _ => false

def writesHolder : Op → Bool
  | .lock _ | .unlock _ => true
  | _ => false

def writesCounters : Op → Bool
  | .consumeCounter _ => true
  | _ => false

/-- The connection whose byte queues an operation works on. -/
def stream : Op → Option Conn
  | .recv c _ | .writeAll c _ => some c
  | _ => none

end Op

/-- What an operation leaves as it is. -/
structure Frame (op : Op) (s s' : Daemon) : Prop where
  now : s'.now = s.now
  unixSecs : s'.unixSecs = s.unixSecs
  file : s'.file = s.file
  files : s'.files = s.files
  uidOf : s'.uidOf = s.uidOf
  current : op.writesCurrent = false → s'.current = s.current
  generations : op.writesCurrent = false → s'.generations = s.generations
  approvals : op.writesApprovals = false → s'.approvals = s.approvals
  registry : op.writesRegistry = false → s'.registry = s.registry
  disconnected : op.writesDisconnected = false → s'.disconnected = s.disconnected
  holder : op.writesHolder = false → s'.holder = s.holder
  usedCounters : op.writesCounters = false → s'.usedCounters = s.usedCounters
  channel : ∀ c, op.stream ≠ some c → s'.channel c = s.channel c

theorem setChannel_of_ne {s : Daemon} {c c' : Conn} {ch : Channel} (h : some c ≠ some c') :
    (s.setChannel c ch).channel c' = s.channel c' :=
  Function.update_of_ne (fun heq => h (congrArg some heq.symm)) _ _

theorem act_frame {s s' : Daemon} {t : Tid} {op : Op} {choice : Choice op} {answer : Answer P op}
    (h : act P s t op choice = some (answer, s')) : Frame op s s' := by
  cases op
  all_goals
    simp only [act] at h
    repeat' split at h
    all_goals first
      | cases h
        done
      | cases h
        constructor <;> first
          | rfl
          | exact fun _ _ => rfl
          | exact fun _ => setChannel_of_ne
          | exact fun _ => rfl
          | (intro hw; cases hw)

/-- What an event around the daemon leaves as it is. -/
structure EnvFrame (s s' : Daemon) : Prop where
  now : s.now ≤ s'.now
  unixSecs : s.unixSecs ≤ s'.unixSecs
  uidOf : s'.uidOf = s.uidOf
  current : s'.current = s.current
  generations : s'.generations = s.generations
  approvals : s'.approvals = s.approvals
  registry : s'.registry = s.registry
  disconnected : s'.disconnected = s.disconnected
  holder : s'.holder = s.holder
  usedCounters : s'.usedCounters = s.usedCounters

/-- Every event around the daemon moves a clock on, edits what is on disk, or works on one channel. -/
theorem env_changes {s s' : Daemon} {event : Env} (h : env P s event = some s') :
    (∃ nanos, s' = { s with now := s.now + nanos }) ∨
    (∃ secs, s' = { s with unixSecs := s.unixSecs + secs }) ∨
    (∃ file, event = .editConfig file ∧ s' = { s with file := file }) ∨
    (∃ files, s' = { s with files := files }) ∨
    ∃ c ch, s' = s.setChannel c ch := by
  cases event with
  | tick nanos =>
      cases h
      exact .inl ⟨nanos, rfl⟩
  | tickUnix secs =>
      cases h
      exact .inr (.inl ⟨secs, rfl⟩)
  | editConfig file =>
      cases h
      exact .inr (.inr (.inl ⟨file, rfl, rfl⟩))
  | editFiles files =>
      cases h
      exact .inr (.inr (.inr (.inl ⟨files, rfl⟩)))
  | peerSend c _ | peerReceive c _ | peerClose c | agentRead c | agentAnswer c _ | agentWrite c _ | agentExit c =>
      apply Or.inr ∘ Or.inr ∘ Or.inr ∘ Or.inr
      simp only [env] at h
      repeat' split at h
      all_goals
        cases h
        try exact ⟨c, _, rfl⟩

theorem env_frame {s s' : Daemon} {event : Env} (h : env P s event = some s') : EnvFrame s s' := by
  rcases env_changes h with ⟨nanos, rfl⟩ | ⟨secs, rfl⟩ | ⟨file, _, rfl⟩ | ⟨files, rfl⟩ | ⟨c, ch, rfl⟩
  all_goals constructor <;> first | rfl | exact Nat.le_refl _ | exact Nat.le_add_right _ _

/-- Whether a step is one of the operations that write a component. -/
def writes (w : Op → Bool) : Label (sig P) Tid Env → Bool
  | .thread _ event => w event.op
  | .env _ => false

section Legal

variable {st : Step (sig P) Daemon Tid Env} (h : st.Legal (world P))

include h

/-- A component that the environment never writes is kept by every step but its writers. -/
theorem legal_keeps {β : Type} (f : Daemon → β) (w : Op → Bool)
    (hact : ∀ op s s', Frame op s s' → w op = false → f s' = f s)
    (henv : ∀ s s', EnvFrame s s' → f s' = f s) (hw : writes w st.label = false) : f st.post = f st.pre := by
  obtain ⟨pre, label, post⟩ := st
  cases label with
  | thread t event =>
      obtain ⟨choice, hlegal⟩ := h
      exact hact event.op pre post (act_frame hlegal) hw
  | env event => exact henv pre post (env_frame h)

theorem legal_current (hw : writes Op.writesCurrent st.label = false) : st.post.current = st.pre.current :=
  legal_keeps h Daemon.current Op.writesCurrent (fun _ _ _ hf => hf.current) (fun _ _ hf => hf.current) hw

theorem legal_approvals (hw : writes Op.writesApprovals st.label = false) :
    st.post.approvals = st.pre.approvals :=
  legal_keeps h Daemon.approvals Op.writesApprovals (fun _ _ _ hf => hf.approvals) (fun _ _ hf => hf.approvals) hw

theorem legal_registry (hw : writes Op.writesRegistry st.label = false) :
    st.post.registry = st.pre.registry :=
  legal_keeps h Daemon.registry Op.writesRegistry (fun _ _ _ hf => hf.registry) (fun _ _ hf => hf.registry) hw

theorem legal_disconnected (hw : writes Op.writesDisconnected st.label = false) :
    st.post.disconnected = st.pre.disconnected :=
  legal_keeps h Daemon.disconnected Op.writesDisconnected (fun _ _ _ hf => hf.disconnected)
    (fun _ _ hf => hf.disconnected) hw

theorem legal_holders (hw : writes Op.writesHolder st.label = false) : st.post.holder = st.pre.holder :=
  legal_keeps h Daemon.holder Op.writesHolder (fun _ _ _ hf => hf.holder) (fun _ _ hf => hf.holder) hw

theorem legal_usedCounters (hw : writes Op.writesCounters st.label = false) :
    st.post.usedCounters = st.pre.usedCounters :=
  legal_keeps h Daemon.usedCounters Op.writesCounters (fun _ _ _ hf => hf.usedCounters)
    (fun _ _ hf => hf.usedCounters) hw

theorem legal_uidOf : st.post.uidOf = st.pre.uidOf :=
  legal_keeps h Daemon.uidOf (fun _ => false) (fun _ _ _ hf _ => hf.uidOf) (fun _ _ hf => hf.uidOf)
    (by cases st.label <;> rfl)

/-- The clock never goes back. -/
theorem legal_now : st.pre.now ≤ st.post.now := by
  obtain ⟨pre, label, post⟩ := st
  cases label with
  | thread t event =>
      obtain ⟨choice, hlegal⟩ := h
      exact Nat.le_of_eq (act_frame hlegal).now.symm
  | env event => exact (env_frame h).now

end Legal

section Operations

variable {s s' : Daemon} {t : Tid}

theorem legal_act {op : Op} {answer : Answer P op}
    (h : Step.Legal (world P) ⟨s, .thread t ⟨op, answer⟩, s'⟩) :
    ∃ choice, act P s t op choice = some (answer, s') := h

theorem legal_lock {l : Lock} {poisoned : Bool}
    (h : Step.Legal (world P) ⟨s, .thread t ⟨.lock l, poisoned⟩, s'⟩) :
    s.holder l = none ∧ s' = { s with holder := Function.update s.holder l (some t) } := by
  obtain ⟨choice, hact⟩ := legal_act h
  simp only [act] at hact
  split at hact
  · rename_i hfree
    cases hact
    exact ⟨hfree, rfl⟩
  · cases hact

theorem legal_unlock {l : Lock} {answer : Unit}
    (h : Step.Legal (world P) ⟨s, .thread t ⟨.unlock l, answer⟩, s'⟩) :
    s.holder l = some t ∧ s' = { s with holder := Function.update s.holder l none } := by
  obtain ⟨choice, hact⟩ := legal_act h
  simp only [act] at hact
  split at hact
  · rename_i hheld
    cases hact
    exact ⟨hheld, rfl⟩
  · cases hact

theorem legal_snapshot {loaded : Loaded}
    (h : Step.Legal (world P) ⟨s, .thread t ⟨.snapshot, loaded⟩, s'⟩) : loaded = s.current ∧ s' = s := by
  obtain ⟨choice, hact⟩ := legal_act h
  cases hact
  exact ⟨rfl, rfl⟩

theorem legal_peerUid {callerUid : Uid}
    (h : Step.Legal (world P) ⟨s, .thread t ⟨.peerUid, .ok callerUid⟩, s'⟩) :
    callerUid = s.uidOf t ∧ s' = s := by
  obtain ⟨choice, hact⟩ := legal_act h
  cases choice <;> cases hact
  exact ⟨rfl, rfl⟩

theorem legal_canonicalize {path : String} {answer : Except IoError String}
    (h : Step.Legal (world P) ⟨s, .thread t ⟨.canonicalize path, answer⟩, s'⟩) :
    answer = s.files.canonicalize path ∧ s' = s := by
  obtain ⟨choice, hact⟩ := legal_act h
  cases hact
  exact ⟨rfl, rfl⟩

theorem legal_resetApprovals {answer : Unit}
    (h : Step.Legal (world P) ⟨s, .thread t ⟨.resetApprovals, answer⟩, s'⟩) :
    s'.approvals = ApprovalState.new := by
  obtain ⟨choice, hact⟩ := legal_act h
  cases hact
  rfl

theorem legal_isRateLimited {scopes : List RuleScope} {ruleIndex : Nat} {limited : Bool}
    (h : Step.Legal (world P) ⟨s, .thread t ⟨.isRateLimited scopes ruleIndex, limited⟩, s'⟩) :
    isRateLimited s.approvals scopes ruleIndex s.now = (limited, s'.approvals) := by
  obtain ⟨choice, hact⟩ := legal_act h
  cases hact
  rfl

theorem legal_checkCache {scopes : List RuleScope} {ruleIndex : Nat} {argv : List String}
    {verdict : CacheVerdict}
    (h : Step.Legal (world P) ⟨s, .thread t ⟨.checkCache scopes ruleIndex argv, verdict⟩, s'⟩) :
    checkCache s.approvals scopes ruleIndex argv s.now = verdict ∧ s' = s := by
  obtain ⟨choice, hact⟩ := legal_act h
  cases hact
  exact ⟨rfl, rfl⟩

theorem legal_recordCacheHit {scopes : List RuleScope} {ruleIndex : Nat} {answer : Unit}
    (h : Step.Legal (world P) ⟨s, .thread t ⟨.recordCacheHit scopes ruleIndex, answer⟩, s'⟩) :
    s'.approvals = recordCacheHit s.approvals scopes ruleIndex s.now := by
  obtain ⟨choice, hact⟩ := legal_act h
  cases hact
  rfl

theorem legal_recordApproval {scopes : List RuleScope} {ruleIndex : Nat} {argv : List String} {answer : Unit}
    (h : Step.Legal (world P) ⟨s, .thread t ⟨.recordApproval scopes ruleIndex argv, answer⟩, s'⟩) :
    s'.approvals = recordApproval s.approvals scopes ruleIndex argv s.now := by
  obtain ⟨choice, hact⟩ := legal_act h
  cases hact
  rfl

theorem legal_lookupAgent {uid : Uid} {found : Option Conn}
    (h : Step.Legal (world P) ⟨s, .thread t ⟨.lookupAgent uid, found⟩, s'⟩) :
    found = s.registry uid ∧ s' = s := by
  obtain ⟨choice, hact⟩ := legal_act h
  cases hact
  exact ⟨rfl, rfl⟩

theorem legal_insertAgent {uid : Uid} {c : Conn} {answer : Unit}
    (h : Step.Legal (world P) ⟨s, .thread t ⟨.insertAgent uid c, answer⟩, s'⟩) :
    s'.registry = Function.update s.registry uid (some c) := by
  obtain ⟨choice, hact⟩ := legal_act h
  cases hact
  rfl

theorem legal_removeAgent {uid : Uid} {answer : Unit}
    (h : Step.Legal (world P) ⟨s, .thread t ⟨.removeAgent uid, answer⟩, s'⟩) :
    s'.registry = Function.update s.registry uid none := by
  obtain ⟨choice, hact⟩ := legal_act h
  cases hact
  rfl

theorem legal_signalDisconnected {c : Conn} {answer : Unit}
    (h : Step.Legal (world P) ⟨s, .thread t ⟨.signalDisconnected c, answer⟩, s'⟩) :
    s'.disconnected = Function.update s.disconnected c true := by
  obtain ⟨choice, hact⟩ := legal_act h
  cases hact
  rfl

theorem legal_waitDisconnected {c : Conn} {answer : Unit}
    (h : Step.Legal (world P) ⟨s, .thread t ⟨.waitDisconnected c, answer⟩, s'⟩) :
    s.disconnected c = true := by
  obtain ⟨choice, hact⟩ := legal_act h
  simp only [act] at hact
  split at hact
  · assumption
  · cases hact

/-- A counter is answered fresh exactly when it was not consumed, and is consumed then. -/
theorem legal_consumeCounter {counter : Nat} {fresh : Bool}
    (h : Step.Legal (world P) ⟨s, .thread t ⟨.consumeCounter counter, fresh⟩, s'⟩) :
    (fresh = true ↔ counter ∉ s.usedCounters) ∧ ∀ m, m ∈ s'.usedCounters ↔ m = counter ∨ m ∈ s.usedCounters := by
  obtain ⟨choice, hact⟩ := legal_act h
  simp only [act] at hact
  split at hact
  · rename_i hmem
    cases hact
    refine ⟨by simp [hmem], fun m => ⟨.inr, ?_⟩⟩
    rintro (rfl | h)
    · exact hmem
    · exact h
  · rename_i hmem
    cases hact
    exact ⟨by simp [hmem], fun m => List.mem_cons⟩

end Operations

end Sudix
