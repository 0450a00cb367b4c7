import Sudix.StreamHolder
import Sudix.Workers

/-! What the histories of a worker's parts consist of: each part performs operations of its own kind
and no others, up to any point of it. -/

namespace Sudix

open Concurrent

variable {P : Platform} {c : Conn} {own own' : History (sig P)} {op : Op} {q q' : Op → Bool}

/-- Every operation of a history is of a kind. -/
def Only (q : Op → Bool) (own : History (sig P)) : Prop := ∀ e ∈ own, q e.op = true

@[simp] theorem only_nil : Only q ([] : History (sig P)) := by simp [Only]

@[simp] theorem only_cons {e : Event (sig P)} : Only q (e :: own) ↔ q e.op = true ∧ Only q own := by
  simp [Only]

@[simp] theorem only_append : Only q (own ++ own') ↔ Only q own ∧ Only q own' := by
  simp only [Only, List.mem_append, or_imp, forall_and]

theorem Only.mono (h : Only q own) (himp : ∀ op, q op = true → q' op = true) : Only q' own :=
  fun e he => himp _ (h e he)

theorem Only.not_mem {e : Event (sig P)} (h : Only q own) (hop : q e.op = false) : e ∉ own := by
  intro he
  rw [h e he] at hop
  cases hop

theorem Op.prompting.approving (h : op.prompting c = true) : op.approving = true := by
  cases op <;> first | rfl | cases h

theorem PromptStage.only {p : Prompt} (h : PromptStage c p own op) :
    op.prompting c = true ∧ Only (Op.prompting c) own := by
  refine ⟨h.prompting, ?_⟩
  cases h with
  | lock | poisoned => simp [Op.prompting]
  | locked hlocked =>
      rw [only_cons]
      exact ⟨by simp [Op.prompting], fun e he => (hlocked.ops.2 e he).prompting⟩
  | unlock hdone =>
      rw [only_cons]
      exact ⟨by simp [Op.prompting], fun e he => (hdone.ops e he).prompting⟩

theorem PromptDone.only {p : Prompt} {approval : Approval} (h : PromptDone c p own approval) :
    Only (Op.prompting c) own := by
  cases h with
  | poisoned => simp [Op.prompting]
  | released hdone =>
      rw [List.cons_append, only_cons, only_append]
      exact ⟨by simp [Op.prompting], fun e he => (hdone.ops e he).prompting, by simp [Op.prompting]⟩

/-- What the registration wait performs. -/
def Op.awaiting : Op → Bool
  | .lookupAgent _ | .instantNow | .waitRegistry => true
  | _ => false

theorem Op.awaiting.approving (h : op.awaiting = true) : op.approving = true := by
  cases op <;> first | rfl | cases h

section Await

variable {callerUid : Uid}

theorem Awaiting.only (h : Awaiting callerUid own) : Only Op.awaiting own := by
  induction h with
  | start => exact only_nil
  | again _ ih => simp [ih, Op.awaiting]

theorem AwaitStage.only (h : AwaitStage callerUid own op) : op.awaiting = true ∧ Only Op.awaiting own := by
  cases h with
  | lookup hawaiting | now hawaiting | wait hawaiting => simp [hawaiting.only, Op.awaiting]

theorem AwaitDone.only {found : Option Conn} (h : AwaitDone callerUid own found) : Only Op.awaiting own := by
  cases h with
  | found hawaiting | expired hawaiting | timedOut hawaiting => simp [hawaiting.only, Op.awaiting]

end Await

section Approver

variable {approver : Approver} {approvalMutex : Bool} {callerUid : Uid} {req : Request} {approval : Approval}

theorem AgentStage.only (h : AgentStage callerUid req own op) : Only Op.approving own := by
  cases h with
  | start => exact only_nil
  | await hawait => exact only_cons.mpr ⟨rfl, hawait.only.2.mono fun _ => Op.awaiting.approving⟩
  | lockGate hdone => exact only_cons.mpr ⟨rfl, hdone.only.mono fun _ => Op.awaiting.approving⟩
  | prompt hdone hprompt =>
      simp only [List.cons_append, only_cons, only_append]
      exact ⟨rfl, ⟨hdone.only.mono fun _ => Op.awaiting.approving, rfl, only_nil⟩,
        hprompt.only.2.mono fun _ => Op.prompting.approving⟩
  | unlockGate hdone hprompt =>
      simp only [List.cons_append, only_cons, only_append]
      exact ⟨rfl, ⟨hdone.only.mono fun _ => Op.awaiting.approving, rfl, only_nil⟩,
        hprompt.only.mono fun _ => Op.prompting.approving⟩

theorem AgentDone.only (h : AgentDone callerUid req own approval) : Only Op.approving own := by
  cases h with
  | noAgent hdone => exact only_cons.mpr ⟨rfl, hdone.only.mono fun _ => Op.awaiting.approving⟩
  | prompted hdone hprompt =>
      exact only_append.mpr ⟨(AgentStage.unlockGate hdone hprompt).only, only_cons.mpr ⟨rfl, only_nil⟩⟩

theorem Approver.Stage.only (h : approver.Stage callerUid req own op) : Only Op.approving own := by
  cases h with
  | consult => exact only_nil
  | totp htotp => cases htotp <;> simp [Op.approving]
  | agent hagent => exact hagent.only

theorem Approver.Done.only (h : approver.Done callerUid req own approval) : Only Op.approving own := by
  cases h with
  | consulted => simp [Op.approving]
  | totp htotp => cases htotp <;> simp [Op.approving]
  | agent hagent => exact hagent.only

theorem GateStage.only (h : GateStage approver callerUid req approvalMutex own op) : Only Op.approving own := by
  cases h with
  | ungated happrove => exact happrove.only
  | lock => exact only_nil
  | held happrove => exact only_cons.mpr ⟨rfl, happrove.only⟩
  | unlock hdone => exact only_cons.mpr ⟨rfl, hdone.only⟩

theorem GateDone.only (h : GateDone approver callerUid req approvalMutex own approval) :
    Only Op.approving own := by
  cases h with
  | ungated hdone => exact hdone.only
  | released hdone => exact only_append.mpr ⟨(GateStage.unlock hdone).only, only_cons.mpr ⟨rfl, only_nil⟩⟩

end Approver

/-- What a request performs before its outcome is decided. -/
def Op.pursuing (op : Op) : Bool :=
  op.approving || match op with
    | .canonicalize _ | .isDir _ | .isRateLimited _ _ | .checkCache _ _ _ | .recordCacheHit _ _
    | .recordApproval _ _ _ | .spawn _ _ _ => true
    | _ => false

theorem Op.approving.pursuing (h : op.approving = true) : op.pursuing = true :=
  Bool.or_eq_true_iff.mpr (.inl h)

section Request

variable {ctx : RequestCtx} {approver : Approver} {approvalMutex : Bool} {req : Request}

theorem checked_only {ruleIndex : Nat} {cwd : String} {verdict : CacheVerdict} :
    Only Op.pursuing (checked ctx req ruleIndex cwd verdict : History (sig P)) := by
  simp [checked, unlimited, located, Op.pursuing]

theorem Ready.only {cwd : String} {outcome : Int32 → Outcome}
    (h : Ready ctx approver approvalMutex req own cwd outcome) : Only Op.pursuing own := by
  cases h with
  | cached _ => exact only_append.mpr ⟨checked_only, only_cons.mpr ⟨rfl, only_nil⟩⟩
  | fresh _ hdone =>
      rw [only_append, only_append]
      exact ⟨⟨checked_only, hdone.only.mono fun _ => Op.approving.pursuing⟩, only_cons.mpr ⟨rfl, only_nil⟩⟩

theorem Decided.only {outcome : Outcome} {resp : Response}
    (h : Decided ctx approver approvalMutex req own outcome resp) : Only Op.pursuing own := by
  cases h with
  | empty _ | reason _ _ | policy _ _ _ => exact only_nil
  | noPath _ | noDir _ | limited _ => simp [located, Op.pursuing]
  | deniedUser _ hdone | approverError _ hdone =>
      exact only_append.mpr ⟨checked_only, hdone.only.mono fun _ => Op.approving.pursuing⟩
  | executed hready | executeError hready =>
      exact only_append.mpr ⟨hready.only, only_cons.mpr ⟨rfl, only_nil⟩⟩

theorem RequestStage.only (h : RequestStage ctx approver approvalMutex req own op) : Only Op.pursuing own := by
  cases h with
  | canonicalize _ => exact only_nil
  | isDir _ | isRateLimited _ | checkCache _ => simp [unlimited, located, Op.pursuing]
  | recordCacheHit _ => exact checked_only
  | approve _ hgate => exact only_append.mpr ⟨checked_only, hgate.only.mono fun _ => Op.approving.pursuing⟩
  | recordApproval _ hdone => exact only_append.mpr ⟨checked_only, hdone.only.mono fun _ => Op.approving.pursuing⟩
  | spawn hready => exact hready.only
  | systemTime hdecided => exact hdecided.only
  | appendAudit hdecided => exact only_append.mpr ⟨hdecided.only, only_cons.mpr ⟨rfl, only_nil⟩⟩

end Request

/-- What a connection performs before its first line is looked at. -/
def Op.opening : Op → Bool
  | .configHash | .readLastHash | .loadConfig | .swapCurrent _ | .resetApprovals | .storeLastHash _
  | .snapshot | .peerUid | .tryClone | .recv _ _ => true
  | .lock l | .unlock l => l = .lastHash
  | _ => false

theorem Reloaded.only {result : Except ConfigError Unit} (h : Reloaded own result) : Only Op.opening own := by
  cases h with
  | same | loaded _ | failed _ => simp [looked, swapped, Op.opening]

theorem ReloadDone.only {result : Except ConfigError Unit} (h : ReloadDone own result) : Only Op.opening own := by
  cases h with
  | unreadable => simp [Op.opening]
  | unlocked hreloaded =>
      exact only_append.mpr ⟨hreloaded.only, by simp [Op.opening]⟩

theorem LineDone.only {chunk : Nat → Nat} {limit : Nat} {result : Except IoError String}
    (h : LineDone c chunk limit own result) : Only Op.opening own := by
  intro e he
  obtain ⟨n, hop⟩ := h.ops e he
  rw [hop]
  rfl

theorem Identified.only {loaded : Loaded} {callerUid : Uid} (h : Identified own loaded callerUid) :
    Only Op.opening own := by
  cases h with
  | intro hreload => simp [hreload.only, Op.opening]

theorem Greeted.only {loaded : Loaded} {callerUid : Uid} {line : String} (h : Greeted c own loaded callerUid line) :
    Only Op.opening own := by
  cases h with
  | intro hid _ hread => simp [hid.only, hread.only, Op.opening]

theorem Admitted.only {loaded : Loaded} {callerUid : Uid} {hello : Hello}
    (h : Admitted c own loaded callerUid hello) : Only Op.opening own := by
  cases h with
  | intro hgreeted => exact hgreeted.only

end Sudix
