import Sudix.DaemonSteps
import Sudix.ServerSpec

/-! Concurrent calls of `handle_request` over one approval state. The operations of the pipeline
itself are told apart from those of the approver it calls, so that each of them determines how far
its request has come. -/

namespace Sudix

open Concurrent

variable {P : Platform}

/-- The calls: thread `t` decides the request `req t` in the context `ctx t`. -/
def requests (P : Platform) (ctx : Tid → RequestCtx) (approver : Approver) (approvalMutex : Bool)
    (req : Tid → Request) : Pool (sig P) Tid Response :=
  fun t => handleRequest P (ctx t) approver approvalMutex (req t)

theorem requests_meets {ctx : Tid → RequestCtx} {approver : Approver} {approvalMutex : Bool}
    {req : Tid → Request} (t : Tid) :
    (requests P ctx approver approvalMutex req t).Meets
      (RequestStage (ctx t) approver approvalMutex (req t))
      (RequestDone (ctx t) approver approvalMutex (req t)) [] :=
  handleRequest_meets (ctx t) approver approvalMutex (req t)

/-- The operations an approver performs; the pipeline itself shares only the clock reading. -/
def Op.approving : Op → Bool
  | .lock _ | .unlock _ | .writeAll _ _ | .flush _ | .setReadTimeout _ | .recv _ _ | .signalDisconnected _
  | .instantNow | .systemTime | .lookupAgent _ | .waitRegistry | .checkCurrent _ | .consumeCounter _
  | .consult _ _ => true
  | _ => false

theorem LockedStage.approving {c : Conn} {p : Prompt} {own : History (sig P)} {op : Op}
    (h : LockedStage c p own op) : op.approving = true := by
  cases h with
  | read _ hread => cases hread; rfl
  | _ => rfl

theorem PromptStage.approving {c : Conn} {p : Prompt} {own : History (sig P)} {op : Op}
    (h : PromptStage c p own op) : op.approving = true := by
  cases h with
  | locked hlocked => exact hlocked.approving
  | _ => rfl

theorem AgentStage.approving {callerUid : Uid} {req : Request} {own : History (sig P)} {op : Op}
    (h : AgentStage callerUid req own op) : op.approving = true := by
  cases h with
  | await hawait => cases hawait <;> rfl
  | prompt _ hprompt => exact hprompt.approving
  | _ => rfl

theorem Approver.Stage.approving {approver : Approver} {callerUid : Uid} {req : Request}
    {own : History (sig P)} {op : Op} (h : approver.Stage callerUid req own op) : op.approving = true := by
  cases h with
  | consult => rfl
  | totp htotp => cases htotp <;> rfl
  | agent hagent => exact hagent.approving

section Inversion

variable {ctx : RequestCtx} {approver : Approver} {approvalMutex : Bool} {req : Request}
  {own : History (sig P)}

theorem GateStage.approving {callerUid : Uid} {op : Op}
    (h : GateStage approver callerUid req approvalMutex own op) : op.approving = true := by
  cases h with
  | ungated happrove => exact happrove.approving
  | lock => rfl
  | held happrove => exact happrove.approving
  | unlock => rfl

theorem RequestStage.canonicalize_inv {path : String}
    (h : RequestStage ctx approver approvalMutex req own (.canonicalize path)) : own = [] := by
  cases h with
  | canonicalize => rfl
  | approve _ hgate => cases hgate.approving

theorem RequestStage.checkCache_inv {scopes : List RuleScope} {ruleIndex : Nat} {argv : List String}
    (h : RequestStage ctx approver approvalMutex req own (.checkCache scopes ruleIndex argv)) :
    scopes = ctx.bundle.ruleScopes ∧ argv = req.argv ∧ Screened ctx req ruleIndex ∧
      ∃ cwd, own = unlimited ctx req ruleIndex cwd := by
  cases h with
  | checkCache hs => exact ⟨rfl, rfl, hs, _, rfl⟩
  | approve _ hgate => cases hgate.approving

theorem RequestStage.recordCacheHit_inv {scopes : List RuleScope} {ruleIndex : Nat}
    (h : RequestStage ctx approver approvalMutex req own (.recordCacheHit scopes ruleIndex)) :
    scopes = ctx.bundle.ruleScopes ∧ Screened ctx req ruleIndex ∧
      ∃ cwd, own = checked ctx req ruleIndex cwd .hit := by
  cases h with
  | recordCacheHit hs => exact ⟨rfl, hs, _, rfl⟩
  | approve _ hgate => cases hgate.approving

theorem RequestStage.recordApproval_inv {scopes : List RuleScope} {ruleIndex : Nat} {argv : List String}
    (h : RequestStage ctx approver approvalMutex req own (.recordApproval scopes ruleIndex argv)) :
    scopes = ctx.bundle.ruleScopes ∧ argv = req.argv ∧ Screened ctx req ruleIndex ∧
      ∃ cwd own', GateDone approver ctx.callerUid req approvalMutex own' .allowed ∧
        own = checked ctx req ruleIndex cwd .miss ++ own' := by
  cases h with
  | recordApproval hs hgate => exact ⟨rfl, rfl, hs, _, _, hgate, rfl⟩
  | approve _ hgate => cases hgate.approving

theorem RequestStage.spawn_inv {program : String} {args : List String} {dir : String}
    (h : RequestStage ctx approver approvalMutex req own (.spawn program args dir)) :
    program = req.argv.headD "" ∧ args = req.argv.tail ∧
      ∃ outcome, Ready ctx approver approvalMutex req own dir outcome := by
  cases h with
  | spawn hready => exact ⟨rfl, rfl, _, hready⟩
  | approve _ hgate => cases hgate.approving

theorem RequestStage.not_resetApprovals
    (h : RequestStage ctx approver approvalMutex req own .resetApprovals) : False := by
  cases h with
  | approve _ hgate => cases hgate.approving

theorem Ready.argv_ne {dir : String} {outcome : Int32 → Outcome}
    (h : Ready ctx approver approvalMutex req own dir outcome) : req.argv ≠ [] := by
  cases h with
  | cached hs => exact hs.argv
  | fresh hs => exact hs.argv

/-- The directory of an execution is the first thing its request has resolved. -/
theorem Ready.located {dir : String} {outcome : Int32 → Outcome}
    (h : Ready ctx approver approvalMutex req own dir outcome) :
    ∃ rest, own = ⟨.canonicalize req.cwd, .ok dir⟩ :: rest := by
  cases h with
  | cached hs => exact ⟨_, rfl⟩
  | fresh hs hgate => exact ⟨_, rfl⟩

end Inversion

end Sudix
