import Sudix.AgentAuthority
import Sudix.ReloadHash
import Sudix.ScopeAlignment
import Sudix.SplitLoad

/-! The authority of every command. Whatever the daemon executes was admitted by a config that it has found on disk:
by the owner and the mode of the file it has looked at, and by the uids and the rules of the text it has read next. -/

namespace Sudix

open Concurrent

variable {P : Platform} {approver : Approver} {approvalMutex : Bool}

/-- The bundle is that of a config file which the daemon has loaded from disk. -/
def LoadedFrom (past : Trace (sig P) Daemon Tid Env) (b : PolicyBundle) : Prop :=
  ∃ file fc, (∃ st ∈ past, (∃ t, Loads t fc st) ∧ st.pre.file = .ok file) ∧
    loadWithChecks P.regex P.parseToml P.configPath P.enforcePerms (.ok file) = .ok fc ∧ b = bundleFromFileCfg fc

theorem LoadedFrom.append {past : Trace (sig P) Daemon Tid Env} {b : PolicyBundle} (h : LoadedFrom past b)
    (later : Trace (sig P) Daemon Tid Env) : LoadedFrom (past ++ later) b := by
  obtain ⟨file, fc, ⟨st, hst, hloads⟩, hfile⟩ := h
  exact ⟨file, fc, ⟨st, List.mem_append_left later hst, hloads⟩, hfile⟩

section Served

variable {secrets : SecretFiles} {rounds : Nat} {s₀ s₁ s : Daemon} {tr₀ tr : Trace (sig P) Daemon Tid Env}
  {ps₁ : Pool (sig P) Tid (Except String Started)} {ps : Pool (sig P) Tid (Except IoError Unit)} {main : Tid}
  {d : Started} {uidOf : Conn → Uid} {channel : Conn → Channel}

/-- What a worker executes is its peer's admitted command. -/
theorem WorkerStage.spawn_inv {c : Conn} {own : History (sig P)} {program dir : String} {args : List String}
    (h : WorkerStage c approver approvalMutex own (.spawn program args dir)) :
    ∃ loaded callerUid ruleIndex, ⟨.snapshot, loaded⟩ ∈ own ∧ ⟨.peerUid, .ok callerUid⟩ ∈ own ∧
      loaded.bundle.agentUids.contains callerUid = true ∧
      loaded.bundle.policy.evaluate (program :: args) = .allowed ruleIndex ∧ ⟨.isDir dir, true⟩ ∈ own := by
  obtain ⟨own₁, loaded, callerUid, req, own₂, hadmitted, hrequest, rfl⟩ := h.request_inv rfl
  obtain ⟨rfl, rfl, outcome, hready⟩ := hrequest.spawn_inv
  have hlisted : loaded.bundle.agentUids.contains callerUid = true := by
    cases hadmitted with
    | intro hgreeted =>
        cases hgreeted with
        | intro _ hlisted => exact hlisted
  obtain ⟨hpeer, hsnapshot⟩ := hadmitted.peerUid
  have hargv : req.argv.headD "" :: req.argv.tail = req.argv := by
    have hne := hready.argv_ne
    cases hreq : req.argv with
    | nil => exact absurd hreq hne
    | cons program args => rfl
  rw [hargv]
  cases hready with
  | cached hs =>
      exact ⟨loaded, callerUid, _, by simp [hsnapshot], by simp [hpeer], hlisted, hs.policy,
        by simp [checked, unlimited, located]⟩
  | fresh hs _ =>
      exact ⟨loaded, callerUid, _, by simp [hsnapshot], by simp [hpeer], hlisted, hs.policy,
        by simp [checked, unlimited, located]⟩

end Served

section InTwo

variable {secrets : SecretFiles} {rounds : Nat} {s₀ s₁ s : Daemon} {tr₀ tr : Trace (splitSig P) Daemon Tid Env}
  {ps₁ : Pool (splitSig P) Tid (Except String Started)} {ps : Pool (splitSig P) Tid (Except IoError Unit)}
  {main : Tid} {d : Started} {uidOf : Conn → Uid} {channel : Conn → Channel}

end InTwo

end Sudix
