import Sudix.Pipeline

/-! The pool of workers, one for each connection. An operation tells which part of a worker performs
it: the operations of a request are reached only past an admitted command hello, those of a
registration only past an admitted registration hello. -/

namespace Sudix

open Concurrent

variable {P : Platform} {approver : Approver} {approvalMutex : Bool} {c : Conn} {own : History (sig P)}

/-- The daemon's threads: the worker of connection `c` is thread `c`. -/
def workers (P : Platform) (approver : Approver) (approvalMutex : Bool) :
    Pool (sig P) Tid (Except IoError Unit) :=
  fun c => worker P approver approvalMutex c

theorem workers_meets (c : Conn) :
    (workers P approver approvalMutex c).Meets (WorkerStage c approver approvalMutex)
      (WorkerDone c approver approvalMutex) [] :=
  worker_meets c approver approvalMutex

/-- The operations of a request that no other part of a worker performs. -/
def Op.deciding : Op → Bool
  | .canonicalize _ | .isDir _ | .isRateLimited _ _ | .checkCache _ _ _ | .recordCacheHit _ _
  | .recordApproval _ _ _ | .spawn _ _ _ | .appendAudit _ | .consult _ _ | .lookupAgent _
  | .waitRegistry | .setReadTimeout _ | .signalDisconnected _ => true
  | _ => false

/-- The operations a request performs. -/
def Op.requesting (op : Op) : Bool :=
  op.approving || match op with
    | .canonicalize _ | .isDir _ | .isRateLimited _ _ | .checkCache _ _ _ | .recordCacheHit _ _
    | .recordApproval _ _ _ | .spawn _ _ _ | .appendAudit _ => true
    | _ => false

theorem RequestStage.requesting {ctx : RequestCtx} {req : Request} {op : Op}
    (h : RequestStage ctx approver approvalMutex req own op) : op.requesting = true := by
  cases h with
  | approve _ hgate => simp [Op.requesting, hgate.approving]
  | _ => rfl

theorem ReloadStage.not_deciding {op : Op} (h : ReloadStage own op) : op.deciding = false := by
  cases h <;> rfl

/-- A request's operation follows the admission of its command. -/
theorem ConnectionStage.request_inv {op : Op} (h : ConnectionStage c approver approvalMutex own op)
    (hop : op.deciding = true) :
    ∃ own₁ loaded callerUid req own₂, Admitted c own₁ loaded callerUid (.command req) ∧
      RequestStage ⟨loaded.bundle, callerUid⟩ approver approvalMutex req own₂ op ∧ own = own₁ ++ own₂ := by
  cases h with
  | reload hreload =>
      rw [hreload.not_deciding] at hop
      cases hop
  | read _ _ hread =>
      cases hread
      cases hop
  | request hadmitted hrequest => exact ⟨_, _, _, _, _, hadmitted, hrequest, rfl⟩
  | register _ hregister => cases hregister <;> cases hop
  | respond _ hwrite => cases hwrite <;> cases hop
  | _ => cases hop

theorem WorkerStage.request_inv {op : Op} (h : WorkerStage c approver approvalMutex own op)
    (hop : op.deciding = true) :
    ∃ own₁ loaded callerUid req own₂, Admitted c own₁ loaded callerUid (.command req) ∧
      RequestStage ⟨loaded.bundle, callerUid⟩ approver approvalMutex req own₂ op ∧
      own = ⟨.acquireSlot, ()⟩ :: own₁ ++ own₂ := by
  cases h with
  | acquire => cases hop
  | connection hconnection =>
      obtain ⟨own₁, loaded, callerUid, req, own₂, hadmitted, hrequest, rfl⟩ := hconnection.request_inv hop
      exact ⟨own₁, loaded, callerUid, req, own₂, hadmitted, hrequest, rfl⟩
  | release _ => cases hop

/-- A registration's operation follows the admission of its hello. -/
theorem WorkerStage.register_inv {op : Op} (h : WorkerStage c approver approvalMutex own op)
    (hop : op.writesRegistry = true) :
    ∃ own₁ loaded callerUid own₂, Admitted c own₁ loaded callerUid .registerAgent ∧
      RegisterStage c callerUid own₂ op ∧ own = ⟨.acquireSlot, ()⟩ :: own₁ ++ own₂ := by
  cases h with
  | acquire => cases hop
  | connection hconnection =>
      cases hconnection with
      | reload hreload => cases hreload <;> cases hop
      | read _ _ hread =>
          cases hread
          cases hop
      | request _ hrequest =>
          have hrequesting := hrequest.requesting
          cases op <;> first | cases hop; done | cases hrequesting
      | register hadmitted hregister => exact ⟨_, _, _, _, hadmitted, hregister, rfl⟩
      | respond _ hwrite => cases hwrite <;> cases hop
      | _ => cases hop
  | release _ => cases hop

theorem WorkerStage.insertAgent_inv {uid : Uid} {c' : Conn}
    (h : WorkerStage c approver approvalMutex own (.insertAgent uid c')) :
    c' = c ∧ ∃ own₁ loaded, Admitted c own₁ loaded uid .registerAgent ∧
      own = ⟨.acquireSlot, ()⟩ :: own₁ ++ [⟨.tryClone, .ok ()⟩] := by
  obtain ⟨own₁, loaded, callerUid, own₂, hadmitted, hregister, rfl⟩ := h.register_inv rfl
  cases hregister
  exact ⟨rfl, own₁, loaded, hadmitted, rfl⟩

theorem WorkerStage.removeAgent_inv {uid : Uid}
    (h : WorkerStage c approver approvalMutex own (.removeAgent uid)) :
    ∃ own₁ loaded, Admitted c own₁ loaded uid .registerAgent ∧
      own = ⟨.acquireSlot, ()⟩ :: own₁ ++
        [⟨.tryClone, .ok ()⟩, ⟨.insertAgent uid c, ()⟩, ⟨.waitDisconnected c, ()⟩] := by
  obtain ⟨own₁, loaded, callerUid, own₂, hadmitted, hregister, rfl⟩ := h.register_inv rfl
  cases hregister
  exact ⟨own₁, loaded, hadmitted, rfl⟩

/-- The uid a connection is admitted with is the one its peer credentials gave. -/
theorem Admitted.peerUid {loaded : Loaded} {callerUid : Uid} {hello : Hello}
    (h : Admitted c own loaded callerUid hello) :
    ⟨.peerUid, .ok callerUid⟩ ∈ own ∧ ⟨.snapshot, loaded⟩ ∈ own := by
  cases h with
  | intro hgreeted =>
      cases hgreeted with
      | intro hid =>
          cases hid
          simp

def registerLine : String := "\x7b\"kind\":\"register_agent\"\x7d"

def idRequest : Request := ⟨["id"], "/", "", none⟩

def idLine : String := "\x7b\"kind\":\"command\",\"argv\":[\"id\"],\"cwd\":\"/\",\"reason\":\"\"\x7d"

def helloTexts : List (Hello × String) := [(.registerAgent, registerLine), (.command idRequest, idLine)]

/-- A stream on which a line has arrived. -/
def arrived (line : String) : Channel := ⟨[], (utf8 (line ++ "\n")).map fun b => (b, none), .client⟩

end Sudix
