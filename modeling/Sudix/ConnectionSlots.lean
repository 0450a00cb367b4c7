import Sudix.AuditTrail
import Sudix.ConcurrentPermits

/-! The slots of the connections. Every worker takes a slot before it looks at its connection and gives it back
however the connection ends, so no slot is lost and no more connections are served at once than there are slots. -/

namespace Sudix

open Concurrent

variable {P : Platform} {approver : Approver} {approvalMutex : Bool} {c : Conn}

def Op.slotEffect : Op → PermitEffect
  | .acquireSlot => .take
  | .releaseSlot => .give
  | _ => .pass

theorem slotEffect_take {op : Op} (h : op.slotEffect = .take) : op = .acquireSlot := by
  cases op <;> first | rfl | cases h

theorem slotEffect_give {op : Op} (h : op.slotEffect = .give) : op = .releaseSlot := by
  cases op <;> first | rfl | cases h

theorem act_slots {s s' : Daemon} {t : Tid} {op : Op} {choice : Choice op} {answer : Answer P op}
    (h : act P s t op choice = some (answer, s')) (hop : op.slotEffect = .pass) : s'.slots = s.slots := by
  cases op
  case acquireSlot | releaseSlot => cases hop
  all_goals
    simp only [act] at h
    repeat' split at h
    all_goals first
      | cases h
        done
      | cases h
        rfl

theorem slots_counted : PermitsCounted Op.slotEffect (world P) Daemon.slots maxConcurrent where
  take {s t op choice answer s'} hop hact := by
    obtain rfl := slotEffect_take hop
    have hstep : act P s t .acquireSlot choice = some (answer, s') := hact
    simp only [act] at hstep
    split at hstep
    · rename_i hlt
      cases hstep
      exact ⟨hlt, rfl⟩
    · cases hstep
  give {s t op choice answer s'} hop hact := by
    obtain rfl := slotEffect_give hop
    cases hact
    rfl
  pass hop hact := act_slots hact hop
  env {s event s'} hstep := by
    rcases env_changes hstep with ⟨_, rfl⟩ | ⟨_, rfl⟩ | ⟨_, _, rfl⟩ | ⟨_, rfl⟩ | ⟨_, _, rfl⟩
    all_goals rfl

theorem ConnectionStage.slotEffect {own : History (sig P)} {op : Op}
    (h : ConnectionStage c approver approvalMutex own op) : op.slotEffect = .pass := by
  cases h with
  | reload hreload => cases hreload <;> rfl
  | read _ _ hread =>
      cases hread
      rfl
  | request _ hrequest =>
      have hrequesting := hrequest.requesting
      cases op <;> first | rfl | cases hrequesting
  | register _ hregister => cases hregister <;> rfl
  | respond _ hwrite => cases hwrite <;> rfl
  | _ => rfl

theorem worker_permitted (c : Conn) :
    (workers P approver approvalMutex c).Permitted Op.slotEffect false false := by
  refine (Program.permitted_take rfl).mpr ⟨rfl, fun _ => ?_⟩
  refine (Program.permitted_of_meets (handleConnection_meets c approver approvalMutex)
    fun _ _ h => h.slotEffect).bind fun result => ?_
  exact (Program.permitted_give rfl).mpr ⟨rfl, fun _ => rfl⟩

/-- The worker has its slot and has not come to its end. -/
def Serving (ps : Pool (sig P) Tid (Except IoError Unit)) (c : Conn) : Prop :=
  ∃ op next, ps c = .call op next ∧ op ≠ .acquireSlot

theorem serving_iff {ps : Pool (sig P) Tid (Except IoError Unit)} :
    Serving ps c ↔ (ps c).MidCourse Op.slotEffect := by
  refine exists_congr fun op => exists_congr fun next => and_congr_right fun _ => not_congr ⟨?_, slotEffect_take⟩
  intro hop
  rw [hop]
  rfl

variable {s₀ s : Daemon} {tr : Trace (sig P) Daemon Tid Env} {ps : Pool (sig P) Tid (Except IoError Unit)}

/-- **Slots are neither lost nor overdrawn.** In every state a run reaches the slots in use are those of the
connections that are being served, at most `maxConcurrent` of them, and a connection is kept waiting exactly when
that many others are being served. -/
theorem slots_exact (hrun : Run (world P) s₀ (workers P approver approvalMutex) tr s ps) (hstart : s₀.slots = 0) :
    ∃ live : Finset Conn, (∀ c, c ∈ live ↔ Serving ps c) ∧ live.card = s.slots ∧ live.card ≤ maxConcurrent ∧
      ∀ c, act P s c .acquireSlot () = none ↔ live.card = maxConcurrent := by
  obtain ⟨live, h⟩ := hrun.permitsOf slots_counted worker_permitted hstart
  have hle : live.card ≤ maxConcurrent := by
    rw [h.card]
    exact h.le
  refine ⟨live, fun c => (h.midCourse_iff c).trans serving_iff.symm, h.card, hle, fun c => ?_⟩
  simp only [act, ← h.card]
  by_cases hlt : live.card < maxConcurrent
  · simp [if_pos hlt, Nat.ne_of_lt hlt]
  · rw [if_neg hlt]
    exact ⟨fun _ => Nat.le_antisymm hle (Nat.le_of_not_lt hlt), fun _ => rfl⟩

/-- The connection whose command was executed has its slot until its worker has answered. -/
theorem executedRun_slots :
    ∃ c, executedRun = some c ∧ ∃ live : Finset Conn, (∀ n, n ∈ live ↔ Serving c.pool n) ∧
      live.card = c.state.slots ∧ c.state.slots = 1 := by
  obtain ⟨c, hc, hrun, -⟩ := executedRun_steps
  obtain ⟨live, hlive, hcard, -⟩ := slots_exact hrun rfl
  refine ⟨c, hc, live, hlive, hcard, ?_⟩
  obtain rfl := Option.some.inj hc
  rfl

end Sudix
