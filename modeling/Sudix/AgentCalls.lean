import Sudix.RequestOps

/-! Approvals by agent, the two parties in one pool: calls of `AgentApprover::approve` for any users, and
connections on which agents register, are waited for and are removed. They share the registry, the
approval gate and the streams of the agents. -/

namespace Sudix

open Concurrent

/-- What a thread does: it asks an agent about a request, or serves the registration on its connection. -/
inductive Party where
  | asks (callerUid : Uid) (req : Request)
  | serves (callerUid : Uid)

/-- The prompt a party sends, if it sends one. -/
def Party.prompt : Party → Prompt
  | .asks _ req => promptOf req
  | .serves _ => ⟨[], "", ""⟩

variable {P : Platform} {registerWait rounds : Nat} {role : Tid → Party} {own : History (sig P)} {op : Op}
  {c : Conn} {t : Tid}

def party (P : Platform) (registerWait rounds : Nat) (t : Tid) : Party → Prog P (Option Approval)
  | .asks callerUid req => do
      let approval ← AgentApprover.approve P registerWait rounds callerUid req
      return some approval
  | .serves callerUid => do
      let _ ← serveAgent P t callerUid
      return none

def parties (P : Platform) (registerWait rounds : Nat) (role : Tid → Party) : Pool (sig P) Tid (Option Approval) :=
  fun t => party P registerWait rounds t (role t)

inductive PartyStage (t : Tid) : Party → History (sig P) → Op → Prop
  | asks {callerUid req own op} : AgentStage callerUid req own op → PartyStage t (.asks callerUid req) own op
  | serves {callerUid own op} : RegisterStage t callerUid own op → PartyStage t (.serves callerUid) own op

inductive PartyDone (t : Tid) : Party → History (sig P) → Option Approval → Prop
  | asks {callerUid req own approval} : AgentDone callerUid req own approval →
      PartyDone t (.asks callerUid req) own (some approval)
  | serves {callerUid own result} : RegisterDone t callerUid own result → PartyDone t (.serves callerUid) own none

theorem parties_meets (t : Tid) :
    (parties P registerWait rounds role t).Meets (PartyStage t (role t)) (PartyDone t (role t)) [] := by
  unfold parties
  cases role t with
  | asks callerUid req =>
      exact (AgentApprover.approve_meets registerWait rounds callerUid req).bind (fun _ _ => .asks)
        fun _ _ => .asks
  | serves callerUid =>
      exact (serveAgent_meets t callerUid).bind (fun _ _ => .serves) fun _ _ => .serves

theorem Op.prompting.unique {c' : Conn} (h : op.prompting c = true) (h' : op.prompting c' = true) : c = c' := by
  cases op <;> simp only [Op.prompting, decide_eq_true_eq] at h h'
  case lock l | unlock l =>
      rw [h] at h'
      exact Lock.stream.inj h'
  case writeAll | flush | setReadTimeout | recv | signalDisconnected => exact h.symm.trans h'
  all_goals cases h

theorem Op.awaiting.not_prompting (h : op.awaiting = true) : op.stream = none ∧ op.prompting c = false := by
  cases op <;> first | cases h; done | exact ⟨rfl, rfl⟩

theorem RegisterStage.not_prompting {callerUid : Uid} (h : RegisterStage t callerUid own op) :
    op.prompting c = false ∧ ∀ e ∈ own, e.op.prompting c = false := by
  cases h <;> simp [Op.prompting]

/-- A call has worked on no stream until it has the gate. -/
theorem AwaitDone.not_prompting {callerUid : Uid} {found : Option Conn} {now : Instant} {poisoned : Bool}
    (h : AwaitDone callerUid own found) :
    ∀ e ∈ (⟨.instantNow, now⟩ :: own ++ [⟨.lock .approvalGate, poisoned⟩] : History (sig P)),
      e.op.stream = none ∧ e.op.prompting c = false := by
  intro e he
  simp only [List.cons_append, List.mem_cons, List.mem_append, List.not_mem_nil, or_false] at he
  rcases he with rfl | he | rfl
  · exact ⟨rfl, rfl⟩
  · exact Op.awaiting.not_prompting (h.only e he)
  · simp [Op.stream, Op.prompting]

theorem AgentStage.prompt_inv {callerUid : Uid} {req : Request} (h : AgentStage callerUid req own op)
    (hop : op.prompting c = true) :
    ∃ before own', own = before ++ own' ∧ (∀ e ∈ before, e.op.stream = none ∧ e.op.prompting c = false) ∧
      ⟨.lookupAgent callerUid, some c⟩ ∈ before ∧ PromptStage c (promptOf req) own' op := by
  cases h with
  | start => cases hop
  | await hawait =>
      rw [(Op.awaiting.not_prompting hawait.only.1).2] at hop
      cases hop
  | lockGate _ => simp [Op.prompting] at hop
  | unlockGate _ _ => simp [Op.prompting] at hop
  | @prompt now awaited c' poisoned own' _ hdone hprompt =>
      obtain rfl : c' = c := Op.prompting.unique hprompt.prompting hop
      exact ⟨_, own', rfl, hdone.not_prompting, by simp [hdone.mem_lookup], hprompt⟩

theorem Holding.prompting (h : Holding c own) : ∃ e ∈ own, e.op.prompting c = true := by
  obtain ⟨⟨e, he, hop⟩, -⟩ := h
  exact ⟨e, he, by simp [hop, Op.prompting]⟩

/-- A call that holds a stream is in the midst of its prompt. -/
theorem AgentStage.held_inv {callerUid : Uid} {req : Request} (h : AgentStage callerUid req own op)
    (hholding : Holding c own) : op.prompting c = true := by
  obtain ⟨e, he, hprompting⟩ := hholding.prompting
  cases h with
  | start => cases he
  | await hawait =>
      rcases List.mem_cons.mp he with rfl | he
      · cases hprompting
      · rw [(Op.awaiting.not_prompting (hawait.only.2 e he)).2] at hprompting
        cases hprompting
  | lockGate hdone =>
      rcases List.mem_cons.mp he with rfl | he
      · cases hprompting
      · rw [(Op.awaiting.not_prompting (hdone.only e he)).2] at hprompting
        cases hprompting
  | prompt hdone hprompt =>
      rcases List.mem_append.mp he with he | he
      · rw [(hdone.not_prompting e he).2] at hprompting
        cases hprompting
      · obtain rfl := Op.prompting.unique (hprompt.only.2 e he) hprompting
        exact hprompt.prompting
  | @unlockGate _ _ c' _ own' _ hdone hprompt =>
      rcases List.mem_append.mp he with he | he
      · rw [(hdone.not_prompting e he).2] at hprompting
        cases hprompting
      · -- a finished prompt has released its stream
        obtain rfl : c' = c := Op.prompting.unique (hprompt.only e he) hprompting
        have hunlock : (⟨.unlock (.stream c'), ()⟩ : Event (sig P)) ∈ own' := by
          cases hprompt <;> simp
        exact absurd rfl (hholding.2 _ (List.mem_append_right _ hunlock))

/-- A party works on an agent's stream by one prompt. -/
theorem party_promptsOn (c : Conn) (t : Tid) (p : Party) : PromptsOn (P := P) c p.prompt (PartyStage t p) where
  prompt own op hstage hop := by
    cases hstage with
    | asks hagent =>
        obtain ⟨before, own', hown, hbefore, -, hprompt⟩ := hagent.prompt_inv hop
        exact ⟨before, own', hown, hbefore, hprompt⟩
    | serves hregister =>
        rw [(RegisterStage.not_prompting hregister).1] at hop
        cases hop
  held own op hstage hholding := by
    cases hstage with
    | asks hagent => exact hagent.held_inv hholding
    | serves hregister =>
        obtain ⟨⟨e, he, hop⟩, -⟩ := hholding
        have hquiet := (RegisterStage.not_prompting (c := c) hregister).2 e he
        rw [hop] at hquiet
        simp [Op.prompting] at hquiet

theorem PartyStage.insertAgent_inv {p : Party} {u : Uid} (h : PartyStage t p own (.insertAgent u c)) :
    c = t ∧ own = [⟨.tryClone, .ok ()⟩] := by
  cases h with
  | asks hagent =>
      cases hagent with
      | await hawait => cases hawait
      | prompt _ hprompt => cases hprompt.prompting
  | serves hregister =>
      cases hregister
      exact ⟨rfl, rfl⟩

end Sudix
