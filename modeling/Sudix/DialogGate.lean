import Sudix.AuditTrail
import Sudix.LockHolder

/-! The approval gate and the peers. A worker takes the gate once, writes its prompt while it holds the
gate, and writes to no other peer than the agent it prompts and its own client. A connection that is
registered is never answered, and one that is answered is never prompted. -/

namespace Sudix

open Concurrent

variable {P : Platform} {registerWait rounds : Nat} {approvalMutex : Bool} {s₀ s : Daemon}
  {ps : Pool (sig P) Tid (Except IoError Unit)} {tr : Trace (sig P) Daemon Tid Env} {c t : Conn}
  {own : History (sig P)} {op : Op}

/-- The operations the gate is about: taking it, releasing it and writing to a peer. -/
def Op.gating : Op → Bool
  | .lock l | .unlock l => l = .approvalGate
  | .writeAll _ _ => true
  | _ => false

/-- What a worker performs before it calls the agent approver, and while that waits for an agent. -/
def Op.outside : Op → Bool
  | .insertAgent _ _ => false
  | op => !op.gating

theorem Only.untouched (h : Only Op.outside own) : Untouched .approvalGate own := by
  intro e he
  refine ⟨fun hop => ?_, fun hop => ?_⟩ <;>
  · have hout := h e he
    rw [hop] at hout
    cases hout

theorem Op.opening.outside (h : op.opening = true) : op.outside = true := by
  cases op
  case lock l => cases l <;> first | rfl | cases h
  case unlock l => cases l <;> first | rfl | cases h
  all_goals first | rfl | cases h

theorem Op.awaiting.outside (h : op.awaiting = true) : op.outside = true := by
  cases op <;> first | rfl | cases h

theorem RequestStage.gating_inv {ctx : RequestCtx} {req : Request}
    (h : RequestStage ctx (.agent registerWait rounds) approvalMutex req own op) (hop : op.gating = true) :
    ∃ before own', own = before ++ own' ∧ Only Op.outside before ∧ AgentStage ctx.callerUid req own' op := by
  have hchecked : ∀ ruleIndex cwd verdict,
      Only Op.outside (checked ctx req ruleIndex cwd verdict : History (sig P)) := by
    simp [checked, unlimited, located, Op.outside, Op.gating]
  cases h with
  | @approve ruleIndex cwd _ _ _ hgate =>
      cases hgate with
      | ungated happrove =>
          cases happrove with
          | agent hagent => exact ⟨_, _, rfl, hchecked _ _ _, hagent⟩
      | @held poisoned own' _ happrove =>
          cases happrove with
          | agent hagent =>
              refine ⟨checked ctx req ruleIndex cwd .miss ++ [⟨.lock .approvalMutex, poisoned⟩], own', ?_, ?_, hagent⟩
              · rw [List.append_assoc, List.singleton_append]
              · exact only_append.mpr ⟨hchecked _ _ _, by simp [Op.outside, Op.gating]⟩
      | lock | unlock => cases hop
  | _ => cases hop

/-- What a worker does to the gate and to its peers: it writes the response, or it prompts an agent. -/
theorem WorkerStage.gating_inv (h : WorkerStage c (.agent registerWait rounds) approvalMutex own op)
    (hop : op.gating = true) :
    (∃ own₁ resp line, Answered c (.agent registerWait rounds) approvalMutex own₁ resp ∧
      resp.toLine P.json = .ok line ∧ op = .writeAll c (utf8 line) ∧ own = ⟨.acquireSlot, ()⟩ :: own₁) ∨
    ∃ before own' callerUid req, own = before ++ own' ∧ Only Op.outside before ∧
      AgentStage callerUid req own' op := by
  cases h with
  | connection hconnection =>
      cases hconnection with
      | reload hreload => cases hreload <;> cases hop
      | read _ _ hread =>
          cases hread
          cases hop
      | @request own₁ _ _ _ _ _ hadmitted hrequest =>
          obtain ⟨before, own', rfl, hbefore, hagent⟩ := hrequest.gating_inv hop
          refine .inr ⟨⟨.acquireSlot, ()⟩ :: own₁ ++ before, own', _, _, by simp, ?_, hagent⟩
          rw [List.cons_append, only_cons, only_append]
          exact ⟨rfl, hadmitted.only.mono fun _ => Op.opening.outside, hbefore⟩
      | register _ hregister => cases hregister <;> cases hop
      | respond hanswered hwrite =>
          cases hwrite with
          | write hline => exact .inl ⟨_, _, _, hanswered, hline, rfl, by rw [List.append_nil]⟩
          | flush => cases hop
      | _ => cases hop
  | _ => cases hop

theorem AgentStage.lockGate_inv {callerUid : Uid} {req : Request}
    (h : AgentStage callerUid req own (.lock .approvalGate)) : Only Op.outside own := by
  cases h with
  | lockGate hdone => exact only_cons.mpr ⟨rfl, hdone.only.mono fun _ => Op.awaiting.outside⟩
  | await hawait => cases hawait.only.1
  | prompt _ hprompt => exact absurd hprompt.only.1 (by simp [Op.prompting])

theorem AgentStage.unlockGate_inv {callerUid : Uid} {req : Request}
    (h : AgentStage callerUid req own (.unlock .approvalGate)) : Holds .approvalGate own := by
  cases h with
  | @unlockGate now own₁ c poisoned own' approval hdone hprompt =>
      refine ⟨⟨⟨.lock .approvalGate, poisoned⟩, by simp, rfl⟩, fun e he hop => ?_⟩
      simp only [List.cons_append, List.mem_cons, List.mem_append, List.not_mem_nil, or_false] at he
      rcases he with rfl | (he | rfl) | he
      · cases hop
      · have hawaiting := hdone.only e he
        rw [hop] at hawaiting
        cases hawaiting
      · cases hop
      · have hprompting := hprompt.only e he
        rw [hop] at hprompting
        exact absurd hprompting (by simp [Op.prompting])
  | await hawait => cases hawait.only.1
  | prompt _ hprompt => exact absurd hprompt.only.1 (by simp [Op.prompting])

/-- A prompt is written under the gate and the stream's mutex, and nothing has been written before. -/
theorem AgentStage.writeAll_inv {callerUid : Uid} {req : Request} {bytes : List UInt8}
    (h : AgentStage callerUid req own (.writeAll c bytes)) :
    ∃ own₁ poisoned, own = own₁ ++ [⟨.lock .approvalGate, poisoned⟩, ⟨.lock (.stream c), false⟩] ∧
      Only Op.outside own₁ ∧ ⟨.lookupAgent callerUid, some c⟩ ∈ own₁ := by
  cases h with
  | await hawait => cases hawait
  | @prompt now own₁ _ poisoned _ _ hdone hprompt =>
      cases hprompt with
      | locked hlocked =>
          cases hlocked with
          | write hline =>
              refine ⟨⟨.instantNow, now⟩ :: own₁, poisoned, by simp, ?_, List.mem_cons_of_mem _ hdone.mem_lookup⟩
              exact only_cons.mpr ⟨rfl, hdone.only.mono fun _ => Op.awaiting.outside⟩
          | read hline hread => cases hread

/-- A prompt is written while the gate is held, and it is the first thing the request writes. -/
theorem AgentStage.writes_under_gate {callerUid : Uid} {req : Request} {bytes : List UInt8}
    {before : History (sig P)} (houtside : Only Op.outside before)
    (h : AgentStage callerUid req own (.writeAll c bytes)) :
    Holds .approvalGate (before ++ own) ∧
      ∀ c bytes written, (⟨.writeAll c bytes, written⟩ : Event (sig P)) ∉ before ++ own := by
  obtain ⟨own₁, poisoned, rfl, hout, -⟩ := h.writeAll_inv
  constructor
  · refine ⟨⟨⟨.lock .approvalGate, poisoned⟩, by simp, rfl⟩, fun e he => ?_⟩
    simp only [List.mem_append, List.mem_cons, List.not_mem_nil, or_false] at he
    rcases he with h | h | rfl | rfl
    · exact (houtside.untouched e h).2
    · exact (hout.untouched e h).2
    · exact nofun
    · exact nofun
  · intro c bytes written hmem
    simp only [List.mem_append, List.mem_cons, List.not_mem_nil, or_false] at hmem
    rcases hmem with h | h | h | h
    · exact houtside.not_mem rfl h
    · exact hout.not_mem rfl h
    · cases h
    · cases h

/-- The gate is taken once, and released only while it is held. -/
theorem worker_lockedOnce (c : Conn) :
    LockedOnce .approvalGate (WorkerStage (P := P) c (.agent registerWait rounds) approvalMutex) where
  lock own hstage := by
    rcases hstage.gating_inv rfl with ⟨_, _, _, -, -, hop, -⟩ | ⟨before, own', _, _, rfl, hbefore, hagent⟩
    · cases hop
    · exact (only_append.mpr ⟨hbefore, hagent.lockGate_inv⟩).untouched
  unlock own hstage := by
    rcases hstage.gating_inv rfl with ⟨_, _, _, -, -, hop, -⟩ | ⟨before, own', _, _, rfl, hbefore, hagent⟩
    · cases hop
    · obtain ⟨⟨e, he, hlock⟩, hnone⟩ := hagent.unlockGate_inv
      refine ⟨⟨e, List.mem_append_right _ he, hlock⟩, fun e' he' => ?_⟩
      rcases List.mem_append.mp he' with he' | he'
      · exact (hbefore.untouched e' he').2
      · exact hnone e' he'

/-- What makes a connection one that is prompted, or one that is answered. -/
def speaks (c : Conn) (event : Event (sig P)) : Bool :=
  match event.op with
  | .insertAgent _ _ => true
  | .writeAll c' _ => c' == c
  | _ => false

theorem Only.silent {q : Op → Bool} (h : Only q own) (hinsert : ∀ u c, q (.insertAgent u c) = false)
    (hwrite : ∀ c bytes, q (.writeAll c bytes) = false) : own.countP (speaks c) = 0 := by
  rw [List.countP_eq_zero]
  rintro ⟨op, answer⟩ he
  have hop := h _ he
  cases op with
  | insertAgent u c' =>
      rw [hinsert] at hop
      cases hop
  | writeAll c' bytes =>
      rw [hwrite] at hop
      cases hop
  | _ => exact Bool.false_ne_true

/-- The connection a decided request has prompted is one the registry gave it. -/
theorem GateDone.writeAll_lookup {approver : Approver} {callerUid : Uid} {req : Request} {approval : Approval}
    {bytes : List UInt8} {written : Except IoError Unit}
    (h : GateDone approver callerUid req approvalMutex own approval) (hmem : ⟨.writeAll c bytes, written⟩ ∈ own) :
    ∃ u, ⟨.lookupAgent u, some c⟩ ∈ own := by
  have hdone : ∀ {own' : History (sig P)}, approver.Done callerUid req own' approval →
      ⟨.writeAll c bytes, written⟩ ∈ own' → ∃ u, ⟨.lookupAgent u, some c⟩ ∈ own' := by
    intro own' happrove hmem
    cases happrove with
    | consulted => simp at hmem
    | totp htotp => cases htotp <;> simp at hmem
    | agent hagent =>
        cases hagent with
        | noAgent hawait =>
            rcases List.mem_cons.mp hmem with hmem | hmem
            · cases hmem
            · exact absurd hmem (hawait.only.not_mem rfl)
        | prompted hawait hprompt =>
            simp only [List.cons_append, List.mem_cons, List.mem_append, List.not_mem_nil, or_false] at hmem
            rcases hmem with h | ((h | h) | h) | h
            · cases h
            · exact absurd h (hawait.only.not_mem rfl)
            · cases h
            · obtain rfl := of_decide_eq_true (hprompt.only _ h)
              exact ⟨callerUid, by simp [hawait.mem_lookup]⟩
            · cases h
  cases h with
  | ungated happrove => exact hdone happrove hmem
  | released happrove =>
      simp only [List.cons_append, List.mem_cons, List.mem_append, List.not_mem_nil, or_false] at hmem
      rcases hmem with h | h | h
      · cases h
      · obtain ⟨u, hlookup⟩ := hdone happrove h
        exact ⟨u, by simp [hlookup]⟩
      · cases h

theorem Decided.writeAll_lookup {approver : Approver} {ctx : RequestCtx} {req : Request} {outcome : Outcome}
    {resp : Response} {bytes : List UInt8} {written : Except IoError Unit}
    (h : Decided ctx approver approvalMutex req own outcome resp) (hmem : ⟨.writeAll c bytes, written⟩ ∈ own) :
    ∃ u, ⟨.lookupAgent u, some c⟩ ∈ own := by
  have hchecked : ∀ ruleIndex cwd verdict,
      (⟨.writeAll c bytes, written⟩ : Event (sig P)) ∉ checked ctx req ruleIndex cwd verdict := by
    simp [checked, unlimited, located]
  have hready : ∀ {own' : History (sig P)} {cwd kind}, Ready ctx approver approvalMutex req own' cwd kind →
      ⟨.writeAll c bytes, written⟩ ∈ own' → ∃ u, ⟨.lookupAgent u, some c⟩ ∈ own' := by
    intro own' cwd kind hready hmem
    cases hready with
    | cached _ => exact absurd hmem (by simp [hchecked])
    | fresh _ hgate =>
        simp only [List.mem_append, hchecked, List.mem_singleton, false_or] at hmem
        rcases hmem with h | h
        · obtain ⟨u, hlookup⟩ := hgate.writeAll_lookup h
          exact ⟨u, by simp [hlookup]⟩
        · cases h
  cases h with
  | deniedUser _ hgate | approverError _ hgate =>
      obtain ⟨u, hlookup⟩ := hgate.writeAll_lookup ((List.mem_append.mp hmem).resolve_left (hchecked _ _ _))
      exact ⟨u, List.mem_append_right _ hlookup⟩
  | executed h | executeError h =>
      simp only [List.mem_append, List.mem_singleton] at hmem
      rcases hmem with hmem | hmem
      · obtain ⟨u, hlookup⟩ := hready h hmem
        exact ⟨u, List.mem_append_left _ hlookup⟩
      · cases hmem
  | _ => exact absurd hmem (by simp [located])

section Run

variable (hrun : Run (world P) s₀ (workers P (.agent registerWait rounds) approvalMutex) tr s ps)

include hrun

/-- A worker that registers or writes to `c` has done neither before. -/
theorem speaks_first (hempty : s₀.registry = fun _ => none) (c : Conn) :
    Every (fun before (st : Step (sig P) Daemon Tid Env) => ∀ t event, st.label = .thread t event →
      speaks c event = true → (history t before).countP (speaks c) = 0) tr := by
  rintro before ⟨pre, label, post⟩ after rfl t ⟨op, answer⟩ hlabel hspeaks
  obtain rfl : label = _ := hlabel
  have hstage := hrun.every_pre workers_meets before _ after rfl t _ rfl
  obtain ⟨⟨ps', hbefore⟩, -⟩ := hrun.before
  cases op with
  | insertAgent u c' =>
      obtain ⟨-, own₁, loaded, hadmitted, hown⟩ := hstage.insertAgent_inv
      rw [hown]
      exact (only_append.mpr ⟨only_cons.mpr ⟨rfl, hadmitted.only.mono fun _ => Op.opening.outside⟩,
        only_cons.mpr ⟨rfl, only_nil⟩⟩ : Only Op.outside _).silent (fun _ _ => rfl) fun _ _ => rfl
  | writeAll c' bytes =>
      obtain rfl : c' = c := by simpa [speaks] using hspeaks
      rcases hstage.gating_inv rfl with ⟨own₁, resp, line, hanswered, -, hop, hown⟩ |
          ⟨before', own', callerUid, req, hown, houtside, hagent⟩
      · obtain ⟨rfl, -⟩ := Op.writeAll.inj hop
        rcases hanswered.cases with hrefused |
            ⟨own₁, loaded, callerUid, req, own₂, outcome, unixSecs, result, hadmitted, hdecided, rfl⟩
        · rw [hown]
          exact (only_cons.mpr ⟨rfl, hrefused.only.mono fun _ => Op.opening.outside⟩ : Only Op.outside _).silent
            (fun _ _ => rfl) fun _ _ => rfl
        · rw [List.countP_eq_zero]
          rintro ⟨op', answer'⟩ he hspoke
          -- neither a registration nor a prompt of its own connection has come before
          have hnoinsert : ∀ u c, (⟨.insertAgent u c, ()⟩ : Event (sig P)) ∉ history c' before := by
            intro u c hmem
            rw [hown] at hmem
            simp only [List.mem_cons, List.mem_append, List.not_mem_nil, or_false] at hmem
            rcases hmem with h | h | (h | h) | h
            · cases h
            · exact hadmitted.only.not_mem rfl h
            · exact hdecided.only.not_mem rfl h
            · cases h
            · cases h
          cases op' with
          | insertAgent u c => exact hnoinsert u c he
          | writeAll c bytes =>
              obtain rfl : c = c' := by simpa [speaks] using hspoke
              have hdecidedMem : (⟨.writeAll c bytes, answer'⟩ : Event (sig P)) ∈ own₂ := by
                rw [hown] at he
                simp only [List.mem_cons, List.mem_append, List.not_mem_nil, or_false] at he
                rcases he with h | h | (h | h) | h
                · cases h
                · exact absurd h (hadmitted.only.not_mem rfl)
                · exact h
                · cases h
                · cases h
              obtain ⟨u, hlookup⟩ := hdecided.writeAll_lookup hdecidedMem
              exact hnoinsert u c (insertAgent_of_lookup hbefore hempty (t := c) (by rw [hown]; simp [hlookup]))
          | _ => cases hspoke
      · obtain ⟨own₁, poisoned, rfl, hout, -⟩ := hagent.writeAll_inv
        rw [hown, List.countP_append, List.countP_append, houtside.silent (fun _ _ => rfl) fun _ _ => rfl,
          hout.silent (fun _ _ => rfl) fun _ _ => rfl]
        rfl
  | _ => cases hspeaks

/-- A connection that is registered is never written to by its own worker. -/
theorem registered_unanswered (hempty : s₀.registry = fun _ => none) {u : Uid} {bytes : List UInt8}
    {written : Except IoError Unit} (hinsert : ⟨.insertAgent u c, ()⟩ ∈ history c tr) :
    ⟨.writeAll c bytes, written⟩ ∉ history c tr := by
  intro hwrite
  have hone := countP_history_le_one (speaks_first hrun hempty c) c
  have heq := eq_of_countP_le_one hone hinsert hwrite rfl (by simp [speaks])
  cases heq

end Run

end Sudix
