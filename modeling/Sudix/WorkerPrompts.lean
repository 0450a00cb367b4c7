import Sudix.AgentCalls
import Sudix.DialogGate

/-! A worker on the stream of an agent. It works on the stream by its one prompt, which shows the command it was sent,
and it has performed nothing on that stream before. The worker of the agent's own connection has been there before
its agent was registered, and is never there again. -/

namespace Sudix

open Concurrent

variable {P : Platform} {registerWait rounds : Nat} {approvalMutex : Bool} {s₀ s s' : Daemon}
  {ps : Pool (sig P) Tid (Except IoError Unit)} {tr : Trace (sig P) Daemon Tid Env} {c t : Conn}
  {own : History (sig P)} {op : Op}

/-- Not on the stream of connection `c`, or a read of a worker on its own connection `t`. -/
def Op.aside (t c : Conn) (op : Op) : Bool :=
  !op.prompting c || match op with
    | .recv c' _ => c' = t
    | _ => false

theorem Op.aside_of_quiet (hop : op.prompting c = false) : op.aside t c = true := by
  refine Bool.or_eq_true_iff.mpr (.inl ?_)
  rw [hop]
  rfl

theorem Op.aside.apart (h : op.aside t c = true) (ht : t ≠ c) : op.prompting c = false := by
  rcases Bool.or_eq_true_iff.mp h with hquiet | hrecv
  · exact Bool.not_eq_eq_eq_not.mp hquiet
  · cases op with
    | recv c' n =>
        obtain rfl : c' = t := of_decide_eq_true hrecv
        exact decide_eq_false ht
    | _ => cases hrecv

theorem Only.aside_untouched (h : Only (Op.aside t c) own) : Untouched (.stream c) own := by
  intro e he
  refine ⟨fun hop => ?_, fun hop => ?_⟩ <;>
  · have haside := h e he
    rw [hop] at haside
    simp [Op.aside, Op.prompting] at haside

theorem Only.aside_of_quiet (h : ∀ e ∈ own, e.op.stream = none ∧ e.op.prompting c = false) :
    Only (Op.aside t c) own :=
  fun e he => Op.aside_of_quiet (h e he).2

theorem ReloadDone.aside {result : Except ConfigError Unit} (h : ReloadDone own result) :
    Only (Op.aside t c) own := by
  cases h with
  | unreadable => simp [Op.aside, Op.prompting]
  | unlocked hreloaded => cases hreloaded <;> simp [looked, swapped, Op.aside, Op.prompting]

theorem LineDone.aside {chunk : Nat → Nat} {limit : Nat} {result : Except IoError String}
    (h : LineDone t chunk limit own result) : Only (Op.aside t c) own := by
  intro e he
  obtain ⟨n, hop⟩ := h.ops e he
  rw [hop]
  simp [Op.aside]

theorem Admitted.aside {loaded : Loaded} {callerUid : Uid} {hello : Hello}
    (h : Admitted t own loaded callerUid hello) : Only (Op.aside t c) own := by
  cases h with
  | intro hgreeted =>
      cases hgreeted with
      | intro hid _ hread =>
          cases hid with
          | intro hreload =>
              rw [only_append, only_append, only_append, only_append]
              refine ⟨⟨⟨⟨hreload.aside, ?_⟩, ?_⟩, ?_⟩, hread.aside⟩
              all_goals simp [Op.aside, Op.prompting]

theorem checked_aside {ctx : RequestCtx} {req : Request} {ruleIndex : Nat} {cwd : String} {verdict : CacheVerdict} :
    Only (Op.aside t c) (checked ctx req ruleIndex cwd verdict : History (sig P)) := by
  simp [checked, unlimited, located, Op.aside, Op.prompting]

/-- The connection whose agent a request prompts is the one the registry has for its caller. -/
theorem GateStage.prompt_inv {callerUid : Uid} {req : Request}
    (h : GateStage (.agent registerWait rounds) callerUid req approvalMutex own op) (hop : op.prompting c = true) :
    ∃ before own', own = before ++ own' ∧ Only (Op.aside t c) before ∧ ⟨.lookupAgent callerUid, some c⟩ ∈ before ∧
      PromptStage c (promptOf req) own' op := by
  cases h with
  | ungated happrove =>
      cases happrove with
      | agent hagent =>
          obtain ⟨before, own', rfl, hquiet, hlookup, hprompt⟩ := hagent.prompt_inv hop
          exact ⟨before, own', rfl, Only.aside_of_quiet hquiet, hlookup, hprompt⟩
  | @held poisoned _ _ happrove =>
      cases happrove with
      | agent hagent =>
          obtain ⟨before, own', rfl, hquiet, hlookup, hprompt⟩ := hagent.prompt_inv hop
          refine ⟨⟨.lock .approvalMutex, poisoned⟩ :: before, own', rfl,
            only_cons.mpr ⟨?_, Only.aside_of_quiet hquiet⟩, List.mem_cons_of_mem _ hlookup, hprompt⟩
          simp [Op.aside, Op.prompting]
  | lock => simp [Op.prompting] at hop
  | unlock _ => simp [Op.prompting] at hop

/-- What a worker does on the stream of `c`: `c` is its own connection, or the one of the agent it prompts. -/
theorem WorkerStage.prompting_inv (h : WorkerStage t (.agent registerWait rounds) approvalMutex own op)
    (hop : op.prompting c = true) :
    (t = c ∧ op.writesHolder = false) ∨ ∃ callerUid req before own', own = before ++ own' ∧
      Only (Op.aside t c) before ∧ ⟨.peerUid, .ok callerUid⟩ ∈ before ∧ ⟨.lookupAgent callerUid, some c⟩ ∈ before ∧
      PromptStage c (promptOf req) own' op := by
  cases h with
  | connection hconnection =>
      cases hconnection with
      | reload hreload => cases hreload <;> simp [Op.prompting] at hop
      | read _ _ hread =>
          cases hread
          exact .inl ⟨of_decide_eq_true hop, rfl⟩
      | @request own₁ loaded callerUid req own₂ _ hadmitted hrequest =>
          cases hrequest with
          | @approve ruleIndex cwd own₃ _ _ hgate =>
              obtain ⟨before, own', rfl, hbefore, hlookup, hprompt⟩ := hgate.prompt_inv (t := t) hop
              refine .inr ⟨callerUid, req,
                ⟨.acquireSlot, ()⟩ :: own₁ ++ (checked ⟨loaded.bundle, callerUid⟩ req ruleIndex cwd .miss ++ before),
                own', by simp, ?_, ?_, ?_, hprompt⟩
              · rw [List.cons_append, only_cons, only_append, only_append]
                exact ⟨rfl, hadmitted.aside, checked_aside, hbefore⟩
              · simp [hadmitted.peerUid.1]
              · simp [hlookup]
          | _ => cases hop
      | register _ hregister =>
          rw [(RegisterStage.not_prompting hregister).1] at hop
          cases hop
      | respond _ hwrite => cases hwrite <;> exact .inl ⟨of_decide_eq_true hop, rfl⟩
      | _ => cases hop
  | _ => cases hop

/-- A worker that is on a stream has registered no agent. -/
theorem WorkerStage.unregistered {approver : Approver} (h : WorkerStage t approver approvalMutex own op)
    (hop : op.prompting c = true) (u : Uid) (c' : Conn) : ⟨.insertAgent u c', ()⟩ ∉ own := by
  intro hmem
  cases h with
  | acquire => cases hmem
  | release _ => cases hop
  | connection hconnection =>
      rcases List.mem_cons.mp hmem with heq | hmem
      · cases heq
      cases hconnection with
      | reload hreload => cases hreload <;> simp [Op.prompting] at hop
      | read hid _ hread =>
          cases hread with
          | recv hreading _ =>
              simp only [List.append_assoc, List.mem_append, List.mem_singleton] at hmem
              rcases hmem with hmem | heq | hmem
              · exact hid.only.not_mem rfl hmem
              · cases heq
              · obtain ⟨n, hrecv⟩ := hreading.ops _ hmem
                cases hrecv
      | request hadmitted hrequest =>
          rcases List.mem_append.mp hmem with hmem | hmem
          · exact hadmitted.only.not_mem rfl hmem
          · exact hrequest.only.not_mem rfl hmem
      | register _ hregister =>
          rw [(RegisterStage.not_prompting hregister).1] at hop
          cases hop
      | respond hanswered hwrite =>
          rcases List.mem_append.mp hmem with hmem | hmem
          · rcases hanswered.cases with hrefused |
              ⟨own₁, loaded, callerUid, req, own₂, outcome, unixSecs, logged, hadmitted, hdecided, rfl⟩
            · exact hrefused.only.not_mem rfl hmem
            · simp only [List.append_assoc, List.mem_append, List.mem_singleton] at hmem
              rcases hmem with hmem | hmem | heq | heq
              · exact hadmitted.only.not_mem rfl hmem
              · exact hdecided.only.not_mem rfl hmem
              · cases heq
              · cases heq
          · cases hwrite with
            | write _ => cases hmem
            | flush _ => cases List.mem_singleton.mp hmem
      | _ => cases hop

/-- A worker takes a stream once, and releases it holding it. -/
theorem worker_streamOnce (c t : Conn) :
    LockedOnce (.stream c) (WorkerStage (P := P) t (.agent registerWait rounds) approvalMutex) where
  lock own hstage := by
    rcases hstage.prompting_inv (c := c) (decide_eq_true rfl) with ⟨-, hop⟩ |
        ⟨callerUid, req, before, own', rfl, hbefore, -, -, hprompt⟩
    · cases hop
    · rcases hprompt.holding with ⟨rfl, -⟩ | ⟨-, hunlock | ⟨own'', -, hlocked⟩⟩
      · rw [List.append_nil]
        exact hbefore.aside_untouched
      · cases hunlock
      · exact absurd rfl (hlocked.ops.1.ne_lock _).1
  unlock own hstage := by
    rcases hstage.prompting_inv (c := c) (decide_eq_true rfl) with ⟨-, hop⟩ |
        ⟨callerUid, req, before, own', rfl, hbefore, -, -, hprompt⟩
    · cases hop
    · rcases hprompt.holding with ⟨-, hlock⟩ | ⟨⟨⟨e, he, hop⟩, hnone⟩, -⟩
      · cases hlock
      · refine ⟨⟨e, List.mem_append_right _ he, hop⟩, fun e' he' => ?_⟩
        rcases List.mem_append.mp he' with he' | he'
        · exact (hbefore.aside_untouched e' he').2
        · exact hnone e' he'

end Sudix
