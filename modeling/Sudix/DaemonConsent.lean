import Sudix.AgentAuthority
import Sudix.AgentConsent
import Sudix.Executions
import Sudix.WorkerPrompts

/-! Consent to what is executed. Of all the workers, the one that holds the stream of an agent is in the midst of its
own exchange there, so that the `Allow` it reads answers its own dialog. Behind every execution there is such an
answer: the one to the command's own prompt, or to that of the approval it is cached from. -/

namespace Sudix

open Concurrent

variable {P : Platform} {registerWait rounds : Nat} {approvalMutex : Bool} {s₀ s s' : Daemon}
  {ps : Pool (sig P) Tid (Except IoError Unit)} {tr : Trace (sig P) Daemon Tid Env} {c t : Conn}
  {own own' : History (sig P)} {op : Op} {q : Prompt} {ch : Channel}

/-- What a thread has performed on the stream of connection `c`. -/
def strand (c : Conn) (own : History (sig P)) : History (sig P) := own.filter fun e => e.op.prompting c

@[simp] theorem strand_append : strand c (own ++ own') = strand c own ++ strand c own' := List.filter_append ..

theorem strand_of_quiet (h : ∀ e ∈ own, e.op.prompting c = false) : strand c own = [] :=
  List.filter_eq_nil_iff.mpr fun e he => by simp [h e he]

theorem strand_of_only (h : Only (Op.prompting c) own) : strand c own = own := List.filter_eq_self.mpr h

theorem Only.aside_quiet (h : Only (Op.aside t c) own) (ht : t ≠ c) : ∀ e ∈ own, e.op.prompting c = false :=
  fun e he => Op.aside.apart (h e he) ht

/-- The prompts that have been written are lines of `q`. -/
def Shows (c : Conn) (q : Prompt) (own : History (sig P)) : Prop :=
  ∀ bytes, ⟨.writeAll c bytes, .ok ()⟩ ∈ own → ∃ line, q.toLine P.json = .ok line ∧ bytes = utf8 line

/-- The thread is in step, whichever prompt it shows. -/
def InTurn (c : Conn) (t : Tid) (tr : Trace (sig P) Daemon Tid Env) (own : History (sig P)) (ch : Channel) : Prop :=
  ∀ q, Shows c q own → InStep c q t tr own ch

theorem Shows.of_append (h : Shows c q (own ++ own')) : Shows c q own :=
  fun bytes hmem => h bytes (List.mem_append_left _ hmem)

theorem InTurn.env (hlaw : P.json.Lawful) {event : Env} (hstep : Sudix.env P s event = some s')
    (h : InTurn c t tr own (s.channel c)) : InTurn c t (tr ++ [⟨s, .env event, s'⟩]) own (s'.channel c) :=
  fun q hq => (h q hq).env hlaw hstep

theorem InTurn.append (h : InTurn c t tr own ch) (tr' : Trace (sig P) Daemon Tid Env) :
    InTurn c t (tr ++ tr') own ch :=
  fun q hq => (h q hq).append tr'

theorem InStep.still {answer : Answer P op} (hlegal : Step.Legal (world P) ⟨s, .thread t ⟨op, answer⟩, s'⟩)
    (h : InStep c q t tr own (s.channel c)) (hstream : op.stream = none) :
    InStep c q t (tr ++ [⟨s, .thread t ⟨op, answer⟩, s'⟩]) (own ++ [⟨op, answer⟩]) (s'.channel c) := by
  rw [legal_channel hlegal (by simp [hstream])]
  exact h.quiet hstream

/-- The operations of a prompt keep its worker in its turn. -/
theorem InTurn.locked {answer : Answer P op} (hlegal : Step.Legal (world P) ⟨s, .thread t ⟨op, answer⟩, s'⟩)
    (h : InTurn c t tr (⟨.lock (.stream c), false⟩ :: own') (s.channel c)) (hlocked : LockedStage c q own' op) :
    InTurn c t (tr ++ [⟨s, .thread t ⟨op, answer⟩, s'⟩]) (⟨.lock (.stream c), false⟩ :: own' ++ [⟨op, answer⟩])
      (s'.channel c) := by
  intro q' hshows
  have hstep : InStep c q' t tr (⟨.lock (.stream c), false⟩ :: own') (s.channel c) := h q' hshows.of_append
  cases hlocked with
  | @write line hline =>
      cases answer with
      | ok _ =>
          obtain ⟨line', hline', hbytes⟩ := hshows (utf8 line) (List.mem_append_right _ List.mem_cons_self)
          obtain rfl : line = line' := utf8_injective hbytes
          have htaken : InStep c q' t tr ([] ++ ⟨.lock (.stream c), false⟩ :: []) (s.channel c) := hstep
          exact htaken.locked hlegal (by simp) (.write hline')
      | error e =>
          constructor
          · intro hnone
            exact absurd rfl (hnone _ (List.mem_append_right _ List.mem_cons_self) (utf8 line))
          · intro bytes hmem
            simp at hmem
  | @read line _ _ _ hread =>
      cases hread
      exact hstep.recv hlegal ⟨utf8 line, by simp [sent]⟩
  | flush _ | setReadTimeout _ | signal _ => exact hstep.still hlegal rfl

/-- Whoever has taken an idle stream is in its turn. -/
theorem InTurn.taken {poisoned : Bool} (h : Idle ch) : InTurn c t tr [⟨.lock (.stream c), poisoned⟩] ch := by
  intro q _
  refine ⟨fun _ => h, fun bytes hmem => ?_⟩
  cases List.mem_singleton.mp hmem

section Run

variable (hrun : Run (world P) s₀ (workers P (.agent registerWait rounds) approvalMutex) tr s ps)
  (hempty : s₀.registry = fun _ => none)

include hrun

theorem worker_holder_iff (hfree : s₀.holder (.stream c) = none) (t : Tid) :
    s.holder (.stream c) = some t ↔ Holds (.stream c) (history t tr) :=
  holder_eq_some_iff hrun workers_meets (fun t => worker_streamOnce c t) hfree t

include hempty

/-- A stream is taken only where its connection has registered an agent. -/
theorem registered_of_held (hfree : s₀.holder (.stream c) = none) (hheld : s.holder (.stream c) = some t) :
    ∃ u, ⟨.insertAgent u c, ()⟩ ∈ history c tr := by
  obtain ⟨⟨⟨op, answer⟩, he, hop⟩, -⟩ := (worker_holder_iff hrun hfree t).mp hheld
  obtain rfl : op = .lock (.stream c) := hop
  obtain ⟨before, st, after, rfl, hlabel⟩ := once_of_mem_history he
  have hstage := hrun.every_pre workers_meets before st after rfl t _ hlabel
  obtain ⟨⟨ps', hbefore⟩, -⟩ := hrun.before
  rcases hstage.prompting_inv (c := c) (decide_eq_true rfl) with ⟨-, hwrites⟩ |
      ⟨u, req, past, own', hown, -, -, hlookup, -⟩
  · cases hwrites
  · refine ⟨u, ?_⟩
    rw [history_append]
    exact List.mem_append_left _ (insertAgent_of_lookup hbefore hempty (t := t) (by simp [hown, hlookup]))

/-- A worker that goes on with its prompt on stream `c` is not the one of connection `c`, and what it has performed
on the stream is its prompt so far. -/
theorem strand_prompting {next : Answer P op → Prog P (Except IoError Unit)} (hnext : ps t = .call op next)
    (hop : op.prompting c = true) :
    (t = c ∧ op.writesHolder = false) ∨
      (t ≠ c ∧ ∃ callerUid req, ⟨.peerUid, .ok callerUid⟩ ∈ history t tr ∧
        ⟨.lookupAgent callerUid, some c⟩ ∈ history t tr ∧
          PromptStage c (promptOf req) (strand c (history t tr)) op) := by
  have hstage := hrun.pre_next workers_meets hnext
  rcases hstage.prompting_inv hop with hown | ⟨callerUid, req, before, own', hown, hbefore, hpeer, hlookup, hprompt⟩
  · exact .inl hown
  · have hne : t ≠ c := by
      rintro rfl
      refine hstage.unregistered hop callerUid t (insertAgent_of_lookup hrun hempty (t := t) ?_)
      simp [hown, hlookup]
    refine .inr ⟨hne, callerUid, req, by simp [hown, hpeer], by simp [hown, hlookup], ?_⟩
    rw [hown, strand_append, strand_of_quiet (hbefore.aside_quiet hne), strand_of_only hprompt.only.2]
    exact hprompt

end Run

/-- **The worker that holds an agent's stream is in its turn**, if the stream was idle whenever it was taken. -/
theorem worker_inTurn (hrun : Run (world P) s₀ (workers P (.agent registerWait rounds) approvalMutex) tr s ps)
    (hempty : s₀.registry = fun _ => none) (hlaw : P.json.Lawful) (hfree : s₀.holder (.stream c) = none)
    (hidle : Every (IdleWhenTaken c) tr) (hheld : s.holder (.stream c) = some t) :
    InTurn c t tr (strand c (history t tr)) (s.channel c) := by
  induction hrun with
  | start =>
      rw [hfree] at hheld
      cases hheld
  | @env tr s ps event s' hrun henv ih =>
      rw [(env_frame henv).holder] at hheld
      rw [history_append, history_env, List.append_nil]
      exact (ih (every_snoc.mp hidle).1 hheld).env hlaw henv
  | @thread tr s ps u op next choice answer s' hrun hnext hact ih =>
      obtain ⟨hbefore, hnew⟩ := every_snoc.mp hidle
      have hlegal : Step.Legal (world P) ⟨s, .thread u ⟨op, answer⟩, s'⟩ := ⟨choice, hact⟩
      cases hop : op.prompting c with
      | false =>
          -- the stream, its holder and what the holder has performed on it stay as they are
          have hchannel : s'.channel c = s.channel c := by
            refine (act_frame hact).channel c fun hstream => ?_
            cases op <;> cases hstream <;> simp [Op.prompting] at hop
          have hkeep : s'.holder (.stream c) = s.holder (.stream c) := by
            refine legal_holder hlegal (fun _ _ hlabel => ?_) fun _ _ hlabel => ?_
            all_goals
              cases hlabel
              simp [Op.prompting] at hop
          have hstrand :
              strand c (history t (tr ++ [⟨s, .thread u ⟨op, answer⟩, s'⟩])) = strand c (history t tr) := by
            rw [history_append, strand_append, List.append_right_eq_self]
            refine strand_of_quiet fun e he => ?_
            obtain ⟨st, hst, hlabel⟩ := mem_history.mp he
            obtain rfl := List.mem_singleton.mp hst
            obtain ⟨-, rfl⟩ := Label.thread.inj hlabel
            exact hop
          rw [hchannel, hstrand]
          exact (ih hbefore (hkeep ▸ hheld)).append _
      | true =>
          rcases strand_prompting hrun hempty hnext hop with ⟨rfl, hwrites⟩ | ⟨-, callerUid, req, -, -, hprompt⟩
          · -- its own connection is not held by anyone before its worker is through with it
            rw [(act_frame hact).holder hwrites] at hheld
            obtain ⟨v, hinsert⟩ := registered_of_held hrun hempty hfree hheld
            exact absurd hinsert ((hrun.pre_next workers_meets hnext).unregistered hop v u)
          · have hown : strand c (history u (tr ++ [⟨s, .thread u ⟨op, answer⟩, s'⟩])) =
                strand c (history u tr) ++ [⟨op, answer⟩] := by
              have hlast : strand c ([⟨op, answer⟩] : History (sig P)) = [⟨op, answer⟩] :=
                strand_of_only (by simp [Only, hop])
              rw [history_append, strand_append, history_thread_self, hlast]
            rcases hprompt.holding with ⟨hnone, rfl⟩ | ⟨hholding, rfl | ⟨own', hlock, hlocked⟩⟩
            · obtain ⟨-, rfl⟩ := legal_lock hlegal
              obtain rfl : u = t := by simpa using hheld
              rw [hown, hnone]
              exact .taken (hnew u answer rfl)
            · obtain ⟨-, rfl⟩ := legal_unlock hlegal
              simp at hheld
            · have hwrites : op.writesHolder = false := by
                rcases hlocked.ops.1 with ⟨_, rfl⟩ | rfl | rfl | ⟨_, rfl⟩ | rfl <;> rfl
              have hu : s.holder (.stream c) = some u := by
                obtain ⟨⟨e, he, hlock⟩, hnone⟩ := hholding
                refine (worker_holder_iff hrun hfree u).mpr ⟨⟨e, List.mem_of_mem_filter he, hlock⟩, ?_⟩
                intro e' he' hop'
                exact hnone e' (List.mem_filter.mpr ⟨he', by simp [hop', Op.prompting]⟩) hop'
              rw [(act_frame hact).holder hwrites, hu] at hheld
              obtain rfl := Option.some.inj hheld
              have hturn := ih hbefore hu
              rw [hlock] at hturn
              rw [hown, hlock]
              exact hturn.locked hlegal hlocked

/-- Command `argv` is allowed in the dialog of worker `u`, shown by an agent with the uid of the worker's caller. -/
def AllowedFor (uidOf : Conn → Uid) (u : Tid) (argv : List String) (st : Step (sig P) Daemon Tid Env) : Prop :=
  ∃ c q, Answers c q u .allow st ∧ q.argv = argv ∧ uidOf c = uidOf u

/-- Worker `u` records a fresh approval of command `argv`. -/
def Records {σ ε : Type} (u : Tid) (argv : List String) (st : Step (sig P) σ Tid ε) : Prop :=
  ∃ scopes ruleIndex, st.label = .thread u ⟨.recordApproval scopes ruleIndex argv, ()⟩

theorem AgentDone.allowed_inv {callerUid : Uid} {req : Request} (h : AgentDone callerUid req own .allowed) :
    ∃ c before own' after, own = before ++ ⟨.lock (.stream c), false⟩ :: own' ++ ⟨.unlock (.stream c), ()⟩ :: after ∧
      (∀ e ∈ before, e.op.stream = none ∧ e.op.prompting c = false) ∧ ⟨.lookupAgent callerUid, some c⟩ ∈ before ∧
      LockedDone c (promptOf req) own' .allowed := by
  generalize hallowed : Approval.allowed = approval at h
  cases h with
  | noAgent _ => cases hallowed
  | @prompted now awaited c poisoned _ _ hawait hprompt =>
      cases hprompt with
      | poisoned => cases hallowed
      | @released own' _ hlocked =>
          refine ⟨c, ⟨.instantNow, now⟩ :: awaited ++ [⟨.lock .approvalGate, poisoned⟩], own',
            [⟨.unlock .approvalGate, ()⟩], by simp, hawait.not_prompting, by simp [hawait.mem_lookup], hlocked⟩

/-- A request that is allowed has read its verdict holding the stream of the agent that the registry has for its
caller. -/
theorem GateDone.allowed_inv {callerUid : Uid} {req : Request}
    (h : GateDone (.agent registerWait rounds) callerUid req approvalMutex own .allowed) (t : Tid) :
    ∃ c before own' after, own = before ++ ⟨.lock (.stream c), false⟩ :: own' ++ ⟨.unlock (.stream c), ()⟩ :: after ∧
      Only (Op.aside t c) before ∧ ⟨.lookupAgent callerUid, some c⟩ ∈ before ∧
      LockedDone c (promptOf req) own' .allowed := by
  cases h with
  | ungated happrove =>
      cases happrove with
      | agent hagent =>
          obtain ⟨c, before, own', after, rfl, hquiet, hlookup, hlocked⟩ := hagent.allowed_inv
          exact ⟨c, before, own', after, rfl, Only.aside_of_quiet hquiet, hlookup, hlocked⟩
  | @released poisoned _ _ happrove =>
      cases happrove with
      | agent hagent =>
          obtain ⟨c, before, own', after, rfl, hquiet, hlookup, hlocked⟩ := hagent.allowed_inv
          refine ⟨c, ⟨.lock .approvalMutex, poisoned⟩ :: before, own', after ++ [⟨.unlock .approvalMutex, ()⟩],
            by simp, only_cons.mpr ⟨?_, Only.aside_of_quiet hquiet⟩, List.mem_cons_of_mem _ hlookup, hlocked⟩
          simp [Op.aside, Op.prompting]

/-- The verdict read by a prompt in its turn is the answer to its own dialog. -/
theorem InTurn.answered (hlaw : P.json.Lawful) (hlocked : LockedDone c q own .allowed)
    (h : InTurn c t tr (⟨.lock (.stream c), false⟩ :: own) ch)
    (hlen : ∀ n bytes, ⟨.recv c n, .ok bytes⟩ ∈ own → bytes.length ≤ n) :
    Once (fun _ st => Answers c q t .allow st) tr := by
  generalize hallowed : Approval.allowed = approval at hlocked
  cases hlocked with
  | @answered line read answer hline hread hne =>
      have hshows : Shows c q (⟨.lock (.stream c), false⟩ :: (sent c line ++ read)) := by
        intro bytes hmem
        rcases List.mem_cons.mp hmem with hlock | hmem
        · cases hlock
        rcases List.mem_append.mp hmem with hsent | hread'
        · simp only [sent, List.mem_cons, List.not_mem_nil, or_false] at hsent
          rcases hsent with hwrite | hflush | htimeout
          · cases hwrite
            exact ⟨line, hline, rfl⟩
          · cases hflush
          · cases htimeout
        · obtain ⟨n, hop⟩ := hread.ops _ hread'
          cases hop
      have hstep : InStep c q t tr ([] ++ ⟨.lock (.stream c), false⟩ :: (sent c line ++ read)) ch := h q hshows
      exact InStep.answered_once [] hlaw (by simp) hstep
        (fun n bytes hmem => hlen n bytes (List.mem_append_right _ hmem)) hread hne (approvalOf_allowed hallowed.symm)
  | _ => cases hallowed

/-- The connection a request has looked up is not its own. -/
theorem lookup_apart {approver : Approver} (hrun : Run (world P) s₀ (workers P approver approvalMutex) tr s ps)
    (hagents : s₀.registry = fun _ => none) {own₁ own₂ : History (sig P)} {loaded : Loaded} {callerUid u : Uid}
    {req : Request} (hadmitted : Admitted t own₁ loaded callerUid (.command req))
    (hrequest : RequestStage ⟨loaded.bundle, callerUid⟩ approver approvalMutex req own₂ op)
    (hown : history t tr = ⟨.acquireSlot, ()⟩ :: own₁ ++ own₂) (hlookup : ⟨.lookupAgent u, some c⟩ ∈ own₂) :
    t ≠ c := by
  rintro rfl
  have hinsert := insertAgent_of_lookup hrun hagents (c := t) (t := t) (u := u) (by rw [hown]; simp [hlookup])
  rw [hown, List.cons_append, List.mem_cons, List.mem_append] at hinsert
  rcases hinsert with h | h | h
  · cases h
  · exact hadmitted.only.not_mem rfl h
  · exact hrequest.only.not_mem rfl h

/-- Behind every execution there is an approval of the same command, its worker's own or one that is cached. -/
theorem execution_recorded {approver : Approver} (hrun : Run (world P) s₀ (workers P approver approvalMutex) tr s ps)
    (hempty : s₀.approvals = ApprovalState.new) :
    Every (fun before (st : Step (sig P) Daemon Tid Env) => ∀ t program args dir result,
      st.label = .thread t ⟨.spawn program args dir, result⟩ →
        ∃ u, Once (fun _ st' => Records u (program :: args) st') before ∧ (u = t ∨
          ∃ scopes ruleIndex, ⟨.checkCache scopes ruleIndex (program :: args), .hit⟩ ∈ history t before)) tr := by
  intro before st after heq t program args dir result hlabel
  have hstage := hrun.every_pre workers_meets before st after heq t _ hlabel
  subst heq
  obtain ⟨⟨ps', hbefore⟩, -⟩ := hrun.before
  obtain ⟨own₁, loaded, callerUid, req, own₂, -, hrequest, hown⟩ := hstage.request_inv rfl
  obtain ⟨rfl, rfl, outcome, hready⟩ := hrequest.spawn_inv
  rw [hready.command.1]
  cases hready with
  | @fresh ruleIndex cwd own' hs hgate =>
      have hmem : (⟨.recordApproval loaded.bundle.ruleScopes ruleIndex req.argv, ()⟩ : Event (sig P)) ∈
          history t before := by
        simp [hown]
      exact ⟨t, (once_of_mem_history hmem).mono fun _ _ h => ⟨_, _, h⟩, .inl rfl⟩
  | @cached ruleIndex cwd hs =>
      have hmem : (⟨.checkCache loaded.bundle.ruleScopes ruleIndex req.argv, .hit⟩ : Event (sig P)) ∈
          history t before := by
        simp [hown, checked]
      obtain ⟨before', ⟨pre, label, post⟩, after', rfl, hhit⟩ := once_of_mem_history hmem
      obtain rfl : label = _ := hhit
      obtain ⟨⟨ps'', hbefore'⟩, hlegal⟩ := hbefore.before
      obtain ⟨last, hentry, -⟩ := checkCache_eq_hit_iff.mp (legal_checkCache hlegal).1
      obtain ⟨earlier, st', later, rfl, ⟨u, scopes, hrecord, -⟩, -⟩ := (cache_since hbefore' hempty _ _ _ hentry).once
      refine ⟨u, ?_, .inr ⟨_, _, hmem⟩⟩
      exact Once.append ⟨earlier, st', later, rfl, _, _, hrecord⟩ _

section Run

variable (hrun : Run (world P) s₀ (workers P (.agent registerWait rounds) approvalMutex) tr s ps)
  (hlaw : P.json.Lawful) (hagents : s₀.registry = fun _ => none)
  (hfree : ∀ c, s₀.holder (.stream c) = none) (hidle : ∀ c, Every (IdleWhenTaken c) tr)

include hrun hlaw hagents hfree hidle

/-- A worker that has finished its prompt with an `Allow` has had it from its own dialog. -/
theorem section_answered {front own' rest : History (sig P)}
    (hown : history t tr = front ++ ⟨.lock (.stream c), false⟩ :: own' ++ rest)
    (hfront : Only (Op.aside t c) front) (ht : t ≠ c) (hlocked : LockedDone c q own' .allowed) :
    Once (fun _ st => Answers c q t .allow st) tr := by
  obtain ⟨before, after, s', ps', rfl, hbefore, hhistory⟩ := hrun.at_history hown
  have hstrand : strand c (history t before) = ⟨.lock (.stream c), false⟩ :: own' := by
    rw [hhistory, strand_append, strand_of_quiet (hfront.aside_quiet ht), List.nil_append]
    refine strand_of_only (only_cons.mpr ⟨by simp [Op.prompting], fun e he => (hlocked.ops e he).prompting⟩)
  have hheld : s'.holder (.stream c) = some t := by
    refine (worker_holder_iff hbefore (hfree c) t).mpr ⟨⟨⟨.lock (.stream c), false⟩, by simp [hhistory], rfl⟩, ?_⟩
    intro e he
    rw [hhistory, List.mem_append, List.mem_cons] at he
    rcases he with he | rfl | he
    · exact (hfront.aside_untouched e he).2
    · exact fun hop => by cases hop
    · exact ((hlocked.ops e he).ne_lock _).2
  have hturn := worker_inTurn hbefore hagents hlaw (hfree c) (hidle c).of_append hheld
  rw [hstrand] at hturn
  refine (hturn.answered hlaw hlocked fun n bytes hmem => ?_).append after
  exact recv_length hbefore (c := c) (t := t) n bytes (by simp [hhistory, hmem])

/-- **A fresh approval is the answer to the worker's own dialog.** -/
theorem approval_answered :
    Every (fun before (st : Step (sig P) Daemon Tid Env) => ∀ t argv, Records t argv st →
      Once (fun _ st' => AllowedFor s₀.uidOf t argv st') before) tr := by
  rintro before st after heq t argv ⟨scopes, ruleIndex, hlabel⟩
  have hstage := hrun.every_pre workers_meets before st after heq t _ hlabel
  subst heq
  obtain ⟨⟨ps', hbefore⟩, -⟩ := hrun.before
  obtain ⟨own₁, loaded, callerUid, req, own₂, hadmitted, hrequest, hown⟩ := hstage.request_inv rfl
  obtain ⟨-, hargv, -, cwd, own₃, hgate, rfl⟩ := hrequest.recordApproval_inv
  obtain ⟨c, quiet, own', rest, rfl, hquiet, hlookup, hlocked⟩ := hgate.allowed_inv t
  have ht : t ≠ c := lookup_apart (u := callerUid) hbefore hagents hadmitted hrequest hown (by simp [hlookup])
  have hfront : Only (Op.aside t c) (⟨.acquireSlot, ()⟩ :: own₁ ++
      checked ⟨loaded.bundle, callerUid⟩ req ruleIndex cwd .miss ++ quiet) := by
    rw [List.cons_append, List.cons_append, only_cons, only_append, only_append]
    exact ⟨rfl, ⟨hadmitted.aside, checked_aside⟩, hquiet⟩
  have hsection : history t before = (⟨.acquireSlot, ()⟩ :: own₁ ++
      checked ⟨loaded.bundle, callerUid⟩ req ruleIndex cwd .miss ++ quiet) ++
        ⟨.lock (.stream c), false⟩ :: own' ++ ⟨.unlock (.stream c), ()⟩ :: rest := by
    simp [hown]
  have hanswered : Once (fun _ st => Answers c (promptOf req) t .allow st) before :=
    section_answered hbefore hlaw hagents hfree (fun c => (hidle c).of_append) hsection hfront ht hlocked
  have huid : s₀.uidOf c = s₀.uidOf t := by
    rw [lookup_uidOf hbefore hagents (t := t) (u := callerUid) (by simp [hown, hlookup])]
    exact peerUid_eq hbefore (by simp [hown, hadmitted.peerUid.1])
  exact hanswered.mono fun _ st' h => ⟨c, promptOf req, h, hargv.symm, huid⟩

/-- **Behind every execution there is an answer.** It answers the dialog of the command's own prompt, or the one of an
earlier prompt for the same command, whose approval is cached. -/
theorem execution_answered (hempty : s₀.approvals = ApprovalState.new) :
    Every (fun before (st : Step (sig P) Daemon Tid Env) => ∀ t program args dir result,
      st.label = .thread t ⟨.spawn program args dir, result⟩ →
        ∃ u, Once (fun before' st' => Records u (program :: args) st' ∧
            Once (fun _ st'' => AllowedFor s₀.uidOf u (program :: args) st'') before') before ∧
          (u = t ∨ ∃ scopes ruleIndex,
            ⟨.checkCache scopes ruleIndex (program :: args), .hit⟩ ∈ history t before)) tr := by
  intro before st after heq t program args dir result hlabel
  obtain ⟨u, hrecord, hcached⟩ := execution_recorded hrun hempty before st after heq t program args dir result hlabel
  subst heq
  have hanswered := (approval_answered hrun hlaw hagents hfree hidle).of_append
  exact ⟨u, (hrecord.and_every hanswered).mono fun _ _ h => ⟨h.1, h.2 _ _ h.1⟩, hcached⟩

end Run

end Sudix
