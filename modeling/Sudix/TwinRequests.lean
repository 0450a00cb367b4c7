import Sudix.ConcurrentTwins
import Sudix.DecisionRecord

/-! Two requests for the same command in the same directory, with one-time codes and reasons of their own.
Served under one schedule they are answered alike: what differs is the reason in the audit record, and what an
approver is shown. -/

namespace Sudix

open Concurrent

variable {P : Platform} {req req' : Request} {s s' : Daemon} {t : Tid} {callerUid : Uid}

section Likeness

variable (req req' : Request)

/-- Entries with the reasons of the two requests, and equal otherwise. -/
def Veiled (e e' : Entry) : Prop := e.reason = req.reason ∧ e' = { e with reason := req'.reason }

/-- The operations of the two calls. -/
inductive TwinOp (callerUid : Uid) : Op → Op → Prop
  | same (op : Op) : TwinOp callerUid op op
  | consult : TwinOp callerUid (.consult callerUid req) (.consult callerUid req')
  | audit {e e' : Entry} (hentry : Veiled req req' e e') : TwinOp callerUid (.appendAudit e) (.appendAudit e')

/-- The events of the two calls: the approver answers both requests alike, and the log may take one record and
not the other. -/
inductive TwinEvent (callerUid : Uid) : Event (sig P) → Event (sig P) → Prop
  | same (event : Event (sig P)) : TwinEvent callerUid event event
  | consult (approval : Approval) :
      TwinEvent callerUid ⟨.consult callerUid req, approval⟩ ⟨.consult callerUid req', approval⟩
  | audit {e e' : Entry} (hentry : Veiled req req' e e') (logged logged' : Except IoError Unit)
      (hsame : e = e' → logged = logged') :
      TwinEvent callerUid ⟨.appendAudit e, logged⟩ ⟨.appendAudit e', logged'⟩

/-- The states are equal but for their logs, and these are equal if the reasons are. -/
structure SameButLog (s s' : Daemon) : Prop where
  rest : s = { s' with auditLog := s.auditLog }
  log : req.reason = req'.reason → s.auditLog = s'.auditLog

/-- The likeness of two runs in which thread `t` serves one request and the other. -/
def likeness (P : Platform) (t : Tid) (callerUid : Uid) : Likeness (sig P) Daemon Tid where
  op u := if u = t then TwinOp req req' callerUid else Eq
  event u := if u = t then TwinEvent req req' callerUid else Eq
  state := SameButLog req req'

end Likeness

theorem SameButLog.refl (s : Daemon) : SameButLog req req' s s := ⟨rfl, fun _ => rfl⟩

theorem SameButLog.eq (h : SameButLog req req' s s') (hreason : req.reason = req'.reason) : s = s' := by
  rw [h.rest, h.log hreason]

/-- Both append to their logs. -/
theorem SameButLog.append (h : SameButLog req req' s s') {log log' : List Entry}
    (hlog : req.reason = req'.reason → log = log') :
    SameButLog req req' { s with auditLog := s.auditLog ++ log } { s' with auditLog := s'.auditLog ++ log' } where
  rest := congrArg (fun d => { d with auditLog := s.auditLog ++ log }) h.rest
  log hreason := by
    show s.auditLog ++ log = s'.auditLog ++ log'
    rw [h.log hreason, hlog hreason]

theorem Veiled.eq_of_reason {e e' : Entry} (h : Veiled req req' e e') (hreason : req.reason = req'.reason) :
    e' = e := by
  rw [h.2, ← hreason, ← h.1]

/-- No event of the environment looks at the log. -/
theorem env_relog (u : Daemon) (log : List Entry) (event : Env) :
    env P { u with auditLog := log } event = (env P u event).map fun u' => { u' with auditLog := log } := by
  cases event
  all_goals
    simp only [env]
    repeat' split
    all_goals rfl

def Op.logs : Op → Bool
  | .appendAudit _ => true
  | _ => false

/-- No operation looks at the log. -/
theorem act_relog {op : Op} (h : op.logs = false) (u : Daemon) (log : List Entry) (choice : Choice op) :
    act P { u with auditLog := log } t op choice =
      (act P u t op choice).map fun r => (r.1, { r.2 with auditLog := log }) := by
  cases op
  all_goals first
    | cases h
      done
    | simp only [act]
      repeat' split
      all_goals rfl

theorem SameButLog.env (h : SameButLog req req' s s') (event : Env) :
    Option.Rel (SameButLog req req') (Sudix.env P s event) (Sudix.env P s' event) := by
  have hmap : Sudix.env P s event =
      (Sudix.env P s' event).map fun u' => { u' with auditLog := s.auditLog } := by
    conv_lhs => rw [h.rest]
    exact env_relog s' s.auditLog event
  cases hs' : Sudix.env P s' event with
  | none =>
      rw [hmap, hs']
      exact .none
  | some u' =>
      rw [hs'] at hmap
      rw [hmap]
      refine .some ⟨rfl, fun hreason => ?_⟩
      obtain rfl := h.eq hreason
      rw [hs'] at hmap
      exact congrArg Daemon.auditLog (Option.some.inj hmap).symm

/-- One operation on both sides. -/
theorem SameButLog.act (h : SameButLog req req' s s') (op : Op) (choice : Choice op) :
    Option.Rel (fun a b => a.1 = b.1 ∧ SameButLog req req' a.2 b.2)
      (Sudix.act P s t op choice) (Sudix.act P s' t op choice) := by
  cases hlogs : op.logs with
  | true =>
      cases op with
      | appendAudit entry =>
          cases choice with
          | error e => exact .some ⟨rfl, h⟩
          | ok _ => exact .some ⟨rfl, h.append fun _ => rfl⟩
      | _ => cases hlogs
  | false =>
      have hmap : Sudix.act P s t op choice =
          (Sudix.act P s' t op choice).map fun r => (r.1, { r.2 with auditLog := s.auditLog }) := by
        conv_lhs => rw [h.rest]
        exact act_relog hlogs s' s.auditLog choice
      cases hs' : Sudix.act P s' t op choice with
      | none =>
          rw [hmap, hs']
          exact .none
      | some r =>
          rw [hs'] at hmap
          rw [hmap]
          refine .some ⟨rfl, rfl, fun hreason => ?_⟩
          obtain rfl := h.eq hreason
          rw [hs'] at hmap
          exact congrArg (fun r => r.2.auditLog) (Option.some.inj hmap).symm

/-- Records of the two requests are appended, or not. -/
theorem SameButLog.act_audit (h : SameButLog req req' s s') {e e' : Entry} (hentry : Veiled req req' e e')
    {logged logged' : Except IoError Unit} (hlogged : e = e' → logged = logged') :
    Option.Rel (fun a b => TwinEvent (P := P) req req' callerUid ⟨.appendAudit e, a.1⟩ ⟨.appendAudit e', b.1⟩ ∧
        SameButLog req req' a.2 b.2)
      (Sudix.act P s t (.appendAudit e) logged) (Sudix.act P s' t (.appendAudit e') logged') := by
  have hsame : req.reason = req'.reason → logged = logged' :=
    fun hreason => hlogged (hentry.eq_of_reason hreason).symm
  refine .some ⟨.audit hentry _ _ hlogged, ?_⟩
  cases logged with
  | error _ =>
      cases logged' with
      | error _ => exact h
      | ok _ => exact ⟨h.rest, fun hreason => absurd (hsame hreason) (by simp)⟩
  | ok _ =>
      cases logged' with
      | error _ =>
          refine ⟨?_, fun hreason => absurd (hsame hreason) (by simp)⟩
          exact congrArg (fun d => { d with auditLog := s.auditLog ++ [e] }) h.rest
      | ok _ => exact h.append fun hreason => by rw [hentry.eq_of_reason hreason]

/-- The operation of the thread that serves the requests, when the approver answers both alike. -/
theorem SameButLog.act_twin (h : SameButLog req req' s s') {op op' : Op} (hop : TwinOp req req' callerUid op op')
    {choice : (op : Op) → Choice op}
    (hanswer : choice (.consult callerUid req) = choice (.consult callerUid req')) :
    Option.Rel (fun a b => TwinEvent (P := P) req req' callerUid ⟨op, a.1⟩ ⟨op', b.1⟩ ∧ SameButLog req req' a.2 b.2)
      (Sudix.act P s t op (choice op)) (Sudix.act P s' t op' (choice op')) := by
  cases hop with
  | same =>
      refine rel_mono (h.act op (choice op)) fun a b hab => ⟨?_, hab.2⟩
      rw [hab.1]
      exact .same _
  | consult =>
      refine .some ⟨?_, h⟩
      rw [hanswer]
      exact .consult _
  | audit hentry => exact h.act_audit hentry fun heq => by rw [heq]

/-- The same operation is answered the same. -/
theorem TwinEvent.answer_eq {op : Op} {answer answer' : Answer P op}
    (h : TwinEvent req req' callerUid (⟨op, answer⟩ : Event (sig P)) ⟨op, answer'⟩) : answer = answer' := by
  cases h with
  | same => rfl
  | consult => rfl
  | audit hentry logged logged' hsame => exact hsame rfl

theorem TwinEvent.approval_eq {approval approval' : Approval}
    (h : TwinEvent req req' callerUid (⟨.consult callerUid req, approval⟩ : Event (sig P))
      ⟨.consult callerUid req', approval'⟩) : approval = approval' := by
  cases h with
  | same => rfl
  | consult => rfl

/-- The commands of the two requests are one. -/
structure SameCommand (req req' : Request) : Prop where
  argv : req.argv = req'.argv
  cwd : req.cwd = req'.cwd

theorem SameCommand.veiled (h : SameCommand req req') (unixSecs : Nat) (outcome : Outcome) :
    Veiled req req' (Entry.of unixSecs callerUid req outcome) (Entry.of unixSecs callerUid req' outcome) := by
  refine ⟨rfl, ?_⟩
  rw [Entry.of, Entry.of, h.argv, h.cwd]

/-- Two requests for one command, and relations that hold of what their calls do outside the approver. -/
structure Pairs (callerUid : Uid) (req req' : Request) (O : Op → Op → Prop)
    (E : Event (sig P) → Event (sig P) → Prop) : Prop extends SameCommand req req' where
  same : ∀ op, O op op
  answer_eq : ∀ op answer answer', E ⟨op, answer⟩ ⟨op, answer'⟩ → answer = answer'
  entry : ∀ unixSecs outcome, O (.appendAudit (Entry.of unixSecs callerUid req outcome))
    (.appendAudit (Entry.of unixSecs callerUid req' outcome))

namespace Pairs

variable {α : Type} {ctx : RequestCtx} {approver : Approver} {approvalMutex : Bool} {O : Op → Op → Prop}
  {E : Event (sig P) → Event (sig P) → Prop}

theorem call {op : Op} {f f' : Answer P op → Prog P α} (h : Pairs callerUid req req' O E)
    (hf : ∀ answer, (f answer).Matches O E (f' answer)) :
    (call P op >>= f).Matches O E (Sudix.call P op >>= f') := by
  refine .call (h.same op) fun answer answer' hevent => ?_
  obtain rfl := h.answer_eq op answer answer' hevent
  exact hf answer

theorem audit (h : Pairs ctx.callerUid req req' O E) (outcome : Outcome) :
    (auditBestEffort P ctx.callerUid req outcome).Matches O E (auditBestEffort P ctx.callerUid req' outcome) :=
  h.call fun unixSecs => .call (h.entry unixSecs outcome) fun _ _ _ => .ret ()

theorem refuse (h : Pairs ctx.callerUid req req' O E) (outcome : Outcome) (resp : Response) :
    (Sudix.refuse P ctx req outcome resp).Matches O E (Sudix.refuse P ctx req' outcome resp) :=
  (h.audit outcome).bind fun _ => .ret resp

theorem execute (h : Pairs callerUid req req' O E) (cwd : String) :
    (Sudix.execute P req cwd).Matches O E (Sudix.execute P req' cwd) := by
  unfold Sudix.execute
  rw [h.argv]
  refine h.call fun result => ?_
  cases result with
  | error e => exact .ret _
  | ok output => exact .ret _

theorem executeAndReport (h : Pairs ctx.callerUid req req' O E) (cwd : String) (outcome : Int32 → Outcome) :
    (Sudix.executeAndReport P ctx req cwd outcome).Matches O E
      (Sudix.executeAndReport P ctx req' cwd outcome) := by
  refine (h.execute cwd).bind fun result => ?_
  cases result with
  | error e => exact (h.audit _).bind fun _ => .ret _
  | ok output => exact (h.audit _).bind fun _ => .ret _

theorem gated (h : Pairs callerUid req req' O E) {ask ask' : Prog P Approval} (hask : ask.Matches O E ask') :
    (Sudix.gated P approvalMutex ask).Matches O E (Sudix.gated P approvalMutex ask') := by
  cases approvalMutex with
  | false => exact hask
  | true => exact h.call fun _ => hask.bind fun approval => h.call fun _ => .ret approval

/-- **The two calls side by side.** -/
theorem handleRequest (h : Pairs ctx.callerUid req req' O E) (hreason : req.reason.utf8ByteSize ≤ maxReasonBytes)
    (hreason' : req'.reason.utf8ByteSize ≤ maxReasonBytes)
    (hask : (approver.approve P ctx.callerUid req).Matches O E (approver.approve P ctx.callerUid req')) :
    (Sudix.handleRequest P ctx approver approvalMutex req).Matches O E
      (Sudix.handleRequest P ctx approver approvalMutex req') := by
  unfold Sudix.handleRequest
  rw [← h.argv, ← h.cwd]
  by_cases hempty : req.argv.isEmpty = true
  · rw [if_pos hempty, if_pos hempty]
    exact h.refuse _ _
  · rw [if_neg hempty, if_neg hempty, if_neg (Nat.not_lt_of_le hreason), if_neg (Nat.not_lt_of_le hreason')]
    cases ctx.bundle.policy.evaluate req.argv with
    | denied why => exact h.refuse _ _
    | allowed ruleIndex =>
        refine h.call fun path => ?_
        cases path with
        | error e => exact h.refuse _ _
        | ok cwd =>
            refine h.call fun isDir => ?_
            cases isDir with
            | false => exact h.refuse _ _
            | true =>
                refine h.call fun limited => ?_
                cases limited with
                | true => exact h.refuse _ _
                | false =>
                    refine h.call fun verdict => ?_
                    cases verdict with
                    | hit => exact h.call fun _ => h.executeAndReport cwd _
                    | miss =>
                        refine (h.gated hask).bind fun approval => ?_
                        cases approval with
                        | denied => exact h.refuse _ _
                        | error why => exact h.refuse _ _
                        | allowed => exact h.call fun _ => h.executeAndReport cwd _

end Pairs

/-- The approver does not tell the two requests apart: the answer of an external one is given, TOTP looks at the
code, and an agent is shown the reason. -/
def Approver.AsksAlike (req req' : Request) : Approver → Prop
  | .external => True
  | .totp => req.otp = req'.otp
  | .agent _ _ => req.reason = req'.reason

/-- The code of a request is not shown to the agent. -/
theorem agent_approve_eq (h : SameCommand req req') (hreason : req.reason = req'.reason)
    (registerWait rounds : Nat) :
    AgentApprover.approve P registerWait rounds callerUid req =
      AgentApprover.approve P registerWait rounds callerUid req' := by
  unfold AgentApprover.approve
  apply bind_congr
  intro start
  apply bind_congr
  intro found
  cases found with
  | none => rfl
  | some c => rw [h.argv, h.cwd, hreason]

theorem totp_approve_eq (hotp : req.otp = req'.otp) : TotpApprover.approve P req = TotpApprover.approve P req' := by
  unfold TotpApprover.approve
  rw [hotp]

theorem Approver.AsksAlike.matches {approver : Approver} {O : Op → Op → Prop}
    {E : Event (sig P) → Event (sig P) → Prop} (hasks : approver.AsksAlike req req')
    (h : Pairs callerUid req req' O E) (hop : O (.consult callerUid req) (.consult callerUid req'))
    (hevent : ∀ approval approval' : Approval,
      E ⟨.consult callerUid req, approval⟩ ⟨.consult callerUid req', approval'⟩ → approval = approval') :
    (approver.approve P callerUid req).Matches O E (approver.approve P callerUid req') := by
  cases approver with
  | external =>
      refine .call hop fun approval approval' happrovals => ?_
      obtain rfl := hevent approval approval' happrovals
      exact .ret approval
  | totp =>
      have hask : Approver.approve P .totp callerUid req = Approver.approve P .totp callerUid req' :=
        totp_approve_eq hasks
      rw [hask]
      exact .refl h.same h.answer_eq _
  | agent registerWait rounds =>
      have hask : Approver.approve P (.agent registerWait rounds) callerUid req =
          Approver.approve P (.agent registerWait rounds) callerUid req' :=
        agent_approve_eq h.toSameCommand hasks registerWait rounds
      rw [hask]
      exact .refl h.same h.answer_eq _

/-- Requests that differ in their codes only are served by an agent as one. -/
theorem handleRequest_agent_eq {ctx : RequestCtx} {approvalMutex : Bool} (h : SameCommand req req')
    (hreason : req.reason = req'.reason) (hshort : req.reason.utf8ByteSize ≤ maxReasonBytes)
    (registerWait rounds : Nat) :
    handleRequest P ctx (.agent registerWait rounds) approvalMutex req =
      handleRequest P ctx (.agent registerWait rounds) approvalMutex req' := by
  have hpairs : Pairs (P := P) ctx.callerUid req req' Eq Eq :=
    { h with
      same := fun _ => rfl
      answer_eq := fun op answer answer' heq => by cases heq; rfl
      entry := fun unixSecs outcome => congrArg _ ((h.veiled unixSecs outcome).eq_of_reason hreason).symm }
  have hask : Approver.approve P (.agent registerWait rounds) ctx.callerUid req =
      Approver.approve P (.agent registerWait rounds) ctx.callerUid req' :=
    agent_approve_eq h hreason registerWait rounds
  refine (hpairs.handleRequest hshort (hreason ▸ hshort) ?_).eq (fun _ _ heq => heq) fun _ => rfl
  rw [hask]
  exact .refl hpairs.same hpairs.answer_eq _

/-- What an event executes: the program, its arguments and the directory. -/
def launched (event : Event (sig P)) : Option (String × List String × String) :=
  match event.op with
  | .spawn program args dir => some (program, args, dir)
  | _ => none

/-- The call an event makes of the approval state. -/
def scopingOp (event : Event (sig P)) : Option Op :=
  match event.op with
  | .isRateLimited scopes ruleIndex => some (.isRateLimited scopes ruleIndex)
  | .checkCache scopes ruleIndex argv => some (.checkCache scopes ruleIndex argv)
  | .recordCacheHit scopes ruleIndex => some (.recordCacheHit scopes ruleIndex)
  | .recordApproval scopes ruleIndex argv => some (.recordApproval scopes ruleIndex argv)
  | _ => none

/-- The outcome and the exit code of a record. -/
def Entry.verdict (e : Entry) : String × Option Int32 := (e.outcome, e.exitCode)

/-- Two histories execute the same and make the same calls of the approval state; their records have the same
outcomes, and are the same if the reasons are. -/
structure ShowAlike (req req' : Request) (own own' : History (sig P)) : Prop where
  executed : own.filterMap launched = own'.filterMap launched
  scoping : own.filterMap scopingOp = own'.filterMap scopingOp
  outcomes : (own.filterMap emitted).map Entry.verdict = (own'.filterMap emitted).map Entry.verdict
  records : req.reason = req'.reason → own.filterMap emitted = own'.filterMap emitted

section Show

variable {event event' : Event (sig P)} {own own' : History (sig P)}

/-- What is shown neither of consultations nor of records. -/
theorem TwinEvent.shown {α : Type} {f : Event (sig P) → Option α} (h : TwinEvent req req' callerUid event event')
    (hconsult : ∀ r approval, f ⟨.consult callerUid r, approval⟩ = none)
    (haudit : ∀ e logged, f ⟨.appendAudit e, logged⟩ = none) : f event = f event' := by
  cases h with
  | same => rfl
  | consult approval => rw [hconsult, hconsult]
  | audit hentry logged logged' hsame => rw [haudit, haudit]

/-- The records differ in the reasons. -/
theorem TwinEvent.emitted (h : TwinEvent req req' callerUid event event') :
    Option.Rel (fun e e' => e.verdict = e'.verdict ∧ (req.reason = req'.reason → e = e'))
      (Sudix.emitted event) (Sudix.emitted event') := by
  cases h with
  | same =>
      cases Sudix.emitted event with
      | none => exact .none
      | some e => exact .some ⟨rfl, fun _ => rfl⟩
  | consult => exact .none
  | audit hentry =>
      refine .some ⟨?_, fun hreason => (hentry.eq_of_reason hreason).symm⟩
      rw [hentry.2]
      rfl

theorem showAlike_of_forall₂ (h : List.Forall₂ (TwinEvent req req' callerUid) own own') :
    ShowAlike req req' own own' := by
  have hemitted : List.Forall₂ (fun e e' => e.verdict = e'.verdict ∧ (req.reason = req'.reason → e = e'))
      (own.filterMap emitted) (own'.filterMap emitted) :=
    List.rel_filterMap (fun _ _ hevent => TwinEvent.emitted hevent) h
  refine ⟨?_, ?_, ?_, fun hreason => ?_⟩
  · exact filterMap_eq_of_forall₂ h fun _ _ hevent => hevent.shown (fun _ _ => rfl) fun _ _ => rfl
  · exact filterMap_eq_of_forall₂ h fun _ _ hevent => hevent.shown (fun _ _ => rfl) fun _ _ => rfl
  · rw [← List.forall₂_eq_eq_eq]
    exact List.rel_map (fun _ _ he => he.1) hemitted
  · rw [← List.forall₂_eq_eq_eq]
    exact hemitted.imp fun _ _ he => he.2 hreason

end Show

/-- Two points in which thread `t` has served two requests the same way: what it returns, executes and audits is
the same, the states differ in their logs only, and not at all if the reasons are the same, and no other thread
has noticed. -/
structure ServedAlike (t : Tid) (req req' : Request) (c c' : Point (sig P) Daemon Tid Env Response) : Prop where
  response : ∀ resp, c.pool t = .ret resp ↔ c'.pool t = .ret resp
  approvals : c.state.approvals = c'.state.approvals
  state : c.state = { c'.state with auditLog := c.state.auditLog }
  log : req.reason = req'.reason → c.state.auditLog = c'.state.auditLog
  shown : ShowAlike req req' (history t c.trace) (history t c'.trace)
  others : ∀ u, u ≠ t → c.pool u = c'.pool u

section Runs

variable {others : Pool (sig P) Tid Response} {p p' : Prog P Response}

theorem twins_start (hp : p.Matches (TwinOp req req' callerUid) (TwinEvent req req' callerUid) p') :
    Twins (likeness req req' P t callerUid)
      (⟨[], s, Function.update others t p⟩ : Point (sig P) Daemon Tid Env Response)
      ⟨[], s, Function.update others t p'⟩ where
  state := .refl s
  pool u := by
    by_cases hu : u = t
    · subst hu
      simpa [likeness] using hp
    · simp only [likeness, if_neg hu, Function.update_of_ne hu]
      exact .refl (fun _ => rfl) (fun op answer answer' heq => by cases heq; rfl) _
  history u := .nil

theorem servedAlike_of_twins {c c' : Point (sig P) Daemon Tid Env Response}
    (h : Twins (likeness req req' P t callerUid) c c') : ServedAlike t req req' c c' := by
  have hpool : (c.pool t).Matches (TwinOp req req' callerUid) (TwinEvent req req' callerUid) (c'.pool t) := by
    simpa [likeness] using h.pool t
  have hhistory : List.Forall₂ (TwinEvent req req' callerUid) (history t c.trace) (history t c'.trace) := by
    simpa [likeness] using h.history t
  have hstate : SameButLog req req' c.state c'.state := h.state
  refine
    { response := hpool.ret_iff
      approvals := by rw [hstate.rest]
      state := hstate.rest
      log := hstate.log
      shown := showAlike_of_forall₂ hhistory
      others := fun u hu => ?_ }
  have hother : (c.pool u).Matches Eq Eq (c'.pool u) := by simpa [likeness, hu] using h.pool u
  exact hother.eq (fun _ _ heq => heq) fun _ => rfl

/-- Paired programs serve alike under every schedule. -/
theorem replay_servedAlike {ctx : RequestCtx} {moves : List (Move (world P))}
    (hp : p.Matches (TwinOp req req' ctx.callerUid) (TwinEvent req req' ctx.callerUid) p')
    (hanswer : ∀ choice, Move.thread t choice ∈ moves →
      choice (.consult ctx.callerUid req) = choice (.consult ctx.callerUid req')) :
    Option.Rel (ServedAlike t req req') (replay (world P) ⟨[], s, Function.update others t p⟩ moves)
      (replay (world P) ⟨[], s, Function.update others t p'⟩ moves) := by
  refine rel_mono (replay_twins (twins_start hp) moves (fun _ _ event h => h.env event) ?_)
    fun _ _ => servedAlike_of_twins
  intro u choice hmem s₁ s₁' op op' hstate hop
  by_cases hu : u = t
  · subst hu
    simp only [likeness, if_pos] at hop ⊢
    exact SameButLog.act_twin hstate hop (hanswer choice hmem)
  · simp only [likeness, if_neg hu] at hop ⊢
    subst hop
    refine rel_mono (SameButLog.act hstate op (choice op)) fun a b hab => ⟨?_, hab.2⟩
    rw [hab.1]

end Runs

end Sudix
