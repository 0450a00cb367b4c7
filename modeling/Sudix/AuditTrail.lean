import Sudix.AgentAuthority
import Sudix.RequestOps

/-! What the audit log says about a response. A response that answers a command comes after exactly
one record of that command. A connection that is turned away before a request of it is evaluated is
answered without a record: the log is about requests, and there is none yet. -/

namespace Sudix

open Concurrent

variable {P : Platform} {approver : Approver} {approvalMutex : Bool} {s₀ s : Daemon}
  {ps : Pool (sig P) Tid (Except IoError Unit)} {tr : Trace (sig P) Daemon Tid Env} {c t : Conn}
  {own : History (sig P)}

/-- The entry an event adds to the log. -/
def logged (event : Event (sig P)) : Option Entry :=
  match event with
  | ⟨.appendAudit entry, .ok ()⟩ => some entry
  | _ => none

/-- The entries a thread has added to the log. -/
def loggedBy (t : Tid) (tr : Trace (sig P) Daemon Tid Env) : List Entry := (history t tr).filterMap logged

/-- The entry a step adds to the log. -/
def stepLogged (st : Step (sig P) Daemon Tid Env) : Option Entry :=
  match st.label with
  | .thread _ event => logged event
  | .env _ => none

/-- No write to the log fails. -/
def LogWritable (tr : Trace (sig P) Daemon Tid Env) : Prop :=
  ∀ st ∈ tr, ∀ t entry e, st.label ≠ .thread t ⟨.appendAudit entry, .error e⟩

theorem act_auditLog {s s' : Daemon} {op : Op} {choice : Choice op} {answer : Answer P op}
    (h : act P s t op choice = some (answer, s')) : s'.auditLog = s.auditLog ++ (logged ⟨op, answer⟩).toList := by
  cases op
  case appendAudit entry =>
    cases choice with
    | ok _ =>
        cases h
        rfl
    | error e =>
        cases h
        exact (List.append_nil _).symm
  all_goals
    simp only [act] at h
    repeat' split at h
    all_goals first
      | cases h
        done
      | cases h
        exact (List.append_nil _).symm

theorem env_auditLog {s s' : Daemon} {event : Env} (h : env P s event = some s') : s'.auditLog = s.auditLog := by
  rcases env_changes h with ⟨_, rfl⟩ | ⟨_, rfl⟩ | ⟨_, _, rfl⟩ | ⟨_, rfl⟩ | ⟨_, _, rfl⟩
  all_goals rfl

theorem legal_auditLog {st : Step (sig P) Daemon Tid Env} (h : st.Legal (world P)) :
    st.post.auditLog = st.pre.auditLog ++ (stepLogged st).toList := by
  obtain ⟨pre, label, post⟩ := st
  cases label with
  | thread t event =>
      obtain ⟨choice, hact⟩ := h
      exact act_auditLog hact
  | env event => exact (env_auditLog h).trans (List.append_nil _).symm

/-- The log grows by the entries of the steps, in their order. -/
theorem auditLog_eq {α : Type} {p₀ qs : Pool (sig P) Tid α} (hrun : Run (world P) s₀ p₀ tr s qs) :
    s.auditLog = s₀.auditLog ++ tr.filterMap stepLogged := by
  refine hrun.world_invariant (I := fun tr s => s.auditLog = s₀.auditLog ++ tr.filterMap stepLogged)
    (List.append_nil _).symm ?_
  intro tr st ih hlegal
  rw [legal_auditLog hlegal, ih, List.filterMap_append, List.append_assoc]
  congr 2

theorem mem_auditLog {α : Type} {p₀ qs : Pool (sig P) Tid α} (hrun : Run (world P) s₀ p₀ tr s qs)
    {entry : Entry} (h : ⟨.appendAudit entry, .ok ()⟩ ∈ history t tr) : entry ∈ s.auditLog := by
  obtain ⟨st, hst, hlabel⟩ := mem_history.mp h
  rw [auditLog_eq hrun]
  refine List.mem_append_right _ (List.mem_filterMap.mpr ⟨st, hst, ?_⟩)
  simp [stepLogged, hlabel, logged]

theorem unlogged {q : Op → Bool} (h : Only q own) (hq : ∀ entry, q (.appendAudit entry) = false) :
    own.filterMap logged = [] := by
  rw [List.filterMap_eq_nil_iff]
  rintro ⟨op, answer⟩ he
  cases op with
  | appendAudit entry =>
      have hop := h _ he
      rw [hq entry] at hop
      cases hop
  | _ => rfl

section Answers

variable (c : Conn) (approver : Approver) (approvalMutex : Bool)

/-- The refusals of a connection that has brought no request yet. -/
inductive Unevaluated : History (sig P) → Response → Prop
  | reloadFailed {own e} : ReloadDone own (.error e) →
      Unevaluated own (.error ("config reload failed; request refused: " ++ e.display))
  | unauthorized {own loaded callerUid} : Identified own loaded callerUid →
      loaded.bundle.agentUids.contains callerUid = false → Unevaluated own (.denied "caller uid not authorized")
  | tooLarge {own loaded callerUid line} : Greeted c own loaded callerUid line → Sudix.tooLarge line →
      Unevaluated own (.denied "request too large")
  | malformed {own loaded callerUid line e} : Greeted c own loaded callerUid line →
      Hello.fromLine P.json line = .error e → Unevaluated own (.denied ("malformed request: " ++ e))

/-- The connection has brought the command `req`, and it is decided with this outcome and response. -/
def Evaluated (own : History (sig P)) (callerUid : Uid) (req : Request) (outcome : Outcome) (resp : Response) :
    Prop :=
  ∃ own₁ loaded own₂, Admitted c own₁ loaded callerUid (.command req) ∧
    Decided ⟨loaded.bundle, callerUid⟩ approver approvalMutex req own₂ outcome resp ∧ own₁ ++ own₂ <+: own

/-- What is sent on connection `t` is a response, and either it turns the connection away with no
record by its worker, or it answers a command with exactly one, that of the command. -/
def AnsweredOnRecord (uidOf : Conn → Uid) (before : Trace (sig P) Daemon Tid Env)
    (st : Step (sig P) Daemon Tid Env) : Prop :=
  ∀ t bytes written, st.label = .thread t ⟨.writeAll t bytes, written⟩ →
    ∃ own resp line, history t before = ⟨.acquireSlot, ()⟩ :: own ∧ resp.toLine P.json = .ok line ∧
      bytes = utf8 line ∧
      ((Unevaluated t own resp ∧ loggedBy t before = []) ∨
        ∃ req outcome unixSecs, Evaluated t approver approvalMutex own (uidOf t) req outcome resp ∧
          loggedBy t before = [Entry.of unixSecs (uidOf t) req outcome] ∧
          Entry.of unixSecs (uidOf t) req outcome ∈ st.pre.auditLog)

end Answers

theorem Unevaluated.only {resp : Response} (h : Unevaluated c own resp) : Only Op.opening own := by
  cases h with
  | reloadFailed hreload => exact hreload.only
  | unauthorized hid _ => exact hid.only
  | tooLarge hgreeted _ | malformed hgreeted _ => exact hgreeted.only

/-- An answer turns the connection away, or it ends a request with its record. -/
theorem Answered.cases {resp : Response} (h : Answered c approver approvalMutex own resp) :
    Unevaluated c own resp ∨
      ∃ own₁ loaded callerUid req own₂ outcome unixSecs logged, Admitted c own₁ loaded callerUid (.command req) ∧
        Decided ⟨loaded.bundle, callerUid⟩ approver approvalMutex req own₂ outcome resp ∧
        own = own₁ ++ (own₂ ++ [⟨.systemTime, unixSecs⟩] ++
          [⟨.appendAudit (Entry.of unixSecs callerUid req outcome), logged⟩]) := by
  cases h with
  | reloadFailed hreload => exact .inl (.reloadFailed hreload)
  | unauthorized hid hauth => exact .inl (.unauthorized hid hauth)
  | tooLarge hgreeted _ hlarge => exact .inl (.tooLarge hgreeted hlarge)
  | malformed hgreeted _ _ hline => exact .inl (.malformed hgreeted hline)
  | command hadmitted hdone =>
      cases hdone with
      | audited hdecided => exact .inr ⟨_, _, _, _, _, _, _, _, hadmitted, hdecided, rfl⟩

/-- A worker writes its response, or the prompt of the request it serves. -/
theorem WorkerStage.writeAll_inv {c' : Conn} {bytes : List UInt8}
    (h : WorkerStage c approver approvalMutex own (.writeAll c' bytes)) :
    (∃ own₁ resp line, Answered c approver approvalMutex own₁ resp ∧ resp.toLine P.json = .ok line ∧
      bytes = utf8 line ∧ own = ⟨.acquireSlot, ()⟩ :: own₁) ∨
    ∃ own₁ loaded callerUid req own₂, Admitted c own₁ loaded callerUid (.command req) ∧
      RequestStage ⟨loaded.bundle, callerUid⟩ approver approvalMutex req own₂ (.writeAll c' bytes) ∧
      own = ⟨.acquireSlot, ()⟩ :: own₁ ++ own₂ := by
  cases h with
  | connection hconnection =>
      cases hconnection with
      | reload hreload => cases hreload
      | read _ _ hread => cases hread
      | request hadmitted hrequest => exact .inr ⟨_, _, _, _, _, hadmitted, hrequest, rfl⟩
      | register _ hregister => cases hregister
      | respond hanswered hwrite =>
          cases hwrite with
          | write hline => exact .inl ⟨_, _, _, hanswered, hline, rfl, by rw [List.append_nil]⟩

/-- The connection a request writes to is the one the registry gave it. -/
theorem RequestStage.writeAll_lookup {ctx : RequestCtx} {req : Request} {bytes : List UInt8}
    (h : RequestStage ctx approver approvalMutex req own (.writeAll c bytes)) :
    ∃ u, ⟨.lookupAgent u, some c⟩ ∈ own := by
  have hagent : ∀ {own' : History (sig P)}, approver.Stage ctx.callerUid req own' (.writeAll c bytes) →
      ∃ u, ⟨.lookupAgent u, some c⟩ ∈ own' := by
    intro own' happrove
    cases happrove with
    | totp htotp => cases htotp
    | agent hstage =>
        cases hstage with
        | await hawait => cases hawait
        | prompt hfound hprompt =>
            obtain rfl := of_decide_eq_true hprompt.only.1
            exact ⟨ctx.callerUid, by simp [hfound.mem_lookup]⟩
  cases h with
  | approve _ hgate =>
      cases hgate with
      | ungated happrove =>
          obtain ⟨u, hmem⟩ := hagent happrove
          exact ⟨u, List.mem_append_right _ hmem⟩
      | held happrove =>
          obtain ⟨u, hmem⟩ := hagent happrove
          exact ⟨u, List.mem_append_right _ (List.mem_cons_of_mem _ hmem)⟩

section Run

variable (hrun : Run (world P) s₀ (workers P approver approvalMutex) tr s ps)

include hrun

/-- The connection a lookup gives has been registered by its own worker. -/
theorem insertAgent_of_lookup (hempty : s₀.registry = fun _ => none) {u : Uid}
    (h : ⟨.lookupAgent u, some c⟩ ∈ history t tr) : ⟨.insertAgent u c, ()⟩ ∈ history c tr := by
  obtain ⟨before, pre, post, after, ps', rfl, hbefore, hlegal⟩ := hrun.split_event h
  have hentry : pre.registry u = some c := (legal_lookupAgent hlegal).1.symm
  obtain ⟨before', st, after', rfl, ⟨t', hreg⟩, -⟩ := registry_since hbefore hempty hentry
  obtain ⟨rfl, -⟩ := (hbefore.every_pre workers_meets before' st after' rfl t' _ hreg).insertAgent_inv
  rw [history_append]
  exact List.mem_append_left _ (mem_history.mpr ⟨st, by simp, hreg⟩)

/-- No worker prompts on its own connection. -/
theorem not_own_prompt (hempty : s₀.registry = fun _ => none) {own₁ own₂ : History (sig P)} {loaded : Loaded}
    {callerUid : Uid} {req : Request} {bytes : List UInt8}
    (hadmitted : Admitted t own₁ loaded callerUid (.command req))
    (hrequest : RequestStage ⟨loaded.bundle, callerUid⟩ approver approvalMutex req own₂ (.writeAll t bytes))
    (hown : history t tr = ⟨.acquireSlot, ()⟩ :: own₁ ++ own₂) : False := by
  obtain ⟨u, hlookup⟩ := hrequest.writeAll_lookup
  have hinsert := insertAgent_of_lookup hrun hempty (c := t) (t := t) (u := u) (by rw [hown]; simp [hlookup])
  rw [hown, List.cons_append, List.mem_cons, List.mem_append] at hinsert
  rcases hinsert with h | h | h
  · cases h
  · exact hadmitted.only.not_mem rfl h
  · exact hrequest.only.not_mem rfl h

/-- **Evaluated requests are logged.** In every run of the workers whose log writes succeed, a response
to a command comes after exactly one record, that of the command, and every other response after none. -/
theorem answered_on_record (hempty : s₀.registry = fun _ => none) (hwritable : LogWritable tr) :
    Every (AnsweredOnRecord approver approvalMutex s₀.uidOf) tr := by
  rintro before ⟨pre, label, post⟩ after rfl t bytes written hlabel
  obtain rfl : label = _ := hlabel
  have hstage := hrun.every_pre workers_meets before _ after rfl t _ rfl
  obtain ⟨⟨ps', hbefore⟩, -⟩ := hrun.before
  rcases hstage.writeAll_inv with ⟨own, resp, line, hanswered, hline, hbytes, hown⟩ |
      ⟨own₁, loaded, callerUid, req, own₂, hadmitted, hrequest, hown⟩
  · refine ⟨own, resp, line, hown, hline, hbytes, ?_⟩
    rcases hanswered.cases with hrefused |
        ⟨own₁, loaded, callerUid, req, own₂, outcome, unixSecs, result, hadmitted, hdecided, rfl⟩
    · have hopening : own.filterMap logged = [] := unlogged hrefused.only fun _ => rfl
      refine .inl ⟨hrefused, ?_⟩
      rw [loggedBy, hown, List.filterMap_cons_none rfl, hopening]
    · have huid : callerUid = s₀.uidOf t := peerUid_eq hbefore (by simp [hown, hadmitted.peerUid.1])
      subst huid
      have hlog : (⟨.appendAudit (Entry.of unixSecs (s₀.uidOf t) req outcome), result⟩ : Event (sig P)) ∈
          history t before := by simp [hown]
      obtain rfl : result = .ok () := by
        cases result with
        | ok _ => rfl
        | error e =>
            obtain ⟨st, hst, hlabel⟩ := mem_history.mp hlog
            exact absurd hlabel (hwritable st (List.mem_append_left _ hst) t _ e)
      have hopening : own₁.filterMap logged = [] := unlogged hadmitted.only fun _ => rfl
      have hpursuing : own₂.filterMap logged = [] := unlogged hdecided.only fun _ => rfl
      refine .inr ⟨req, outcome, unixSecs, ⟨own₁, loaded, own₂, hadmitted, hdecided, ?_⟩, ?_,
        mem_auditLog hbefore hlog⟩
      · rw [List.append_assoc own₂, ← List.append_assoc own₁]
        exact List.prefix_append _ _
      · rw [loggedBy, hown, List.filterMap_cons_none rfl, List.filterMap_append, List.filterMap_append,
          List.filterMap_append, hopening, hpursuing]
        rfl
  · exact absurd hown fun hown => not_own_prompt hbefore hempty hadmitted hrequest hown

end Run

/-- Whether a step is a failing write to the log. -/
def failsLog (st : Step (sig P) Daemon Tid Env) : Bool :=
  match st.label with
  | .thread _ ⟨.appendAudit _, .error _⟩ => true
  | _ => false

theorem logWritable_of_forall (h : ∀ st ∈ tr, failsLog st = false) : LogWritable tr := by
  intro st hst t entry e hlabel
  have hfails := h st hst
  rw [failsLog, hlabel] at hfails
  cases hfails

/-- A response comes after exactly one record of its worker. -/
def RecordedOnce (before : Trace (sig P) Daemon Tid Env) (st : Step (sig P) Daemon Tid Env) : Prop :=
  ∀ t bytes written, st.label = .thread t ⟨.writeAll t bytes, written⟩ → (loggedBy t before).length = 1

def responseTexts : List (Response × String) :=
  [(.denied "caller uid not authorized", "\x7b\"decision\":\"denied\",\"why\":\"caller uid not authorized\"\x7d"),
    (.approved 0 "" "", "\x7b\"decision\":\"approved\",\"exit_code\":0,\"stdout\":\"\",\"stderr\":\"\"\x7d")]

def strangerPlatform : Platform :=
  { Platform.bare with json := SerdeJson.ofTables helloTexts [] [] responseTexts }

/-- Connection 0 is of uid 1001, which is not in `agent_uids`; the others are of uid 1000. -/
def strangerDaemon : Daemon :=
  { reconnectDaemon with
    uidOf := fun c => if c = 0 then 1001 else 1000
    channel := fun _ => arrived idLine }

def strangerWorkers : Pool (sig strangerPlatform) Tid (Except IoError Unit) :=
  workers strangerPlatform .external false

/-- The stranger is turned away. -/
def strangerRun : Option (Point (sig strangerPlatform) Daemon Tid Env (Except IoError Unit)) :=
  replay (world strangerPlatform) ⟨[], strangerDaemon, strangerWorkers⟩
    (List.replicate 8 (.thread 0 (smooth 55 .allowed)))

/-- Connection 1 has its command approved and executed. -/
def executedRun : Option (Point (sig strangerPlatform) Daemon Tid Env (Except IoError Unit)) :=
  replay (world strangerPlatform) ⟨[], strangerDaemon, strangerWorkers⟩
    (List.replicate 19 (.thread 1 (smooth 55 .allowed)))

theorem strangerRun_steps :
    ∃ c, strangerRun = some c ∧
      Run (world strangerPlatform) strangerDaemon strangerWorkers c.trace c.state c.pool ∧
      (∀ st ∈ c.trace, failsLog st = false) ∧ c.state.auditLog = [] ∧
      ∃ st bytes, c.trace = c.trace.take 7 ++ [st] ∧ st.label = .thread 0 ⟨.writeAll 0 bytes, .ok ()⟩ ∧
        (loggedBy 0 (c.trace.take 7)).length = 0 := by
  obtain ⟨c, hc⟩ : ∃ c, strangerRun = some c := ⟨_, rfl⟩
  refine ⟨c, hc, run_of_replay .start hc, ?_⟩
  obtain rfl := Option.some.inj hc
  exact ⟨by decide +kernel, rfl, _, _, rfl, rfl, rfl⟩

/-- The stranger's refusal is sent, although log writes succeed, without a record. -/
theorem refused_without_record :
    ∃ c, strangerRun = some c ∧
      Run (world strangerPlatform) strangerDaemon strangerWorkers c.trace c.state c.pool ∧
      LogWritable c.trace ∧ c.state.auditLog = [] ∧ ¬ Every RecordedOnce c.trace := by
  obtain ⟨c, hc, hrun, hlog, hempty, st, bytes, heq, hlabel, hnone⟩ := strangerRun_steps
  refine ⟨c, hc, hrun, logWritable_of_forall hlog, hempty, fun honce => ?_⟩
  have hone := honce _ st [] heq 0 bytes _ hlabel
  omega

theorem executedRun_steps :
    ∃ c, executedRun = some c ∧
      Run (world strangerPlatform) strangerDaemon strangerWorkers c.trace c.state c.pool ∧
      (∀ st ∈ c.trace, failsLog st = false) ∧ c.state.auditLog.length = 1 ∧
      ∃ st ∈ c.trace, ∃ bytes, st.label = .thread 1 ⟨.writeAll 1 bytes, .ok ()⟩ := by
  obtain ⟨c, hc⟩ : ∃ c, executedRun = some c := ⟨_, rfl⟩
  refine ⟨c, hc, run_of_replay .start hc, ?_⟩
  obtain rfl := Option.some.inj hc
  exact ⟨by decide +kernel, rfl, _, List.mem_of_getElem? (i := 18) rfl, _, rfl⟩

/-- The execution is answered on record. -/
theorem executedRun_on_record :
    ∃ c, executedRun = some c ∧ c.state.auditLog.length = 1 ∧
      (∃ st ∈ c.trace, ∃ bytes, st.label = .thread 1 ⟨.writeAll 1 bytes, .ok ()⟩) ∧
      Every (AnsweredOnRecord .external false strangerDaemon.uidOf) c.trace := by
  obtain ⟨c, hc, hrun, hlog, hone, hanswer⟩ := executedRun_steps
  exact ⟨c, hc, hone, hanswer, answered_on_record hrun rfl (logWritable_of_forall hlog)⟩

end Sudix
