import Sudix.ConcurrentTally
import Sudix.Executions

/-! The audit log as a ledger: it is to answer what was run as root. While log writes succeed, what is executed is
what the log says was executed, command for command, but for the workers that are about to write it down. -/

namespace Sudix

open Concurrent

variable {P : Platform} {approver : Approver} {approvalMutex : Bool} {c : Conn} {own own' : History (sig P)}
  {callerUid : Uid}

/-- Who ran which command, and its exit code if it could be started. -/
structure RootRun where
  callerUid : Uid
  argv : List String
  exitCode : Option Int32

def Execution.rootRun (callerUid : Uid) (e : Execution) : RootRun :=
  ⟨callerUid, e.argv, e.result.toOption.map ProcessOutput.exitCode⟩

/-- What a record says was run. -/
def Entry.rootRun (e : Entry) : Option RootRun :=
  if e.outcome ∈ ["executed", "approved-cached", "execute-error"] then some ⟨e.callerUid, e.argv, e.exitCode⟩
  else none

/-- A history records what it executes. -/
def Squared (callerUid : Uid) (own : History (sig P)) : Prop :=
  (own.filterMap execution).map (Execution.rootRun callerUid) = (own.filterMap logged).filterMap Entry.rootRun

/-- Operations that neither execute nor record. -/
def Op.unbooked : Op → Bool
  | .spawn _ _ _ | .appendAudit _ => false
  | _ => true

/-- The operations between an execution and its record. -/
def Op.booking : Op → Bool
  | .systemTime | .appendAudit _ => true
  | _ => false

theorem Op.opening.unbooked {op : Op} (h : op.opening = true) : op.unbooked = true := by
  cases op <;> first | rfl | cases h

theorem Only.squared (h : Only Op.unbooked own) : Squared callerUid own := by
  rw [Squared, unexecuted h fun _ _ _ => rfl, unlogged h fun _ => rfl]
  rfl

theorem Squared.append (h : Squared callerUid own) (h' : Only Op.unbooked own') : Squared callerUid (own ++ own') := by
  rw [Squared, List.filterMap_append, List.filterMap_append, unexecuted h' fun _ _ _ => rfl, unlogged h' fun _ => rfl,
    List.append_nil, List.append_nil]
  exact h

theorem ReloadStage.unbooked {op : Op} (h : ReloadStage own op) : Only Op.unbooked own := by
  cases h with
  | unlock hreloaded => exact hreloaded.only.mono fun _ => Op.opening.unbooked
  | _ => simp [looked, swapped, Op.unbooked]

theorem WriteStage.unbooked {resp : Response} {op : Op} (h : WriteStage c resp own op) : Only Op.unbooked own := by
  cases h with
  | write _ => exact only_nil
  | flush _ => simp [Op.unbooked]

theorem WriteDone.unbooked {resp : Response} {result : Except IoError Unit} (h : WriteDone c resp own result) :
    Only Op.unbooked own := by
  cases h with
  | unserializable _ => exact only_nil
  | failed _ | flushed _ => simp [Op.unbooked]

theorem RegisterStage.unbooked {op : Op} (h : RegisterStage c callerUid own op) : Only Op.unbooked own := by
  cases h with
  | tryClone => exact only_nil
  | insert | wait | remove => simp [Op.unbooked]

theorem RegisterDone.unbooked {result : Except IoError Unit} (h : RegisterDone c callerUid own result) :
    Only Op.unbooked own := by
  cases h with
  | failed | removed => simp [Op.unbooked]

section Request

variable {ctx : RequestCtx} {req : Request}

/-- The record of a decision says what the decision has run. -/
theorem Decided.rootRun {outcome : Outcome} {resp : Response} (unixSecs : Nat)
    (h : Decided ctx approver approvalMutex req own outcome resp) :
    (own.filterMap execution).map (Execution.rootRun ctx.callerUid) =
      (Entry.of unixSecs ctx.callerUid req outcome).rootRun.toList := by
  cases h with
  | empty _ | reason _ _ | policy _ _ _ | noPath _ | noDir _ | limited _ => rfl
  | deniedUser _ hgate | approverError _ hgate =>
      rw [List.filterMap_append, checked_unexecuted, unexecuted hgate.only fun _ _ _ => rfl]
      rfl
  | @executed own cwd outcome output hready =>
      have hargv := hready.command.1
      rw [List.filterMap_append, hready.unexecuted]
      show [(⟨ctx.callerUid, req.argv.headD "" :: req.argv.tail, some output.exitCode⟩ : RootRun)] = _
      rw [hargv]
      cases hready with
      | cached _ | fresh _ _ => rfl
  | executeError hready =>
      have hargv := hready.command.1
      rw [List.filterMap_append, hready.unexecuted]
      show [(⟨ctx.callerUid, req.argv.headD "" :: req.argv.tail, none⟩ : RootRun)] = _
      rw [hargv]
      rfl

/-- A request that has executed is about to record it. -/
theorem RequestStage.pending {op : Op} (h : RequestStage ctx approver approvalMutex req own op) :
    own.filterMap execution = [] ∨ (op.booking = true ∧ (own.filterMap execution).length = 1) := by
  have hdecided : ∀ {own' : History (sig P)} {outcome resp}, Decided ctx approver approvalMutex req own' outcome resp →
      own'.filterMap execution = [] ∨ (own'.filterMap execution).length = 1 := by
    intro own' outcome resp hdecided
    have hlength := congrArg List.length (hdecided.rootRun 0)
    rw [List.length_map] at hlength
    cases hrun : (Entry.of 0 ctx.callerUid req outcome).rootRun with
    | none =>
        rw [hrun] at hlength
        exact .inl (List.length_eq_zero_iff.mp hlength)
    | some run =>
        rw [hrun] at hlength
        exact .inr hlength
  cases h with
  | canonicalize _ | isDir _ | isRateLimited _ | checkCache _ | recordCacheHit _ => exact .inl rfl
  | approve _ hgate =>
      rw [List.filterMap_append, checked_unexecuted, unexecuted hgate.only fun _ _ _ => rfl]
      exact .inl rfl
  | recordApproval _ hgate =>
      rw [List.filterMap_append, checked_unexecuted, unexecuted hgate.only fun _ _ _ => rfl]
      exact .inl rfl
  | spawn hready => exact .inl hready.unexecuted
  | systemTime h => exact (hdecided h).imp id fun hone => ⟨rfl, hone⟩
  | appendAudit h =>
      rw [List.filterMap_append]
      show _ ++ [] = [] ∨ _
      rw [List.append_nil]
      refine (hdecided h).imp id fun hone => ⟨rfl, ?_⟩
      show (_ ++ []).length = 1
      rw [List.append_nil, hone]

end Request

section Connection

variable (huid : ∀ u, ⟨.peerUid, .ok u⟩ ∈ own → u = callerUid)
  (hwritable : ∀ entry e, ⟨.appendAudit entry, .error e⟩ ∉ own)

include huid hwritable

/-- What an answered connection has executed is on record. -/
theorem Answered.squared {resp : Response} (h : Answered c approver approvalMutex own resp) :
    Squared callerUid own := by
  rcases h.cases with hrefused |
      ⟨own₁, loaded, uid, req, own₂, outcome, unixSecs, result, hadmitted, hdecided, rfl⟩
  · exact (hrefused.only.mono fun _ => Op.opening.unbooked).squared
  · obtain rfl : uid = callerUid := huid uid (by simp [hadmitted.peerUid.1])
    have hresult : result = .ok () := by
      cases result with
      | ok _ => rfl
      | error e => exact absurd (by simp) (hwritable (Entry.of unixSecs uid req outcome) e)
    have hrun := hdecided.rootRun unixSecs
    have hopening : Only Op.unbooked own₁ := hadmitted.only.mono fun _ => Op.opening.unbooked
    simp only [Squared, List.filterMap_append, unexecuted hopening fun _ _ _ => rfl, unlogged hopening fun _ => rfl,
      unlogged hdecided.only fun _ => rfl, hresult]
    show ([] ++ (own₂.filterMap execution ++ [] ++ [])).map _ = _
    rw [List.nil_append, List.append_nil, List.append_nil, hrun]
    cases hrootRun : (Entry.of unixSecs uid req outcome).rootRun with
    | none => simp [logged, hrootRun]
    | some run => simp [logged, hrootRun]

/-- The books of a worker are squared, but between an execution and its record. -/
theorem ConnectionStage.squared {op : Op} (h : ConnectionStage c approver approvalMutex own op) :
    Squared callerUid own ∨ (op.booking = true ∧ (own.filterMap execution).length = 1 ∧ own.filterMap logged = []) := by
  have hopened : ∀ {own' : History (sig P)}, Only Op.opening own' → Squared callerUid own' :=
    fun h => (h.mono fun _ => Op.opening.unbooked).squared
  cases h with
  | reload hreload => exact .inl hreload.unbooked.squared
  | snapshot hreload => exact .inl (hopened hreload.only)
  | peerUid hreload => exact .inl (hopened (only_append.mpr ⟨hreload.only, by simp [Op.opening]⟩))
  | tryClone hid _ => exact .inl (hopened hid.only)
  | read hid _ hread =>
      cases hread with
      | recv hreading _ =>
          refine .inl (hopened (only_append.mpr ⟨only_append.mpr ⟨hid.only, by simp [Op.opening]⟩, fun e he => ?_⟩))
          obtain ⟨n, hop⟩ := hreading.ops e he
          rw [hop]
          rfl
  | @request own₁ loaded uid req own₂ op hadmitted hrequest =>
      have hopening : own₁.filterMap execution = [] := unexecuted hadmitted.only fun _ _ _ => rfl
      have hnone : (own₁ ++ own₂).filterMap logged = [] := by
        rw [List.filterMap_append, unlogged hadmitted.only fun _ => rfl, unlogged hrequest.only fun _ => rfl]
        rfl
      have hexecution : (own₁ ++ own₂).filterMap execution = own₂.filterMap execution := by
        rw [List.filterMap_append, hopening, List.nil_append]
      rw [Squared, hnone, hexecution]
      refine hrequest.pending.imp (fun hunexecuted => ?_) fun hbooking => ⟨hbooking.1, hbooking.2, rfl⟩
      rw [hunexecuted]
      rfl
  | register hadmitted hregister =>
      exact .inl (only_append.mpr ⟨hadmitted.only.mono fun _ => Op.opening.unbooked, hregister.unbooked⟩).squared
  | respond hanswered hwrite =>
      refine .inl ((hanswered.squared (fun u hu => huid u ?_) fun entry e he => hwritable entry e ?_).append
        hwrite.unbooked)
      · exact List.mem_append_left _ hu
      · exact List.mem_append_left _ he

theorem ConnectionDone.squared {result : Except IoError Unit}
    (h : ConnectionDone c approver approvalMutex own result) : Squared callerUid own := by
  have hopened : ∀ {own' : History (sig P)}, Only Op.opening own' → Squared callerUid own' :=
    fun h => (h.mono fun _ => Op.opening.unbooked).squared
  cases h with
  | answered hanswered hwrite =>
      refine (hanswered.squared (fun u hu => huid u ?_) fun entry e he => hwritable entry e ?_).append hwrite.unbooked
      · exact List.mem_append_left _ hu
      · exact List.mem_append_left _ he
  | noPeer hreload => exact hopened (by simp [hreload.only, Op.opening])
  | noClone hid _ => exact hopened (by simp [hid.only, Op.opening])
  | noLine hid _ hline => exact hopened (by simp [hid.only, hline.only, Op.opening])
  | closed hgreeted => exact hopened hgreeted.only
  | registered hadmitted hregister =>
      exact (only_append.mpr ⟨hadmitted.only.mono fun _ => Op.opening.unbooked, hregister.unbooked⟩).squared

end Connection

theorem Squared.cons {event : Event (sig P)} (h : Squared callerUid own) (hop : event.op.unbooked = true) :
    Squared callerUid (event :: own) := by
  have hone : Only Op.unbooked [event] := only_cons.mpr ⟨hop, only_nil⟩
  rw [Squared, ← List.singleton_append, List.filterMap_append, List.filterMap_append, unexecuted hone fun _ _ _ => rfl,
    unlogged hone fun _ => rfl]
  exact h

/-- A worker between an execution and its record. -/
def Recording (q : Prog P (Except IoError Unit)) : Prop := ∃ op next, q = .call op next ∧ op.booking = true

section Run

variable {s₀ s : Daemon} {ps : Pool (sig P) Tid (Except IoError Unit)} {tr : Trace (sig P) Daemon Tid Env}

/-- What a step runs as root. -/
def rootRun (uidOf : Conn → Uid) (c : Conn) (event : Event (sig P)) : Option RootRun :=
  (execution event).map (Execution.rootRun (uidOf c))

theorem worker_squared (hrun : Run (world P) s₀ (workers P approver approvalMutex) tr s ps)
    (hwritable : LogWritable tr) (c : Conn) :
    Squared (s₀.uidOf c) (history c tr) ∨ (Recording (ps c) ∧ (executedBy c tr).length = 1 ∧ loggedBy c tr = []) := by
  have huid : ∀ u, ⟨.peerUid, .ok u⟩ ∈ history c tr → u = s₀.uidOf c := fun u hu => peerUid_eq hrun hu
  have hlog : ∀ entry e, ⟨.appendAudit entry, .error e⟩ ∉ history c tr := by
    intro entry e hmem
    obtain ⟨st, hst, hlabel⟩ := mem_history.mp hmem
    exact hwritable st hst c entry e hlabel
  have hmeets := hrun.meets workers_meets c
  rw [executedBy, loggedBy]
  generalize history c tr = own at huid hlog hmeets ⊢
  cases hnext : ps c with
  | ret result =>
      rw [hnext] at hmeets
      cases hmeets with
      | released hdone =>
          refine .inl (Squared.append (Squared.cons (hdone.squared (fun u hu => huid u ?_) fun entry e he =>
            hlog entry e ?_) rfl) (by simp [Op.unbooked]))
          · simp [hu]
          · simp [he]
  | call op next =>
      rw [hnext] at hmeets
      cases hmeets.1 with
      | acquire => exact .inl rfl
      | connection hstage =>
          rcases hstage.squared (fun u hu => huid u (List.mem_cons_of_mem _ hu)) fun entry e he =>
            hlog entry e (List.mem_cons_of_mem _ he) with hsquared | ⟨hop, hone, hnone⟩
          · exact .inl (hsquared.cons rfl)
          · refine .inr ⟨⟨op, next, rfl, hop⟩, ?_, ?_⟩
            · rw [List.filterMap_cons_none rfl, hone]
            · rw [List.filterMap_cons_none rfl, hnone]
      | release hdone =>
          exact .inl ((hdone.squared (fun u hu => huid u (List.mem_cons_of_mem _ hu)) fun entry e he =>
            hlog entry e (List.mem_cons_of_mem _ he)).cons rfl)

/-- What the log has gained says what its steps have recorded. -/
theorem logged_rootRuns (hrun : Run (world P) s₀ (workers P approver approvalMutex) tr s ps)
    (hempty : s₀.auditLog = []) :
    s.auditLog.filterMap Entry.rootRun =
      tr.filterMap (Step.item fun (_ : Conn) event => (logged event).bind Entry.rootRun) := by
  rw [auditLog_eq hrun, hempty, List.nil_append, List.filterMap_filterMap]
  refine List.filterMap_congr fun st _ => ?_
  obtain ⟨pre, label, post⟩ := st
  cases label with
  | thread t event => rfl
  | env event => rfl

/-- **The log is the ledger of what was run as root.** In every state that a run with a writable log reaches, what has
been executed is, up to order, what the records say was executed and one execution for each worker that is about to
write its record. So nothing is recorded that was not executed, nothing twice, and once no worker is about to write a
record the two are the same. -/
theorem executed_is_logged (hrun : Run (world P) s₀ (workers P approver approvalMutex) tr s ps)
    (hempty : s₀.auditLog = []) (hwritable : LogWritable tr) :
    ∃ owing : Finset Conn, (∀ c ∈ owing, Recording (ps c) ∧ (executedBy c tr).length = 1) ∧
      (tr.filterMap (Step.item (rootRun s₀.uidOf)) : Multiset RootRun) =
        (s.auditLog.filterMap Entry.rootRun : Multiset RootRun) +
          ∑ c ∈ owing, ((executedBy c tr).map (Execution.rootRun (s₀.uidOf c)) : Multiset RootRun) := by
  classical
  refine ⟨(movers tr).filter fun c => ¬ Squared (s₀.uidOf c) (history c tr), ?_, ?_⟩
  · intro c hc
    obtain ⟨hrecording, hone, -⟩ :=
      (worker_squared hrun hwritable c).resolve_left (Finset.mem_filter.mp hc).2
    exact ⟨hrecording, hone⟩
  · have hmovers : ∀ c, history c tr ≠ [] → c ∈ movers tr := fun c => mem_movers_of_history
    have hexecuted : ∀ c, (history c tr).filterMap (rootRun s₀.uidOf c) =
        (executedBy c tr).map (Execution.rootRun (s₀.uidOf c)) := fun c => List.map_filterMap.symm
    have hrecorded : ∀ c, (history c tr).filterMap (fun event => (logged event).bind Entry.rootRun) =
        (loggedBy c tr).filterMap Entry.rootRun := fun c => List.filterMap_filterMap.symm
    rw [logged_rootRuns hrun hempty, items_eq_sum _ (movers tr) hmovers, items_eq_sum _ (movers tr) hmovers,
      Finset.sum_filter, ← Finset.sum_add_distrib]
    refine Finset.sum_congr rfl fun c _ => ?_
    rw [hexecuted, hrecorded]
    by_cases hsquared : Squared (s₀.uidOf c) (history c tr)
    · rw [if_neg (not_not.mpr hsquared), add_zero]
      exact congrArg _ hsquared
    · obtain ⟨-, -, hnone⟩ := (worker_squared hrun hwritable c).resolve_left hsquared
      rw [if_pos hsquared, hnone]
      exact (zero_add _).symm

end Run

/-- In the run of the executed command, the record and the command are the same. -/
theorem executedRun_is_logged :
    ∃ c, executedRun = some c ∧ c.trace.filterMap (Step.item (rootRun strangerDaemon.uidOf)) =
      [⟨1000, ["id"], some 0⟩] ∧ ∃ owing : Finset Conn, (∀ n ∈ owing, Recording (c.pool n)) ∧
        (c.trace.filterMap (Step.item (rootRun strangerDaemon.uidOf)) : Multiset RootRun) =
          (c.state.auditLog.filterMap Entry.rootRun : Multiset RootRun) + ∑ n ∈ owing,
            ((executedBy n c.trace).map (Execution.rootRun (strangerDaemon.uidOf n)) : Multiset RootRun) := by
  obtain ⟨c, hc, hrun, hlog, -⟩ := executedRun_steps
  obtain ⟨owing, howing, hledger⟩ := executed_is_logged hrun rfl (logWritable_of_forall hlog)
  refine ⟨c, hc, ?_, owing, fun n hn => (howing n hn).1, hledger⟩
  obtain rfl := Option.some.inj hc
  rfl

end Sudix
