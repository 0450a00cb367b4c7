import Sudix.RequestOps

/-! The audit record of a request against the course of its call. `Tells` says of each tag when it is the
one recorded, in terms of what the call did and was answered; a call that returns has emitted one record,
and it tells. -/

namespace Sudix

open Concurrent

variable {P : Platform}

section Course

variable (ctx : RequestCtx) (approver : Approver) (approvalMutex : Bool) (req : Request)

/-- The entry an event hands to the log, written or not. -/
def emitted (event : Event (sig P)) : Option Entry :=
  match event.op with
  | .appendAudit entry => some entry
  | _ => none

/-- The approver is consulted, behind its gate and right after the cache missed, and returns `approval`;
then `rest` is performed. -/
def Returned (own : History (sig P)) (approval : Approval) (rest : History (sig P)) : Prop :=
  ∃ before ruleIndex during,
    own = before ++ ⟨.checkCache ctx.bundle.ruleScopes ruleIndex req.argv, .miss⟩ :: (during ++ rest) ∧
      (gated P approvalMutex (approver.approve P ctx.callerUid req)).Follows during (.ret approval)

/-- The cache is hit, and then `rest` is performed. -/
def CacheHit (own rest : History (sig P)) : Prop :=
  ∃ before ruleIndex, own = before ++ ⟨.checkCache ctx.bundle.ruleScopes ruleIndex req.argv, .hit⟩ :: rest

/-- The request's command is run in some directory, with this result. -/
def Ran (own : History (sig P)) (result : Except IoError ProcessOutput) : Prop :=
  ∃ cwd, ⟨.spawn (req.argv.headD "") req.argv.tail cwd, result⟩ ∈ own

def Consulted (own : History (sig P)) (approval : Approval) : Prop :=
  ∃ rest, Returned ctx approver approvalMutex req own approval rest

/-- A fresh approval is followed by a run of the command. -/
def RanFresh (own : History (sig P)) (result : Except IoError ProcessOutput) : Prop :=
  ∃ rest, Returned ctx approver approvalMutex req own .allowed rest ∧ Ran req rest result

/-- A cache hit is followed by a run of the command. -/
def RanCached (own : History (sig P)) (result : Except IoError ProcessOutput) : Prop :=
  ∃ rest, CacheHit ctx req own rest ∧ Ran req rest result

/-- Neither is the approver consulted nor the command run. -/
def TurnedAway (own : History (sig P)) : Prop :=
  (∀ approval, ¬Consulted ctx approver approvalMutex req own approval) ∧ ∀ result, ¬Ran req own result

/-- The exit code of a process, `-1` when it has none. -/
def ProcessOutput.exitCode (output : ProcessOutput) : Int32 := output.code.getD (-1)

def ProcessOutput.response (output : ProcessOutput) : Response :=
  .approved output.exitCode output.stdout output.stderr

/-- A recorded tag and exit code tell the course and the response of a call. -/
structure Tells (own : History (sig P)) (resp : Response) (record : String × Option Int32) : Prop where
  executed : ∀ code, record = ("executed", some code) ↔
    ∃ output, RanFresh ctx approver approvalMutex req own (.ok output) ∧ output.exitCode = code ∧
      resp = output.response
  approvedCached : ∀ code, record = ("approved-cached", some code) ↔
    ∃ output, RanCached ctx req own (.ok output) ∧ output.exitCode = code ∧ resp = output.response
  executeError : record = ("execute-error", none) ↔ ∃ e, Ran req own (.error e)
  approverError : record = ("approver-error", none) ↔
    ∃ why, Consulted ctx approver approvalMutex req own (.error why) ∧ resp = .error why
  deniedUser : record = ("denied-user", none) ↔ Consulted ctx approver approvalMutex req own .denied
  deniedEmpty : record = ("denied-empty", none) ↔ TurnedAway ctx approver approvalMutex req own ∧ req.argv = []
  deniedReason : record = ("denied-reason", none) ↔
    TurnedAway ctx approver approvalMutex req own ∧ req.argv ≠ [] ∧ maxReasonBytes < req.reason.utf8ByteSize
  deniedPolicy : record = ("denied-policy", none) ↔
    TurnedAway ctx approver approvalMutex req own ∧ req.argv ≠ [] ∧ req.reason.utf8ByteSize ≤ maxReasonBytes ∧
      ∃ why, ctx.bundle.policy.evaluate req.argv = .denied why
  deniedCwd : record = ("denied-cwd", none) ↔
    TurnedAway ctx approver approvalMutex req own ∧
      ((∃ e, ⟨.canonicalize req.cwd, .error e⟩ ∈ own) ∨ ∃ cwd, ⟨.isDir cwd, false⟩ ∈ own)
  deniedRate : record = ("denied-rate", none) ↔
    TurnedAway ctx approver approvalMutex req own ∧
      ∃ ruleIndex, ⟨.isRateLimited ctx.bundle.ruleScopes ruleIndex, true⟩ ∈ own

/-- The way to an execution, with the kind of outcome it is audited as. -/
inductive Cleared : History (sig P) → (Int32 → Outcome) → Prop
  | cached {ruleIndex cwd} : Screened ctx req ruleIndex →
      Cleared (checked ctx req ruleIndex cwd .hit ++ [⟨.recordCacheHit ctx.bundle.ruleScopes ruleIndex, ()⟩])
        .approvedCached
  | fresh {ruleIndex cwd during} : Screened ctx req ruleIndex →
      (gated P approvalMutex (approver.approve P ctx.callerUid req)).Follows during (.ret .allowed) →
      Cleared (checked ctx req ruleIndex cwd .miss ++ during ++
        [⟨.recordApproval ctx.bundle.ruleScopes ruleIndex req.argv, ()⟩]) .executed

/-- What a call does before it looks at the cache. -/
def Op.screening : Op → Bool
  | .canonicalize _ | .isDir _ | .isRateLimited _ _ => true
  | _ => false

/-- The courses of a call up to its audit. -/
inductive Course : History (sig P) → Outcome → Response → Prop
  | refused {own outcome resp} : Decided ctx approver approvalMutex req own outcome resp →
      Only Op.screening own → Course own outcome resp
  | denied {ruleIndex cwd during} : Screened ctx req ruleIndex →
      (gated P approvalMutex (approver.approve P ctx.callerUid req)).Follows during (.ret .denied) →
      Course (checked ctx req ruleIndex cwd .miss ++ during) .deniedUser (.denied "denied by user")
  | failed {ruleIndex cwd during why} : Screened ctx req ruleIndex →
      (gated P approvalMutex (approver.approve P ctx.callerUid req)).Follows during (.ret (.error why)) →
      Course (checked ctx req ruleIndex cwd .miss ++ during) .approverError (.error why)
  | executed {own cwd outcome output} : Cleared ctx approver approvalMutex req own outcome →
      Course (own ++ [⟨.spawn (req.argv.headD "") req.argv.tail cwd, .ok output⟩]) (outcome output.exitCode)
        output.response
  | executeError {own cwd outcome e} : Cleared ctx approver approvalMutex req own outcome →
      Course (own ++ [⟨.spawn (req.argv.headD "") req.argv.tail cwd, .error e⟩]) .executeError
        (.denied ("execution failed: " ++ e))

/-- The two steps of an audit. -/
def recorded (unixSecs : Nat) (outcome : Outcome) (logged : Except IoError Unit) : History (sig P) :=
  [⟨.systemTime, unixSecs⟩, ⟨.appendAudit (Entry.of unixSecs ctx.callerUid req outcome), logged⟩]

inductive Audited : History (sig P) → Response → Prop
  | intro {own outcome resp unixSecs logged} : Course ctx approver approvalMutex req own outcome resp →
      Audited (own ++ recorded ctx req unixSecs outcome logged) resp

variable {ctx approver approvalMutex req}

theorem audit_follows {own : History (sig P)} {outcome : Outcome} {resp : Response}
    (h : Course ctx approver approvalMutex req own outcome resp) :
    (auditBestEffort P ctx.callerUid req outcome >>= fun _ => (return resp : Prog P Response)).Meets
      (fun _ _ => True) (Audited ctx approver approvalMutex req) own := by
  refine meets_call_bind.mpr ⟨trivial, fun unixSecs => meets_call_bind.mpr ⟨trivial, fun logged => ?_⟩⟩
  have haudited : Audited ctx approver approvalMutex req (own ++ recorded ctx req unixSecs outcome logged) resp :=
    .intro h
  rwa [recorded, List.append_cons] at haudited

theorem executeAndReport_follows {own : History (sig P)} {cwd : String} {outcome : Int32 → Outcome}
    (h : Cleared ctx approver approvalMutex req own outcome) :
    (executeAndReport P ctx req cwd outcome).Meets (fun _ _ => True) (Audited ctx approver approvalMutex req)
      own := by
  refine Program.meets_bind.mpr (meets_call_bind.mpr ⟨trivial, fun spawned => ?_⟩)
  cases spawned with
  | error e => exact audit_follows (.executeError h)
  | ok output => exact audit_follows (.executed h)

theorem handleRequest_audited :
    (handleRequest P ctx approver approvalMutex req).Meets (fun _ _ => True)
      (Audited ctx approver approvalMutex req) [] := by
  unfold handleRequest
  split
  · rename_i hempty
    exact audit_follows (.refused (.empty (List.isEmpty_iff.mp hempty)) only_nil)
  · rename_i hargv
    have hne : req.argv ≠ [] := fun h => hargv (List.isEmpty_iff.mpr h)
    split
    · rename_i hlong
      exact audit_follows (.refused (.reason hne hlong) only_nil)
    · rename_i hshort
      have hreason := Nat.le_of_not_lt hshort
      split
      · rename_i why hdenied
        exact audit_follows (.refused (.policy hne hreason hdenied) only_nil)
      · rename_i ruleIndex hallowed
        have hs : Screened ctx req ruleIndex := ⟨hne, hreason, hallowed⟩
        refine meets_call_bind.mpr ⟨trivial, fun path => ?_⟩
        cases path with
        | error e => exact audit_follows (.refused (.noPath hs) (by simp [Op.screening]))
        | ok cwd =>
            refine meets_call_bind.mpr ⟨trivial, fun isDir => ?_⟩
            cases isDir with
            | false => exact audit_follows (.refused (.noDir hs) (by simp [Op.screening]))
            | true =>
                refine meets_call_bind.mpr ⟨trivial, fun limited => ?_⟩
                cases limited with
                | true =>
                    exact audit_follows (.refused (.limited hs) (by simp [Op.screening]))
                | false =>
                    refine meets_call_bind.mpr ⟨trivial, fun verdict => ?_⟩
                    cases verdict with
                    | hit =>
                        exact meets_call_bind.mpr ⟨trivial, fun _ => executeAndReport_follows (.cached hs)⟩
                    | miss =>
                        refine (Program.meets_follows _).bind (fun _ _ _ => trivial) fun during approval h => ?_
                        cases approval with
                        | denied => exact audit_follows (.denied hs h)
                        | error why => exact audit_follows (.failed hs h)
                        | allowed =>
                            exact meets_call_bind.mpr
                              ⟨trivial, fun _ => executeAndReport_follows (.fresh hs h)⟩

end Course

/-- Everything but the cache check. -/
def Op.uncached : Op → Bool
  | .checkCache _ _ _ => false
  | _ => true

/-- Everything but the cache check and the execution. -/
def Op.plain : Op → Bool
  | .checkCache _ _ _ | .spawn _ _ _ => false
  | _ => true

theorem Op.plain.uncached {op : Op} (h : op.plain = true) : op.uncached = true := by
  cases op <;> first | rfl | cases h

theorem Op.screening.plain {op : Op} (h : op.screening = true) : op.plain = true := by
  cases op <;> first | rfl | cases h

theorem Op.approving.plain {op : Op} (h : op.approving = true) : op.plain = true := by
  cases op <;> first | rfl | cases h

section Summary

variable {ctx : RequestCtx} {approver : Approver} {approvalMutex : Bool} {req : Request}
  {own before during rest : History (sig P)} {approval : Approval} {ruleIndex : Nat} {cwd : String}
  {ran : Option (Except IoError ProcessOutput)}

theorem gated_only (h : (gated P approvalMutex (approver.approve P ctx.callerUid req)).Follows during
    (.ret approval)) : Only Op.approving during := by
  have hdone : GateDone approver ctx.callerUid req approvalMutex during approval :=
    (gated_meets approver ctx.callerUid req approvalMutex).follows h
  exact hdone.only

theorem Only.not_ran (h : Only Op.plain own) (result : Except IoError ProcessOutput) : ¬Ran req own result := by
  rintro ⟨cwd, hmem⟩
  exact h.not_mem rfl hmem

/-- There is one cache check, and it stands where it stands. -/
theorem cacheCheck_inj {scopes scopes' : List RuleScope} {i i' : Nat} {argv argv' : List String}
    {verdict verdict' : CacheVerdict} {before' rest' : History (sig P)} (hbefore : Only Op.uncached before)
    (hrest : Only Op.uncached rest)
    (heq : before ++ ⟨.checkCache scopes i argv, verdict⟩ :: rest =
      before' ++ ⟨.checkCache scopes' i' argv', verdict'⟩ :: rest') :
    verdict = verdict' ∧ rest = rest' := by
  obtain ⟨-, hevent, htail⟩ :=
    (List.append_cons_inj_of_notMem (hbefore.not_mem rfl) (hrest.not_mem rfl)).mp heq
  cases hevent
  exact ⟨rfl, htail⟩

/-- What the record is about: whether the approver answered, whether the cache was hit, and how the
command ran. -/
structure Summary (ctx : RequestCtx) (approver : Approver) (approvalMutex : Bool) (req : Request)
    (own : History (sig P)) (answered : Option Approval) (hit : Bool)
    (ran : Option (Except IoError ProcessOutput)) : Prop where
  consults : ∀ approval, Consulted ctx approver approvalMutex req own approval ↔ answered = some approval
  runsFresh : ∀ result, RanFresh ctx approver approvalMutex req own result ↔
    answered = some .allowed ∧ ran = some result
  runsCached : ∀ result, RanCached ctx req own result ↔ hit = true ∧ ran = some result
  runs : ∀ result, Ran req own result ↔ ran = some result

theorem Summary.turnedAway {answered : Option Approval} {hit : Bool}
    (h : Summary ctx approver approvalMutex req own answered hit ran) :
    TurnedAway ctx approver approvalMutex req own ↔ answered = none ∧ ran = none := by
  simp only [TurnedAway, h.consults, h.runs, Option.eq_none_iff_forall_ne_some, ne_eq]

/-- Nothing but the screening. -/
theorem Summary.screened (h : Only Op.plain own) : Summary ctx approver approvalMutex req own none false none := by
  have hreturned : ∀ approval rest, ¬Returned ctx approver approvalMutex req own approval rest := by
    rintro approval rest ⟨before, i, during, rfl, -⟩
    cases (only_cons.mp (only_append.mp h).2).1
  have hhit : ∀ rest, ¬CacheHit ctx req own rest := by
    rintro rest ⟨before, i, rfl⟩
    cases (only_cons.mp (only_append.mp h).2).1
  exact
    { consults := fun approval => by simp [Consulted, hreturned]
      runsFresh := fun result => by simp [RanFresh, hreturned]
      runsCached := fun result => by simp [RanCached, hhit]
      runs := fun result => by simp [h.not_ran result] }

/-- The approver is consulted. -/
theorem Summary.consulted (hbefore : Only Op.plain before) (hrest : Only Op.uncached rest)
    (hduring : (gated P approvalMutex (approver.approve P ctx.callerUid req)).Follows during (.ret approval))
    (hran : ∀ result, Ran req rest result ↔ ran = some result) :
    Summary ctx approver approvalMutex req
      (before ++ ⟨.checkCache ctx.bundle.ruleScopes ruleIndex req.argv, .miss⟩ :: (during ++ rest))
      (some approval) false ran := by
  have hplain : Only Op.plain during := (gated_only hduring).mono fun _ => Op.approving.plain
  have hbefore' := hbefore.mono fun _ => Op.plain.uncached
  have hafter : Only Op.uncached (during ++ rest) :=
    only_append.mpr ⟨hplain.mono fun _ => Op.plain.uncached, hrest⟩
  have hreturned : ∀ approval' rest', Returned ctx approver approvalMutex req
      (before ++ ⟨.checkCache ctx.bundle.ruleScopes ruleIndex req.argv, .miss⟩ :: (during ++ rest)) approval'
        rest' ↔ approval' = approval ∧ rest' = rest := by
    intro approval' rest'
    constructor
    · rintro ⟨before', i, during', heq, hduring'⟩
      obtain ⟨-, htail⟩ := cacheCheck_inj hbefore' hafter heq
      obtain ⟨-, hvalue, hrests⟩ := hduring.ret_inj hduring' htail
      exact ⟨hvalue.symm, hrests.symm⟩
    · rintro ⟨rfl, rfl⟩
      exact ⟨before, ruleIndex, during, rfl, hduring⟩
  have hhit : ∀ rest', ¬CacheHit ctx req
      (before ++ ⟨.checkCache ctx.bundle.ruleScopes ruleIndex req.argv, .miss⟩ :: (during ++ rest)) rest' := by
    rintro rest' ⟨before', i, heq⟩
    cases (cacheCheck_inj hbefore' hafter heq).1
  refine ⟨fun approval' => ?_, fun result => ?_, fun result => ?_, fun result => ?_⟩
  · simp [Consulted, hreturned, eq_comm]
  · simp [RanFresh, hreturned, hran, eq_comm]
  · simp [RanCached, hhit]
  · rw [← hran]
    constructor
    · rintro ⟨cwd, hmem⟩
      have hmem' := List.mem_append.mp hmem
      simp only [List.mem_cons, List.mem_append, Event.mk.injEq, reduceCtorEq, false_and, false_or] at hmem'
      rcases hmem' with hmem' | hmem' | hmem'
      · exact absurd hmem' (hbefore.not_mem rfl)
      · exact absurd hmem' (hplain.not_mem rfl)
      · exact ⟨cwd, hmem'⟩
    · rintro ⟨cwd, hmem⟩
      exact ⟨cwd, by simp [hmem]⟩

/-- The cache is hit. -/
theorem Summary.hit (hbefore : Only Op.plain before) (hrest : Only Op.uncached rest)
    (hran : ∀ result, Ran req rest result ↔ ran = some result) :
    Summary ctx approver approvalMutex req
      (before ++ ⟨.checkCache ctx.bundle.ruleScopes ruleIndex req.argv, .hit⟩ :: rest) none true ran := by
  have hbefore' := hbefore.mono fun _ => Op.plain.uncached
  have hreturned : ∀ approval rest', ¬Returned ctx approver approvalMutex req
      (before ++ ⟨.checkCache ctx.bundle.ruleScopes ruleIndex req.argv, .hit⟩ :: rest) approval rest' := by
    rintro approval rest' ⟨before', i, during, heq, -⟩
    cases (cacheCheck_inj hbefore' hrest heq).1
  have hhit : ∀ rest', CacheHit ctx req
      (before ++ ⟨.checkCache ctx.bundle.ruleScopes ruleIndex req.argv, .hit⟩ :: rest) rest' ↔ rest' = rest := by
    intro rest'
    constructor
    · rintro ⟨before', i, heq⟩
      exact (cacheCheck_inj hbefore' hrest heq).2.symm
    · rintro rfl
      exact ⟨before, ruleIndex, rfl⟩
  refine ⟨fun approval => ?_, fun result => ?_, fun result => ?_, fun result => ?_⟩
  · simp [Consulted, hreturned]
  · simp [RanFresh, hreturned]
  · simp [RanCached, hhit, hran]
  · rw [← hran]
    constructor
    · rintro ⟨cwd, hmem⟩
      have hmem' := List.mem_append.mp hmem
      simp only [List.mem_cons, Event.mk.injEq, reduceCtorEq, false_and, false_or] at hmem'
      rcases hmem' with hmem' | hmem'
      · exact absurd hmem' (hbefore.not_mem rfl)
      · exact ⟨cwd, hmem'⟩
    · rintro ⟨cwd, hmem⟩
      exact ⟨cwd, by simp [hmem]⟩

end Summary

section Tells

variable {ctx : RequestCtx} {approver : Approver} {approvalMutex : Bool} {req : Request}
  {own : History (sig P)} {outcome : Outcome} {resp : Response} {unixSecs : Nat} {logged : Except IoError Unit}
  {cwd : String} {kind : Int32 → Outcome}

theorem recorded_only : Only Op.plain (recorded ctx req unixSecs outcome logged : History (sig P)) := by
  simp [recorded, Op.plain]

theorem ran_cons {e : Event (sig P)} (he : e.op.plain = true) (result : Except IoError ProcessOutput) :
    Ran req (e :: own) result ↔ Ran req own result := by
  constructor
  · rintro ⟨cwd, hmem⟩
    rcases List.mem_cons.mp hmem with heq | hmem
    · rw [← heq] at he
      cases he
    · exact ⟨cwd, hmem⟩
  · rintro ⟨cwd, hmem⟩
    exact ⟨cwd, List.mem_cons_of_mem e hmem⟩

theorem recorded_ran (result result' : Except IoError ProcessOutput) :
    Ran req (⟨.spawn (req.argv.headD "") req.argv.tail cwd, result⟩ ::
        (recorded ctx req unixSecs outcome logged : History (sig P))) result' ↔ some result = some result' := by
  rw [Option.some_inj]
  constructor
  · rintro ⟨cwd', hmem⟩
    rcases List.mem_cons.mp hmem with heq | hmem
    · cases heq
      rfl
    · exact absurd hmem (recorded_only.not_mem rfl)
  · rintro rfl
    exact ⟨cwd, List.mem_cons_self⟩

theorem unlimited_only {ruleIndex : Nat} : Only Op.plain (unlimited ctx req ruleIndex cwd : History (sig P)) := by
  simp [unlimited, located, Op.plain]

/-- A run of the command shows how it came to it. -/
theorem Cleared.summary (h : Cleared ctx approver approvalMutex req own kind)
    (result : Except IoError ProcessOutput) (cwd : String) (outcome : Outcome) :
    (kind = .approvedCached ∧ Summary ctx approver approvalMutex req
        (own ++ [⟨.spawn (req.argv.headD "") req.argv.tail cwd, result⟩] ++
          recorded ctx req unixSecs outcome logged) none true (some result)) ∨
      (kind = .executed ∧ Summary ctx approver approvalMutex req
        (own ++ [⟨.spawn (req.argv.headD "") req.argv.tail cwd, result⟩] ++
          recorded ctx req unixSecs outcome logged) (some .allowed) false (some result)) := by
  have haudit : Only Op.uncached (recorded ctx req unixSecs outcome logged : History (sig P)) :=
    recorded_only.mono fun _ => Op.plain.uncached
  cases h with
  | @cached ruleIndex cwd' hs =>
      refine .inl ⟨rfl, ?_⟩
      rw [checked]
      simp only [List.append_assoc, List.singleton_append]
      refine Summary.hit unlimited_only (only_cons.mpr ⟨rfl, only_cons.mpr ⟨rfl, haudit⟩⟩) fun result' => ?_
      exact (ran_cons rfl result').trans (recorded_ran result result')
  | @fresh ruleIndex cwd' during hs hduring =>
      refine .inr ⟨rfl, ?_⟩
      rw [checked]
      simp only [List.append_assoc, List.singleton_append]
      refine Summary.consulted unlimited_only (only_cons.mpr ⟨rfl, only_cons.mpr ⟨rfl, haudit⟩⟩) hduring
        fun result' => ?_
      exact (ran_cons rfl result').trans (recorded_ran result result')

/-- The approver's refusal or failure ends a call without a run. -/
theorem consulted_summary {ruleIndex : Nat} {during : History (sig P)} {approval : Approval}
    (hduring : (gated P approvalMutex (approver.approve P ctx.callerUid req)).Follows during (.ret approval)) :
    Summary ctx approver approvalMutex req (checked ctx req ruleIndex cwd .miss ++ during ++
      recorded ctx req unixSecs outcome logged) (some approval) false none := by
  rw [checked]
  simp only [List.append_assoc, List.singleton_append]
  refine Summary.consulted unlimited_only (recorded_only.mono fun _ => Op.plain.uncached) hduring fun result => ?_
  exact iff_of_false (recorded_only.not_ran result) (by simp)

/-- A call that is turned away is so for the reason its tag names. -/
theorem tells_refused {full : History (sig P)}
    (h : Decided ctx approver approvalMutex req own outcome resp) (honly : Only Op.screening own)
    (hsummary : Summary ctx approver approvalMutex req full none false none)
    (hfull : ∀ e : Event (sig P), e.op.screening = true → (e ∈ full ↔ e ∈ own)) :
    Tells ctx approver approvalMutex req full resp outcome.asTagAndExit := by
  have haway : TurnedAway ctx approver approvalMutex req full := hsummary.turnedAway.mpr ⟨rfl, rfl⟩
  have hpath : ∀ e, (⟨.canonicalize req.cwd, .error e⟩ : Event (sig P)) ∈ full ↔ _ := fun e => hfull _ rfl
  have hdir : ∀ cwd, (⟨.isDir cwd, false⟩ : Event (sig P)) ∈ full ↔ _ := fun cwd => hfull _ rfl
  have hrate : ∀ i, (⟨.isRateLimited ctx.bundle.ruleScopes i, true⟩ : Event (sig P)) ∈ full ↔ _ :=
    fun i => hfull _ rfl
  cases h with
  | empty hargv =>
      constructor <;> simp [hsummary.consults, hsummary.runsFresh, hsummary.runsCached, hsummary.runs, haway,
        hpath, hdir, hrate, Outcome.asTagAndExit, hargv]
  | reason hargv hlong =>
      have hnot : ¬req.reason.utf8ByteSize ≤ maxReasonBytes := Nat.not_le.mpr hlong
      constructor <;> simp [hsummary.consults, hsummary.runsFresh, hsummary.runsCached, hsummary.runs, haway,
        hpath, hdir, hrate, Outcome.asTagAndExit, hargv, hlong, hnot]
  | policy hargv hshort hdenied =>
      have hnot : ¬maxReasonBytes < req.reason.utf8ByteSize := Nat.not_lt.mpr hshort
      constructor <;> simp [hsummary.consults, hsummary.runsFresh, hsummary.runsCached, hsummary.runs, haway,
        hpath, hdir, hrate, Outcome.asTagAndExit, hargv, hshort, hnot, hdenied]
  | noPath hs | noDir hs | limited hs =>
      have hnot : ¬maxReasonBytes < req.reason.utf8ByteSize := Nat.not_lt.mpr hs.reason
      constructor <;> simp [hsummary.consults, hsummary.runsFresh, hsummary.runsCached, hsummary.runs, haway,
        hpath, hdir, hrate, Outcome.asTagAndExit, hs.argv, hnot, hs.policy, located]
  | deniedUser hs hdone =>
      cases (only_cons.mp (only_append.mp (only_append.mp honly).1).2).1
  | approverError hs hdone =>
      cases (only_cons.mp (only_append.mp (only_append.mp honly).1).2).1
  | executed hready => cases (only_cons.mp (only_append.mp honly).2).1
  | executeError hready => cases (only_cons.mp (only_append.mp honly).2).1

theorem mem_recorded {e : Event (sig P)} (he : e.op.screening = true) :
    e ∈ own ++ recorded ctx req unixSecs outcome logged ↔ e ∈ own := by
  rw [List.mem_append]
  refine or_iff_left ?_
  rintro hmem
  rcases List.mem_cons.mp hmem with rfl | hmem
  · cases he
  · rw [List.mem_singleton] at hmem
    subst hmem
    cases he

section Consulted

variable {full : History (sig P)} {output : ProcessOutput}

theorem tells_denied (h : Summary ctx approver approvalMutex req full (some .denied) false none) :
    Tells ctx approver approvalMutex req full resp ("denied-user", none) := by
  constructor <;> simp [h.consults, h.runsFresh, h.runsCached, h.runs, h.turnedAway]

theorem tells_failed {why : String} (h : Summary ctx approver approvalMutex req full (some (.error why)) false none) :
    Tells ctx approver approvalMutex req full (.error why) ("approver-error", none) := by
  constructor <;> simp [h.consults, h.runsFresh, h.runsCached, h.runs, h.turnedAway]

theorem tells_cached (h : Summary ctx approver approvalMutex req full none true (some (.ok output))) :
    Tells ctx approver approvalMutex req full output.response ("approved-cached", some output.exitCode) := by
  constructor <;> simp [h.consults, h.runsFresh, h.runsCached, h.runs, h.turnedAway]

theorem tells_fresh (h : Summary ctx approver approvalMutex req full (some .allowed) false (some (.ok output))) :
    Tells ctx approver approvalMutex req full output.response ("executed", some output.exitCode) := by
  constructor <;> simp [h.consults, h.runsFresh, h.runsCached, h.runs, h.turnedAway]

theorem tells_executeError {answered : Option Approval} {hit : Bool} {e : IoError}
    (h : Summary ctx approver approvalMutex req full answered hit (some (.error e)))
    (hanswered : answered = none ∨ answered = some .allowed) :
    Tells ctx approver approvalMutex req full resp ("execute-error", none) := by
  rcases hanswered with rfl | rfl
  · constructor <;> simp [h.consults, h.runsFresh, h.runsCached, h.runs, h.turnedAway]
  · constructor <;> simp [h.consults, h.runsFresh, h.runsCached, h.runs, h.turnedAway]

end Consulted

theorem Course.tells (h : Course ctx approver approvalMutex req own outcome resp) :
    Tells ctx approver approvalMutex req (own ++ recorded ctx req unixSecs outcome logged) resp
      outcome.asTagAndExit := by
  cases h with
  | refused hdecided honly =>
      refine tells_refused hdecided honly (.screened ?_) fun e => mem_recorded
      exact only_append.mpr ⟨honly.mono fun _ => Op.screening.plain, recorded_only⟩
  | denied hs hduring => exact tells_denied (consulted_summary hduring)
  | failed hs hduring => exact tells_failed (consulted_summary hduring)
  | @executed own cwd outcome output hcleared =>
      rcases hcleared.summary (.ok output) cwd (outcome output.exitCode) with ⟨rfl, hsummary⟩ | ⟨rfl, hsummary⟩
      · exact tells_cached hsummary
      · exact tells_fresh hsummary
  | @executeError own cwd outcome e hcleared =>
      rcases hcleared.summary (.error e) cwd .executeError with ⟨-, hsummary⟩ | ⟨-, hsummary⟩
      · exact tells_executeError hsummary (.inl rfl)
      · exact tells_executeError hsummary (.inr rfl)

theorem Cleared.only (h : Cleared ctx approver approvalMutex req own kind) : Only Op.pursuing own := by
  cases h with
  | cached hs => exact only_append.mpr ⟨checked_only, only_cons.mpr ⟨rfl, only_nil⟩⟩
  | fresh hs hduring =>
      rw [only_append, only_append]
      exact ⟨⟨checked_only, (gated_only hduring).mono fun _ => Op.approving.pursuing⟩,
        only_cons.mpr ⟨rfl, only_nil⟩⟩

theorem Course.only (h : Course ctx approver approvalMutex req own outcome resp) : Only Op.pursuing own := by
  cases h with
  | refused hdecided honly => exact hdecided.only
  | denied hs hduring | failed hs hduring =>
      exact only_append.mpr ⟨checked_only, (gated_only hduring).mono fun _ => Op.approving.pursuing⟩
  | executed hcleared | executeError hcleared =>
      exact only_append.mpr ⟨hcleared.only, only_cons.mpr ⟨rfl, only_nil⟩⟩

/-- Before its audit a call hands nothing to the log. -/
theorem emitted_pursuing (h : Only Op.pursuing own) : own.filterMap emitted = [] := by
  rw [List.filterMap_eq_nil_iff]
  rintro ⟨op, answer⟩ he
  cases op with
  | appendAudit entry => cases h _ he
  | _ => rfl

/-- **The record tells what happened.** A call of `handle_request` that returns has handed one record to
the log, about its own request, and the tag and exit code of the record tell the course of the call. -/
theorem record_tells (h : (handleRequest P ctx approver approvalMutex req).Follows own (.ret resp)) :
    ∃ entry, own.filterMap emitted = [entry] ∧
      (entry.callerUid = ctx.callerUid ∧ entry.argv = req.argv ∧ entry.cwd = req.cwd ∧ entry.reason = req.reason) ∧
      Tells ctx approver approvalMutex req own resp (entry.outcome, entry.exitCode) := by
  have haudited : Audited ctx approver approvalMutex req own resp := handleRequest_audited.follows h
  cases haudited with
  | @intro own outcome resp unixSecs logged hcourse =>
      refine ⟨Entry.of unixSecs ctx.callerUid req outcome, ?_, ⟨rfl, rfl, rfl, rfl⟩, hcourse.tells⟩
      rw [List.filterMap_append, emitted_pursuing hcourse.only]
      rfl

end Tells

/-- One rule, neither cached nor capped. -/
def killedCtx : RequestCtx :=
  ⟨⟨⟨[], [⟨[.literal "id"], literal_ne_nil _, restOnlyLast_literal _⟩]⟩, [⟨0, 0⟩], [1000]⟩, 1000⟩

def killedRequest : Request := ⟨["id"], "/tmp", "", none⟩

/-- The command is approved, and its process is killed. -/
def killedCourse : History (sig Platform.bare) :=
  [⟨.canonicalize "/tmp", .ok "/tmp"⟩, ⟨.isDir "/tmp", true⟩, ⟨.isRateLimited [⟨0, 0⟩] 0, false⟩,
    ⟨.checkCache [⟨0, 0⟩] 0 ["id"], .miss⟩, ⟨.lock .approvalMutex, false⟩, ⟨.consult 1000 killedRequest, .allowed⟩,
    ⟨.unlock .approvalMutex, ()⟩, ⟨.recordApproval [⟨0, 0⟩] 0 ["id"], ()⟩,
    ⟨.spawn "id" [] "/tmp", .ok ⟨none, "", ""⟩⟩, ⟨.systemTime, 7⟩,
    ⟨.appendAudit ⟨7, 1000, ["id"], "/tmp", "", "executed", some (-1)⟩, .ok ()⟩]

/-- A killed process is recorded as executed, with the exit code `-1` of its response. -/
theorem record_tells_killed :
    (handleRequest Platform.bare killedCtx .external true killedRequest).Follows killedCourse
        (.ret (.approved (-1) "" "")) ∧
      ∃ output, RanFresh killedCtx .external true killedRequest killedCourse (.ok output) ∧
        output.exitCode = -1 := by
  have hcourse : (handleRequest Platform.bare killedCtx .external true killedRequest).Follows killedCourse
      (.ret (.approved (-1) "" "")) := by
    iterate 11 refine .step ?_
    exact .refl
  refine ⟨hcourse, ?_⟩
  obtain ⟨entry, hentry, -, htells⟩ := record_tells hcourse
  obtain rfl : ⟨7, 1000, ["id"], "/tmp", "", "executed", some (-1)⟩ = entry := (List.cons.inj hentry).1
  obtain ⟨output, hran, hcode, -⟩ := (htells.executed (-1)).mp rfl
  exact ⟨output, hran, hcode⟩

end Sudix
