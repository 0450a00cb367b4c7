import Sudix.Pipeline
import Sudix.ScopingTrace

/-! Gate soundness of the decision pipeline. In any interleaving of requests over one bundle and one
approval state, the approver is asked once and only past every check, and a command is executed once
and only on an `Allowed` of its own call or on a cache entry that stands for the `Allowed` of an
earlier call with the same argv, at most the rule's lifetime ago. -/

namespace Sudix

open Concurrent

variable {P : Platform} {bundle : PolicyBundle} {uid : Tid → Uid} {approvalMutex : Bool}
  {req : Tid → Request} {s₀ s : Daemon} {ps : Pool (sig P) Tid Response}
  {tr : Trace (sig P) Daemon Tid Env}

/-- Requests under one bundle, with an approver that may answer anything. -/
def gatedRequests (P : Platform) (bundle : PolicyBundle) (uid : Tid → Uid) (approvalMutex : Bool)
    (req : Tid → Request) : Pool (sig P) Tid Response :=
  requests P (fun t => ⟨bundle, uid t⟩) .external approvalMutex req

theorem gatedRequests_meets (t : Tid) :
    (gatedRequests P bundle uid approvalMutex req t).Meets
      (RequestStage ⟨bundle, uid t⟩ .external approvalMutex (req t))
      (RequestDone ⟨bundle, uid t⟩ .external approvalMutex (req t)) [] :=
  handleRequest_meets ⟨bundle, uid t⟩ .external approvalMutex (req t)

def isSpawn (event : Event (sig P)) : Bool :=
  match event.op with
  | .spawn _ _ _ => true
  | _ => false

def isConsult (event : Event (sig P)) : Bool :=
  match event.op with
  | .consult _ _ => true
  | _ => false

/-- Every call executes at most once and consults the approver at most once. -/
def AtMostOnce (tr : Trace (sig P) Daemon Tid Env) : Prop :=
  ∀ t, (history t tr).countP isSpawn ≤ 1 ∧ (history t tr).countP isConsult ≤ 1

/-- The approver is asked about the call's own request, which has passed every check. -/
def ConsultedWhenCleared (bundle : PolicyBundle) (req : Tid → Request) (before : Trace (sig P) Daemon Tid Env)
    (st : Step (sig P) Daemon Tid Env) : Prop :=
  ∀ t callerUid asked approval, st.label = .thread t ⟨.consult callerUid asked, approval⟩ →
    asked = req t ∧ (req t).argv ≠ [] ∧ (req t).reason.utf8ByteSize ≤ maxReasonBytes ∧
      ∃ ruleIndex cwd, bundle.policy.evaluate (req t).argv = .allowed ruleIndex ∧
        ⟨.canonicalize (req t).cwd, .ok cwd⟩ ∈ history t before ∧
        ⟨.isDir cwd, true⟩ ∈ history t before ∧
        ⟨.isRateLimited bundle.ruleScopes ruleIndex, false⟩ ∈ history t before ∧
        ⟨.checkCache bundle.ruleScopes ruleIndex (req t).argv, .miss⟩ ∈ history t before

/-- A call records under the rule that the approver has allowed its request, whose argv is `argv`. -/
def RecordsAllowed (uid : Tid → Uid) (req : Tid → Request) (ruleIndex : Nat) (argv : List String)
    (before : Trace (sig P) Daemon Tid Env) (st : Step (sig P) Daemon Tid Env) : Prop :=
  ∃ u scopes, st.label = .thread u ⟨.recordApproval scopes ruleIndex argv, ()⟩ ∧ (req u).argv = argv ∧
    ⟨.consult (uid u) (req u), .allowed⟩ ∈ history u before

/-- The call of `t` hits the cache, on an approval recorded less than the rule's lifetime ago. -/
def HitsApproval (bundle : PolicyBundle) (uid : Tid → Uid) (req : Tid → Request) (t : Tid)
    (before : Trace (sig P) Daemon Tid Env) (st : Step (sig P) Daemon Tid Env) : Prop :=
  ∃ ruleIndex, st.label = .thread t ⟨.checkCache bundle.ruleScopes ruleIndex (req t).argv, .hit⟩ ∧
    bundle.policy.evaluate (req t).argv = .allowed ruleIndex ∧ 0 < ttlOf bundle.ruleScopes ruleIndex ∧
    Once (fun before' st' => RecordsAllowed uid req ruleIndex (req t).argv before' st' ∧
      st'.pre.now ≤ st.pre.now ∧
      st.pre.now - st'.pre.now < ttlOf bundle.ruleScopes ruleIndex * nanosPerSec) before

/-- An execution follows an `Allowed` of its own call or a cache hit on an approval. -/
def ExecutedWhenApproved (bundle : PolicyBundle) (uid : Tid → Uid) (req : Tid → Request)
    (before : Trace (sig P) Daemon Tid Env) (st : Step (sig P) Daemon Tid Env) : Prop :=
  ∀ t program args dir result, st.label = .thread t ⟨.spawn program args dir, result⟩ →
    program :: args = (req t).argv ∧
      (⟨.consult (uid t) (req t), .allowed⟩ ∈ history t before ∨
        Once (HitsApproval bundle uid req t) before)

section Own

variable {ctx : RequestCtx} {r : Request} {own : History (sig P)}

/-- What the outside approver's call leaves in a history. -/
theorem GateDone.consulted {approval : Approval}
    (h : GateDone .external ctx.callerUid r approvalMutex own approval) :
    ⟨.consult ctx.callerUid r, approval⟩ ∈ own ∧ own.countP isSpawn = 0 := by
  cases h with
  | ungated happrove =>
      cases happrove
      exact ⟨List.mem_cons_self, rfl⟩
  | released happrove =>
      cases happrove
      exact ⟨by simp, rfl⟩

theorem RequestStage.spawn_once {program : String} {args : List String} {dir : String}
    (h : RequestStage ctx .external approvalMutex r own (.spawn program args dir)) :
    own.countP isSpawn = 0 := by
  obtain ⟨-, -, outcome, hready⟩ := h.spawn_inv
  cases hready with
  | cached hs => rfl
  | fresh hs hgate =>
      rw [List.countP_append, List.countP_append, hgate.consulted.2]
      rfl

theorem RequestStage.consult_inv {callerUid : Uid} {asked : Request}
    (h : RequestStage ctx .external approvalMutex r own (.consult callerUid asked)) :
    asked = r ∧ own.countP isConsult = 0 ∧ ∃ ruleIndex cwd, Screened ctx r ruleIndex ∧
      ∃ rest, own = checked ctx r ruleIndex cwd .miss ++ rest := by
  cases h with
  | approve hs hgate =>
      cases hgate with
      | ungated happrove =>
          cases happrove
          exact ⟨rfl, rfl, _, _, hs, _, rfl⟩
      | held happrove =>
          cases happrove
          exact ⟨rfl, rfl, _, _, hs, _, rfl⟩

end Own

theorem atMostOnce (hrun : Run (world P) s₀ (gatedRequests P bundle uid approvalMutex req) tr s ps) :
    AtMostOnce tr := by
  have hpre := hrun.every_pre gatedRequests_meets
  intro t
  constructor
  · refine countP_history_le_one (hpre.mono fun before st h u event hlabel hspawn => ?_) t
    have hstage := h u event hlabel
    obtain ⟨op, answer⟩ := event
    cases op with
    | spawn program args dir => exact hstage.spawn_once
    | _ => cases hspawn
  · refine countP_history_le_one (hpre.mono fun before st h u event hlabel hconsult => ?_) t
    have hstage := h u event hlabel
    obtain ⟨op, answer⟩ := event
    cases op with
    | consult callerUid asked => exact hstage.consult_inv.2.1
    | _ => cases hconsult

theorem consultedWhenCleared
    (hrun : Run (world P) s₀ (gatedRequests P bundle uid approvalMutex req) tr s ps) :
    Every (ConsultedWhenCleared bundle req) tr := by
  intro before st after heq t callerUid asked approval hlabel
  have hstage := hrun.every_pre gatedRequests_meets before st after heq t _ hlabel
  obtain ⟨rfl, -, ruleIndex, cwd, hs, rest, hown⟩ := hstage.consult_inv
  refine ⟨rfl, hs.argv, hs.reason, ruleIndex, cwd, hs.policy, ?_⟩
  rw [hown]
  simp [checked, unlimited, located]

/-- Every recording of an approval follows the approver's `Allowed` in the same call. -/
theorem every_recordsAllowed
    (hrun : Run (world P) s₀ (gatedRequests P bundle uid approvalMutex req) tr s ps) :
    Every (fun before st => ∀ ruleIndex argv, CachesApproval ruleIndex argv st →
      RecordsAllowed uid req ruleIndex argv before st) tr := by
  intro before st after heq ruleIndex argv hcaches
  obtain ⟨u, scopes, hlabel, -⟩ := hcaches
  have hstage := hrun.every_pre gatedRequests_meets before st after heq u _ hlabel
  obtain ⟨-, rfl, -, cwd, own, hgate, hown⟩ := hstage.recordApproval_inv
  refine ⟨u, scopes, hlabel, rfl, ?_⟩
  rw [hown]
  exact List.mem_append_right _ hgate.consulted.1

/-- **The cache soundness of the pipeline.** A hit stands for a recorded approval that is still
within the rule's lifetime. -/
theorem every_hitsApproval
    (hrun : Run (world P) s₀ (gatedRequests P bundle uid approvalMutex req) tr s ps)
    (hempty : s₀.approvals = ApprovalState.new) :
    Every (fun before (st : Step (sig P) Daemon Tid Env) => ∀ t scopes ruleIndex argv,
      st.label = .thread t ⟨.checkCache scopes ruleIndex argv, .hit⟩ →
      HitsApproval bundle uid req t before st) tr := by
  rintro before ⟨pre, label, post⟩ after heq t scopes ruleIndex argv hlabel
  obtain rfl : label = _ := hlabel
  have hstage := hrun.every_pre gatedRequests_meets before _ after heq t _ rfl
  obtain ⟨rfl, rfl, hs, cwd, -⟩ := hstage.checkCache_inv
  obtain ⟨hhit, -⟩ := legal_checkCache (hrun.every_legal before _ after heq)
  obtain ⟨last, hentry, hage⟩ := checkCache_eq_hit_iff.mp hhit
  subst heq
  obtain ⟨⟨ps', hbefore⟩, -⟩ := hrun.before
  have hrecorded := (cache_since hbefore hempty _ _ _ hentry).once.and_every (every_recordsAllowed hbefore)
  have hclock := now_le hbefore
  refine ⟨ruleIndex, rfl, hs.policy, Nat.zero_lt_of_lt hage, ?_⟩
  obtain ⟨before', st', after', rfl, ⟨⟨hcaches, hlast⟩, hallowed⟩⟩ := hrecorded
  refine ⟨before', st', after', rfl, hallowed _ _ hcaches, hclock st' (by simp), ?_⟩
  rw [hlast]
  exact (Nat.div_lt_iff_lt_mul (by decide)).mp hage

theorem executedWhenApproved
    (hrun : Run (world P) s₀ (gatedRequests P bundle uid approvalMutex req) tr s ps)
    (hempty : s₀.approvals = ApprovalState.new) : Every (ExecutedWhenApproved bundle uid req) tr := by
  intro before st after heq t program args dir result hlabel
  have hstage := hrun.every_pre gatedRequests_meets before st after heq t _ hlabel
  obtain ⟨rfl, rfl, outcome, hready⟩ := hstage.spawn_inv
  refine ⟨?_, ?_⟩
  · obtain ⟨program, args, hargv⟩ := List.exists_cons_of_ne_nil hready.argv_ne
    rw [hargv, List.headD_cons, List.tail_cons]
  · subst heq
    obtain ⟨⟨ps', hbefore⟩, -⟩ := hrun.before
    generalize hown : history t before = own at hready
    cases hready with
    | @cached ruleIndex cwd hs =>
        right
        have hmem : ⟨.checkCache bundle.ruleScopes ruleIndex (req t).argv, .hit⟩ ∈ history t before := by
          rw [hown]
          simp [checked]
        exact ((once_of_mem_history hmem).and_every (every_hitsApproval hbefore hempty)).mono
          fun _ _ h => h.2 _ _ _ _ h.1
    | fresh hs hgate =>
        left
        exact List.mem_append_left _ (List.mem_append_right _ hgate.consulted.1)

/-- **Gate soundness.** -/
theorem gate_sound (hrun : Run (world P) s₀ (gatedRequests P bundle uid approvalMutex req) tr s ps)
    (hempty : s₀.approvals = ApprovalState.new) :
    AtMostOnce tr ∧ Every (ConsultedWhenCleared bundle req) tr ∧
      Every (ExecutedWhenApproved bundle uid req) tr :=
  ⟨atMostOnce hrun, consultedWhenCleared hrun, executedWhenApproved hrun hempty⟩

def deployRule : Rule := ⟨[.literal "deploy"], literal_ne_nil _, restOnlyLast_literal _⟩

def deployBundle : PolicyBundle := ⟨⟨[], [deployRule]⟩, [⟨300, 5⟩], [1000, 1001]⟩

def deployUid (t : Tid) : Uid := if t = 0 then 1000 else 1001

def deployRequest (t : Tid) : Request := ⟨["./deploy"], if t = 0 then "/srv/a" else "/srv/b", "", none⟩

def deployDaemon : Daemon :=
  Daemon.start (.error "") ⟨.ok, fun _ => true⟩ deployBundle none (fun _ => 0) (fun _ => ⟨[], [], .gone⟩)
    (100 * nanosPerSec) 0

def deployCalls : Pool (sig Platform.bare) Tid Response :=
  gatedRequests Platform.bare deployBundle deployUid false deployRequest

/-- A call that is approved and executed, and a call from another user in another directory that hits
the cache entry of the first. -/
def deployRun : Option (Point (sig Platform.bare) Daemon Tid Env Response) :=
  replay (world Platform.bare) ⟨[], deployDaemon, deployCalls⟩
    (List.replicate 9 (.thread 0 (smooth 0 .allowed)) ++ [.env (.tick nanosPerSec)] ++
      List.replicate 6 (.thread 1 (smooth 0 .denied)))

theorem deployRun_run :
    ∃ c, deployRun = some c ∧ Run (world Platform.bare) deployDaemon deployCalls c.trace c.state c.pool := by
  obtain ⟨c, hc⟩ : ∃ c, deployRun = some c := ⟨_, rfl⟩
  exact ⟨c, hc, run_of_replay .start hc⟩

theorem gate_sound_deploy :
    ∃ c, deployRun = some c ∧ AtMostOnce c.trace ∧
      Every (ConsultedWhenCleared deployBundle deployRequest) c.trace ∧
      Every (ExecutedWhenApproved deployBundle deployUid deployRequest) c.trace := by
  obtain ⟨c, hc, hrun⟩ := deployRun_run
  exact ⟨c, hc, gate_sound hrun rfl⟩

/-- The call of `t` has not consulted the approver. -/
def Unprompted (uid : Tid → Uid) (req : Tid → Request) (t : Tid) (tr : Trace (sig P) Daemon Tid Env) : Prop :=
  ∀ approval, ⟨.consult (uid t) (req t), approval⟩ ∉ history t tr

/-- An execution without a prompt follows an `Allowed` for the same argv under the same rule. -/
def ApprovedArgv (bundle : PolicyBundle) (uid : Tid → Uid) (req : Tid → Request)
    (before : Trace (sig P) Daemon Tid Env) (st : Step (sig P) Daemon Tid Env) : Prop :=
  ∀ t program args dir result, st.label = .thread t ⟨.spawn program args dir, result⟩ →
    Unprompted uid req t before →
      ∃ u ruleIndex, (req u).argv = program :: args ∧
        bundle.policy.evaluate (program :: args) = .allowed ruleIndex ∧
        ⟨.consult (uid u) (req u), .allowed⟩ ∈ history u before

/-- The stronger property that also binds the approval to the directory and the caller. -/
def ApprovedContext (bundle : PolicyBundle) (uid : Tid → Uid) (req : Tid → Request)
    (before : Trace (sig P) Daemon Tid Env) (st : Step (sig P) Daemon Tid Env) : Prop :=
  ∀ t program args dir result, st.label = .thread t ⟨.spawn program args dir, result⟩ →
    Unprompted uid req t before →
      ∃ u ruleIndex, (req u).argv = program :: args ∧ uid u = uid t ∧
        bundle.policy.evaluate (program :: args) = .allowed ruleIndex ∧
        ⟨.canonicalize (req u).cwd, .ok dir⟩ ∈ history u before ∧
        ⟨.consult (uid u) (req u), .allowed⟩ ∈ history u before

theorem cached_execution_approvedArgv
    (hrun : Run (world P) s₀ (gatedRequests P bundle uid approvalMutex req) tr s ps)
    (hempty : s₀.approvals = ApprovalState.new) : Every (ApprovedArgv bundle uid req) tr := by
  intro before st after heq t program args dir result hlabel hunprompted
  obtain ⟨hargv, hconsulted | hhit⟩ :=
    executedWhenApproved hrun hempty before st after heq t program args dir result hlabel
  · exact absurd hconsulted (hunprompted _)
  · obtain ⟨b, hit, a, rfl, ruleIndex, -, hpolicy, -, hrecorded⟩ := hhit
    obtain ⟨b', rec, a', rfl, ⟨u, scopes, -, hsame, hallowed⟩, -, -⟩ := hrecorded
    refine ⟨u, ruleIndex, hsame.trans hargv.symm, hargv ▸ hpolicy, ?_⟩
    rw [List.append_assoc, history_append]
    exact List.mem_append_left _ hallowed

/-- The thread a step consults the approver for. -/
def consultingThread (st : Step (sig P) Daemon Tid Env) : Option Tid :=
  match st.label with
  | .thread t event => if isConsult event then some t else none
  | .env _ => none

theorem exists_consultingThread {t : Tid} {callerUid : Uid} {asked : Request} {approval : Approval}
    (h : ⟨.consult callerUid asked, approval⟩ ∈ history t tr) : ∃ st ∈ tr, consultingThread st = some t := by
  obtain ⟨st, hst, hlabel⟩ := mem_history.mp h
  exact ⟨st, hst, by simp [consultingThread, hlabel, isConsult]⟩

/-- The second call of the run executes without a prompt; only the first has consulted. -/
theorem deployRun_steps :
    ∃ c, deployRun = some c ∧
      (∃ h : 15 < c.trace.length,
        c.trace[15].label = .thread 1 ⟨.spawn "./deploy" [] "/srv/b", .ok ⟨some 0, "", ""⟩⟩) ∧
      ∀ st ∈ c.trace.take 15, consultingThread st = none ∨ consultingThread st = some 0 := by
  obtain ⟨c, hc⟩ : ∃ c, deployRun = some c := ⟨_, rfl⟩
  refine ⟨c, hc, ?_⟩
  obtain rfl := Option.some.inj hc
  exact ⟨⟨by decide +kernel, rfl⟩, by decide +kernel⟩

/-- The approval of a call of uid 1000 in `/srv/a` executes the command of uid 1001 in `/srv/b`. -/
theorem cached_execution_other_context :
    ∃ c, deployRun = some c ∧
      Run (world Platform.bare) deployDaemon deployCalls c.trace c.state c.pool ∧
      ¬ Every (ApprovedContext deployBundle deployUid deployRequest) c.trace := by
  obtain ⟨c, hc, hrun⟩ := deployRun_run
  obtain ⟨c', hc', ⟨hlen, hspawn⟩, honly⟩ := deployRun_steps
  obtain rfl := Option.some.inj (hc.symm.trans hc')
  have hfirst : ∀ {u callerUid asked approval},
      ⟨.consult callerUid asked, approval⟩ ∈ history u (c.trace.take 15) → u = 0 := by
    intro u callerUid asked approval hmem
    obtain ⟨st, hst, hthread⟩ := exists_consultingThread hmem
    rcases honly st hst with hnone | hzero
    · rw [hnone] at hthread
      cases hthread
    · rw [hzero] at hthread
      exact (Option.some.inj hthread).symm
  refine ⟨c, hc, hrun, fun happroved => ?_⟩
  have hunprompted : Unprompted deployUid deployRequest 1 (c.trace.take 15) :=
    fun approval hmem => absurd (hfirst hmem) (by decide)
  obtain ⟨u, ruleIndex, -, huid, -, -, hconsult⟩ :=
    happroved.getElem 15 hlen 1 _ _ _ _ hspawn hunprompted
  obtain rfl := hfirst hconsult
  exact absurd huid (by decide)

/-- What does hold of that execution: its argv was allowed. -/
theorem deployRun_approvedArgv :
    ∃ c, deployRun = some c ∧ Every (ApprovedArgv deployBundle deployUid deployRequest) c.trace := by
  obtain ⟨c, hc, hrun⟩ := deployRun_run
  exact ⟨c, hc, cached_execution_approvedArgv hrun rfl⟩

end Sudix
