import Sudix.Pipeline
import Sudix.ScopingLog
import Sudix.ScopingTrace

/-! The rate cap of the decision pipeline. The limit is checked before the approver is asked and the
execution is recorded after, so the cap holds exactly as long as the check would still pass at every
recording. -/

namespace Sudix

open Concurrent SlidingWindow

variable {P : Platform} {bundle : PolicyBundle} {uid : Tid → Uid} {approver : Approver}
  {approvalMutex : Bool} {req : Tid → Request} {ruleIndex : Nat} {s₀ s : Daemon}
  {ps : Pool (sig P) Tid Response} {tr : Trace (sig P) Daemon Tid Env}

/-- Whether a step records an execution of the rule, freshly approved or cached. -/
def records (ruleIndex : Nat) (st : Step (sig P) Daemon Tid Env) : Bool :=
  match st.label with
  | .thread _ ⟨.recordApproval _ i _, _⟩ => i = ruleIndex
  | .thread _ ⟨.recordCacheHit _ i, _⟩ => i = ruleIndex
  | _ => false

/-- The times at which executions of the rule were recorded. -/
def recordings (ruleIndex : Nat) (tr : Trace (sig P) Daemon Tid Env) : List Instant :=
  (tr.filter (records ruleIndex)).map fun st => st.pre.now

/-- At most `limit` of the times fall into any window of 60 seconds that is open on the left. -/
def WithinCap (limit : Nat) (times : List Instant) : Prop :=
  ∀ now, (times.filter fun x => now < x + rateWindow ∧ x ≤ now).length ≤ limit

/-- Where an execution of the rule is recorded, the rate check on the state before still passes. -/
def CheckStillPasses (scopes : List RuleScope) (ruleIndex : Nat) (_before : Trace (sig P) Daemon Tid Env)
    (st : Step (sig P) Daemon Tid Env) : Prop :=
  records ruleIndex st = true →
    (isRateLimited st.pre.approvals scopes ruleIndex st.pre.now).1 = false

theorem withinCap_iff {limit : Nat} {times : List Instant} : WithinCap limit times ↔ Capped expiry limit times := by
  refine forall_congr' fun now => ?_
  rw [live, List.filter_filter]
  simp only [Bool.decide_and, expiry]
  exact Iff.rfl

theorem recordings_snoc (st : Step (sig P) Daemon Tid Env) :
    recordings ruleIndex (tr ++ [st]) =
      recordings ruleIndex tr ++ if records ruleIndex st then [st.pre.now] else [] := by
  unfold recordings
  rw [List.filter_append, List.map_append]
  by_cases h : records ruleIndex st = true <;> simp [h]

section Run

variable (hrun : Run (world P) s₀ (requests P (fun t => ⟨bundle, uid t⟩) approver approvalMutex req) tr s ps)

include hrun

/-- The requests never reset the approval state and record under the bundle's own scopes. -/
theorem every_recording (hlimit : 0 < limitOf bundle.ruleScopes ruleIndex) :
    Every (fun _ st => resets st = false ∧ notes ruleIndex st = records ruleIndex st) tr := by
  rintro before ⟨pre, label, post⟩ after heq
  cases label with
  | env event => exact ⟨rfl, rfl⟩
  | thread t event =>
      have hstage := hrun.every_pre requests_meets before _ after heq t event rfl
      obtain ⟨op, answer⟩ := event
      cases op with
      | resetApprovals => exact hstage.not_resetApprovals.elim
      | recordApproval scopes i argv =>
          obtain ⟨rfl, -⟩ := hstage.recordApproval_inv
          refine ⟨rfl, ?_⟩
          by_cases hi : i = ruleIndex
          · subst hi
            simp [notes, records, hlimit]
          · simp [notes, records, hi]
      | recordCacheHit scopes i =>
          obtain ⟨rfl, -⟩ := hstage.recordCacheHit_inv
          refine ⟨rfl, ?_⟩
          by_cases hi : i = ruleIndex
          · subst hi
            simp [notes, records, hlimit]
          · simp [notes, records, hi]
      | _ => exact ⟨rfl, rfl⟩

theorem noted_eq_recordings (hlimit : 0 < limitOf bundle.ruleScopes ruleIndex) :
    (noted ruleIndex tr).map (fun st => st.pre.now) = recordings ruleIndex tr := by
  have hevery := every_recording hrun hlimit
  clear hrun
  induction tr using List.reverseRecOn with
  | nil => rfl
  | append_singleton tr st ih =>
      obtain ⟨htr, hreset, hnote⟩ := every_snoc.mp hevery
      rw [noted_snoc, recordings_snoc, hreset, hnote, ← ih htr]
      by_cases h : records ruleIndex st = true <;> simp [h]

theorem recordings_le : ∀ x ∈ recordings ruleIndex tr, x ≤ s.now := by
  intro x hx
  obtain ⟨st, hst, rfl⟩ := List.mem_map.mp hx
  exact now_le hrun st (List.mem_filter.mp hst).1

theorem recordings_chronological : Chronological (recordings ruleIndex tr) := by
  induction hrun with
  | start => exact List.Pairwise.nil
  | thread t choice hprefix hnext hact ih =>
      rw [recordings_snoc]
      refine List.pairwise_append.mpr ⟨ih, ?_, fun x hx y hy => ?_⟩
      · split <;> simp
      · split at hy
        · obtain rfl := List.mem_singleton.mp hy
          exact recordings_le hprefix x hx
        · cases hy
  | env event hprefix henv ih =>
      rw [recordings_snoc]
      simpa [records] using ih

/-- **The check counts the live recordings.** -/
theorem isRateLimited_iff_live (hempty : s₀.approvals = ApprovalState.new) (hclock : rateWindow ≤ s₀.now)
    (hlimit : 0 < limitOf bundle.ruleScopes ruleIndex) :
    (isRateLimited s.approvals bundle.ruleScopes ruleIndex s.now).1 = false ↔
      (live expiry s.now (recordings ruleIndex tr)).length < limitOf bundle.ruleScopes ruleIndex := by
  obtain ⟨dropped, hnoted, hold⟩ := rate_noted hrun hempty ruleIndex
  obtain ⟨hnow, hdropped⟩ := hold hclock
  rw [noted_eq_recordings hrun hlimit] at hnoted
  have hretains : Retains expiry s.now (recordings ruleIndex tr) (s.approvals.rate ruleIndex) :=
    ⟨dropped, hnoted, hdropped⟩
  have hwindow : prune ((checkedSub s.now rateWindow).getD s.now) (s.approvals.rate ruleIndex) =
      live expiry s.now (recordings ruleIndex tr) := by
    rw [prune_eq hnow]
    exact hretains.dropWhile_eq_live expiry_monotone (recordings_chronological hrun)
  rw [isRateLimited_eq_false_iff hlimit, hwindow]

/-- **The rate cap under concurrency, exactly.** On a clock past its first minute, at most the rule's
limit of executions are recorded in every window of 60 seconds if and only if the rate check would
still pass at every recording. -/
theorem rate_cap_iff (hempty : s₀.approvals = ApprovalState.new) (hclock : rateWindow ≤ s₀.now)
    (hlimit : 0 < limitOf bundle.ruleScopes ruleIndex) :
    WithinCap (limitOf bundle.ruleScopes ruleIndex) (recordings ruleIndex tr) ↔
      Every (CheckStillPasses bundle.ruleScopes ruleIndex) tr := by
  rw [withinCap_iff]
  induction hrun with
  | start => exact ⟨fun _ => every_nil, fun _ => capped_nil⟩
  | @thread tr s ps t op next choice answer s' hprefix hnext hact ih =>
      rw [every_snoc, ← ih, recordings_snoc]
      by_cases hrec : records ruleIndex (⟨s, .thread t ⟨op, answer⟩, s'⟩ : Step (sig P) Daemon Tid Env) = true
      · rw [if_pos hrec, capped_snoc lt_expiry (recordings_le hprefix),
          ← isRateLimited_iff_live hprefix hempty hclock hlimit]
        simp [CheckStillPasses, hrec]
      · rw [if_neg hrec, List.append_nil]
        simp [CheckStillPasses, hrec]
  | @env tr s ps event s' hprefix henv ih =>
      rw [every_snoc, ← ih, recordings_snoc]
      simp [CheckStillPasses, records]

end Run

/-- One rule, at most one execution a minute. -/
def burstBundle : PolicyBundle :=
  ⟨⟨[], [⟨[.literal "make"], literal_ne_nil _, restOnlyLast_literal _⟩]⟩, [⟨0, 1⟩], [1000]⟩

def burstDaemon : Daemon :=
  Daemon.start (.error "") ⟨.ok, fun _ => true⟩ burstBundle none (fun _ => 1000) (fun _ => ⟨[], [], .gone⟩)
    (100 * nanosPerSec) 0

def burstCalls : Pool (sig Platform.bare) Tid Response :=
  requests Platform.bare (fun _ => ⟨burstBundle, 1000⟩) .external false fun _ => ⟨["make"], "/", "", none⟩

/-- Both requests pass the rate check before either is approved and recorded. -/
def burstRun : Option (Point (sig Platform.bare) Daemon Tid Env Response) :=
  replay (world Platform.bare) ⟨[], burstDaemon, burstCalls⟩
    (List.replicate 4 (.thread 0 (smooth 0 .allowed)) ++ List.replicate 6 (.thread 1 (smooth 0 .allowed)) ++
      List.replicate 2 (.thread 0 (smooth 0 .allowed)))

theorem burstRun_over_cap :
    ∃ c, burstRun = some c ∧ Run (world Platform.bare) burstDaemon burstCalls c.trace c.state c.pool ∧
      rateWindow ≤ burstDaemon.now ∧ limitOf burstBundle.ruleScopes 0 = 1 ∧
      ¬ WithinCap (limitOf burstBundle.ruleScopes 0) (recordings 0 c.trace) := by
  obtain ⟨c, hc⟩ : ∃ c, burstRun = some c := ⟨_, rfl⟩
  refine ⟨c, hc, run_of_replay .start hc, by decide, rfl, fun hcap => ?_⟩
  obtain rfl := Option.some.inj hc
  exact absurd (hcap (100 * nanosPerSec)) (by decide +kernel)

/-- In that run the check would no longer pass at a recording. -/
theorem burstRun_check_outdated :
    ∃ c, burstRun = some c ∧ ¬ Every (CheckStillPasses burstBundle.ruleScopes 0) c.trace := by
  obtain ⟨c, hc⟩ : ∃ c, burstRun = some c := ⟨_, rfl⟩
  have hrun : Run (world Platform.bare) burstDaemon burstCalls c.trace c.state c.pool := run_of_replay .start hc
  have hclock : rateWindow ≤ burstDaemon.now := by decide
  have hlimit : 0 < limitOf burstBundle.ruleScopes 0 := by decide
  refine ⟨c, hc, fun hchecked => ?_⟩
  have hcap := (rate_cap_iff hrun rfl hclock hlimit).mpr hchecked
  obtain rfl := Option.some.inj hc
  exact absurd (hcap (100 * nanosPerSec)) (by decide +kernel)

end Sudix
