import Sudix.ConcurrentRun
import Sudix.ScopingLog

/-! The rate limiter near the origin of the clock. Less than a window above the least reading the subtraction
that gives the cutoff has no result, and the reading itself stands in: a check then drops every recording. -/

namespace Sudix

open SlidingWindow

theorem checkedSub_getD_early {now : Instant} (hearly : now < rateWindow) :
    (checkedSub now rateWindow).getD now = now := by
  rw [checkedSub, if_neg (Nat.not_le_of_lt hearly), Option.getD_none]

/-- An early check of a capped rule leaves its queue empty and lets the request pass. -/
theorem isRateLimited_early {scopes : List RuleScope} {state : ApprovalState} {ruleIndex : Nat} {now : Instant}
    (hlimit : 0 < limitOf scopes ruleIndex) (hearly : now < rateWindow)
    (hnow : ∀ t ∈ state.rate ruleIndex, t ≤ now) :
    (isRateLimited state scopes ruleIndex now).1 = false ∧
      (isRateLimited state scopes ruleIndex now).2.rate ruleIndex = [] := by
  have hempty : prune ((checkedSub now rateWindow).getD now) (state.rate ruleIndex) = [] := by
    rw [checkedSub_getD_early hearly]
    exact prune_eq_nil hnow
  refine ⟨?_, ?_⟩
  · rw [isRateLimited_eq_false_iff hlimit, hempty]
    exact hlimit
  · rw [isRateLimited_rate, if_pos ⟨rfl, hlimit⟩, hempty]

/-- Nothing recorded before a window has passed has left the window. -/
theorem Retains.eq_of_early {log window : List Instant} {now : Instant} (hearly : now < rateWindow)
    (h : Retains expiry now log window) : log = window := by
  obtain ⟨dropped, rfl, hexpired⟩ := h
  have hnone : dropped = [] := by
    refine List.eq_nil_iff_forall_not_mem.mpr fun t ht => ?_
    have hwindow : rateWindow ≤ now := Nat.le_trans (Nat.le_add_left _ _) (hexpired t ht)
    exact Nat.not_le_of_lt hearly hwindow
  rw [hnone, List.nil_append]

/-- A rate check of a rule after some calls is right: it answers over-limit when as many executions have been
recorded as the cap allows, and what it takes from the queue has left the window. -/
structure CheckRight (scopes : List RuleScope) (ruleIndex : Nat) (before : CallLog) (now : Instant) : Prop where
  limited : limitOf scopes ruleIndex ≤ (before.recordings ruleIndex).length →
    (isRateLimited (before.state scopes) scopes ruleIndex now).1 = true
  kept : Retains expiry now ((before.state scopes).rate ruleIndex)
    ((isRateLimited (before.state scopes) scopes ruleIndex now).2.rate ruleIndex)

namespace CallLog

/-- Every rate check of a rule in the log meets a condition on the calls before it and its reading. -/
def EveryCheck (ruleIndex : Nat) (p : CallLog → Instant → Prop) (log : CallLog) : Prop :=
  ∀ before now after, log = before ++ (.isRateLimited ruleIndex, now) :: after → p before now

variable {scopes : List RuleScope} {log : CallLog} {ruleIndex : Nat} {now : Instant} {call : ScopingCall}
  {p : CallLog → Instant → Prop}

theorem everyCheck_nil : EveryCheck ruleIndex p [] :=
  fun before _ _ hlog => absurd hlog.symm (List.append_ne_nil_of_right_ne_nil before (List.cons_ne_nil _ _))

theorem everyCheck_snoc : EveryCheck ruleIndex p (log ++ [(call, now)]) ↔
    EveryCheck ruleIndex p log ∧ (call = .isRateLimited ruleIndex → p log now) := by
  constructor
  · intro h
    refine ⟨fun before t after hlog => ?_, fun hcall => ?_⟩
    · exact h before t (after ++ [(call, now)]) (by rw [hlog, List.append_assoc, List.cons_append])
    · exact h log now [] (by rw [hcall])
  · rintro ⟨hall, hlast⟩ before t after hlog
    rcases Concurrent.snoc_eq_append_cons hlog with ⟨rfl, rfl, hentry⟩ | ⟨later, rfl, hbefore⟩
    · obtain ⟨rfl, rfl⟩ := Prod.mk.inj hentry
      exact hlast rfl
    · exact hall before t later hbefore

/-- As long as every early check is right no recording is lost. -/
theorem rate_eq_recordings (hlimit : 0 < limitOf scopes ruleIndex) (hfirst : ∀ t ∈ log.times, t < rateWindow)
    (hright : EveryCheck ruleIndex (CheckRight scopes ruleIndex) log) :
    (log.state scopes).rate ruleIndex = log.recordings ruleIndex := by
  induction log using List.reverseRecOn with
  | nil => rfl
  | append_singleton log entry ih =>
      obtain ⟨call, t⟩ := entry
      obtain ⟨hall, hlast⟩ := everyCheck_snoc.mp hright
      rw [times_snoc, List.forall_mem_append, List.forall_mem_singleton] at hfirst
      rw [state_snoc, recordings_snoc, ← ih hfirst.1 hall]
      by_cases hcheck : call = .isRateLimited ruleIndex
      · -- the queue the check leaves is the one it found
        have hkept := Retains.eq_of_early hfirst.2 (hlast hcheck).kept
        subst hcheck
        rw [ScopingCall.after, ← hkept]
        simp [ScopingCall.records]
      · rw [ScopingCall.after_rate hlimit, if_neg hcheck]
        by_cases hrec : call.records ruleIndex = true
        · rw [if_pos hrec, if_pos hrec]
        · rw [if_neg hrec, if_neg hrec, List.append_nil]

/-- Where no recording was lost so far, an early check is right only if there was none. -/
theorem checkRight_early_iff (hlimit : 0 < limitOf scopes ruleIndex) (hearly : now < rateWindow)
    (hnow : ∀ t ∈ log.times, t ≤ now) (hqueue : (log.state scopes).rate ruleIndex = log.recordings ruleIndex) :
    CheckRight scopes ruleIndex log now ↔ log.recordings ruleIndex = [] := by
  have hle : ∀ t ∈ (log.state scopes).rate ruleIndex, t ≤ now := hqueue ▸ recordings_le hnow
  obtain ⟨-, hempty⟩ := isRateLimited_early hlimit hearly hle
  constructor
  · intro hright
    have hkept := Retains.eq_of_early hearly hright.kept
    rw [← hqueue, hkept, hempty]
  · intro hnone
    refine ⟨fun hreached => ?_, ?_⟩
    · rw [hnone, List.length_nil] at hreached
      exact absurd hreached (Nat.not_le_of_lt hlimit)
    · rw [hempty, hqueue, hnone]
      exact retains_nil

end CallLog

/-- **When the rate limiter does not fail open in the first minute.** In a run of calls on a clock that does
not go back and is still in its first minute, every check of a capped rule is right exactly when none comes
after a recording of the rule. -/
theorem checkRight_first_minute_iff (scopes : List RuleScope) (ruleIndex : Nat)
    (hlimit : 0 < limitOf scopes ruleIndex) (log : CallLog) (hclock : Chronological log.times)
    (hfirst : ∀ t ∈ log.times, t < rateWindow) :
    log.EveryCheck ruleIndex (CheckRight scopes ruleIndex) ↔
      log.EveryCheck ruleIndex fun before _ => before.recordings ruleIndex = [] := by
  induction log using List.reverseRecOn with
  | nil => exact iff_of_true CallLog.everyCheck_nil CallLog.everyCheck_nil
  | append_singleton log entry ih =>
      obtain ⟨call, t⟩ := entry
      obtain ⟨hchron, hlast⟩ := CallLog.chronological_snoc.mp hclock
      rw [CallLog.times_snoc, List.forall_mem_append, List.forall_mem_singleton] at hfirst
      rw [CallLog.everyCheck_snoc, CallLog.everyCheck_snoc, ← ih hchron hfirst.1]
      refine and_congr_right fun hright => imp_congr_right fun _ => ?_
      exact CallLog.checkRight_early_iff hlimit hfirst.2 hlast (CallLog.rate_eq_recordings hlimit hfirst.1 hright)

/-- A rule is checked while only another one has been recorded: the check is right. -/
theorem checkRight_first_minute_unrecorded :
    CallLog.EveryCheck 0 (CheckRight [⟨0, 1⟩, ⟨0, 5⟩] 0)
      [(.recordApproval 1 ["id"], nanosPerSec), (.isRateLimited 0, 2 * nanosPerSec),
        (.recordCacheHit 0, 3 * nanosPerSec)] := by
  refine (checkRight_first_minute_iff [⟨0, 1⟩, ⟨0, 5⟩] 0 (by decide) _
    (show List.Pairwise (· ≤ ·) _ by decide) (by decide)).mpr ?_
  change CallLog.EveryCheck 0 _ ([] ++ [_] ++ [_] ++ [_])
  rw [CallLog.everyCheck_snoc, CallLog.everyCheck_snoc, CallLog.everyCheck_snoc]
  exact ⟨⟨⟨CallLog.everyCheck_nil, by decide⟩, by decide⟩, by decide⟩

/-- An execution at one second and a check at two: the cap of one is reached, the check answers that it is
not, and drops the recording of a second ago. -/
theorem rate_limit_fails_open :
    let before : CallLog := [(.recordCacheHit 0, nanosPerSec)]
    let log : CallLog := before ++ [(.isRateLimited 0, 2 * nanosPerSec)]
    let check := isRateLimited (before.state [⟨0, 1⟩]) [⟨0, 1⟩] 0 (2 * nanosPerSec)
    Chronological log.times ∧ (∀ t ∈ log.times, t < rateWindow) ∧
      ¬ log.EveryCheck 0 (CheckRight [⟨0, 1⟩] 0) ∧
      before.recordings 0 = [nanosPerSec] ∧ limitOf [⟨0, 1⟩] 0 = 1 ∧ check.1 = false ∧
      (before.state [⟨0, 1⟩]).rate 0 = [nanosPerSec] ∧ check.2.rate 0 = [] := by
  intro before log check
  refine ⟨show List.Pairwise (· ≤ ·) _ by decide, by decide, fun hright => ?_, by decide, by decide, by decide,
    by decide, by decide⟩
  have hlimited := (hright before (2 * nanosPerSec) [] rfl).limited (by decide)
  exact absurd hlimited (by decide)

end Sudix
