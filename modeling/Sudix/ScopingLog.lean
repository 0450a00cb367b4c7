import Mathlib.Data.List.Induction
import Sudix.Scoping
import Sudix.SlidingWindow

/-! The approval state against the complete log of the calls made to it. The state keeps one time for a
key and a pruned queue for a rule; at any time its two answers are those the log gives. -/

namespace Sudix

open SlidingWindow

/-- A call of one of the public functions of the approval state. -/
inductive ScopingCall where
  | recordApproval (ruleIndex : Nat) (argv : List String)
  | recordCacheHit (ruleIndex : Nat)
  | isRateLimited (ruleIndex : Nat)
  | checkCache (ruleIndex : Nat) (argv : List String)
  deriving DecidableEq

/-- The state a call leaves when it reads the clock at `now`. -/
def ScopingCall.after (scopes : List RuleScope) (state : ApprovalState) (now : Instant) :
    ScopingCall → ApprovalState
  | .recordApproval ruleIndex argv => Sudix.recordApproval state scopes ruleIndex argv now
  | .recordCacheHit ruleIndex => Sudix.recordCacheHit state scopes ruleIndex now
  | .isRateLimited ruleIndex => (Sudix.isRateLimited state scopes ruleIndex now).2
  | .checkCache _ _ => state

/-- Whether a call records an execution under a rule. -/
def ScopingCall.records (ruleIndex : Nat) : ScopingCall → Bool
  | .recordApproval i _ => i = ruleIndex
  | .recordCacheHit i => i = ruleIndex
  | _ => false

def ScopingCall.prunes : ScopingCall → Bool
  | .isRateLimited _ => true
  | _ => false

/-- The calls made so far, oldest first, each with the clock reading it made. -/
abbrev CallLog := List (ScopingCall × Instant)

namespace CallLog

def times (log : CallLog) : List Instant := log.map Prod.snd

/-- The state after serial calls. -/
def state (scopes : List RuleScope) (log : CallLog) : ApprovalState :=
  log.foldl (fun state entry => entry.1.after scopes state entry.2) ApprovalState.new

/-- When executions were recorded under a rule. -/
def recordings (ruleIndex : Nat) (log : CallLog) : List Instant :=
  times (log.filter fun entry => entry.1.records ruleIndex)

/-- When an approval was last recorded for a key. -/
def lastApproval (ruleIndex : Nat) (argv : List String) (log : CallLog) : Option Instant :=
  (times (log.filter fun entry => entry.1 = .recordApproval ruleIndex argv)).getLast?

/-- The calls but for those that prune. -/
def unpruned (log : CallLog) : CallLog := log.filter fun entry => !entry.1.prunes

end CallLog

section Call

variable {scopes : List RuleScope} {state : ApprovalState} {now : Instant} {ruleIndex : Nat}
  {argv : List String} {call : ScopingCall}

/-- When a recording leaves the window. -/
def expiry (x : Instant) : Instant := x + rateWindow

theorem expiry_monotone : Monotone expiry := fun _ _ h => Nat.add_le_add_right h _

theorem lt_expiry (x : Instant) : x < expiry x := Nat.lt_add_of_pos_right (by decide)

/-- Where the cutoff is representable, pruning drops what has expired. -/
theorem prune_eq (hnow : rateWindow ≤ now) (window : List Instant) :
    prune ((checkedSub now rateWindow).getD now) window = window.dropWhile fun x => expiry x ≤ now := by
  refine congrArg (fun q => List.dropWhile q window) (funext fun x => ?_)
  rw [checkedSub, if_pos hnow, Option.getD_some]
  exact decide_eq_decide.mpr (Nat.le_sub_iff_add_le hnow)

theorem ScopingCall.after_cache :
    (call.after scopes state now).cache (ruleIndex, argv) =
      if call = .recordApproval ruleIndex argv ∧ 0 < ttlOf scopes ruleIndex then some now
      else state.cache (ruleIndex, argv) := by
  cases call with
  | recordApproval i argv' =>
      rw [ScopingCall.after, recordApproval_cache]
      by_cases hkey : i = ruleIndex ∧ argv' = argv
      · obtain ⟨rfl, rfl⟩ := hkey
        by_cases httl : 0 < ttlOf scopes i <;> simp [httl]
      · have hne : (ruleIndex, argv) ≠ (i, argv') := by
          rintro heq
          cases heq
          exact hkey ⟨rfl, rfl⟩
        have hcall : ¬(ScopingCall.recordApproval i argv' = .recordApproval ruleIndex argv ∧
            0 < ttlOf scopes ruleIndex) := by
          rintro ⟨heq, -⟩
          cases heq
          exact hkey ⟨rfl, rfl⟩
        rw [if_neg hcall]
        split
        · rw [Function.update_of_ne hne]
        · rfl
  | recordCacheHit i => simp [ScopingCall.after]
  | isRateLimited i => simp [ScopingCall.after]
  | checkCache i argv' => simp [ScopingCall.after]

/-- A recording under a capped rule enters the rule's queue, a check of the rule prunes it. -/
theorem ScopingCall.after_rate (hlimit : 0 < limitOf scopes ruleIndex) :
    (call.after scopes state now).rate ruleIndex =
      if call.records ruleIndex then state.rate ruleIndex ++ [now]
      else if call = .isRateLimited ruleIndex then
        prune ((checkedSub now rateWindow).getD now) (state.rate ruleIndex)
      else state.rate ruleIndex := by
  cases call with
  | recordApproval i argv' =>
      rw [ScopingCall.after, recordApproval_rate]
      by_cases hi : i = ruleIndex
      · subst hi
        simp [ScopingCall.records, hlimit]
      · simp [ScopingCall.records, hi, Ne.symm hi]
  | recordCacheHit i =>
      rw [ScopingCall.after, recordCacheHit_rate]
      by_cases hi : i = ruleIndex
      · subst hi
        simp [ScopingCall.records, hlimit]
      · simp [ScopingCall.records, hi, Ne.symm hi]
  | isRateLimited i =>
      rw [ScopingCall.after, isRateLimited_rate]
      by_cases hi : i = ruleIndex
      · subst hi
        simp [ScopingCall.records, hlimit]
      · simp [ScopingCall.records, hi, Ne.symm hi]
  | checkCache i argv' => simp [ScopingCall.after, ScopingCall.records]

/-- Nothing enters the queue of a rule without a cap. -/
theorem ScopingCall.after_rate_uncapped (hlimit : limitOf scopes ruleIndex = 0) :
    (call.after scopes state now).rate ruleIndex = state.rate ruleIndex := by
  have hnot : ∀ i, ¬(ruleIndex = i ∧ 0 < limitOf scopes i) := by
    rintro i ⟨rfl, h⟩
    omega
  cases call with
  | recordApproval i argv' => rw [ScopingCall.after, recordApproval_rate, if_neg (hnot i)]
  | recordCacheHit i => rw [ScopingCall.after, recordCacheHit_rate, if_neg (hnot i)]
  | isRateLimited i => rw [ScopingCall.after, isRateLimited_rate, if_neg (hnot i)]
  | checkCache i argv' => rfl

end Call

namespace CallLog

variable {scopes : List RuleScope} {log : CallLog} {now : Instant} {ruleIndex : Nat} {argv : List String}
  {call : ScopingCall}

theorem state_snoc : state scopes (log ++ [(call, now)]) = call.after scopes (state scopes log) now := by
  rw [state, state, List.foldl_append]
  rfl

theorem times_snoc : times (log ++ [(call, now)]) = times log ++ [now] := List.map_append ..

theorem recordings_snoc :
    recordings ruleIndex (log ++ [(call, now)]) =
      recordings ruleIndex log ++ if call.records ruleIndex then [now] else [] := by
  rw [recordings, recordings, List.filter_append, times, List.map_append]
  cases hrec : call.records ruleIndex with
  | true => simp [times, hrec]
  | false => simp [times, hrec]

theorem lastApproval_snoc :
    lastApproval ruleIndex argv (log ++ [(call, now)]) =
      if call = .recordApproval ruleIndex argv then some now else lastApproval ruleIndex argv log := by
  rw [lastApproval, lastApproval, List.filter_append, times, List.map_append]
  by_cases hcall : call = .recordApproval ruleIndex argv
  · simp [hcall]
  · simp [hcall, times]

theorem recordings_chronological (hclock : Chronological log.times) : Chronological (recordings ruleIndex log) :=
  hclock.sublist (List.filter_sublist.map Prod.snd)

theorem recordings_le (hnow : ∀ t ∈ log.times, t ≤ now) : ∀ t ∈ recordings ruleIndex log, t ≤ now :=
  fun t ht => hnow t ((List.filter_sublist.map Prod.snd).subset ht)

theorem lastApproval_le {last : Instant} (hnow : ∀ t ∈ log.times, t ≤ now)
    (hlast : lastApproval ruleIndex argv log = some last) : last ≤ now :=
  hnow last ((List.filter_sublist.map Prod.snd).subset (List.mem_of_getLast? hlast))

/-- The clock of a longer log is the clock of the log, and then the last reading. -/
theorem chronological_snoc :
    Chronological (times (log ++ [(call, now)])) ↔ Chronological log.times ∧ ∀ t ∈ log.times, t ≤ now := by
  simp [times, Chronological, List.pairwise_append]

/-- The queue of a capped rule retains its recordings. -/
theorem retains_recordings (hlimit : 0 < limitOf scopes ruleIndex) (hclock : Chronological log.times)
    (hrep : ∀ t ∈ log.times, rateWindow ≤ t) (hnow : ∀ t ∈ log.times, t ≤ now) :
    Retains expiry now (recordings ruleIndex log) ((state scopes log).rate ruleIndex) := by
  induction log using List.reverseRecOn generalizing now with
  | nil => exact retains_nil
  | append_singleton log entry ih =>
      obtain ⟨call, t⟩ := entry
      rw [times_snoc] at hrep hnow
      obtain ⟨hchron, hlast⟩ := chronological_snoc.mp hclock
      have hbefore : Retains expiry t (recordings ruleIndex log) ((state scopes log).rate ruleIndex) :=
        ih hchron (fun x hx => hrep x (List.mem_append_left _ hx)) hlast
      have hrept : rateWindow ≤ t := hrep t (by simp)
      have hlater : t ≤ now := hnow t (by simp)
      suffices hthen : Retains expiry t (recordings ruleIndex (log ++ [(call, t)]))
          ((state scopes (log ++ [(call, t)])).rate ruleIndex) from hthen.later hlater
      rw [state_snoc, ScopingCall.after_rate hlimit, recordings_snoc]
      by_cases hrec : call.records ruleIndex = true
      · rw [if_pos hrec, if_pos hrec]
        exact hbefore.snoc t
      · rw [if_neg hrec, if_neg hrec, List.append_nil]
        by_cases hprunes : call = .isRateLimited ruleIndex
        · rw [if_pos hprunes, prune_eq hrept]
          exact hbefore.dropWhile
        · rw [if_neg hprunes]
          exact hbefore

theorem rate_uncapped (hlimit : limitOf scopes ruleIndex = 0) : (state scopes log).rate ruleIndex = [] := by
  induction log using List.reverseRecOn with
  | nil => rfl
  | append_singleton log entry ih =>
      obtain ⟨call, t⟩ := entry
      rw [state_snoc, ScopingCall.after_rate_uncapped hlimit]
      exact ih

/-- The entry of a key is its latest approval. -/
theorem cache_eq_lastApproval (httl : 0 < ttlOf scopes ruleIndex) :
    (state scopes log).cache (ruleIndex, argv) = lastApproval ruleIndex argv log := by
  induction log using List.reverseRecOn with
  | nil => rfl
  | append_singleton log entry ih =>
      obtain ⟨call, t⟩ := entry
      rw [state_snoc, ScopingCall.after_cache, lastApproval_snoc, ih]
      by_cases hcall : call = .recordApproval ruleIndex argv
      · rw [if_pos ⟨hcall, httl⟩, if_pos hcall]
      · rw [if_neg hcall, if_neg fun h => hcall h.1]

/-- How many recordings of a rule are in the window that ends now. -/
def recent (ruleIndex : Nat) (log : CallLog) (now : Instant) : Nat :=
  ((recordings ruleIndex log).filter fun t => now - rateWindow < t ∧ t ≤ now).length

theorem length_live (hrep : rateWindow ≤ now) (hnow : ∀ t ∈ log.times, t ≤ now) :
    (live expiry now (recordings ruleIndex log)).length = recent ruleIndex log now := by
  rw [live, recent]
  refine congrArg List.length (List.filter_congr fun t ht => ?_)
  have hle : t ≤ now := recordings_le hnow t ht
  have hcutoff : ∀ now t width : Nat, width ≤ now → t ≤ now → (now < t + width ↔ now - width < t ∧ t ≤ now) := by
    omega
  exact decide_eq_decide.mpr (hcutoff now t rateWindow hrep hle)

theorem isRateLimited_iff_recent (hclock : Chronological log.times) (hnow : ∀ t ∈ log.times, t ≤ now)
    (hreps : ∀ t ∈ log.times, rateWindow ≤ t) (hrep : rateWindow ≤ now) :
    (isRateLimited (state scopes log) scopes ruleIndex now).1 = true ↔
      0 < limitOf scopes ruleIndex ∧ limitOf scopes ruleIndex ≤ recent ruleIndex log now := by
  by_cases hlimit : 0 < limitOf scopes ruleIndex
  · have hwindow : prune ((checkedSub now rateWindow).getD now) ((state scopes log).rate ruleIndex) =
        live expiry now (recordings ruleIndex log) := by
      rw [prune_eq hrep]
      exact (retains_recordings hlimit hclock hreps hnow).dropWhile_eq_live expiry_monotone
        (recordings_chronological hclock)
    rw [← Bool.not_eq_false, isRateLimited_eq_false_iff hlimit, hwindow, length_live hrep hnow, Nat.not_lt,
      and_iff_right hlimit]
  · have hzero : limitOf scopes ruleIndex = 0 := Nat.eq_zero_of_not_pos hlimit
    have hfalse : (isRateLimited (state scopes log) scopes ruleIndex now).1 = false := by
      simp [isRateLimited, hzero]
    rw [hfalse]
    exact iff_of_false Bool.false_ne_true fun h => hlimit h.1

/-- A cache hit is an approval less than the rule's seconds ago; the truncation to whole seconds does not
move the bound. -/
theorem checkCache_iff_lastApproval :
    checkCache (state scopes log) scopes ruleIndex argv now = .hit ↔
      0 < ttlOf scopes ruleIndex ∧ ∃ last, lastApproval ruleIndex argv log = some last ∧
        now - last < ttlOf scopes ruleIndex * nanosPerSec := by
  have hsecs : ∀ last, secsSince now last < ttlOf scopes ruleIndex ↔
      now - last < ttlOf scopes ruleIndex * nanosPerSec :=
    fun last => Nat.div_lt_iff_lt_mul (by decide)
  rw [checkCache_eq_hit_iff]
  constructor
  · rintro ⟨last, hcache, hfresh⟩
    have httl : 0 < ttlOf scopes ruleIndex := Nat.lt_of_le_of_lt (Nat.zero_le _) hfresh
    rw [cache_eq_lastApproval httl] at hcache
    exact ⟨httl, last, hcache, (hsecs last).mp hfresh⟩
  · rintro ⟨httl, last, hlast, hfresh⟩
    exact ⟨last, (cache_eq_lastApproval httl).trans hlast, (hsecs last).mpr hfresh⟩

theorem unpruned_recordings : recordings ruleIndex log.unpruned = recordings ruleIndex log := by
  rw [recordings, recordings, unpruned, List.filter_filter]
  refine congrArg times (List.filter_congr fun entry _ => ?_)
  obtain ⟨call, t⟩ := entry
  cases call <;> simp [ScopingCall.records, ScopingCall.prunes]

theorem unpruned_lastApproval : lastApproval ruleIndex argv log.unpruned = lastApproval ruleIndex argv log := by
  rw [lastApproval, lastApproval, unpruned, List.filter_filter]
  refine congrArg (fun l => (times l).getLast?) (List.filter_congr fun entry _ => ?_)
  obtain ⟨call, t⟩ := entry
  cases call <;> simp [ScopingCall.prunes]

end CallLog

/-- **The approval state agrees with the complete log.** After any serial calls on a clock that does not go
back, whose readings are all a window above the least one: the rate check of a rule fails exactly when the
rule has a cap and the log holds as many recordings for it in the last 60 seconds; the cache check of a key
hits exactly when the rule has a lifetime and the last approval of the key is younger. Leaving out the calls
that prune changes neither, and a rule without a cap has no queue. -/
theorem scoping_agrees_with_log (scopes : List RuleScope) (log : CallLog) (now : Instant)
    (hclock : Chronological (log.times ++ [now])) (hrep : ∀ t ∈ log.times ++ [now], rateWindow ≤ t)
    (ruleIndex : Nat) (argv : List String) :
    ((isRateLimited (log.state scopes) scopes ruleIndex now).1 = true ↔
        0 < limitOf scopes ruleIndex ∧ limitOf scopes ruleIndex ≤
          ((log.recordings ruleIndex).filter fun t => now - rateWindow < t ∧ t ≤ now).length) ∧
      (checkCache (log.state scopes) scopes ruleIndex argv now = .hit ↔
        0 < ttlOf scopes ruleIndex ∧ ∃ last, log.lastApproval ruleIndex argv = some last ∧ last ≤ now ∧
          now - last < ttlOf scopes ruleIndex * nanosPerSec) ∧
      (isRateLimited (log.state scopes) scopes ruleIndex now).1 =
        (isRateLimited (log.unpruned.state scopes) scopes ruleIndex now).1 ∧
      checkCache (log.state scopes) scopes ruleIndex argv now =
        checkCache (log.unpruned.state scopes) scopes ruleIndex argv now ∧
      (limitOf scopes ruleIndex = 0 → (log.state scopes).rate ruleIndex = []) := by
  obtain ⟨hchron, -, hbefore⟩ := List.pairwise_append.mp hclock
  have hnow : ∀ t ∈ log.times, t ≤ now := fun t ht => hbefore t ht now List.mem_cons_self
  have hreps : ∀ t ∈ log.times, rateWindow ≤ t := fun t ht => hrep t (List.mem_append_left _ ht)
  have hrepnow : rateWindow ≤ now := hrep now (by simp)
  have hsub : log.unpruned.times.Sublist log.times := List.filter_sublist.map Prod.snd
  refine ⟨CallLog.isRateLimited_iff_recent hchron hnow hreps hrepnow, ?_, ?_, ?_, CallLog.rate_uncapped⟩
  · rw [CallLog.checkCache_iff_lastApproval]
    refine and_congr_right fun _ => exists_congr fun last => and_congr_right fun hlast => ?_
    exact (and_iff_right (CallLog.lastApproval_le hnow hlast)).symm
  · rw [Bool.eq_iff_iff, CallLog.isRateLimited_iff_recent hchron hnow hreps hrepnow,
      CallLog.isRateLimited_iff_recent (hchron.sublist hsub) (fun t ht => hnow t (hsub.subset ht))
        (fun t ht => hreps t (hsub.subset ht)) hrepnow, CallLog.recent, CallLog.recent, CallLog.unpruned_recordings]
  · have hhit : checkCache (log.state scopes) scopes ruleIndex argv now = .hit ↔
        checkCache (log.unpruned.state scopes) scopes ruleIndex argv now = .hit := by
      rw [CallLog.checkCache_iff_lastApproval, CallLog.checkCache_iff_lastApproval, CallLog.unpruned_lastApproval]
    cases hleft : checkCache (log.state scopes) scopes ruleIndex argv now with
    | hit => exact (hhit.mp hleft).symm
    | miss =>
        cases hright : checkCache (log.unpruned.state scopes) scopes ruleIndex argv now with
        | hit => exact absurd (hhit.mpr hright) (by simp [hleft])
        | miss => rfl

/-- Two executions a second apart and a check 60 seconds after the first: the queue has forgotten the first
and the cap of two is not reached. -/
theorem scoping_agrees_with_log_pruned :
    let log : CallLog := [(.recordApproval 0 ["id"], 100 * nanosPerSec), (.recordCacheHit 0, 101 * nanosPerSec),
      (.isRateLimited 0, 160 * nanosPerSec)]
    (isRateLimited (log.state [⟨300, 2⟩]) [⟨300, 2⟩] 0 (160 * nanosPerSec)).1 = false ∧
      checkCache (log.state [⟨300, 2⟩]) [⟨300, 2⟩] 0 ["id"] (160 * nanosPerSec) = .hit := by
  intro log
  obtain ⟨hlimited, hcached, -⟩ := scoping_agrees_with_log [⟨300, 2⟩] log (160 * nanosPerSec)
    (show List.Pairwise (· ≤ ·) _ by decide) (by decide) 0 ["id"]
  refine ⟨?_, ?_⟩
  · rw [← Bool.not_eq_true, hlimited]
    decide
  · rw [hcached]
    exact ⟨by decide, 100 * nanosPerSec, by decide, by decide, by decide⟩

end Sudix
