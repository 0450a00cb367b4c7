import Mathlib.Data.List.Induction
import Mathlib.Data.List.TakeWhile
import Sudix.DaemonSteps

/-! What the approval state remembers, as past-time properties of the trace: a cache entry is the
latest recording of its key since the last reset, with the time of that recording. These facts hold
whatever programs run. -/

namespace Sudix

open Concurrent

variable {P : Platform} {α : Type} {s₀ s : Daemon} {p₀ ps : Pool (sig P) Tid α}
  {tr : Trace (sig P) Daemon Tid Env}

/-- The approval state is replaced by an empty one. -/
def Resets (st : Step (sig P) Daemon Tid Env) : Prop :=
  ∃ t, st.label = .thread t ⟨.resetApprovals, ()⟩

/-- A thread records an approval of `argv` under a rule with a cache. -/
def CachesApproval (ruleIndex : Nat) (argv : List String) (st : Step (sig P) Daemon Tid Env) : Prop :=
  ∃ t scopes, st.label = .thread t ⟨.recordApproval scopes ruleIndex argv, ()⟩ ∧ 0 < ttlOf scopes ruleIndex

/-- The last step that touched the entry of the key recorded an approval, at the time `last`. -/
def CachedAt (ruleIndex : Nat) (argv : List String) (last : Instant) (tr : Trace (sig P) Daemon Tid Env) : Prop :=
  Since (fun st => Resets st ∨ CachesApproval ruleIndex argv st)
    (fun _ st => CachesApproval ruleIndex argv st ∧ st.pre.now = last) tr

section CachedAt

variable {ruleIndex : Nat} {argv : List String} {last : Instant} {st : Step (sig P) Daemon Tid Env}

/-- Only operations on the approval state touch an entry. -/
theorem untouched_of_not_writes (hw : writes Op.writesApprovals st.label = false) :
    ¬ (Resets st ∨ CachesApproval ruleIndex argv st) := by
  rintro (⟨t, hlabel⟩ | ⟨t, scopes, hlabel, -⟩)
  · rw [hlabel] at hw
    cases hw
  · rw [hlabel] at hw
    cases hw

theorem CachedAt.keep (h : CachedAt ruleIndex argv last tr)
    (hnot : ¬ (Resets st ∨ CachesApproval ruleIndex argv st)) :
    CachedAt ruleIndex argv last (tr ++ [st]) := since_snoc.mpr (.inr ⟨h, hnot⟩)

/-- Recording an approval makes the entry of its own key, if the rule has a cache. -/
theorem CachedAt.record {pre post : Daemon} {t : Tid} {scopes : List RuleScope} {i : Nat} {argv' : List String}
    (h : pre.approvals.cache (ruleIndex, argv) = some last → CachedAt ruleIndex argv last tr)
    (hentry : (Sudix.recordApproval pre.approvals scopes i argv' pre.now).cache (ruleIndex, argv) = some last) :
    CachedAt ruleIndex argv last
      (tr ++ [(⟨pre, .thread t ⟨.recordApproval scopes i argv', ()⟩, post⟩ : Step (sig P) Daemon Tid Env)]) := by
  rw [recordApproval_cache] at hentry
  by_cases httl : 0 < ttlOf scopes i
  · rw [if_pos httl] at hentry
    by_cases hkey : (ruleIndex, argv) = (i, argv')
    · cases hkey
      rw [Function.update_self] at hentry
      cases hentry
      exact since_snoc.mpr (.inl ⟨⟨t, scopes, rfl, httl⟩, rfl⟩)
    · rw [Function.update_of_ne hkey] at hentry
      apply (h hentry).keep
      rintro (⟨t, hlabel⟩ | ⟨t, scopes, hlabel, -⟩)
      · cases hlabel
      · cases hlabel
        exact hkey rfl
  · rw [if_neg httl] at hentry
    apply (h hentry).keep
    rintro (⟨t, hlabel⟩ | ⟨t, scopes', hlabel, httl'⟩)
    · cases hlabel
    · cases hlabel
      exact httl httl'

end CachedAt

/-- **Cache entries are recordings.** In a run that starts with an empty approval state, an entry is
the latest approval recorded for its key since the last reset, and its time is when it was recorded. -/
theorem cache_since (hrun : Run (world P) s₀ p₀ tr s ps) (hempty : s₀.approvals = ApprovalState.new) :
    ∀ ruleIndex argv last, s.approvals.cache (ruleIndex, argv) = some last →
      Since (fun st => Resets st ∨ CachesApproval ruleIndex argv st)
        (fun _ st => CachesApproval ruleIndex argv st ∧ st.pre.now = last) tr := by
  intro ruleIndex argv last
  refine hrun.world_invariant
    (I := fun tr s => s.approvals.cache (ruleIndex, argv) = some last → CachedAt ruleIndex argv last tr) ?_ ?_
  · intro h
    rw [hempty] at h
    cases h
  · rintro tr ⟨pre, label, post⟩ ih hlegal hentry
    cases hw : writes Op.writesApprovals label with
    | false =>
        rw [legal_approvals hlegal hw] at hentry
        exact (ih hentry).keep (untouched_of_not_writes hw)
    | true =>
        cases label with
        | env event => cases hw
        | thread t event =>
            obtain ⟨op, answer⟩ := event
            cases op with
            | resetApprovals =>
                rw [legal_resetApprovals hlegal] at hentry
                cases hentry
            | isRateLimited scopes i =>
                have hcache := congrArg (fun r => r.2.cache) (legal_isRateLimited hlegal)
                rw [isRateLimited_cache] at hcache
                rw [← hcache] at hentry
                apply (ih hentry).keep
                rintro (⟨t, hlabel⟩ | ⟨t, scopes, hlabel, -⟩) <;> cases hlabel
            | recordCacheHit scopes i =>
                rw [legal_recordCacheHit hlegal, recordCacheHit_cache] at hentry
                apply (ih hentry).keep
                rintro (⟨t, hlabel⟩ | ⟨t, scopes, hlabel, -⟩) <;> cases hlabel
            | recordApproval scopes i argv' =>
                rw [legal_recordApproval hlegal] at hentry
                exact .record ih hentry
            | _ => cases hw

/-- Whether a step records an execution under a rule with a rate cap. -/
def notes (ruleIndex : Nat) (st : Step (sig P) Daemon Tid Env) : Bool :=
  match st.label with
  | .thread _ ⟨.recordApproval scopes i _, _⟩ => i = ruleIndex ∧ 0 < limitOf scopes i
  | .thread _ ⟨.recordCacheHit scopes i, _⟩ => i = ruleIndex ∧ 0 < limitOf scopes i
  | _ => false

def resets (st : Step (sig P) Daemon Tid Env) : Bool :=
  match st.label with
  | .thread _ ⟨.resetApprovals, _⟩ => true
  | _ => false

/-- The executions recorded under a rule since the last reset, oldest first. -/
def noted (ruleIndex : Nat) (tr : Trace (sig P) Daemon Tid Env) : List (Step (sig P) Daemon Tid Env) :=
  tr.foldl (fun acc st => if resets st then [] else if notes ruleIndex st then acc ++ [st] else acc) []

theorem noted_snoc (ruleIndex : Nat) (tr : Trace (sig P) Daemon Tid Env) (st : Step (sig P) Daemon Tid Env) :
    noted ruleIndex (tr ++ [st]) =
      if resets st then [] else if notes ruleIndex st then noted ruleIndex tr ++ [st] else noted ruleIndex tr := by
  simp [noted, List.foldl_append]

/-- Where the cutoff is representable, pruning drops what is a whole window old. -/
theorem mem_of_prune {now x : Instant} {width : Nat} {window : List Instant} (hnow : width ≤ now)
    (hx : x ∈ window.takeWhile (· ≤ (checkedSub now width).getD now)) : x + width ≤ now := by
  have hle := List.mem_takeWhile_imp hx
  rw [checkedSub, if_pos hnow, Option.getD_some, decide_eq_true_eq] at hle
  exact Nat.add_le_of_le_sub hnow hle

/-- The window of the rule is what is left of the recordings since the last reset after some of the
oldest have been dropped; on a clock that starts past its first minute, those are a minute old. -/
def LeftOver (start : Instant) (ruleIndex : Nat) (tr : Trace (sig P) Daemon Tid Env) (s : Daemon) : Prop :=
  ∃ dropped, (noted ruleIndex tr).map (fun st => st.pre.now) = dropped ++ s.approvals.rate ruleIndex ∧
    (rateWindow ≤ start → rateWindow ≤ s.now ∧ ∀ x ∈ dropped, x + rateWindow ≤ s.now)

section LeftOver

variable {start : Instant} {ruleIndex : Nat} {st : Step (sig P) Daemon Tid Env}

/-- What was a minute old stays a minute old. -/
theorem old_mono {dropped : List Instant} {now now' : Instant} (hclock : now ≤ now')
    (h : rateWindow ≤ start → rateWindow ≤ now ∧ ∀ x ∈ dropped, x + rateWindow ≤ now) :
    rateWindow ≤ start → rateWindow ≤ now' ∧ ∀ x ∈ dropped, x + rateWindow ≤ now' :=
  fun hstart => ⟨Nat.le_trans (h hstart).1 hclock, fun x hx => Nat.le_trans ((h hstart).2 x hx) hclock⟩

theorem LeftOver.keep (h : LeftOver start ruleIndex tr st.pre) (hclock : st.pre.now ≤ st.post.now)
    (hreset : resets st = false) (hnote : notes ruleIndex st = false)
    (hrate : st.post.approvals.rate ruleIndex = st.pre.approvals.rate ruleIndex) :
    LeftOver start ruleIndex (tr ++ [st]) st.post := by
  obtain ⟨dropped, hnoted, hold⟩ := h
  refine ⟨dropped, ?_, old_mono hclock hold⟩
  rw [noted_snoc, hreset, hnote, hrate]
  exact hnoted

theorem LeftOver.reset (h : LeftOver start ruleIndex tr st.pre) (hclock : st.pre.now ≤ st.post.now)
    (hreset : resets st = true) (hrate : st.post.approvals = ApprovalState.new) :
    LeftOver start ruleIndex (tr ++ [st]) st.post := by
  obtain ⟨dropped, -, hold⟩ := h
  refine ⟨[], ?_, fun hstart => ⟨(old_mono hclock hold hstart).1, by simp⟩⟩
  rw [noted_snoc, hreset, hrate]
  rfl

/-- A rate check drops from the window what is a minute old. -/
theorem LeftOver.prune (h : LeftOver start ruleIndex tr st.pre) (hclock : st.pre.now ≤ st.post.now)
    (hreset : resets st = false) (hnote : notes ruleIndex st = false)
    (hrate : st.post.approvals.rate ruleIndex =
      Sudix.prune ((checkedSub st.pre.now rateWindow).getD st.pre.now) (st.pre.approvals.rate ruleIndex)) :
    LeftOver start ruleIndex (tr ++ [st]) st.post := by
  obtain ⟨dropped, hnoted, hold⟩ := h
  refine ⟨dropped ++ (st.pre.approvals.rate ruleIndex).takeWhile
    (· ≤ (checkedSub st.pre.now rateWindow).getD st.pre.now), ?_, fun hstart => ?_⟩
  · rw [noted_snoc, hreset, hnote, hrate, List.append_assoc, Sudix.prune, List.takeWhile_append_dropWhile]
    exact hnoted
  · obtain ⟨hnow, hdropped⟩ := old_mono hclock hold hstart
    refine ⟨hnow, fun x hx => ?_⟩
    rcases List.mem_append.mp hx with hx | hx
    · exact hdropped x hx
    · exact Nat.le_trans (mem_of_prune (hold hstart).1 hx) hclock

/-- A recording under a rule enters the rule's own window, if the rule has a rate cap. -/
theorem LeftOver.note {i : Nat} {scopes : List RuleScope} (h : LeftOver start ruleIndex tr st.pre)
    (hclock : st.pre.now ≤ st.post.now) (hreset : resets st = false)
    (hnote : notes ruleIndex st = decide (i = ruleIndex ∧ 0 < limitOf scopes i))
    (hrate : st.post.approvals.rate ruleIndex =
      if ruleIndex = i ∧ 0 < limitOf scopes i then st.pre.approvals.rate ruleIndex ++ [st.pre.now]
      else st.pre.approvals.rate ruleIndex) :
    LeftOver start ruleIndex (tr ++ [st]) st.post := by
  by_cases hi : i = ruleIndex ∧ 0 < limitOf scopes i
  · obtain ⟨dropped, hnoted, hold⟩ := h
    refine ⟨dropped, ?_, old_mono hclock hold⟩
    rw [if_pos ⟨hi.1.symm, hi.2⟩] at hrate
    rw [noted_snoc, hreset, hnote, decide_eq_true hi, hrate, ← List.append_assoc, ← hnoted]
    simp
  · rw [if_neg fun h => hi ⟨h.1.symm, h.2⟩] at hrate
    exact h.keep hclock hreset (by rw [hnote, decide_eq_false hi]) hrate

end LeftOver

/-- **Rate windows are recordings.** In a run that starts with an empty approval state, the window of
a rule is what is left of the recordings since the last reset after some of the oldest have been
dropped; past the first minute of the clock, those are a minute old. -/
theorem rate_noted (hrun : Run (world P) s₀ p₀ tr s ps) (hempty : s₀.approvals = ApprovalState.new)
    (ruleIndex : Nat) : LeftOver s₀.now ruleIndex tr s := by
  refine hrun.world_invariant (I := fun tr s => LeftOver s₀.now ruleIndex tr s) ?_ ?_
  · refine ⟨[], ?_, fun h => ⟨h, by simp⟩⟩
    rw [hempty]
    rfl
  · rintro tr ⟨pre, label, post⟩ ih hlegal
    have hclock : pre.now ≤ post.now := legal_now hlegal
    cases hw : writes Op.writesApprovals label with
    | false =>
        have happrovals := legal_approvals hlegal hw
        cases label with
        | env event => exact ih.keep hclock rfl rfl (by rw [happrovals])
        | thread t event =>
            obtain ⟨op, answer⟩ := event
            cases op with
            | resetApprovals | recordApproval _ _ _ | recordCacheHit _ _ => cases hw
            | _ => exact ih.keep hclock rfl rfl (by rw [happrovals])
    | true =>
        cases label with
        | env event => cases hw
        | thread t event =>
            obtain ⟨op, answer⟩ := event
            cases op with
            | resetApprovals => exact ih.reset hclock rfl (legal_resetApprovals hlegal)
            | isRateLimited scopes i =>
                have hrate := congrArg (fun r => r.2.rate ruleIndex) (legal_isRateLimited hlegal)
                simp only [isRateLimited_rate] at hrate
                by_cases hi : ruleIndex = i ∧ 0 < limitOf scopes i
                · rw [if_pos hi] at hrate
                  exact ih.prune hclock rfl rfl hrate.symm
                · rw [if_neg hi] at hrate
                  exact ih.keep hclock rfl rfl hrate.symm
            | recordCacheHit scopes i =>
                refine ih.note hclock rfl rfl ?_
                rw [legal_recordCacheHit hlegal, recordCacheHit_rate]
            | recordApproval scopes i argv =>
                refine ih.note hclock rfl rfl ?_
                rw [legal_recordApproval hlegal, recordApproval_rate]
            | _ => cases hw

theorem mem_of_mem_noted {ruleIndex : Nat} {st : Step (sig P) Daemon Tid Env} (h : st ∈ noted ruleIndex tr) :
    st ∈ tr := by
  induction tr using List.reverseRecOn with
  | nil => cases h
  | append_singleton tr st' ih =>
      rw [noted_snoc] at h
      split at h
      · cases h
      · split at h
        · rcases List.mem_append.mp h with hold | hnew
          · exact List.mem_append_left _ (ih hold)
          · exact List.mem_append_right _ hnew
        · exact List.mem_append_left _ (ih h)

/-- The clock of a run never goes back. -/
theorem now_le (hrun : Run (world P) s₀ p₀ tr s ps) : ∀ st ∈ tr, st.pre.now ≤ s.now := by
  refine hrun.world_invariant (I := fun tr s => ∀ st ∈ tr, st.pre.now ≤ s.now) ?_ ?_
  · intro st hst
    cases hst
  · intro tr st ih hlegal st' hst'
    rcases List.mem_append.mp hst' with hold | hnew
    · exact Nat.le_trans (ih st' hold) (legal_now hlegal)
    · obtain rfl := List.mem_singleton.mp hnew
      exact legal_now hlegal

/-- Nothing in a window is later than the clock. -/
theorem rate_le (hrun : Run (world P) s₀ p₀ tr s ps) (hempty : s₀.approvals = ApprovalState.new)
    (ruleIndex : Nat) : ∀ x ∈ s.approvals.rate ruleIndex, x ≤ s.now := by
  intro x hx
  obtain ⟨dropped, hnoted, -⟩ := rate_noted hrun hempty ruleIndex
  have hmem : x ∈ (noted ruleIndex tr).map fun st => st.pre.now := by
    rw [hnoted]
    exact List.mem_append_right _ hx
  obtain ⟨st, hst, rfl⟩ := List.mem_map.mp hmem
  exact now_le hrun st (mem_of_mem_noted hst)

end Sudix
