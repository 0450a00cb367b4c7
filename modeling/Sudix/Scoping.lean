import Mathlib.Data.List.TakeWhile
import Mathlib.Logic.Function.Basic

/-! Per-rule approval caching and rate limiting. Each public function of the source takes the state
lock once, so it is one atomic step on the state; the clock reading it makes is an argument. -/

namespace Sudix

/-- A monotonic clock reading, in nanoseconds above the least representable one. -/
abbrev Instant := Nat

def nanosPerSec : Nat := 1000000000

/-- `Duration::from_mins(1)` in nanoseconds. -/
def rateWindow : Nat := 60 * nanosPerSec

/-- `Instant::duration_since`, which saturates, truncated to whole seconds. -/
def secsSince (now last : Instant) : Nat := (now - last) / nanosPerSec

def checkedSub (now : Instant) (duration : Nat) : Option Instant :=
  if duration ≤ now then some (now - duration) else none

structure RuleScope where
  cacheTtlSecs : Nat
  ratePerMin : Nat
  deriving DecidableEq

/-- The cache maps a rule index and an exact argv to the time of the last approval, the rate map a
rule index to the queue of recent executions, oldest first; an absent queue is the empty one. -/
structure ApprovalState where
  cache : Nat × List String → Option Instant
  rate : Nat → List Instant

def ApprovalState.new : ApprovalState := ⟨fun _ => none, fun _ => []⟩

inductive CacheVerdict where
  | hit
  | miss
  deriving DecidableEq

/-- `scopes.get(rule_index).map_or(0, |s| s.cache_ttl_secs)`. -/
def ttlOf (scopes : List RuleScope) (ruleIndex : Nat) : Nat :=
  (scopes[ruleIndex]?).elim 0 RuleScope.cacheTtlSecs

def limitOf (scopes : List RuleScope) (ruleIndex : Nat) : Nat :=
  (scopes[ruleIndex]?).elim 0 RuleScope.ratePerMin

def checkCache (state : ApprovalState) (scopes : List RuleScope) (ruleIndex : Nat)
    (argv : List String) (now : Instant) : CacheVerdict :=
  let ttl := ttlOf scopes ruleIndex
  if ttl = 0 then .miss
  else match state.cache (ruleIndex, argv) with
  | some last => if secsSince now last < ttl then .hit else .miss
  | none => .miss

/-- The loop that pops timestamps at or before the cutoff from the front. -/
def prune (cutoff : Instant) (window : List Instant) : List Instant :=
  window.dropWhile (· ≤ cutoff)

theorem prune_eq_nil {cutoff : Instant} {window : List Instant} (h : ∀ t ∈ window, t ≤ cutoff) :
    prune cutoff window = [] :=
  List.dropWhile_eq_nil_iff.mpr fun t ht => decide_eq_true (h t ht)

/-- The answer and the state with the rule's window pruned. -/
def isRateLimited (state : ApprovalState) (scopes : List RuleScope) (ruleIndex : Nat)
    (now : Instant) : Bool × ApprovalState :=
  let limit := limitOf scopes ruleIndex
  if limit = 0 then (false, state)
  else
    let cutoff := (checkedSub now rateWindow).getD now
    let window := prune cutoff (state.rate ruleIndex)
    (limit ≤ window.length, { state with rate := Function.update state.rate ruleIndex window })

def noteExecution (state : ApprovalState) (scopes : List RuleScope) (ruleIndex : Nat)
    (now : Instant) : ApprovalState :=
  if 0 < limitOf scopes ruleIndex then
    { state with rate := Function.update state.rate ruleIndex (state.rate ruleIndex ++ [now]) }
  else state

def recordApproval (state : ApprovalState) (scopes : List RuleScope) (ruleIndex : Nat)
    (argv : List String) (now : Instant) : ApprovalState :=
  let cached :=
    if 0 < ttlOf scopes ruleIndex then
      { state with cache := Function.update state.cache (ruleIndex, argv) (some now) }
    else state
  noteExecution cached scopes ruleIndex now

def recordCacheHit (state : ApprovalState) (scopes : List RuleScope) (ruleIndex : Nat)
    (now : Instant) : ApprovalState :=
  noteExecution state scopes ruleIndex now

section

variable {state : ApprovalState} {scopes : List RuleScope} {ruleIndex : Nat} {argv : List String}
  {now : Instant}

theorem checkCache_eq_hit_iff :
    checkCache state scopes ruleIndex argv now = .hit ↔
      ∃ last, state.cache (ruleIndex, argv) = some last ∧ secsSince now last < ttlOf scopes ruleIndex := by
  unfold checkCache
  by_cases httl : ttlOf scopes ruleIndex = 0
  · simp [httl]
  · cases hcache : state.cache (ruleIndex, argv) with
    | none => simp [httl]
    | some last => simp [httl]

@[simp] theorem isRateLimited_cache :
    (isRateLimited state scopes ruleIndex now).2.cache = state.cache := by
  simp only [isRateLimited]
  split <;> rfl

@[simp] theorem noteExecution_cache : (noteExecution state scopes ruleIndex now).cache = state.cache := by
  unfold noteExecution
  split <;> rfl

@[simp] theorem recordCacheHit_cache :
    (recordCacheHit state scopes ruleIndex now).cache = state.cache := noteExecution_cache

theorem recordApproval_cache :
    (recordApproval state scopes ruleIndex argv now).cache =
      if 0 < ttlOf scopes ruleIndex then Function.update state.cache (ruleIndex, argv) (some now)
      else state.cache := by
  simp only [recordApproval, noteExecution_cache]
  split <;> rfl

theorem noteExecution_rate (i : Nat) :
    (noteExecution state scopes ruleIndex now).rate i =
      if i = ruleIndex ∧ 0 < limitOf scopes ruleIndex then state.rate i ++ [now] else state.rate i := by
  unfold noteExecution
  by_cases hlimit : 0 < limitOf scopes ruleIndex
  · rw [if_pos hlimit]
    by_cases hi : i = ruleIndex
    · subst hi
      simp [hlimit]
    · simp [hi]
  · rw [if_neg hlimit, if_neg fun h => hlimit h.2]

theorem recordCacheHit_rate (i : Nat) :
    (recordCacheHit state scopes ruleIndex now).rate i =
      if i = ruleIndex ∧ 0 < limitOf scopes ruleIndex then state.rate i ++ [now] else state.rate i :=
  noteExecution_rate i

theorem recordApproval_rate (i : Nat) :
    (recordApproval state scopes ruleIndex argv now).rate i =
      if i = ruleIndex ∧ 0 < limitOf scopes ruleIndex then state.rate i ++ [now] else state.rate i := by
  simp only [recordApproval, noteExecution_rate]
  by_cases httl : 0 < ttlOf scopes ruleIndex
  · rw [if_pos httl]
  · rw [if_neg httl]

theorem isRateLimited_rate (i : Nat) :
    (isRateLimited state scopes ruleIndex now).2.rate i =
      if i = ruleIndex ∧ 0 < limitOf scopes ruleIndex then
        prune ((checkedSub now rateWindow).getD now) (state.rate i)
      else state.rate i := by
  simp only [isRateLimited]
  by_cases hlimit : limitOf scopes ruleIndex = 0
  · rw [if_pos hlimit, if_neg fun h => Nat.ne_of_gt h.2 hlimit]
  · rw [if_neg hlimit]
    by_cases hi : i = ruleIndex
    · subst hi
      simp [Nat.pos_of_ne_zero hlimit]
    · simp [hi]

theorem isRateLimited_eq_false_iff (hlimit : 0 < limitOf scopes ruleIndex) :
    (isRateLimited state scopes ruleIndex now).1 = false ↔
      (prune ((checkedSub now rateWindow).getD now) (state.rate ruleIndex)).length <
        limitOf scopes ruleIndex := by
  simp only [isRateLimited, if_neg (Nat.ne_of_gt hlimit), decide_eq_false_iff_not, Nat.not_le]

end

end Sudix
