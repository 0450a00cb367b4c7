import Mathlib.Data.List.Basic
import Mathlib.Data.List.TakeWhile
import Mathlib.Order.Lattice
import Mathlib.Order.Monotone.Defs

/-! Sliding windows over a chronological log. An entry made at `x` is live until `expiry x`; a log is
capped when at no time more than `limit` of the entries made until then are live. A log stays capped
exactly as long as every new entry finds fewer than `limit` live ones. -/

namespace SlidingWindow

variable {α : Type} [LinearOrder α] {expiry : α → α} {limit : Nat} {log : List α}

def Chronological (log : List α) : Prop := log.Pairwise (· ≤ ·)

/-- The entries that are live at `now`. -/
def live (expiry : α → α) (now : α) (log : List α) : List α := log.filter fun x => now < expiry x

/-- At any time at most `limit` of the entries made so far are live. -/
def Capped (expiry : α → α) (limit : Nat) (log : List α) : Prop :=
  ∀ now, (live expiry now (log.filter fun x => x ≤ now)).length ≤ limit

theorem capped_nil : Capped expiry limit [] := fun _ => Nat.zero_le _

theorem live_append (now : α) (log log' : List α) :
    live expiry now (log ++ log') = live expiry now log ++ live expiry now log' := List.filter_append ..

/-- Entries that have expired do not count. -/
theorem live_append_of_expired {now : α} {dropped : List α} (h : ∀ x ∈ dropped, expiry x ≤ now) :
    live expiry now (dropped ++ log) = live expiry now log := by
  have hnil : live expiry now dropped = [] := by
    refine List.filter_eq_nil_iff.mpr fun x hx => ?_
    simpa using h x hx
  rw [live_append, hnil, List.nil_append]

/-- In a chronological log with a monotone expiry the expired entries come first. -/
theorem dropWhile_expired (hmono : Monotone expiry) (now : α) (hlog : Chronological log) :
    log.dropWhile (fun x => expiry x ≤ now) = live expiry now log := by
  induction log with
  | nil => rfl
  | cons x log ih =>
      obtain ⟨hx, hlog⟩ := List.pairwise_cons.mp hlog
      by_cases hexp : expiry x ≤ now
      · have hnot : ¬ now < expiry x := not_lt.mpr hexp
        rw [List.dropWhile_cons_of_pos (by simpa using hexp), ih hlog]
        simp [live, hnot]
      · rw [List.dropWhile_cons_of_neg (by simpa using hexp)]
        refine (List.filter_eq_self.mpr fun y hy => ?_).symm
        have hlive : now < expiry y := by
          rcases List.mem_cons.mp hy with rfl | hy
          · exact lt_of_not_ge hexp
          · exact lt_of_lt_of_le (lt_of_not_ge hexp) (hmono (hx y hy))
        simpa using hlive

/-- **The step of a capped log.** -/
theorem capped_snoc (hexpiry : ∀ x, x < expiry x) {x : α} (hlog : ∀ y ∈ log, y ≤ x) :
    Capped expiry limit (log ++ [x]) ↔
      Capped expiry limit log ∧ (live expiry x log).length < limit := by
  have hall : log.filter (fun y => y ≤ x) = log := List.filter_eq_self.mpr fun y hy => by simpa using hlog y hy
  constructor
  · intro h
    refine ⟨fun now => Nat.le_trans ?_ (h now), ?_⟩
    · rw [List.filter_append, live_append, List.length_append]
      exact Nat.le_add_right _ _
    · have hx := h x
      rw [List.filter_append, hall, live_append, List.length_append] at hx
      have hself : (live expiry x ([x].filter fun y => y ≤ x)).length = 1 := by simp [live, hexpiry x]
      omega
  · rintro ⟨hcapped, hlt⟩ now
    rw [List.filter_append, live_append, List.length_append]
    by_cases hnow : x ≤ now
    · have hsub : (live expiry now (log.filter fun y => y ≤ now)).length ≤ (live expiry x log).length := by
        refine List.Sublist.length_le ?_
        refine List.Sublist.trans (List.Sublist.filter _ List.filter_sublist) ?_
        refine List.monotone_filter_right log fun y hy => ?_
        simp only [decide_eq_true_eq] at hy ⊢
        exact lt_of_le_of_lt hnow hy
      have hone : (live expiry now ([x].filter fun y => y ≤ now)).length ≤ 1 :=
        Nat.le_trans (List.length_filter_le _ _) (List.length_filter_le _ _)
      omega
    · have hnone : [x].filter (fun y => y ≤ now) = [] := by simp [hnow]
      rw [hnone]
      exact hcapped now

/-- A window retains a log: what it lacks are the oldest entries, all expired by `now`. -/
def Retains (expiry : α → α) (now : α) (log window : List α) : Prop :=
  ∃ dropped, log = dropped ++ window ∧ ∀ x ∈ dropped, expiry x ≤ now

section Retains

variable {now now' : α} {window : List α}

theorem retains_nil : Retains expiry now [] [] := ⟨[], rfl, fun _ hx => absurd hx List.not_mem_nil⟩

theorem Retains.later (h : Retains expiry now log window) (hnow : now ≤ now') :
    Retains expiry now' log window := by
  obtain ⟨dropped, hlog, hexpired⟩ := h
  exact ⟨dropped, hlog, fun x hx => le_trans (hexpired x hx) hnow⟩

theorem Retains.snoc (h : Retains expiry now log window) (x : α) :
    Retains expiry now (log ++ [x]) (window ++ [x]) := by
  obtain ⟨dropped, rfl, hexpired⟩ := h
  exact ⟨dropped, List.append_assoc .., hexpired⟩

/-- Expired entries may be dropped from the front. -/
theorem Retains.dropWhile (h : Retains expiry now log window) :
    Retains expiry now log (window.dropWhile fun x => expiry x ≤ now) := by
  obtain ⟨dropped, rfl, hexpired⟩ := h
  refine ⟨dropped ++ window.takeWhile fun x => expiry x ≤ now, ?_, fun x hx => ?_⟩
  · rw [List.append_assoc, List.takeWhile_append_dropWhile]
  · rcases List.mem_append.mp hx with hx | hx
    · exact hexpired x hx
    · simpa using List.mem_takeWhile_imp hx

/-- **What a window answers is what the log answers.** -/
theorem Retains.dropWhile_eq_live (h : Retains expiry now log window) (hmono : Monotone expiry)
    (hlog : Chronological log) : window.dropWhile (fun x => expiry x ≤ now) = live expiry now log := by
  obtain ⟨dropped, rfl, hexpired⟩ := h
  have hwindow : Chronological window := (List.pairwise_append.mp hlog).2.1
  rw [dropWhile_expired hmono now hwindow, live_append_of_expired hexpired]

end Retains

end SlidingWindow
