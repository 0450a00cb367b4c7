import Mathlib.Algebra.BigOperators.Group.Finset.Basic
import Mathlib.Algebra.Order.Group.Multiset
import Mathlib.Data.List.Induction
import Sudix.ConcurrentRun

/-! What a trace holds, thread by thread: the items its steps stand for are, as a multiset, those of the histories of
its threads. -/

namespace Concurrent

variable {S : Signature} {σ τ ε κ : Type} {tr : Trace S σ τ ε} {st : Step S σ τ ε}

/-- The item a step stands for, if any, where `f` gives those of the events of each thread. -/
def Step.item (f : τ → Event S → Option κ) (st : Step S σ τ ε) : Option κ :=
  match st.label with
  | .thread t event => f t event
  | .env _ => none

/-- The thread of a step. -/
def Step.mover (st : Step S σ τ ε) : Option τ :=
  match st.label with
  | .thread t _ => some t
  | .env _ => none

variable [DecidableEq τ]

/-- The threads that move in a trace. -/
def movers (tr : Trace S σ τ ε) : Finset τ := (tr.filterMap Step.mover).toFinset

theorem mem_movers_of_history {t : τ} (h : history t tr ≠ []) : t ∈ movers tr := by
  obtain ⟨event, hevent⟩ := List.exists_mem_of_ne_nil _ h
  obtain ⟨st, hst, hlabel⟩ := mem_history.mp hevent
  rw [movers, List.mem_toFinset, List.mem_filterMap]
  exact ⟨st, hst, by rw [Step.mover, hlabel]⟩

variable (f : τ → Event S → Option κ)

theorem item_eq_sum (ts : Finset τ) (h : ∀ t, history t [st] ≠ [] → t ∈ ts) :
    ((st.item f).toList : Multiset κ) = ∑ t ∈ ts, ((history t [st]).filterMap (f t) : Multiset κ) := by
  obtain ⟨pre, label, post⟩ := st
  cases label with
  | env event => simp [Step.item]
  | thread u event =>
      rw [Finset.sum_eq_single_of_mem u (h u (by simp))]
      · rw [history_thread_self]
        show ((f u event).toList : Multiset κ) = _
        cases hitem : f u event with
        | none => rw [List.filterMap_cons_none hitem]; rfl
        | some item => rw [List.filterMap_cons_some hitem]; rfl
      · intro t _ ht
        rw [history_thread_other ht.symm]
        rfl

/-- **Threads partition a trace.** -/
theorem items_eq_sum (ts : Finset τ) (h : ∀ t, history t tr ≠ [] → t ∈ ts) :
    (tr.filterMap (Step.item f) : Multiset κ) = ∑ t ∈ ts, ((history t tr).filterMap (f t) : Multiset κ) := by
  induction tr using List.reverseRecOn with
  | nil => simp
  | append_singleton tr st ih =>
      have hbefore : ∀ t, history t tr ≠ [] → t ∈ ts := by
        intro t ht
        refine h t ?_
        rw [history_append]
        exact fun hnil => ht (List.append_eq_nil_iff.mp hnil).1
      have hlast : ∀ t, history t [st] ≠ [] → t ∈ ts := by
        intro t ht
        refine h t ?_
        rw [history_append]
        exact fun hnil => ht (List.append_eq_nil_iff.mp hnil).2
      have hsplit : ∀ t, ((history t (tr ++ [st])).filterMap (f t) : Multiset κ) =
          ((history t tr).filterMap (f t) : Multiset κ) + ((history t [st]).filterMap (f t) : Multiset κ) := by
        intro t
        rw [history_append, List.filterMap_append, Multiset.coe_add]
      have hone : [st].filterMap (Step.item f) = (st.item f).toList := by
        cases hitem : st.item f with
        | none => rw [List.filterMap_cons_none hitem]; rfl
        | some item => rw [List.filterMap_cons_some hitem]; rfl
      calc ((tr ++ [st]).filterMap (Step.item f) : Multiset κ)
          = (tr.filterMap (Step.item f) : Multiset κ) + ((st.item f).toList : Multiset κ) := by
            rw [List.filterMap_append, hone, Multiset.coe_add]
        _ = ∑ t ∈ ts, ((history t (tr ++ [st])).filterMap (f t) : Multiset κ) := by
            rw [ih hbefore, item_eq_sum f ts hlast, ← Finset.sum_add_distrib]
            exact Finset.sum_congr rfl fun t _ => (hsplit t).symm

end Concurrent
