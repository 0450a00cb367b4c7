import Sudix.DaemonSteps

/-! Who holds a mutex. Where every thread takes a mutex at most once, and releases it only while it
holds it, the holder is the thread that has taken and not released it. -/

namespace Sudix

open Concurrent

variable {P : Platform} {l : Lock} {own : History (sig P)} {t : Tid}

/-- A history has taken the mutex and not released it. -/
def Holds (l : Lock) (own : History (sig P)) : Prop :=
  (∃ e ∈ own, e.op = .lock l) ∧ ∀ e ∈ own, e.op ≠ .unlock l

/-- A history that has not touched the mutex. -/
def Untouched (l : Lock) (own : History (sig P)) : Prop := ∀ e ∈ own, e.op ≠ .lock l ∧ e.op ≠ .unlock l

/-- A precondition under which the mutex is taken once, and released only while it is held. -/
structure LockedOnce (l : Lock) (pre : History (sig P) → Op → Prop) : Prop where
  lock : ∀ own, pre own (.lock l) → Untouched l own
  unlock : ∀ own, pre own (.unlock l) → Holds l own

theorem holds_snoc {e : Event (sig P)} (hlock : e.op ≠ .lock l) (hunlock : e.op ≠ .unlock l) :
    Holds l (own ++ [e]) ↔ Holds l own := by
  constructor
  · rintro ⟨⟨e', he, hop⟩, hnone⟩
    rcases List.mem_append.mp he with he | he
    · exact ⟨⟨e', he, hop⟩, fun e'' he'' => hnone e'' (List.mem_append_left _ he'')⟩
    · obtain rfl := List.mem_singleton.mp he
      exact absurd hop hlock
  · rintro ⟨⟨e', he, hop⟩, hnone⟩
    refine ⟨⟨e', List.mem_append_left _ he, hop⟩, fun e'' he'' => ?_⟩
    rcases List.mem_append.mp he'' with he'' | he''
    · exact hnone e'' he''
    · obtain rfl := List.mem_singleton.mp he''
      exact hunlock

theorem holds_lock {answer : Bool} (h : Untouched l own) : Holds l (own ++ [⟨.lock l, answer⟩]) := by
  refine ⟨⟨_, List.mem_append_right _ List.mem_cons_self, rfl⟩, fun e he => ?_⟩
  rcases List.mem_append.mp he with he | he
  · exact (h e he).2
  · obtain rfl := List.mem_singleton.mp he
    exact nofun

theorem not_holds_unlock {answer : Unit} : ¬ Holds l (own ++ [⟨.unlock l, answer⟩]) :=
  fun h => h.2 _ (List.mem_append_right _ List.mem_cons_self) rfl

/-- An operation that neither takes nor releases the mutex leaves its holder. -/
theorem legal_holder {st : Step (sig P) Daemon Tid Env} (hlegal : st.Legal (world P))
    (hlock : ∀ t answer, st.label ≠ .thread t ⟨.lock l, answer⟩)
    (hunlock : ∀ t answer, st.label ≠ .thread t ⟨.unlock l, answer⟩) : st.post.holder l = st.pre.holder l := by
  cases hw : writes Op.writesHolder st.label with
  | false =>
      exact congrFun (legal_holders hlegal hw) l
  | true =>
      obtain ⟨pre, label, post⟩ := st
      cases label with
      | env event => cases hw
      | thread t event =>
          obtain ⟨op, answer⟩ := event
          cases op with
          | lock l' =>
              have hne : l ≠ l' := by
                rintro rfl
                exact hlock t answer rfl
              obtain ⟨-, rfl⟩ := legal_lock hlegal
              exact Function.update_of_ne hne _ _
          | unlock l' =>
              have hne : l ≠ l' := by
                rintro rfl
                exact hunlock t answer rfl
              obtain ⟨-, rfl⟩ := legal_unlock hlegal
              exact Function.update_of_ne hne _ _
          | _ => cases hw

section Run

variable {α : Type} {s₀ s : Daemon} {p₀ ps : Pool (sig P) Tid α} {tr : Trace (sig P) Daemon Tid Env}
  {pre : Tid → History (sig P) → Op → Prop} {post : Tid → History (sig P) → α → Prop}

/-- **Mutual exclusion.** The holder of the mutex is the thread that has taken and not released it. -/
theorem holder_eq_some_iff (hrun : Run (world P) s₀ p₀ tr s ps)
    (hp : ∀ t, (p₀ t).Meets (pre t) (post t) []) (honce : ∀ t, LockedOnce l (pre t))
    (hfree : s₀.holder l = none) (t : Tid) : s.holder l = some t ↔ Holds l (history t tr) := by
  refine hrun.invariant hp (I := fun tr s => ∀ t, s.holder l = some t ↔ Holds l (history t tr)) ?_ ?_ ?_ t
  · intro t
    simp [hfree, Holds]
  · rintro tr s u ⟨op, answer⟩ choice s' ih hpre hact t
    have hlegal : Step.Legal (world P) ⟨s, .thread u ⟨op, answer⟩, s'⟩ := ⟨choice, hact⟩
    have hother : u ≠ t → history t (tr ++ [⟨s, .thread u ⟨op, answer⟩, s'⟩]) = history t tr := by
      intro hu
      rw [history_append, history_thread_other hu, List.append_nil]
    by_cases hlock : op = .lock l
    · subst hlock
      obtain ⟨hnone, rfl⟩ := legal_lock hlegal
      by_cases hu : u = t
      · subst hu
        rw [history_append, history_thread_self]
        exact iff_of_true (Function.update_self ..) (holds_lock ((honce u).lock _ hpre))
      · rw [hother hu, ← ih t, hnone]
        simp [hu]
    · by_cases hunlock : op = .unlock l
      · subst hunlock
        obtain ⟨hheld, rfl⟩ := legal_unlock hlegal
        by_cases hu : u = t
        · subst hu
          rw [history_append, history_thread_self]
          exact iff_of_false (by simp) not_holds_unlock
        · rw [hother hu, ← ih t, hheld]
          simp [hu]
      · have hkeep : s'.holder l = s.holder l :=
          legal_holder hlegal (fun _ _ h => hlock (by cases h; rfl)) fun _ _ h => hunlock (by cases h; rfl)
        rw [hkeep, ih t]
        by_cases hu : u = t
        · subst hu
          rw [history_append, history_thread_self, holds_snoc hlock hunlock]
        · rw [hother hu]
  · intro tr s event s' ih henv t
    rw [(env_frame henv).holder, history_append, history_env, List.append_nil]
    exact ih t

end Run

end Sudix
