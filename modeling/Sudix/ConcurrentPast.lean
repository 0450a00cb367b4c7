import Mathlib.Data.List.Induction
import Sudix.ConcurrentRun

/-! Past-time properties of the traces of a run: what has happened once, and what has happened with
nothing of another kind since. A fact about the shared state is often the trace of one such step, and
an invariant of that form is proved from the world alone, whatever programs run in it. -/

namespace Concurrent

variable {S : Signature} {σ τ ε α : Type}

/-- A step with property `P` has happened; `P` sees the steps before it. -/
def Once (P : Trace S σ τ ε → Step S σ τ ε → Prop) (tr : Trace S σ τ ε) : Prop :=
  ∃ before st after, tr = before ++ st :: after ∧ P before st

/-- A step with property `P` has happened and no step with property `R` since. -/
def Since (R : Step S σ τ ε → Prop) (P : Trace S σ τ ε → Step S σ τ ε → Prop) (tr : Trace S σ τ ε) : Prop :=
  ∃ before st after, tr = before ++ st :: after ∧ P before st ∧ ∀ later ∈ after, ¬ R later

variable {P Q : Trace S σ τ ε → Step S σ τ ε → Prop} {R : Step S σ τ ε → Prop} {tr : Trace S σ τ ε}
  {st : Step S σ τ ε}

theorem not_since_nil : ¬ Since R P [] := by
  rintro ⟨before, st, after, h, -⟩
  simp at h

theorem since_snoc : Since R P (tr ++ [st]) ↔ P tr st ∨ (Since R P tr ∧ ¬ R st) := by
  constructor
  · rintro ⟨before, st', after, heq, hP, hR⟩
    rcases snoc_eq_append_cons heq with ⟨rfl, rfl, rfl⟩ | ⟨after', rfl, rfl⟩
    · exact .inl hP
    · refine .inr ⟨⟨before, st', after', rfl, hP, fun later hlater => ?_⟩, ?_⟩
      · exact hR later (List.mem_append_left _ hlater)
      · exact hR st (List.mem_append_right _ List.mem_cons_self)
  · rintro (hP | ⟨⟨before, st', after, rfl, hP, hR⟩, hst⟩)
    · exact ⟨tr, st, [], rfl, hP, by simp⟩
    · refine ⟨before, st', after ++ [st], by simp, hP, fun later hlater => ?_⟩
      rcases List.mem_append.mp hlater with hlater | hlater
      · exact hR later hlater
      · obtain rfl := List.mem_singleton.mp hlater
        exact hst

theorem Since.mono {R' : Step S σ τ ε → Prop} (h : Since R P tr) (hP : ∀ before st, P before st → Q before st)
    (hR : ∀ st, R' st → R st) : Since R' Q tr := by
  obtain ⟨before, st, after, heq, hst, hafter⟩ := h
  exact ⟨before, st, after, heq, hP _ _ hst, fun later hlater hR' => hafter later hlater (hR later hR')⟩

theorem Since.once (h : Since R P tr) : Once P tr := by
  obtain ⟨before, st, after, heq, hst, -⟩ := h
  exact ⟨before, st, after, heq, hst⟩

theorem Once.mono (h : Once P tr) (hP : ∀ before st, P before st → Q before st) : Once Q tr := by
  obtain ⟨before, st, after, heq, hst⟩ := h
  exact ⟨before, st, after, heq, hP _ _ hst⟩

theorem not_once_nil : ¬ Once P [] := by
  rintro ⟨before, st, after, h, -⟩
  simp at h

theorem once_snoc : Once P (tr ++ [st]) ↔ Once P tr ∨ P tr st := by
  constructor
  · rintro ⟨before, st', after, heq, hP⟩
    rcases snoc_eq_append_cons heq with ⟨rfl, rfl, rfl⟩ | ⟨after', rfl, rfl⟩
    · exact .inr hP
    · exact .inl ⟨before, st', after', rfl, hP⟩
  · rintro (⟨before, st', after, rfl, hP⟩ | hP)
    · exact ⟨before, st', after ++ [st], by simp, hP⟩
    · exact ⟨tr, st, [], rfl, hP⟩

theorem Once.append (h : Once P tr) (tr' : Trace S σ τ ε) : Once P (tr ++ tr') := by
  obtain ⟨before, st, after, rfl, hst⟩ := h
  exact ⟨before, st, after ++ tr', by simp, hst⟩

/-- What holds of every step holds of the one that has happened. -/
theorem Once.and_every (h : Once P tr) (hQ : Every Q tr) :
    Once (fun before st => P before st ∧ Q before st) tr := by
  obtain ⟨before, st, after, heq, hst⟩ := h
  exact ⟨before, st, after, heq, hst, hQ before st after heq⟩

variable [DecidableEq τ]

theorem mem_history_snoc {t : τ} {event : Event S} :
    event ∈ history t (tr ++ [st]) ↔ event ∈ history t tr ∨ st.label = .thread t event := by
  have hlast : event ∈ history t [st] ↔ st.label = .thread t event := by
    rw [mem_history]
    simp only [List.mem_singleton, exists_eq_left]
  rw [history_append, List.mem_append, hlast]

/-- A step of a thread stands in its history after what it had performed before. -/
theorem history_split {t : τ} {event : Event S} {before after : Trace S σ τ ε}
    (hlabel : st.label = .thread t event) :
    history t (before ++ st :: after) = history t before ++ event :: history t after := by
  have hhead : history t (st :: after) = event :: history t after := by
    simp [history, Step.eventOf, hlabel]
  rw [history_append, hhead]

/-- An event of a thread's history is a step of the trace. -/
theorem once_of_mem_history {t : τ} {event : Event S} (h : event ∈ history t tr) :
    Once (fun _ st => st.label = .thread t event) tr := by
  obtain ⟨st, hst, hlabel⟩ := mem_history.mp h
  obtain ⟨before, after, rfl⟩ := List.append_of_mem hst
  exact ⟨before, st, after, rfl, hlabel⟩

/-- An event that a thread performs only where its history has none of the kind happens once. -/
theorem countP_history_le_one {q : Event S → Bool}
    (h : Every (fun before st => ∀ t event, st.label = .thread t event → q event = true →
      (history t before).countP q = 0) tr) (t : τ) : (history t tr).countP q ≤ 1 := by
  induction tr using List.reverseRecOn with
  | nil => simp
  | append_singleton tr st ih =>
      obtain ⟨htr, hst⟩ := every_snoc.mp h
      obtain ⟨pre, label, post⟩ := st
      rw [history_append, List.countP_append]
      cases label with
      | env event =>
          rw [history_env]
          exact ih htr
      | thread u event =>
          by_cases hu : u = t
          · subst hu
            rw [history_thread_self]
            cases hq : q event with
            | true =>
                rw [hst u event rfl hq, Nat.zero_add]
                exact List.countP_le_length
            | false =>
                rw [List.countP_cons_of_neg (by simp [hq]), List.countP_nil]
                exact ih htr
          · rw [history_thread_other hu]
            exact ih htr

omit [DecidableEq τ] in
theorem eq_of_countP_le_one {own : History S} {q : Event S → Bool} (h : own.countP q ≤ 1) {a b : Event S}
    (ha : a ∈ own) (hb : b ∈ own) (hqa : q a = true) (hqb : q b = true) : a = b := by
  obtain ⟨before, after, rfl⟩ := List.append_of_mem ha
  rw [List.countP_append, List.countP_cons_of_pos hqa] at h
  have hbefore : before.countP q = 0 := by omega
  have hafter : after.countP q = 0 := by omega
  rcases List.mem_append.mp hb with hb | hb
  · exact absurd hqb (List.countP_eq_zero.mp hbefore b hb)
  · rcases List.mem_cons.mp hb with rfl | hb
    · rfl
    · exact absurd hqb (List.countP_eq_zero.mp hafter b hb)

variable {W : World S σ τ ε} {s₀ s : σ} {p₀ ps : Pool S τ α}

/-- **The invariant rule of the world.** A property that every step the world allows preserves holds
in every state a run reaches, whatever programs the threads run. -/
theorem Run.world_invariant (hrun : Run W s₀ p₀ tr s ps) {I : Trace S σ τ ε → σ → Prop}
    (hstart : I [] s₀) (hstep : ∀ tr st, I tr st.pre → st.Legal W → I (tr ++ [st]) st.post) : I tr s := by
  induction hrun with
  | start => exact hstart
  | thread t choice hrun hnext hact ih => exact hstep _ ⟨_, .thread t ⟨_, _⟩, _⟩ ih ⟨choice, hact⟩
  | env event hrun henv ih => exact hstep _ ⟨_, .env event, _⟩ ih henv

/-- A run ends in the state its last step leads to. -/
theorem Run.state_eq (hrun : Run W s₀ p₀ (tr ++ [st]) s ps) : s = st.post := by
  refine hrun.world_invariant (I := fun tr' s => ∀ tr st, tr' = tr ++ [st] → s = st.post) ?_ ?_ tr st rfl
  · intro tr st h
    simp at h
  · intro tr' last _ _ tr st heq
    obtain ⟨-, hlast⟩ := List.append_inj' heq rfl
    rw [List.cons.inj hlast |>.1]

/-- The same rule from some step of the run on. -/
theorem Run.invariant_after {before after : Trace S σ τ ε} (hrun : Run W s₀ p₀ (before ++ st :: after) s ps)
    {I : Trace S σ τ ε → σ → Prop} (hstart : I [] st.post)
    (hstep : ∀ after st, I after st.pre → st.Legal W → I (after ++ [st]) st.post) : I after s := by
  refine hrun.world_invariant (I := fun tr s => ∀ after, tr = before ++ st :: after → I after s) ?_ ?_ after rfl
  · intro after heq
    simp at heq
  · intro tr last ih hlegal after heq
    rcases snoc_eq_append_cons heq with ⟨rfl, -, rfl⟩ | ⟨after', rfl, rfl⟩
    · exact hstart
    · exact hstep after' last (ih after' rfl) hlegal

/-- Every step of a run is one the world allows. -/
theorem Run.every_legal (hrun : Run W s₀ p₀ tr s ps) : Every (fun _ st => st.Legal W) tr := by
  intro before st after heq
  subst heq
  exact hrun.before.2

/-- An event of a thread's history is a step that the world allows in a state the run has reached. -/
theorem Run.split_event (hrun : Run W s₀ p₀ tr s ps) {t : τ} {event : Event S} (h : event ∈ history t tr) :
    ∃ before pre post after ps', tr = before ++ ⟨pre, .thread t event, post⟩ :: after ∧
      Run W s₀ p₀ before pre ps' ∧ Step.Legal W ⟨pre, .thread t event, post⟩ := by
  obtain ⟨before, ⟨pre, label, post⟩, after, rfl, hlabel⟩ := once_of_mem_history h
  obtain rfl : label = _ := hlabel
  obtain ⟨⟨ps', hbefore⟩, hlegal⟩ := hrun.before
  exact ⟨before, pre, post, after, ps', rfl, hbefore, hlegal⟩

/-- A run has passed every point of a thread's history. -/
theorem Run.at_history (hrun : Run W s₀ p₀ tr s ps) {t : τ} {own rest : History S} (h : history t tr = own ++ rest) :
    ∃ before after s' ps', tr = before ++ after ∧ Run W s₀ p₀ before s' ps' ∧ history t before = own := by
  induction hrun generalizing rest with
  | @start =>
      obtain ⟨rfl, -⟩ := List.append_eq_nil_iff.mp h.symm
      exact ⟨[], [], _, _, rfl, .start, rfl⟩
  | @thread tr s ps u op next choice answer s' hbefore hnext hact ih =>
      rcases List.eq_nil_or_concat rest with rfl | ⟨rest', last, rfl⟩
      · rw [List.append_nil] at h
        exact ⟨_, [], _, _, (List.append_nil _).symm, .thread u choice hbefore hnext hact, h⟩
      · have hearlier : ∃ later, history t tr = own ++ later := by
          rw [history_append, List.concat_eq_append, ← List.append_assoc] at h
          by_cases hu : u = t
          · subst hu
            rw [history_thread_self] at h
            exact ⟨rest', (List.append_inj' h rfl).1⟩
          · rw [history_thread_other hu, List.append_nil] at h
            exact ⟨rest' ++ [last], by rw [h, List.append_assoc]⟩
        obtain ⟨later, hlater⟩ := hearlier
        obtain ⟨before, after, s₁, ps₁, rfl, hrun₁, hown⟩ := ih hlater
        exact ⟨before, _, s₁, ps₁, List.append_assoc _ _ _, hrun₁, hown⟩
  | env event hbefore henv ih =>
      rw [history_append, history_env, List.append_nil] at h
      obtain ⟨before, after, s₁, ps₁, rfl, hrun₁, hown⟩ := ih h
      exact ⟨before, _, s₁, ps₁, List.append_assoc _ _ _, hrun₁, hown⟩

/-- An invariant of runs holds before every step of a run. -/
theorem Run.every_before (hrun : Run W s₀ p₀ tr s ps) {I : Trace S σ τ ε → σ → Prop}
    (hI : ∀ tr s ps, Run W s₀ p₀ tr s ps → I tr s) : Every (fun before st => I before st.pre) tr := by
  intro before st after heq
  subst heq
  obtain ⟨⟨ps', hbefore⟩, -⟩ := hrun.before
  exact hI _ _ _ hbefore

end Concurrent
