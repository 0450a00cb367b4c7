import Sudix.ConcurrentRun

/-! Refinement between two worlds that the same programs run in. The second world follows the first one, operation
for operation, while an event around the programs is followed by at most one event. What is shown of a step is the
same on both sides, so a run of the first world shows what some run of the second one shows. -/

namespace Concurrent

section

variable {S : Signature} {σ σ' τ ε ε' α ω : Type}

/-- The second world can follow every step of the first one from related states, and shows the same. -/
structure Simulates (W : World S σ τ ε) (W' : World S σ' τ ε') (related : σ → σ' → Prop)
    (shown : Step S σ τ ε → Option ω) (shown' : Step S σ' τ ε' → Option ω) : Prop where
  thread {s : σ} {a : σ'} {t : τ} {op : S.Op} {choice : W.Choice op} {answer : S.Answer op} {s' : σ} :
    related s a → W.act s t op choice = some (answer, s') →
    ∃ choice' a', W'.act a t op choice' = some (answer, a') ∧ related s' a' ∧
      shown' ⟨a, .thread t ⟨op, answer⟩, a'⟩ = shown ⟨s, .thread t ⟨op, answer⟩, s'⟩
  env {s : σ} {a : σ'} {event : ε} {s' : σ} : related s a → W.env s event = some s' →
    (related s' a ∧ shown ⟨s, .env event, s'⟩ = none) ∨
      ∃ event' a', W'.env a event' = some a' ∧ related s' a' ∧
        shown' ⟨a, .env event', a'⟩ = shown ⟨s, .env event, s'⟩

variable {W : World S σ τ ε} {W' : World S σ' τ ε'} {related : σ → σ' → Prop} {shown : Step S σ τ ε → Option ω}
  {shown' : Step S σ' τ ε' → Option ω} [DecidableEq τ] {s₀ s : σ} {a₀ : σ'} {p₀ ps : Pool S τ α}
  {tr : Trace S σ τ ε}

/-- **The refinement rule.** A run of the first world is followed by a run of the second one that brings the same
programs to the same point and shows the same, and whose operations are performed in related states. -/
theorem Simulates.run (hsim : Simulates W W' related shown shown') (hstart : related s₀ a₀)
    (hrun : Run W s₀ p₀ tr s ps) :
    ∃ tr' a, Run W' a₀ p₀ tr' a ps ∧ related s a ∧ tr'.filterMap shown' = tr.filterMap shown ∧
      ∀ st' ∈ tr', ∀ t event, st'.label = .thread t event →
        ∃ st ∈ tr, st.label = .thread t event ∧ related st.pre st'.pre := by
  induction hrun with
  | start => exact ⟨[], a₀, .start, hstart, rfl, fun _ hmem => absurd hmem List.not_mem_nil⟩
  | @thread tr s ps t op next choice answer s' hrun hnext hact ih =>
      obtain ⟨tr', a, hrun', hrelated, hshown, hoperations⟩ := ih
      obtain ⟨choice', a', hact', hrelated', hstep⟩ := hsim.thread hrelated hact
      refine ⟨_, a', .thread t choice' hrun' hnext hact', hrelated', ?_, fun st' hmem u event hlabel => ?_⟩
      · rw [List.filterMap_append, List.filterMap_append, hshown]
        simp only [List.filterMap_cons, List.filterMap_nil, hstep]
      · rcases List.mem_append.mp hmem with hmem | hmem
        · obtain ⟨st, hst, hfound⟩ := hoperations st' hmem u event hlabel
          exact ⟨st, List.mem_append_left _ hst, hfound⟩
        · obtain rfl := List.mem_singleton.mp hmem
          obtain ⟨rfl, rfl⟩ := Label.thread.inj hlabel
          exact ⟨_, List.mem_append_right _ List.mem_cons_self, rfl, hrelated⟩
  | @env tr s ps event s' hrun henv ih =>
      obtain ⟨tr', a, hrun', hrelated, hshown, hoperations⟩ := ih
      have hlater : ∀ st' ∈ tr', ∀ t event', st'.label = .thread t event' →
          ∃ st ∈ tr ++ [⟨s, .env event, s'⟩], st.label = .thread t event' ∧ related st.pre st'.pre := by
        intro st' hmem t event' hlabel
        obtain ⟨st, hst, hfound⟩ := hoperations st' hmem t event' hlabel
        exact ⟨st, List.mem_append_left _ hst, hfound⟩
      rcases hsim.env hrelated henv with ⟨hstays, hnone⟩ | ⟨event', a', henv', hrelated', hstep⟩
      · refine ⟨tr', a, hrun', hstays, ?_, hlater⟩
        rw [List.filterMap_append, hshown]
        simp only [List.filterMap_cons, List.filterMap_nil, hnone, List.append_nil]
      · refine ⟨_, a', .env event' hrun' henv', hrelated', ?_, fun st' hmem t event'' hlabel => ?_⟩
        · rw [List.filterMap_append, List.filterMap_append, hshown]
          simp only [List.filterMap_cons, List.filterMap_nil, hstep]
        · rcases List.mem_append.mp hmem with hmem | hmem
          · exact hlater st' hmem t event'' hlabel
          · obtain rfl := List.mem_singleton.mp hmem
            cases hlabel

omit [DecidableEq τ] in
/-- Two traces that show the same show it in the same order: what one of them shows at a step, the other one shows at
a step that comes after the same. -/
theorem split_shown {l : List (Step S σ τ ε)} {l' : List (Step S σ' τ ε')}
    (h : l.filterMap shown = l'.filterMap shown') {before after : List (Step S σ τ ε)} {st : Step S σ τ ε}
    (hsplit : l = before ++ st :: after) {x : ω} (hx : shown st = some x) :
    ∃ before' st' after', l' = before' ++ st' :: after' ∧ shown' st' = some x ∧
      before.filterMap shown = before'.filterMap shown' := by
  subst hsplit
  rw [List.filterMap_append, List.filterMap_cons_some hx] at h
  obtain ⟨front, rest, rfl, hfront, hrest⟩ := List.filterMap_eq_append_iff.mp h.symm
  obtain ⟨hidden, st', after', rfl, hhidden, hst', -⟩ := List.filterMap_eq_cons_iff.mp hrest
  refine ⟨front ++ hidden, st', after', (List.append_assoc ..).symm, hst', ?_⟩
  rw [List.filterMap_append, hfront, List.filterMap_eq_nil_iff.mpr hhidden, List.append_nil]

end

end Concurrent
