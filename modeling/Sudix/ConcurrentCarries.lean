import Sudix.ConcurrentExpand
import Sudix.ConcurrentSolo

/-! Programs whose operations are programs. Each operation of a program is carried out by a program of finer ones, and
other threads may come in between. Where these only look before the last of them, a run of the finer operations is a
run of the whole ones, each performed at the step that completes it. -/

namespace Concurrent

variable {S S' : Signature} {σ τ ε α : Type}

/-- Thread `t` performs the operation in the state `s₁`, with the environment moving right before and after it. -/
def World.Completes (W : World S σ τ ε) (t : τ) (event : Event S) (s s₁ s' : σ) : Prop :=
  ∃ events events' choice s₂, W.pass s events = some s₁ ∧ W.act s₁ t event.op choice = some (event.answer, s₂) ∧
    W.pass s₂ events' = some s'

/-- Programs of finer operations carry out those of another world over the same states. What is `pending` is the rest
of an operation that a thread has come to, and `explains` is what a trace shows of one that was completed. -/
structure Carries [DecidableEq τ] (W : World S σ τ ε) (W' : World S' σ τ ε)
    (impl : (op : S.Op) → Program S' (S.Answer op))
    (pending : Trace S' σ τ ε → τ → (op : S.Op) → Program S' (S.Answer op) → Prop)
    (explains : Trace S' σ τ ε → τ → Event S → σ → Prop) : Prop where
  start (tr : Trace S' σ τ ε) (t : τ) (op : S.Op) : pending tr t op (impl op)
  calls {tr : Trace S' σ τ ε} {t : τ} {op : S.Op} {value : S.Answer op} : ¬ pending tr t op (.ret value)
  stays {tr : Trace S' σ τ ε} {t : τ} {op : S.Op} {rest : Program S' (S.Answer op)} {st : Step S' σ τ ε} :
    pending tr t op rest → st.eventOf t = none → pending (tr ++ [st]) t op rest
  still {tr : Trace S' σ τ ε} {t : τ} {event : Event S} {s : σ} (st : Step S' σ τ ε) :
    explains tr t event s → explains (tr ++ [st]) t event s
  env {s s' : σ} {event : ε} : W'.env s event = some s' → W.env s event = some s'
  step {tr : Trace S' σ τ ε} {t : τ} {op : S.Op} {fine : S'.Op} {next : S'.Answer fine → Program S' (S.Answer op)}
    {s s' : σ} {choice : W'.Choice fine} {answer : S'.Answer fine} :
    pending tr t op (.call fine next) → W'.act s t fine choice = some (answer, s') →
      (s' = s ∧ pending (tr ++ [⟨s, .thread t ⟨fine, answer⟩, s'⟩]) t op (next answer)) ∨
        ∃ result s₁, next answer = .ret result ∧ W.Completes t ⟨op, result⟩ s s₁ s' ∧
          explains (tr ++ [⟨s, .thread t ⟨fine, answer⟩, s'⟩]) t ⟨op, result⟩ s₁

section

variable {impl : (op : S.Op) → Program S' (S.Answer op)}
  {pending : Trace S' σ τ ε → τ → (op : S.Op) → Program S' (S.Answer op) → Prop}
  {explains : Trace S' σ τ ε → τ → Event S → σ → Prop} {tr : Trace S' σ τ ε} {st : Step S' σ τ ε} {t : τ}

/-- Where a program stands when the one over whole operations stands before the operation it has come to. -/
inductive Stands (impl : (op : S.Op) → Program S' (S.Answer op))
    (pending : Trace S' σ τ ε → τ → (op : S.Op) → Program S' (S.Answer op) → Prop) (tr : Trace S' σ τ ε) (t : τ) :
    Program S α → Program S' α → Prop
  | done {value : α} : Stands impl pending tr t (.ret value) (.ret value)
  | amid {op : S.Op} {next : S.Answer op → Program S α} {rest : Program S' (S.Answer op)} : pending tr t op rest →
      Stands impl pending tr t (.call op next) (rest >>= fun answer => (next answer).expand impl)

theorem Stands.call_inv [DecidableEq τ] {W : World S σ τ ε} {W' : World S' σ τ ε} {p : Program S α} {fine : S'.Op}
    {next : S'.Answer fine → Program S' α} (hcarries : Carries W W' impl pending explains)
    (h : Stands impl pending tr t p (.call fine next)) :
    ∃ op cont next', p = .call op cont ∧ pending tr t op (.call fine next') ∧
      next = fun answer => next' answer >>= fun result => (cont result).expand impl := by
  generalize hp : Program.call fine next = p' at h
  cases h with
  | done => cases hp
  | @amid op cont rest hpending =>
      cases rest with
      | ret result => exact absurd hpending hcarries.calls
      | call fine' next' =>
          cases hp
          exact ⟨op, cont, next', rfl, hpending, rfl⟩

variable [DecidableEq τ] {W : World S σ τ ε} {W' : World S' σ τ ε} {s₀ s : σ} {p₀ : Pool S τ α} {ps : Pool S' τ α}

theorem Carries.stands (h : Carries W W' impl pending explains) (tr : Trace S' σ τ ε) (t : τ) (p : Program S α) :
    Stands impl pending tr t p (p.expand impl) := by
  cases p with
  | ret value => exact .done
  | call op next => exact .amid (h.start tr t op)

/-- What others do leaves a program where it stands. -/
theorem Carries.stands_snoc (h : Carries W W' impl pending explains) {p : Program S α} {p' : Program S' α}
    (hstands : Stands impl pending tr t p p') (hother : st.eventOf t = none) :
    Stands impl pending (tr ++ [st]) t p p' := by
  cases hstands with
  | done => exact .done
  | amid hpending => exact .amid (h.stays hpending hother)

/-- A completed operation is a step of the world it belongs to. -/
theorem Run.completes {tr : Trace S σ τ ε} {ps : Pool S τ α} {op : S.Op} {next : S.Answer op → Program S α}
    {answer : S.Answer op} {s₁ s' : σ} (hrun : Run W s₀ p₀ tr s ps) (hnext : ps t = .call op next)
    (h : W.Completes t ⟨op, answer⟩ s s₁ s') :
    ∃ tr', Run W s₀ p₀ (tr ++ tr') s' (Function.update ps t (next answer)) ∧
      ∀ st ∈ tr', ∀ u event, st.label = .thread u event → u = t ∧ event = ⟨op, answer⟩ ∧ st.pre = s₁ := by
  obtain ⟨events, events', choice, s₂, hbefore, hact, hafter⟩ := h
  obtain ⟨tr₁, hrun₁, hnone₁⟩ := run_of_pass hrun hbefore
  obtain ⟨tr₂, hrun₂, hnone₂⟩ := run_of_pass (.thread t choice hrun₁ hnext hact) hafter
  rw [List.append_assoc, List.append_assoc] at hrun₂
  refine ⟨_, hrun₂, fun st hst u event hlabel => ?_⟩
  have hquiet : ∀ {l : Trace S σ τ ε}, (∀ u, history u l = []) → st ∉ l := by
    intro l hnone hmem
    have hevent := mem_history.mpr ⟨st, hmem, hlabel⟩
    rw [hnone u] at hevent
    cases hevent
  rcases List.mem_append.mp hst with hst | hst
  · exact absurd hst (hquiet hnone₁)
  · rcases List.mem_cons.mp hst with rfl | hst
    · obtain ⟨rfl, rfl⟩ := Label.thread.inj hlabel
      exact ⟨rfl, rfl, rfl⟩
    · exact absurd hst (hquiet hnone₂)

/-- **The rule.** What the programs do operation by operation in the finer world, they do with whole operations, and
the finer trace explains each of these. -/
theorem Carries.run (h : Carries W W' impl pending explains)
    (hrun : Run W' s₀ (fun t => (p₀ t).expand impl) tr s ps) :
    ∃ tr₁ ps₁, Run W s₀ p₀ tr₁ s ps₁ ∧ (∀ t, Stands impl pending tr t (ps₁ t) (ps t)) ∧
      ∀ st ∈ tr₁, ∀ t event, st.label = .thread t event → explains tr t event st.pre := by
  induction hrun with
  | start => exact ⟨[], p₀, .start, fun t => h.stands [] t (p₀ t), fun st hst => by cases hst⟩
  | @thread tr s ps t fine next choice answer s' hrun hnext hact ih =>
      obtain ⟨tr₁, ps₁, hrun₁, hstands, hexplained⟩ := ih
      have hothers : ∀ {u p}, u ≠ t → Stands impl pending tr u p (ps u) →
          Stands impl pending (tr ++ [⟨s, .thread t ⟨fine, answer⟩, s'⟩]) u p
            (Function.update ps t (next answer) u) := by
        intro u p hu hu'
        rw [Function.update_of_ne hu]
        exact h.stands_snoc hu' (if_neg (Ne.symm hu))
      have hwas := hstands t
      rw [hnext] at hwas
      obtain ⟨op, cont, next', hcall, hpending, rfl⟩ := hwas.call_inv h
      rcases h.step hpending hact with ⟨rfl, hpending'⟩ | ⟨result, s₁, hret, hcompletes, hexplains⟩
      · refine ⟨tr₁, ps₁, hrun₁, fun u => ?_, fun st hst u event hlabel => ?_⟩
        · by_cases hu : u = t
          · subst hu
            rw [Function.update_self, hcall]
            exact .amid hpending'
          · exact hothers hu (hstands u)
        · exact h.still _ (hexplained st hst u event hlabel)
      · obtain ⟨tr₂, hrun₂, hlast⟩ := hrun₁.completes hcall hcompletes
        refine ⟨_, _, hrun₂, fun u => ?_, fun st hst u event hlabel => ?_⟩
        · by_cases hu : u = t
          · subst hu
            rw [Function.update_self, Function.update_self]
            dsimp only
            rw [hret, Program.ret_bind]
            exact h.stands _ u _
          · rw [Function.update_of_ne hu]
            exact hothers hu (hstands u)
        · rcases List.mem_append.mp hst with hst | hst
          · exact h.still _ (hexplained st hst u event hlabel)
          · obtain ⟨rfl, rfl, hpre⟩ := hlast st hst u event hlabel
            rw [hpre]
            exact hexplains
  | @env tr s ps event s' hrun henv ih =>
      obtain ⟨tr₁, ps₁, hrun₁, hstands, hexplained⟩ := ih
      refine ⟨_, ps₁, .env event hrun₁ (h.env henv), fun u => h.stands_snoc (hstands u) rfl, ?_⟩
      intro st hst u event' hlabel
      rcases List.mem_append.mp hst with hst | hst
      · exact h.still _ (hexplained st hst u event' hlabel)
      · rw [List.mem_singleton.mp hst] at hlabel
        cases hlabel

end

end Concurrent
