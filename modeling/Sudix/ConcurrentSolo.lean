import Mathlib.Data.Option.Basic
import Sudix.ConcurrentRun

/-! Programs run alone. One thread runs its program to the end while no other thread moves; what the
environment does before each operation, and how its nondeterminism is resolved, is given. Such an
execution is a run, it is a function of the state it starts in, and from two states that simulate each
other it does the same. -/

namespace Concurrent

variable {S : Signature} {σ τ ε α : Type}

/-- The environment's events, one after the other. -/
def World.pass (W : World S σ τ ε) (s : σ) : List ε → Option σ
  | [] => some s
  | event :: events => (W.env s event).bind fun s' => W.pass s' events

/-- What a program run alone has done, with the events of the environment in the meantime. -/
structure Solo (S : Signature) (σ ε α : Type) where
  own : History S
  passed : List ε
  value : α
  state : σ

/-- The execution goes on after an operation and the events before it. -/
def Solo.after (event : Event S) (events : List ε) (rest : Solo S σ ε α) : Solo S σ ε α :=
  { rest with own := event :: rest.own, passed := events ++ rest.passed }

/-- Thread `t` runs the rest of its program from its `k`th operation on. -/
def World.solo (W : World S σ τ ε) (t : τ) (around : Nat → List ε) (choice : (op : S.Op) → W.Choice op) :
    Nat → Program S α → σ → Option (Solo S σ ε α)
  | _, .ret value, s => some ⟨[], [], value, s⟩
  | k, .call op next, s =>
      (W.pass s (around k)).bind fun s₁ =>
        (W.act s₁ t op (choice op)).bind fun r =>
          (W.solo t around choice (k + 1) (next r.1) r.2).map (Solo.after ⟨op, r.1⟩ (around k))

section

variable {W : World S σ τ ε} {t : τ} {around : Nat → List ε} {choice : (op : S.Op) → W.Choice op} {k : Nat}
  {s s' : σ} {p : Program S α} {r : Solo S σ ε α}

theorem pass_append (events events' : List ε) :
    W.pass s (events ++ events') = (W.pass s events).bind fun s' => W.pass s' events' := by
  induction events generalizing s with
  | nil => rfl
  | cons event events ih =>
      simp only [List.cons_append, World.pass]
      cases W.env s event with
      | none => rfl
      | some s' => exact ih

theorem solo_ret {value : α} : W.solo t around choice k (.ret value) s = some r ↔ ⟨[], [], value, s⟩ = r :=
  Option.some_inj

theorem solo_call {op : S.Op} {next : S.Answer op → Program S α} :
    W.solo t around choice k (.call op next) s = some r ↔
      ∃ s₁ answer s₂ rest, W.pass s (around k) = some s₁ ∧ W.act s₁ t op (choice op) = some (answer, s₂) ∧
        W.solo t around choice (k + 1) (next answer) s₂ = some rest ∧ rest.after ⟨op, answer⟩ (around k) = r := by
  rw [World.solo]
  simp only [Option.bind_eq_some_iff, Option.map_eq_some_iff, Prod.exists]
  constructor
  · rintro ⟨s₁, hpass, answer, s₂, hact, rest, hrest, heq⟩
    exact ⟨s₁, answer, s₂, rest, hpass, hact, hrest, heq⟩
  · rintro ⟨s₁, answer, s₂, rest, hpass, hact, hrest, heq⟩
    exact ⟨s₁, hpass, answer, s₂, hact, rest, hrest, heq⟩

/-- An operation run alone is a step of the world. -/
theorem solo_step {op : S.Op} {next : S.Answer op → Program S α}
    (h : W.solo t around choice k (.call op next) s = some r) :
    ∃ s₁ answer s₂ rest, W.pass s (around k) = some s₁ ∧ Step.Legal W ⟨s₁, .thread t ⟨op, answer⟩, s₂⟩ ∧
      W.solo t around choice (k + 1) (next answer) s₂ = some rest ∧ rest.after ⟨op, answer⟩ (around k) = r := by
  obtain ⟨s₁, answer, s₂, rest, hpass, hact, hrest, hr⟩ := solo_call.mp h
  exact ⟨s₁, answer, s₂, rest, hpass, ⟨choice op, hact⟩, hrest, hr⟩

/-- Run alone from its `k`th operation on, the program ends, with a value and in a state that satisfy `Q`. -/
def World.Ends (W : World S σ τ ε) (t : τ) (around : Nat → List ε) (choice : (op : S.Op) → W.Choice op)
    (k : Nat) (p : Program S α) (s : σ) (Q : α → σ → Prop) : Prop :=
  ∃ r, W.solo t around choice k p s = some r ∧ Q r.value r.state

theorem ends_ret {value : α} {Q : α → σ → Prop} (h : Q value s) : W.Ends t around choice k (.ret value) s Q :=
  ⟨_, rfl, h⟩

theorem ends_call {op : S.Op} {next : S.Answer op → Program S α} {u v : σ} {answer : S.Answer op}
    {Q : α → σ → Prop} (hpass : W.pass s (around k) = some u)
    (hact : W.act u t op (choice op) = some (answer, v))
    (h : W.Ends t around choice (k + 1) (next answer) v Q) : W.Ends t around choice k (.call op next) s Q := by
  obtain ⟨r, hsolo, hQ⟩ := h
  exact ⟨_, solo_call.mpr ⟨u, answer, v, r, hpass, hact, hsolo, rfl⟩, hQ⟩

section Run

variable [DecidableEq τ] {s₀ : σ} {p₀ ps : Pool S τ α} {tr : Trace S σ τ ε}

theorem run_of_pass {events : List ε} (hrun : Run W s₀ p₀ tr s ps) (h : W.pass s events = some s') :
    ∃ tr', Run W s₀ p₀ (tr ++ tr') s' ps ∧ ∀ t, history t tr' = [] := by
  induction events generalizing s tr with
  | nil =>
      obtain rfl := Option.some.inj h
      exact ⟨[], by rwa [List.append_nil], fun _ => rfl⟩
  | cons event events ih =>
      obtain ⟨s₁, henv, hrest⟩ := Option.bind_eq_some_iff.mp h
      obtain ⟨tr', hrun', hnone⟩ := ih (.env event hrun henv) hrest
      rw [List.append_assoc] at hrun'
      refine ⟨_, hrun', fun t => ?_⟩
      rw [history_append, history_env, hnone t]
      rfl

/-- What is run alone is a run. -/
theorem run_of_solo (hrun : Run W s₀ p₀ tr s ps) (h : W.solo t around choice k (ps t) s = some r) :
    ∃ tr' ps', Run W s₀ p₀ (tr ++ tr') r.state ps' ∧ ps' t = .ret r.value ∧ history t tr' = r.own := by
  generalize hp : ps t = p at h
  induction p generalizing k s tr ps r with
  | ret value =>
      obtain rfl := solo_ret.mp h
      exact ⟨[], ps, by rwa [List.append_nil], hp, rfl⟩
  | call op next ih =>
      obtain ⟨s₁, answer, s₂, rest, hpass, hact, hrest, rfl⟩ := solo_call.mp h
      obtain ⟨tr₁, hrun₁, hnone⟩ := run_of_pass hrun hpass
      have hrun₂ := Run.thread t (choice op) hrun₁ hp hact
      obtain ⟨tr₂, ps', hrun', hret, hown⟩ := ih answer hrun₂ (Function.update_self ..) hrest
      rw [List.append_assoc, List.append_assoc] at hrun'
      refine ⟨_, ps', hrun', hret, ?_⟩
      rw [history_append, history_append, hnone t, history_thread_self, hown]
      rfl

end Run

theorem rel_bind {β γ δ : Type} {R : α → β → Prop} {Q : γ → δ → Prop} {x : Option α} {y : Option β}
    {f : α → Option γ} {g : β → Option δ} (h : Option.Rel R x y) (hf : ∀ a b, R a b → Option.Rel Q (f a) (g b)) :
    Option.Rel Q (x.bind f) (y.bind g) := by
  cases h with
  | none => exact .none
  | some h => exact hf _ _ h

theorem eq_of_rel {β : Type} {x y : Option β} (h : Option.Rel Eq x y) : x = y := by
  cases h with
  | none => rfl
  | some h => rw [h]

section Simulation

variable {R : σ → σ → Prop}

theorem pass_rel (henv : ∀ s s' event, R s s' → Option.Rel R (W.env s event) (W.env s' event))
    (events : List ε) (h : R s s') : Option.Rel R (W.pass s events) (W.pass s' events) := by
  induction events generalizing s s' with
  | nil => exact .some h
  | cons event events ih => exact rel_bind (henv s s' event h) fun _ _ => ih

/-- **The simulation rule.** From related states the same is done, and related states are reached. -/
theorem solo_rel (henv : ∀ s s' event, R s s' → Option.Rel R (W.env s event) (W.env s' event))
    (hact : ∀ s s' op c, R s s' →
      Option.Rel (fun a b => a.1 = b.1 ∧ R a.2 b.2) (W.act s t op c) (W.act s' t op c))
    (h : R s s') :
    Option.Rel (fun a b => a.own = b.own ∧ a.value = b.value ∧ R a.state b.state)
      (W.solo t around choice k p s) (W.solo t around choice k p s') := by
  induction p generalizing k s s' with
  | ret value => exact .some ⟨rfl, rfl, h⟩
  | call op next ih =>
      refine rel_bind (pass_rel henv (around k) h) fun s₁ s₁' h₁ => ?_
      refine rel_bind (hact s₁ s₁' op (choice op) h₁) ?_
      rintro ⟨answer, s₂⟩ ⟨answer', s₂'⟩ ⟨hanswer, h₂⟩
      obtain rfl : answer = answer' := hanswer
      have hrest := ih answer (k := k + 1) h₂
      rw [Option.map_eq_bind, Option.map_eq_bind]
      refine rel_bind hrest fun a b hab => .some ⟨?_, hab.2⟩
      exact congrArg (⟨op, answer⟩ :: ·) hab.1

end Simulation

end

end Concurrent
