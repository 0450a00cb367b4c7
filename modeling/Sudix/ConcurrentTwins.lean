import Mathlib.Data.List.Forall2
import Sudix.ConcurrentSolo

/-! Two runs side by side. The threads of two pools perform operations that may differ, on states that may
differ; as long as they are answered alike they stay alike, whatever the schedule. -/

namespace Concurrent

variable {S : Signature} {σ τ ε α β : Type}

theorem rel_mono {R Q : α → β → Prop} {x : Option α} {y : Option β} (h : Option.Rel R x y)
    (himp : ∀ a b, R a b → Q a b) : Option.Rel Q x y := by
  cases h with
  | none => exact .none
  | some h => exact .some (himp _ _ h)

/-- What related entries show the same, related lists show the same. -/
theorem filterMap_eq_of_forall₂ {R : α → α → Prop} {f : α → Option β} {l l' : List α} (h : List.Forall₂ R l l')
    (hf : ∀ a a', R a a' → f a = f a') : l.filterMap f = l'.filterMap f := by
  induction h with
  | nil => rfl
  | cons ha hrest ih => rw [List.filterMap_cons, List.filterMap_cons, hf _ _ ha, ih]

section Program

variable (O : S.Op → S.Op → Prop) (E : Event S → Event S → Prop)

/-- The programs perform operations related by `O` as long as their events are related by `E`, and return the
same. -/
inductive Program.Matches : Program S α → Program S α → Prop
  | ret (value : α) : Matches (.ret value) (.ret value)
  | call {op op' : S.Op} {next : S.Answer op → Program S α} {next' : S.Answer op' → Program S α} (hop : O op op')
      (hnext : ∀ answer answer', E ⟨op, answer⟩ ⟨op', answer'⟩ → Matches (next answer) (next' answer')) :
      Matches (.call op next) (.call op' next')

variable {O E}

theorem Program.Matches.refl (hop : ∀ op, O op op)
    (hevent : ∀ op answer answer', E ⟨op, answer⟩ ⟨op, answer'⟩ → answer = answer') (p : Program S α) :
    p.Matches O E p := by
  induction p with
  | ret value => exact .ret value
  | call op next ih =>
      refine .call (hop op) fun answer answer' h => ?_
      rw [hevent op answer answer' h]
      exact ih answer'

theorem Program.Matches.bind {p p' : Program S α} {f f' : α → Program S β} (h : p.Matches O E p')
    (hf : ∀ value, (f value).Matches O E (f' value)) : (p >>= f).Matches O E (p' >>= f') := by
  induction h with
  | ret value => exact hf value
  | call hop hnext ih => exact .call hop ih

theorem Program.Matches.ret_iff {p p' : Program S α} (h : p.Matches O E p') (value : α) :
    p = .ret value ↔ p' = .ret value := by
  cases h with
  | ret value' => exact Iff.rfl
  | call hop hnext =>
      constructor
      · intro h
        cases h
      · intro h
        cases h

theorem Program.Matches.call_inv {op : S.Op} {next : S.Answer op → Program S α} {p' : Program S α}
    (h : (Program.call op next).Matches O E p') :
    ∃ op' next', p' = .call op' next' ∧ O op op' ∧
      ∀ answer answer', E ⟨op, answer⟩ ⟨op', answer'⟩ → (next answer).Matches O E (next' answer') := by
  cases h with
  | call hop hnext => exact ⟨_, _, rfl, hop, hnext⟩

/-- Programs that differ in no operation are one. -/
theorem Program.Matches.eq {p p' : Program S α} (h : p.Matches O E p') (hop : ∀ op op', O op op' → op = op')
    (hevent : ∀ event, E event event) : p = p' := by
  induction h with
  | ret value => rfl
  | call h hnext ih =>
      obtain rfl := hop _ _ h
      refine congrArg (Program.call _) (funext fun answer => ?_)
      exact ih answer answer (hevent _)

end Program

/-- How two runs may differ: in the operations of a thread, in its events and in the state. -/
structure Likeness (S : Signature) (σ τ : Type) where
  op : τ → S.Op → S.Op → Prop
  event : τ → Event S → Event S → Prop
  state : σ → σ → Prop

section Replay

variable [DecidableEq τ] {W : World S σ τ ε} {K : Likeness S σ τ} {c c' : Point S σ τ ε α}

structure Twins (K : Likeness S σ τ) (c c' : Point S σ τ ε α) : Prop where
  state : K.state c.state c'.state
  pool : ∀ t, (c.pool t).Matches (K.op t) (K.event t) (c'.pool t)
  history : ∀ t, List.Forall₂ (K.event t) (history t c.trace) (history t c'.trace)

theorem Point.move_ret {t : τ} {value : α} (choice : (op : S.Op) → W.Choice op) (hpool : c.pool t = .ret value) :
    c.move W (.thread t choice) = none := by
  simp only [Point.move, hpool]

theorem Point.move_call {t : τ} {op : S.Op} {next : S.Answer op → Program S α}
    (choice : (op : S.Op) → W.Choice op) (hpool : c.pool t = .call op next) :
    c.move W (.thread t choice) = (W.act c.state t op (choice op)).bind fun r =>
      some ⟨c.trace ++ [⟨c.state, .thread t ⟨op, r.1⟩, r.2⟩], r.2, Function.update c.pool t (next r.1)⟩ := by
  simp only [Point.move, hpool, Option.map_eq_bind]
  rfl

/-- The step of two runs: one event of the environment, or one operation of a thread on each side. -/
theorem Twins.move (h : Twins K c c') (m : Move W)
    (henv : ∀ s s' event, K.state s s' → Option.Rel K.state (W.env s event) (W.env s' event))
    (hact : ∀ t choice, m = .thread t choice → ∀ s s' op op', K.state s s' → K.op t op op' →
      Option.Rel (fun a b => K.event t ⟨op, a.1⟩ ⟨op', b.1⟩ ∧ K.state a.2 b.2)
        (W.act s t op (choice op)) (W.act s' t op' (choice op'))) :
    Option.Rel (Twins K) (c.move W m) (c'.move W m) := by
  cases m with
  | env event =>
      rw [Point.move, Point.move, Option.map_eq_bind, Option.map_eq_bind]
      refine rel_bind (henv _ _ event h.state) fun s s' hstate => .some ⟨hstate, h.pool, fun t => ?_⟩
      rw [history_append, history_append, history_env, history_env, List.append_nil, List.append_nil]
      exact h.history t
  | thread t choice =>
      have hpool := h.pool t
      cases hp : c.pool t with
      | ret value =>
          have hp' : c'.pool t = .ret value := (hpool.ret_iff value).mp hp
          rw [Point.move_ret choice hp, Point.move_ret choice hp']
          exact .none
      | call op next =>
          rw [hp] at hpool
          obtain ⟨op', next', hp', hop, hnext⟩ := hpool.call_inv
          rw [Point.move_call choice hp, Point.move_call choice hp']
          refine rel_bind (hact t choice rfl _ _ op op' h.state hop) fun r r' hr => ?_
          refine .some ⟨hr.2, fun u => ?_, fun u => ?_⟩
          · show (Function.update c.pool t (next r.1) u).Matches _ _ (Function.update c'.pool t (next' r'.1) u)
            by_cases hu : u = t
            · subst hu
              rw [Function.update_self, Function.update_self]
              exact hnext r.1 r'.1 hr.1
            · rw [Function.update_of_ne hu, Function.update_of_ne hu]
              exact h.pool u
          · rw [history_append, history_append]
            by_cases hu : u = t
            · subst hu
              rw [history_thread_self, history_thread_self]
              exact List.rel_append (h.history u) (.cons hr.1 .nil)
            · rw [history_thread_other (Ne.symm hu), history_thread_other (Ne.symm hu), List.append_nil,
                List.append_nil]
              exact h.history u

/-- **The rule of twin runs.** From twins the same schedule leads to twins, or is impossible on both sides. -/
theorem replay_twins (h : Twins K c c') (moves : List (Move W))
    (henv : ∀ s s' event, K.state s s' → Option.Rel K.state (W.env s event) (W.env s' event))
    (hact : ∀ t choice, .thread t choice ∈ moves → ∀ s s' op op', K.state s s' → K.op t op op' →
      Option.Rel (fun a b => K.event t ⟨op, a.1⟩ ⟨op', b.1⟩ ∧ K.state a.2 b.2)
        (W.act s t op (choice op)) (W.act s' t op' (choice op'))) :
    Option.Rel (Twins K) (replay W c moves) (replay W c' moves) := by
  induction moves generalizing c c' with
  | nil => exact .some h
  | cons m moves ih =>
      have hmove : Option.Rel (Twins K) (c.move W m) (c'.move W m) := by
        refine h.move m henv fun t choice hm => hact t choice ?_
        rw [hm]
        exact List.mem_cons_self
      refine rel_bind hmove fun d d' hd => ih hd fun t choice hmem => hact t choice ?_
      exact List.mem_cons_of_mem m hmem

end Replay

end Concurrent
