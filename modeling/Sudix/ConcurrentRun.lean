import Mathlib.Data.List.Basic
import Sudix.ConcurrentProgram

/-! Interleaved runs of a pool of programs over a shared state. A run picks, step after step, any
thread and performs its next operation atomically, or lets the environment move. Invariants are
proved once for all interleavings: the thread-local part comes from the `Meets` specification of
each program, the shared part from what a single step does to the state. -/

namespace Concurrent

/-- The shared state: what an operation of a thread answers and the state it leads to, given how the
nondeterminism of the operation is resolved, and what an event of the environment does; `none` when
it cannot happen in the state. -/
structure World (S : Signature) (σ τ ε : Type) where
  Choice : S.Op → Type
  act : σ → τ → (op : S.Op) → Choice op → Option (S.Answer op × σ)
  env : σ → ε → Option σ

inductive Label (S : Signature) (τ ε : Type) where
  | thread (t : τ) (event : Event S)
  | env (event : ε)

structure Step (S : Signature) (σ τ ε : Type) where
  pre : σ
  label : Label S τ ε
  post : σ

abbrev Trace (S : Signature) (σ τ ε : Type) := List (Step S σ τ ε)

abbrev Pool (S : Signature) (τ α : Type) := τ → Program S α

/-- Where an entry of a list that was appended to stands: it is the last one, or one of those before. -/
theorem snoc_eq_append_cons {α : Type} {l before after : List α} {x y : α} (h : l ++ [y] = before ++ x :: after) :
    (after = [] ∧ l = before ∧ y = x) ∨ ∃ after', after = after' ++ [y] ∧ l = before ++ x :: after' := by
  rcases List.eq_nil_or_concat after with rfl | ⟨after', last, rfl⟩
  · obtain ⟨hl, hlast⟩ := List.append_inj' h rfl
    exact .inl ⟨rfl, hl, (List.cons.inj hlast).1⟩
  · rw [List.concat_eq_append, ← List.cons_append, ← List.append_assoc] at h
    obtain ⟨hl, hlast⟩ := List.append_inj' h rfl
    refine .inr ⟨after', ?_, hl⟩
    rw [List.concat_eq_append, (List.cons.inj hlast).1]

section

variable {S : Signature} {σ τ ε α : Type}

/-- A property of the steps of a trace, each seen with the steps before it. -/
def Every (P : Trace S σ τ ε → Step S σ τ ε → Prop) (tr : Trace S σ τ ε) : Prop :=
  ∀ before st after, tr = before ++ st :: after → P before st

variable {P Q : Trace S σ τ ε → Step S σ τ ε → Prop} {tr : Trace S σ τ ε} {st : Step S σ τ ε}

@[simp] theorem every_nil : Every P [] := by
  intro before st after h
  simp at h

theorem every_snoc : Every P (tr ++ [st]) ↔ Every P tr ∧ P tr st := by
  constructor
  · intro h
    refine ⟨fun before st' after heq => h before st' (after ++ [st]) ?_, h tr st [] rfl⟩
    rw [heq, List.append_assoc, List.cons_append]
  · rintro ⟨htr, hst⟩ before st' after heq
    rcases snoc_eq_append_cons heq with ⟨rfl, rfl, rfl⟩ | ⟨after', rfl, htr'⟩
    · exact hst
    · exact htr before st' after' htr'

theorem Every.mono (h : Every P tr) (himp : ∀ before st, P before st → Q before st) : Every Q tr :=
  fun before st after heq => himp _ _ (h before st after heq)

theorem Every.and (hP : Every P tr) (hQ : Every Q tr) :
    Every (fun before st => P before st ∧ Q before st) tr :=
  fun before st after heq => ⟨hP before st after heq, hQ before st after heq⟩

theorem Every.of_append {after : Trace S σ τ ε} (h : Every P (tr ++ after)) : Every P tr := by
  intro before st rest heq
  refine h before st (rest ++ after) ?_
  rw [heq, List.append_assoc, List.cons_append]

theorem Every.getElem (h : Every P tr) (i : Nat) (hi : i < tr.length) : P (tr.take i) tr[i] := by
  refine h _ _ (tr.drop (i + 1)) ?_
  rw [List.getElem_cons_drop, List.take_append_drop]

theorem Every.of_getElem (h : ∀ (i : Nat) (hi : i < tr.length), P (tr.take i) tr[i]) : Every P tr := by
  rintro before st after rfl
  have hat := h before.length (by simp)
  simpa using hat

variable [DecidableEq τ]

/-- The event of thread `t` in a step, if the step is one of `t`'s. -/
def Step.eventOf (t : τ) (st : Step S σ τ ε) : Option (Event S) :=
  match st.label with
  | .thread u event => if u = t then some event else none
  | .env _ => none

def history (t : τ) (tr : Trace S σ τ ε) : History S := tr.filterMap (Step.eventOf t)

@[simp] theorem history_nil (t : τ) : history t ([] : Trace S σ τ ε) = [] := rfl

@[simp] theorem history_append (t : τ) (tr tr' : Trace S σ τ ε) :
    history t (tr ++ tr') = history t tr ++ history t tr' := List.filterMap_append

@[simp] theorem history_thread_self (t : τ) (pre post : σ) (event : Event S) :
    history t [(⟨pre, .thread t event, post⟩ : Step S σ τ ε)] = [event] := by
  simp [history, Step.eventOf]

@[simp] theorem history_thread_other {t u : τ} (h : u ≠ t) (pre post : σ) (event : Event S) :
    history t [(⟨pre, .thread u event, post⟩ : Step S σ τ ε)] = [] := by
  simp [history, Step.eventOf, h]

@[simp] theorem history_env (t : τ) (pre post : σ) (event : ε) :
    history t [(⟨pre, .env event, post⟩ : Step S σ τ ε)] = [] := by
  simp [history, Step.eventOf]

theorem mem_history {t : τ} {event : Event S} :
    event ∈ history t tr ↔ ∃ st ∈ tr, st.label = .thread t event := by
  simp only [history, List.mem_filterMap]
  refine exists_congr fun st => and_congr_right fun _ => ?_
  unfold Step.eventOf
  cases st.label with
  | thread u event' =>
      by_cases hu : u = t
      · simp [hu]
      · simp [hu]
  | env event' => simp

/-- The runs of a pool: any thread may take the next step. -/
inductive Run (W : World S σ τ ε) (s₀ : σ) (p₀ : Pool S τ α) :
    Trace S σ τ ε → σ → Pool S τ α → Prop
  | start : Run W s₀ p₀ [] s₀ p₀
  | thread {tr s ps} (t : τ) {op : S.Op} {next : S.Answer op → Program S α} (choice : W.Choice op)
      {answer s'} :
      Run W s₀ p₀ tr s ps → ps t = .call op next → W.act s t op choice = some (answer, s') →
      Run W s₀ p₀ (tr ++ [⟨s, .thread t ⟨op, answer⟩, s'⟩]) s' (Function.update ps t (next answer))
  | env {tr s ps} (event : ε) {s'} :
      Run W s₀ p₀ tr s ps → W.env s event = some s' →
      Run W s₀ p₀ (tr ++ [⟨s, .env event, s'⟩]) s' ps

/-- A step is one the world allows. -/
def Step.Legal (W : World S σ τ ε) (st : Step S σ τ ε) : Prop :=
  match st.label with
  | .thread t event => ∃ choice, W.act st.pre t event.op choice = some (event.answer, st.post)
  | .env event => W.env st.pre event = some st.post

variable {W : World S σ τ ε} {s₀ s : σ} {p₀ ps : Pool S τ α}

/-- The run up to any step of it is a run, and reaches the state the step starts in. -/
theorem Run.before {before after : Trace S σ τ ε} (h : Run W s₀ p₀ (before ++ st :: after) s ps) :
    (∃ ps', Run W s₀ p₀ before st.pre ps') ∧ st.Legal W := by
  generalize htr : before ++ st :: after = tr at h
  induction h generalizing after with
  | start => simp at htr
  | thread t choice hrun hnext hact ih =>
      rcases snoc_eq_append_cons htr.symm with ⟨rfl, rfl, rfl⟩ | ⟨after', rfl, hbefore⟩
      · exact ⟨⟨_, hrun⟩, _, hact⟩
      · exact ih hbefore.symm
  | env event hrun henv ih =>
      rcases snoc_eq_append_cons htr.symm with ⟨rfl, rfl, rfl⟩ | ⟨after', rfl, hbefore⟩
      · exact ⟨⟨_, hrun⟩, henv⟩
      · exact ih hbefore.symm

/-- Each thread is where its history has brought its program. -/
theorem Run.follows (hrun : Run W s₀ p₀ tr s ps) (t : τ) : (p₀ t).Follows (history t tr) (ps t) := by
  induction hrun with
  | start => exact .refl
  | thread u choice hrun hnext hact ih =>
      rw [history_append]
      by_cases hu : u = t
      · subst hu
        rw [Function.update_self, history_thread_self]
        rw [hnext] at ih
        exact ih.snoc _
      · rw [Function.update_of_ne (Ne.symm hu), history_thread_other hu, List.append_nil]
        exact ih
  | env event hrun henv ih =>
      rw [history_append, history_env, List.append_nil]
      exact ih

variable {pre : τ → History S → S.Op → Prop} {post : τ → History S → α → Prop}

/-- What remains of each program still meets its specification from the history so far. -/
theorem Run.meets (hrun : Run W s₀ p₀ tr s ps) (hp : ∀ t, (p₀ t).Meets (pre t) (post t) []) (t : τ) :
    (ps t).Meets (pre t) (post t) (history t tr) := by
  induction hrun with
  | start => exact hp t
  | thread u choice hrun hnext hact ih =>
      rw [history_append]
      by_cases hu : u = t
      · subst hu
        rw [Function.update_self, history_thread_self]
        rw [hnext] at ih
        exact ih.2 _
      · rw [Function.update_of_ne (Ne.symm hu), history_thread_other hu, List.append_nil]
        exact ih
  | env event hrun henv ih =>
      rw [history_append, history_env, List.append_nil]
      exact ih

/-- The operation a thread waits to perform satisfies its precondition. -/
theorem Run.pre_next (hrun : Run W s₀ p₀ tr s ps) (hp : ∀ t, (p₀ t).Meets (pre t) (post t) []) {t : τ} {op : S.Op}
    {next : S.Answer op → Program S α} (ht : ps t = .call op next) : pre t (history t tr) op := by
  have hmeets := hrun.meets hp t
  rw [ht] at hmeets
  exact hmeets.1

/-- Every operation performed in a run satisfies the precondition of its thread. -/
theorem Run.every_pre (hrun : Run W s₀ p₀ tr s ps) (hp : ∀ t, (p₀ t).Meets (pre t) (post t) []) :
    Every (fun before st => ∀ t event, st.label = .thread t event →
      pre t (history t before) event.op) tr := by
  induction hrun with
  | start => exact every_nil
  | thread u choice hrun hnext hact ih =>
      refine every_snoc.mpr ⟨ih, fun t event heq => ?_⟩
      obtain ⟨rfl, rfl⟩ := Label.thread.inj heq
      exact hrun.pre_next hp hnext
  | env event hrun henv ih =>
      refine every_snoc.mpr ⟨ih, fun t event heq => ?_⟩
      cases heq

/-- The result of a finished thread satisfies the postcondition of its program. -/
theorem Run.result (hrun : Run W s₀ p₀ tr s ps) (hp : ∀ t, (p₀ t).Meets (pre t) (post t) [])
    {t : τ} {value : α} (ht : ps t = .ret value) : post t (history t tr) value := by
  have hmeets := hrun.meets hp t
  rw [ht] at hmeets
  exact hmeets

/-- **The invariant rule.** A property of the trace and the state holds in every state a run
reaches, when it holds at the start and every step keeps it; the step of a thread may assume the
precondition of the operation it performs. -/
theorem Run.invariant (hrun : Run W s₀ p₀ tr s ps) (hp : ∀ t, (p₀ t).Meets (pre t) (post t) [])
    {I : Trace S σ τ ε → σ → Prop} (hstart : I [] s₀)
    (hthread : ∀ tr s t event choice s', I tr s → pre t (history t tr) event.op →
      W.act s t event.op choice = some (event.answer, s') → I (tr ++ [⟨s, .thread t event, s'⟩]) s')
    (henv : ∀ tr s event s', I tr s → W.env s event = some s' →
      I (tr ++ [⟨s, .env event, s'⟩]) s') : I tr s := by
  induction hrun with
  | start => exact hstart
  | thread t choice hrun hnext hact ih =>
      exact hthread _ _ t ⟨_, _⟩ choice _ ih (hrun.pre_next hp hnext) hact
  | env event hrun hact ih => exact henv _ _ event _ ih hact

/-- A schedule fixes which thread moves next and how its operation's choice is resolved, so that a run
can be computed. -/
inductive Move (W : World S σ τ ε) where
  | thread (t : τ) (choice : (op : S.Op) → W.Choice op)
  | env (event : ε)

structure Point (S : Signature) (σ τ ε α : Type) where
  trace : Trace S σ τ ε
  state : σ
  pool : Pool S τ α

def Point.move (W : World S σ τ ε) (c : Point S σ τ ε α) : Move W → Option (Point S σ τ ε α)
  | .thread t choice =>
      match c.pool t with
      | .ret _ => none
      | .call op next =>
          (W.act c.state t op (choice op)).map fun r =>
            ⟨c.trace ++ [⟨c.state, .thread t ⟨op, r.1⟩, r.2⟩], r.2, Function.update c.pool t (next r.1)⟩
  | .env event =>
      (W.env c.state event).map fun s' => ⟨c.trace ++ [⟨c.state, .env event, s'⟩], s', c.pool⟩

def replay (W : World S σ τ ε) (c : Point S σ τ ε α) : List (Move W) → Option (Point S σ τ ε α)
  | [] => some c
  | m :: ms => (c.move W m).bind fun c' => replay W c' ms

theorem Point.run_move {c c' : Point S σ τ ε α} {m : Move W}
    (hrun : Run W s₀ p₀ c.trace c.state c.pool) (hmove : c.move W m = some c') :
    Run W s₀ p₀ c'.trace c'.state c'.pool := by
  cases m with
  | thread t choice =>
      simp only [Point.move] at hmove
      split at hmove
      · cases hmove
      · rename_i op next hnext
        obtain ⟨⟨answer, s'⟩, hact, rfl⟩ := Option.map_eq_some_iff.mp hmove
        exact .thread t _ hrun hnext hact
  | env event =>
      obtain ⟨s', henv, rfl⟩ := Option.map_eq_some_iff.mp hmove
      exact .env event hrun henv

/-- What a schedule replays to is a run. -/
theorem run_of_replay {c c' : Point S σ τ ε α} {ms : List (Move W)}
    (hrun : Run W s₀ p₀ c.trace c.state c.pool) (hreplay : replay W c ms = some c') :
    Run W s₀ p₀ c'.trace c'.state c'.pool := by
  induction ms generalizing c with
  | nil =>
      obtain rfl := Option.some.inj hreplay
      exact hrun
  | cons m ms ih =>
      obtain ⟨c₁, hmove, hrest⟩ := Option.bind_eq_some_iff.mp hreplay
      exact ih (Point.run_move hrun hmove) hrest

end

end Concurrent
