import Mathlib.Logic.Function.Basic

/-! Programs as trees of atomic operations. A program performs an operation, receives its answer
and continues; what an operation does to a shared state is not part of the program. The rule
`Meets` is the pre- and postcondition calculus of such trees over the list of the operations
performed so far, and it composes over `bind`. -/

namespace Concurrent

/-- The atomic operations of a family of programs, each with the type of its answer. -/
structure Signature where
  Op : Type
  Answer : Op → Type

/-- An operation together with the answer it got. -/
structure Event (S : Signature) where
  op : S.Op
  answer : S.Answer op

/-- The operations one thread has performed, oldest first. -/
abbrev History (S : Signature) := List (Event S)

inductive Program (S : Signature) (α : Type) where
  | ret (value : α)
  | call (op : S.Op) (next : S.Answer op → Program S α)

namespace Program

variable {S : Signature} {α β γ : Type}

def bind : Program S α → (α → Program S β) → Program S β
  | .ret value, f => f value
  | .call op next, f => .call op fun answer => (next answer).bind f

instance : Monad (Program S) where
  pure := .ret
  bind := .bind

/-- The program that performs one operation and returns its answer. -/
def perform (op : S.Op) : Program S (S.Answer op) := .call op .ret

@[simp] theorem pure_eq (value : α) : (pure value : Program S α) = .ret value := rfl

@[simp] theorem ret_bind (value : α) (f : α → Program S β) : (Program.ret value >>= f) = f value := rfl

@[simp] theorem call_bind (op : S.Op) (next : S.Answer op → Program S α) (f : α → Program S β) :
    (Program.call op next >>= f) = .call op fun answer => next answer >>= f := rfl

theorem bind_assoc (p : Program S α) (f : α → Program S β) (g : β → Program S γ) :
    (p >>= f >>= g) = (p >>= fun value => f value >>= g) := by
  induction p with
  | ret value => rfl
  | call op next ih =>
      simp only [call_bind]
      congr
      funext answer
      exact ih answer

/-- Started with `past` already performed, the program performs an operation only where `pre`
holds of the history so far, whatever the answers are, and returns only where `post` holds. -/
def Meets (pre : History S → S.Op → Prop) (post : History S → α → Prop) :
    Program S α → History S → Prop
  | .ret value, past => post past value
  | .call op next, past => pre past op ∧ ∀ answer, (next answer).Meets pre post (past ++ [⟨op, answer⟩])

variable {pre pre' : History S → S.Op → Prop} {post post' : History S → α → Prop}

@[simp] theorem meets_ret {value : α} {past : History S} :
    (Program.ret value : Program S α).Meets pre post past ↔ post past value := Iff.rfl

@[simp] theorem meets_call {op : S.Op} {next : S.Answer op → Program S α} {past : History S} :
    (Program.call op next).Meets pre post past ↔
      pre past op ∧ ∀ answer, (next answer).Meets pre post (past ++ [⟨op, answer⟩]) := Iff.rfl

@[simp] theorem meets_perform {op : S.Op} {post : History S → S.Answer op → Prop} {past : History S} :
    (perform op).Meets pre post past ↔
      pre past op ∧ ∀ answer, post (past ++ [⟨op, answer⟩]) answer := Iff.rfl

theorem meets_bind {post : History S → β → Prop} {p : Program S α} {f : α → Program S β}
    {past : History S} :
    (p >>= f).Meets pre post past ↔
      p.Meets pre (fun past' value => (f value).Meets pre post past') past := by
  induction p generalizing past with
  | ret value => rfl
  | call op next ih =>
      simp only [call_bind, meets_call]
      exact and_congr_right fun _ => forall_congr' fun answer => ih answer

/-- The consequence rule: weaker conditions are met wherever the stronger ones are. -/
theorem Meets.mono {p : Program S α} {past : History S} (h : p.Meets pre post past)
    (hpre : ∀ past op, pre past op → pre' past op)
    (hpost : ∀ past value, post past value → post' past value) : p.Meets pre' post' past := by
  induction p generalizing past with
  | ret value => exact hpost _ _ h
  | call op next ih => exact ⟨hpre _ _ h.1, fun answer => ih answer (h.2 answer)⟩

/-- The frame rule: a specification from the empty history holds after any other history, read
of the part the program has performed itself. -/
theorem Meets.frame {p : Program S α} (h : p.Meets pre post []) (before : History S) :
    p.Meets (fun past op => ∃ own, past = before ++ own ∧ pre own op)
      (fun past value => ∃ own, past = before ++ own ∧ post own value) before := by
  suffices key : ∀ own, p.Meets pre post own →
      p.Meets (fun past op => ∃ own, past = before ++ own ∧ pre own op)
        (fun past value => ∃ own, past = before ++ own ∧ post own value) (before ++ own) by
    simpa using key [] h
  intro own
  clear h
  induction p generalizing own with
  | ret value => exact fun h => ⟨own, rfl, h⟩
  | call op next ih =>
      intro h
      refine ⟨⟨own, rfl, h.1⟩, fun answer => ?_⟩
      rw [List.append_assoc]
      exact ih answer _ (h.2 answer)

section Call

variable {preP : History S → S.Op → Prop} {postP : History S → α → Prop} {p : Program S α}
  {past : History S}

/-- The tail call rule: a specified program as the rest of another one. -/
theorem Meets.tail (hp : p.Meets preP postP []) (hpre : ∀ own op, preP own op → pre (past ++ own) op)
    (hpost : ∀ own value, postP own value → post (past ++ own) value) : p.Meets pre post past := by
  refine (hp.frame past).mono ?_ ?_
  · rintro _ op ⟨own, rfl, h⟩
    exact hpre own op h
  · rintro _ value ⟨own, rfl, h⟩
    exact hpost own value h

/-- The call rule: a specified program called in the middle of another one. -/
theorem Meets.bind {post : History S → β → Prop} {f : α → Program S β} (hp : p.Meets preP postP [])
    (hpre : ∀ own op, preP own op → pre (past ++ own) op)
    (hpost : ∀ own value, postP own value → (f value).Meets pre post (past ++ own)) :
    (p >>= f).Meets pre post past :=
  meets_bind.mpr (hp.tail hpre hpost)

end Call

/-- `q` is what remains of the program after the operations of `own`, answered as they are in it. -/
inductive Follows : Program S α → History S → Program S α → Prop
  | refl {p : Program S α} : Follows p [] p
  | step {op : S.Op} {next : S.Answer op → Program S α} {answer own q} :
      Follows (next answer) own q → Follows (.call op next) (⟨op, answer⟩ :: own) q

/-- The history determines what remains. -/
theorem Follows.det {p q q' : Program S α} {own : History S} (h : Follows p own q) (h' : Follows p own q') :
    q = q' := by
  induction h with
  | refl =>
      cases h'
      rfl
  | step _ ih =>
      cases h' with
      | step h' => exact ih h'

theorem Follows.trans {p q r : Program S α} {own own' : History S} (h : Follows p own q)
    (h' : Follows q own' r) : Follows p (own ++ own') r := by
  induction h with
  | refl => exact h'
  | step _ ih => exact .step (ih h')

theorem Follows.snoc {p : Program S α} {own : History S} {op : S.Op} {next : S.Answer op → Program S α}
    (h : Follows p own (.call op next)) (answer : S.Answer op) : Follows p (own ++ [⟨op, answer⟩]) (next answer) :=
  h.trans (.step .refl)

theorem Follows.bind {p q : Program S α} {own : History S} (h : Follows p own q) (f : α → Program S β) :
    Follows (p >>= f) own (q >>= f) := by
  induction h with
  | refl => exact .refl
  | step _ ih => exact .step ih

/-- Two courses to an end that do not disagree on an answer are one. -/
theorem Follows.ret_inj {p : Program S α} {own own' rest rest' : History S} {value value' : α}
    (h : Follows p own (.ret value)) (h' : Follows p own' (.ret value')) (heq : own ++ rest = own' ++ rest') :
    own = own' ∧ value = value' ∧ rest = rest' := by
  induction p generalizing own own' with
  | ret v =>
      cases h
      cases h'
      exact ⟨rfl, rfl, heq⟩
  | call op next ih =>
      cases h with
      | step h =>
          cases h' with
          | step h' =>
              obtain ⟨hevent, htail⟩ := List.cons.inj heq
              cases hevent
              obtain ⟨rfl, rfl, rfl⟩ := ih _ h h' htail
              exact ⟨rfl, rfl, rfl⟩

/-- The strongest postcondition: a program returns after its own courses. -/
theorem meets_follows (p : Program S α) :
    p.Meets (fun _ _ => True) (fun own value => Follows p own (.ret value)) [] := by
  suffices key : ∀ (q : Program S α) own, Follows p own q →
      q.Meets (fun _ _ => True) (fun own value => Follows p own (.ret value)) own from key p [] .refl
  intro q
  induction q with
  | ret value => exact fun own h => h
  | call op next ih => exact fun own h => ⟨trivial, fun answer => ih answer _ (h.snoc answer)⟩

/-- What remains of a specified program is specified after what it has done. -/
theorem Meets.follows {pre : History S → S.Op → Prop} {post : History S → α → Prop} {p q : Program S α}
    {past own : History S} (h : p.Meets pre post past) (hq : p.Follows own q) : q.Meets pre post (past ++ own) := by
  induction hq generalizing past with
  | refl => rwa [List.append_nil]
  | step _ ih =>
      rw [List.append_cons]
      exact ih (h.2 _)

end Program
end Concurrent
