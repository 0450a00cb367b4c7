import Mathlib.Data.List.Forall2
import Sudix.ConcurrentTwins

/-! Operations performed by programs. A program is expanded by replacing each of its operations with a program
that computes the answer; a course of the expansion is a course of the program with the operations' own courses
in their places. -/

namespace Concurrent

variable {S S' : Signature} {α β : Type}

namespace Program

/-- The program with `impl` in the place of its operations. -/
def expand (impl : (op : S.Op) → Program S' (S.Answer op)) : Program S α → Program S' α
  | .ret value => .ret value
  | .call op next => impl op >>= fun answer => (next answer).expand impl

/-- The operations of `abs`, each with a course of its own program, are `own`. -/
inductive Expands (impl : (op : S.Op) → Program S' (S.Answer op)) : History S → History S' → Prop
  | nil : Expands impl [] []
  | cons {op : S.Op} {answer : S.Answer op} {during rest : History S'} {abs : History S}
      (hduring : (impl op).Follows during (.ret answer)) (hrest : Expands impl abs rest) :
      Expands impl (⟨op, answer⟩ :: abs) (during ++ rest)

variable {impl : (op : S.Op) → Program S' (S.Answer op)} {p p' : Program S α} {own own' abs : History S}
  {value value' : α}

/-- A sequence ends where its second part ends, after its first has ended. -/
theorem Follows.bind_ret {q : Program S β} {f : β → Program S α} (h : (q >>= f).Follows own (.ret value)) :
    ∃ first b rest, own = first ++ rest ∧ q.Follows first (.ret b) ∧ (f b).Follows rest (.ret value) := by
  induction q generalizing own with
  | ret b => exact ⟨[], b, own, rfl, .refl, h⟩
  | call op next ih =>
      cases h with
      | step h =>
          obtain ⟨first, b, rest, rfl, hfirst, hrest⟩ := ih _ h
          exact ⟨_, b, rest, rfl, .step hfirst, hrest⟩

theorem Follows.perform_ret {op : S.Op} {answer : S.Answer op} (h : (perform op).Follows own (.ret answer)) :
    own = [⟨op, answer⟩] := by
  cases h with
  | step h =>
      cases h
      rfl

/-- **A course of the expansion is an expanded course.** -/
theorem Follows.of_expand {own : History S'} (h : (p.expand impl).Follows own (.ret value)) :
    ∃ abs, p.Follows abs (.ret value) ∧ Expands impl abs own := by
  induction p generalizing own with
  | ret v =>
      cases h
      exact ⟨[], .refl, .nil⟩
  | call op next ih =>
      obtain ⟨during, answer, rest, rfl, hduring, hrest⟩ := Follows.bind_ret h
      obtain ⟨abs, habs, hexpands⟩ := ih answer hrest
      exact ⟨_, .step habs, .cons hduring hexpands⟩

/-- What can be read off the single events is read off the expanded course, if the operations' own programs
show the same. -/
theorem Expands.filterMap_eq {γ : Type} {impl : (op : S.Op) → Program S (S.Answer op)} {f : Event S → Option γ}
    (h : Expands impl abs own)
    (hshow : ∀ op answer during, (impl op).Follows during (.ret answer) →
      during.filterMap f = [⟨op, answer⟩].filterMap f) : own.filterMap f = abs.filterMap f := by
  induction h with
  | nil => rfl
  | cons hduring hrest ih =>
      rw [List.filterMap_append, hshow _ _ _ hduring, ih, ← List.filterMap_append]
      rfl

variable {O : S.Op → S.Op → Prop} {E : Event S → Event S → Prop}

/-- Matching programs whose related operations are answered alike take matching courses. -/
theorem Matches.follows_ret (h : p.Matches O E p') (hown : p.Follows own (.ret value))
    (hown' : p'.Follows own' (.ret value'))
    (halike : ∀ event ∈ own, ∀ event' ∈ own', O event.op event'.op → E event event') :
    List.Forall₂ E own own' ∧ value = value' := by
  induction h generalizing own own' with
  | ret v =>
      cases hown
      cases hown'
      exact ⟨.nil, rfl⟩
  | call hop hnext ih =>
      cases hown with
      | step hown =>
          cases hown' with
          | step hown' =>
              have hevent := halike _ List.mem_cons_self _ List.mem_cons_self hop
              obtain ⟨hrest, hvalue⟩ := ih _ _ hevent hown hown' fun event hmem event' hmem' =>
                halike event (List.mem_cons_of_mem _ hmem) event' (List.mem_cons_of_mem _ hmem')
              exact ⟨.cons hevent hrest, hvalue⟩

end Program
end Concurrent
