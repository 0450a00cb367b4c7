import Mathlib.Data.List.Basic

/-! Texts with a separator in them. A separator whose first character does not come again in it cannot
overlap itself, so two ways to cut a text at it are the same, or one cuts inside a part of the other. -/

namespace Separators

variable {α : Type} {mark : α} {tail a a' x x' y y' : List α}

/-- Before its first mark a text is cut in one way. -/
theorem cut_first (ha : mark ∉ a) (ha' : mark ∉ a') (h : a ++ mark :: y = a' ++ mark :: y') :
    a = a' ∧ y = y' := by
  induction a generalizing a' with
  | nil =>
      cases a' with
      | nil => exact ⟨rfl, (List.cons.inj h).2⟩
      | cons c a' => exact absurd ((List.cons.inj h).1 ▸ List.mem_cons_self) ha'
  | cons c a ih =>
      rw [List.mem_cons, not_or] at ha
      cases a' with
      | nil => exact absurd (List.cons.inj h).1.symm ha.1
      | cons c' a' =>
          rw [List.mem_cons, not_or] at ha'
          obtain ⟨rfl, hrest⟩ := List.cons.inj h
          obtain ⟨rfl, rfl⟩ := ih ha.2 ha'.2 hrest
          exact ⟨rfl, rfl⟩

/-- What is taken up to the first mark is the part before it. -/
theorem takeWhile_cut [BEq α] [LawfulBEq α] (ha : mark ∉ a) : (a ++ mark :: y).takeWhile (· != mark) = a := by
  have hall : ∀ b ∈ a, (b != mark) = true := by
    intro b hb
    refine bne_iff_ne.mpr ?_
    rintro rfl
    exact ha hb
  rw [List.takeWhile_append_of_pos hall]
  simp

/-- The part in front of a cut is that in front of another, or it ends before the separator of the other
begins. -/
theorem cut_later (hmark : mark ∉ tail) {skipped : List α}
    (h : (mark :: tail) ++ y = skipped ++ ((mark :: tail) ++ y')) :
    (skipped = [] ∧ y = y') ∨ ∃ w, skipped = (mark :: tail) ++ w ∧ y = w ++ ((mark :: tail) ++ y') := by
  cases skipped with
  | nil => exact .inl ⟨rfl, List.append_cancel_left h⟩
  | cons c skipped =>
      rcases List.append_eq_append_iff.mp h with ⟨w, hskipped, hy⟩ | ⟨rest, hsep, hrest⟩
      · exact .inr ⟨w, hskipped, hy⟩
      · cases rest with
        | nil =>
            rw [List.append_nil] at hsep
            exact .inr ⟨[], by rw [hsep, List.append_nil], hrest.symm⟩
        | cons d rest =>
            -- what is left of the separator would begin with the mark
            have hd : mark = d := (List.cons.inj hrest).1
            have htail : tail = skipped ++ d :: rest := (List.cons.inj hsep).2
            refine absurd ?_ hmark
            rw [htail, hd]
            exact List.mem_append_right _ List.mem_cons_self

/-- **Two cuts of one text.** -/
theorem cut_cases (hmark : mark ∉ tail) (h : x ++ ((mark :: tail) ++ y) = x' ++ ((mark :: tail) ++ y')) :
    (x = x' ∧ y = y') ∨ (∃ w, x' = x ++ ((mark :: tail) ++ w) ∧ y = w ++ ((mark :: tail) ++ y')) ∨
      ∃ w, x = x' ++ ((mark :: tail) ++ w) ∧ y' = w ++ ((mark :: tail) ++ y) := by
  rcases List.append_eq_append_iff.mp h with ⟨skipped, rfl, hy⟩ | ⟨skipped, rfl, hy⟩
  · rcases cut_later hmark hy with ⟨rfl, rfl⟩ | ⟨w, rfl, rfl⟩
    · exact .inl ⟨(List.append_nil x).symm, rfl⟩
    · exact .inr (.inl ⟨w, rfl, rfl⟩)
  · rcases cut_later hmark hy with ⟨rfl, rfl⟩ | ⟨w, rfl, rfl⟩
    · exact .inl ⟨List.append_nil x', rfl⟩
    · exact .inr (.inr ⟨w, rfl, rfl⟩)

variable [DecidableEq α]

/-- The parts of a text up to each mark, with their marks, the first of them begun by `part`. What follows the last
mark is left out. -/
def partsFrom (mark : α) (part : List α) : List α → List (List α)
  | [] => []
  | x :: rest => if x = mark then (part ++ [mark]) :: partsFrom mark [] rest else partsFrom mark (part ++ [x]) rest

def parts (mark : α) (text : List α) : List (List α) := partsFrom mark [] text

theorem partsFrom_cut {part : List α} (ha : mark ∉ a) :
    partsFrom mark part (a ++ mark :: y) = (part ++ a ++ [mark]) :: parts mark y := by
  induction a generalizing part with
  | nil => rw [List.nil_append, partsFrom, if_pos rfl, List.append_nil, parts]
  | cons x a ih =>
      rw [List.mem_cons, not_or] at ha
      rw [List.cons_append, partsFrom, if_neg (Ne.symm ha.1), ih ha.2]
      simp

/-- A part that stands in front comes first. -/
theorem parts_cut (ha : mark ∉ a) : parts mark (a ++ [mark] ++ y) = (a ++ [mark]) :: parts mark y := by
  rw [List.append_assoc, List.singleton_append, parts, partsFrom_cut ha, List.nil_append]

/-- Parts that have been put together come apart again. -/
theorem parts_flatten {pieces : List (List α)} (h : ∀ piece ∈ pieces, ∃ a, mark ∉ a ∧ piece = a ++ [mark]) :
    parts mark (pieces.flatten ++ y) = pieces ++ parts mark y := by
  induction pieces with
  | nil => rfl
  | cons piece pieces ih =>
      obtain ⟨a, ha, rfl⟩ := h piece List.mem_cons_self
      rw [List.flatten_cons, List.append_assoc, parts_cut ha,
        ih fun piece hmem => h piece (List.mem_cons_of_mem _ hmem), List.cons_append]

end Separators
