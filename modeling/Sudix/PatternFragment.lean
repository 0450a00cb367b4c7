import Sudix.PatternGrammar

/-! A fragment of the pattern syntax that can be run: characters, the dot, escapes, the two anchors,
groups, bars, the optional `?` and the flag of verbose mode. -/

namespace Pattern.Fragment

inductive Atom where
  | char (c : Char)
  | any
  | caret
  | dollar

/-- Where a match of the atom at position `i` may end. -/
def Atom.ends (t : List Char) (i : Nat) : Atom → List Nat
  | .char c => if t[i]? = some c then [i + 1] else []
  | .any => if t[i]?.any (· != '\n') then [i + 1] else []
  | .caret => if i = 0 then [0] else []
  | .dollar => if i = t.length then [t.length] else []

abbrev Lex := Lexeme Bool Atom Unit

/-- After an opening parenthesis with a question mark. -/
def lexFlags (verbose : Bool) : List Char → Option (Lex × Unit × List Char)
  | ':' :: s => some (.openGroup verbose, (), s)
  | 'x' :: ')' :: s => some (.setFlags true, (), s)
  | _ => none

/-- After an opening parenthesis. -/
def lexGroup (verbose : Bool) : List Char → Option (Lex × Unit × List Char)
  | '?' :: s => lexFlags verbose s
  | s => some (.openGroup verbose, (), s)

/-- After a backslash. -/
def lexEscape : List Char → Option (Lex × Unit × List Char)
  | [] => none
  | c :: s => if c.isAlphanum then none else some (.item (.char c), (), s)

def lexChar (c : Char) : Option Lex :=
  if c = '?' then some (.rep ())
  else if c = '^' then some (.item .caret)
  else if c = '$' then some (.item .dollar)
  else if c = '.' then some (.item .any)
  else if c ∈ ['*', '+', '[', '\x7b'] then none
  else some (.item (.char c))

def lex (verbose : Bool) : List Char → Option (Lex × Unit × List Char)
  | [] => none
  | c :: s =>
      if c = '(' then lexGroup verbose s
      else if c = '\\' then lexEscape s
      else (lexChar c).map fun l => (l, (), s)

/-- Positions are reached by at most one round of `?`. -/
def grammar : Grammar where
  Flags := Bool
  Memory := Unit
  Item := Atom
  Op := Unit
  start := false
  fresh := ()
  verbose := id
  blank := Char.isWhitespace
  lexeme verbose _ s := lex verbose s
  itemMatches x t i j := j ∈ x.ends t i
  repeats _ n := n ≤ 1

section

variable {verbose : Bool} {s rest : List Char} {l : Lex}

/-- The two flag groups, and what is left after each. -/
theorem lexFlags_eq_some (h : lexFlags verbose s = some (l, (), rest)) :
    (s = ':' :: rest ∧ l = .openGroup verbose) ∨ (s = 'x' :: ')' :: rest ∧ l = .setFlags true) := by
  unfold lexFlags at h
  split at h
  · cases h
    exact .inl ⟨rfl, rfl⟩
  · cases h
    exact .inr ⟨rfl, rfl⟩
  · cases h

theorem lexGroup_of_ne (h : ∀ s', s ≠ '?' :: s') : lexGroup verbose s = some (.openGroup verbose, (), s) := by
  unfold lexGroup
  split
  · exact absurd rfl (h _)
  · rfl

theorem lex_consumes (h : lex verbose s = some (l, (), rest)) : rest <:+ s ∧ rest.length < s.length := by
  have htail : ∀ {c : Char} {s' : List Char}, rest <:+ s' → rest <:+ c :: s' ∧ rest.length < (c :: s').length :=
    fun hsuffix => ⟨hsuffix.trans (List.suffix_cons ..), Nat.lt_succ_of_le hsuffix.length_le⟩
  cases s with
  | nil => cases h
  | cons c s =>
      rw [lex] at h
      split_ifs at h with hopen hescape
      · apply htail
        by_cases hflags : ∃ s', s = '?' :: s'
        · obtain ⟨s', rfl⟩ := hflags
          rcases lexFlags_eq_some h with ⟨rfl, _⟩ | ⟨rfl, _⟩
          · exact ⟨['?', ':'], rfl⟩
          · exact ⟨['?', 'x', ')'], rfl⟩
        · rw [lexGroup_of_ne (fun s' hs => hflags ⟨s', hs⟩)] at h
          cases h
          exact List.suffix_rfl
      · apply htail
        cases s with
        | nil => cases h
        | cons d s =>
            rw [lexEscape] at h
            split_ifs at h
            cases h
            exact List.suffix_cons ..
      · obtain ⟨l', _, heq⟩ := Option.map_eq_some_iff.mp h
        cases heq
        exact htail List.suffix_rfl

theorem lex_separate (h : lex verbose s = some (l, (), rest)) :
    lex verbose (s ++ closing) = some (l, (), rest ++ closing) := by
  cases s with
  | nil => cases h
  | cons c s =>
      rw [List.cons_append]
      rw [lex] at h ⊢
      split_ifs at h ⊢ with hopen hescape
      · by_cases hflags : ∃ s', s = '?' :: s'
        · obtain ⟨s', rfl⟩ := hflags
          rcases lexFlags_eq_some h with ⟨rfl, rfl⟩ | ⟨rfl, rfl⟩
          · rfl
          · rfl
        · rw [lexGroup_of_ne (fun s' hs => hflags ⟨s', hs⟩)] at h
          cases h
          apply lexGroup_of_ne
          intro s' hs
          cases rest with
          | nil => exact absurd (List.cons.inj hs).1 (by decide)
          | cons d rest => exact hflags ⟨rest, congrArg (· :: rest) (List.cons.inj hs).1⟩
      · cases s with
        | nil => cases h
        | cons d s =>
            rw [List.cons_append]
            rw [lexEscape] at h ⊢
            split_ifs at h ⊢
            cases h
            rfl
      · obtain ⟨l', hl, heq⟩ := Option.map_eq_some_iff.mp h
        cases heq
        rw [hl, Option.map_some]

theorem lex_completed (hs : s ≠ []) (h : lex verbose s = none)
    (hclosing : lex verbose (s ++ closing) = some (l, (), rest)) : rest.length ≤ 1 := by
  cases s with
  | nil => exact absurd rfl hs
  | cons c s =>
      rw [List.cons_append] at hclosing
      rw [lex] at h hclosing
      split_ifs at h hclosing with hopen hescape
      · by_cases hflags : ∃ s', s = '?' :: s'
        · obtain ⟨s', rfl⟩ := hflags
          have hflagsNone : lexFlags verbose s' = none := h
          have hmore : lexFlags verbose (s' ++ closing) = some (l, (), rest) := hclosing
          match s', lexFlags_eq_some hmore with
          | [], .inl ⟨heq, _⟩ => exact absurd (List.cons.inj heq).1 (by decide)
          | [], .inr ⟨heq, _⟩ => exact absurd (List.cons.inj heq).1 (by decide)
          | d :: s', .inl ⟨heq, _⟩ =>
              rw [(List.cons.inj heq).1] at hflagsNone
              cases hflagsNone
          | [d], .inr ⟨heq, _⟩ =>
              rw [(List.cons.inj (List.cons.inj heq).2).2.symm]
              exact Nat.le_refl 1
          | d :: d' :: s', .inr ⟨heq, _⟩ =>
              rw [(List.cons.inj heq).1, (List.cons.inj (List.cons.inj heq).2).1] at hflagsNone
              cases hflagsNone
        · rw [lexGroup_of_ne (fun s' hs => hflags ⟨s', hs⟩)] at h
          cases h
      · cases s with
        | nil =>
            cases hclosing
            exact Nat.le_refl 1
        | cons d s =>
            rw [List.cons_append] at hclosing
            rw [lexEscape] at h hclosing
            split_ifs at h hclosing
      · rw [Option.map_eq_none_iff] at h
        rw [h] at hclosing
        cases hclosing

end

theorem lawful : grammar.Lawful where
  blank_close := by decide
  consumes _ _ _ _ _ _ h := lex_consumes h
  separate _ _ _ _ _ _ h := lex_separate h
  completed _ _ _ _ _ _ hs h hclosing := lex_completed hs h hclosing

abbrev Pat := Tree Atom Unit

/-- The positions where a match that starts at `i` may end. -/
def ends (t : List Char) : Pat → Nat → List Nat
  | .empty, i | .flags, i => [i]
  | .item x, i => x.ends t i
  | .cat a b, i => (ends t a i).flatMap (ends t b)
  | .alt a b, i => ends t a i ++ ends t b i
  | .rep _ a, i => i :: ends t a i
  | .group a, i => ends t a i

theorem mem_ends (t : List Char) (a : Pat) {i j : Nat} : j ∈ ends t a i ↔ grammar.Matches t a i j := by
  induction a generalizing i j with
  | empty | flags => exact List.mem_singleton.trans eq_comm
  | item x => exact Iff.rfl
  | cat a b iha ihb =>
      show j ∈ (ends t a i).flatMap (ends t b) ↔ ∃ k, grammar.Matches t a i k ∧ grammar.Matches t b k j
      rw [List.mem_flatMap]
      apply exists_congr
      intro k
      rw [iha, ihb]
  | alt a b iha ihb =>
      show j ∈ ends t a i ++ ends t b i ↔ grammar.Matches t a i j ∨ grammar.Matches t b i j
      rw [List.mem_append, iha, ihb]
  | rep o a ih =>
      show j ∈ i :: ends t a i ↔ ∃ n, n ≤ 1 ∧ steps (grammar.Matches t a) n i j
      rw [List.mem_cons, ih]
      constructor
      · rintro (rfl | hmatch)
        · exact ⟨0, Nat.zero_le 1, rfl⟩
        · exact ⟨1, Nat.le_refl 1, j, hmatch, rfl⟩
      · rintro ⟨n, hn, hsteps⟩
        match n, hn, hsteps with
        | 0, _, hsteps => exact .inl hsteps.symm
        | 1, _, ⟨k, hmatch, hk⟩ => exact .inr (hk ▸ hmatch)
  | group a ih => exact ih

/-- Whether there is a match anywhere in the text. -/
def isMatch (a : Pat) (t : List Char) : Bool :=
  (List.range (t.length + 1)).any fun i => !(ends t a i).isEmpty

theorem isMatch_iff (a : Pat) (t : List Char) :
    isMatch a t = true ↔ ∃ i j, i ≤ t.length ∧ grammar.Matches t a i j := by
  simp only [isMatch, List.any_eq_true, List.mem_range, Nat.lt_succ_iff, Bool.not_eq_true',
    List.isEmpty_eq_false_iff_exists_mem, mem_ends]
  constructor
  · rintro ⟨i, hi, j, hmatch⟩
    exact ⟨i, j, hi, hmatch⟩
  · rintro ⟨i, j, hi, hmatch⟩
    exact ⟨i, hi, j, hmatch⟩

end Pattern.Fragment
