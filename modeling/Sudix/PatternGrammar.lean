import Mathlib.Data.List.Basic
import Mathlib.Logic.Relation

/-! Pattern texts of a regular expression library: groups, alternatives, repetitions and flags, with
the reading of a single lexeme left to a parameter. A text is read from left to right with a stack of
the open groups; in verbose mode blanks and comments are skipped. -/

namespace Pattern

inductive Tree (Item Op : Type) where
  | empty
  | flags
  | item (x : Item)
  | cat (a b : Tree Item Op)
  | alt (a b : Tree Item Op)
  | rep (o : Op) (a : Tree Item Op)
  | group (a : Tree Item Op)

/-- What stands at the front of a text, a parenthesis that closes a group and a bar aside. -/
inductive Lexeme (Flags Item Op : Type) where
  | openGroup (inner : Flags)
  | setFlags (flags : Flags)
  | item (x : Item)
  | rep (o : Op)

/-- `Memory` is what the reader keeps of the whole text, as the names of the groups. -/
structure Grammar where
  Flags : Type
  Memory : Type
  Item : Type
  Op : Type
  start : Flags
  fresh : Memory
  verbose : Flags → Bool
  blank : Char → Bool
  lexeme : Flags → Memory → List Char → Option (Lexeme Flags Item Op × Memory × List Char)
  itemMatches : Item → List Char → Nat → Nat → Prop
  repeats : Op → Nat → Prop

variable (G : Grammar)

abbrev Grammar.Tree := Pattern.Tree G.Item G.Op

/-- `n` steps of a relation on positions. -/
def steps (R : Nat → Nat → Prop) : Nat → Nat → Nat → Prop
  | 0, i, j => i = j
  | n + 1, i, j => ∃ k, R i k ∧ steps R n k j

/-- The tree matches the text from position `i` to position `j`. -/
def Grammar.Matches (t : List Char) : G.Tree → Nat → Nat → Prop
  | .empty, i, j | .flags, i, j => i = j
  | .item x, i, j => G.itemMatches x t i j
  | .cat a b, i, j => ∃ k, Grammar.Matches t a i k ∧ Grammar.Matches t b k j
  | .alt a b, i, j => Grammar.Matches t a i j ∨ Grammar.Matches t b i j
  | .rep o a, i, j => ∃ n, G.repeats o n ∧ steps (Grammar.Matches t a) n i j
  | .group a, i, j => Grammar.Matches t a i j

/-- What is left of a text after blanks and comments, and whether it ended inside a comment. -/
def Grammar.skip : Bool → List Char → List Char × Bool
  | inComment, [] => ([], inComment)
  | true, c :: s => Grammar.skip (c != '\n') s
  | false, c :: s =>
      if G.blank c then Grammar.skip false s
      else if c = '#' then Grammar.skip true s
      else (c :: s, false)

inductive Read where
  | eof (inComment : Bool)
  | bad
  | close (rest : List Char)
  | bar (rest : List Char)
  | lexeme (l : Lexeme G.Flags G.Item G.Op) (memory : G.Memory) (rest : List Char)

def Grammar.skipFor (flags : G.Flags) (s : List Char) : List Char × Bool :=
  if G.verbose flags then G.skip false s else (s, false)

def Grammar.read (flags : G.Flags) (memory : G.Memory) (s : List Char) : Read G :=
  match G.skipFor flags s with
  | ([], inComment) => .eof inComment
  | (c :: rest, _) =>
      if c = ')' then .close rest
      else if c = '|' then .bar rest
      else
        match G.lexeme flags memory (c :: rest) with
        | none => .bad
        | some (l, memory, rest) => .lexeme l memory rest

/-- One group while it is read: the alternatives before the last bar, and the parts since then, the
last of them first. -/
structure Frame where
  before : Option G.Tree
  parts : List G.Tree

structure State where
  flags : G.Flags
  memory : G.Memory
  frame : Frame G
  outer : List (G.Flags × Frame G)

variable {G}

namespace Frame

def new : Frame G := ⟨none, []⟩

def push (fr : Frame G) (a : G.Tree) : Frame G := { fr with parts := a :: fr.parts }

def joined : List G.Tree → G.Tree
  | [] => .empty
  | a :: parts => .cat (joined parts) a

def tree (fr : Frame G) : G.Tree :=
  match fr.before with
  | none => joined fr.parts
  | some a => .alt a (joined fr.parts)

def bar (fr : Frame G) : Frame G := ⟨some fr.tree, []⟩

/-- A repetition needs something before it. -/
def repeatable (fr : Frame G) : Bool :=
  match fr.parts with
  | [] | .flags :: _ => false
  | _ :: _ => true

def rep (fr : Frame G) (o : G.Op) : Option (Frame G) :=
  match fr.parts with
  | [] | .flags :: _ => none
  | a :: parts => some { fr with parts := .rep o a :: parts }

end Frame

namespace State

variable (G) in
def init : State G := ⟨G.start, G.fresh, .new, []⟩

def bar (σ : State G) : State G := { σ with frame := σ.frame.bar }

/-- Close the innermost open group. -/
def pop (σ : State G) : Option (State G) :=
  match σ.outer with
  | [] => none
  | (flags, fr) :: outer => some { σ with flags, frame := fr.push (.group σ.frame.tree), outer }

def step (σ : State G) (memory : G.Memory) : Lexeme G.Flags G.Item G.Op → Option (State G)
  | .openGroup inner => some ⟨inner, memory, .new, (σ.flags, σ.frame) :: σ.outer⟩
  | .setFlags flags => some ⟨flags, memory, σ.frame.push .flags, σ.outer⟩
  | .item x => some ⟨σ.flags, memory, σ.frame.push (.item x), σ.outer⟩
  | .rep o => (σ.frame.rep o).map fun fr => ⟨σ.flags, memory, fr, σ.outer⟩

end State

variable (G) in
/-- How the reading of a text ends: at the end of it, at a parenthesis that closes no group, or at
something that is no lexeme. -/
inductive Ending where
  | finished (σ : State G) (inComment : Bool)
  | stray (σ : State G) (rest : List Char)
  | failed

def readingFrom : Nat → State G → List Char → Ending G
  | 0, _, _ => .failed
  | fuel + 1, σ, s =>
      match G.read σ.flags σ.memory s with
      | .eof inComment => .finished σ inComment
      | .bad => .failed
      | .bar rest => readingFrom fuel σ.bar rest
      | .close rest =>
          match σ.pop with
          | some σ' => readingFrom fuel σ' rest
          | none => .stray σ rest
      | .lexeme l memory rest =>
          match σ.step memory l with
          | some σ' => readingFrom fuel σ' rest
          | none => .failed

def reading (σ : State G) (s : List Char) : Ending G := readingFrom (s.length + 1) σ s

def Ending.tree : Ending G → Option G.Tree
  | .finished σ _ => if σ.outer.isEmpty then some σ.frame.tree else none
  | _ => none

/-- The tree of a pattern, if the text is one. -/
def Grammar.parse (s : List Char) : Option G.Tree := (reading (State.init G) s).tree

/-- The characters that close the group around a pattern and end the text. -/
def closing : List Char := [')', '$']

/-- A lexeme is not empty, ends where it does whatever parenthesis follows, and when it needs the
parenthesis it takes it. -/
structure Grammar.Lawful (G : Grammar) : Prop where
  blank_close : G.blank ')' = false
  consumes : ∀ flags memory s l memory' rest,
    G.lexeme flags memory s = some (l, memory', rest) → rest <:+ s ∧ rest.length < s.length
  separate : ∀ flags memory s l memory' rest,
    G.lexeme flags memory s = some (l, memory', rest) →
      G.lexeme flags memory (s ++ closing) = some (l, memory', rest ++ closing)
  completed : ∀ flags memory s l memory' rest, s ≠ [] → G.lexeme flags memory s = none →
    G.lexeme flags memory (s ++ closing) = some (l, memory', rest) → rest.length ≤ 1

/-- What is skipped at the front does not depend on what follows, unless all is skipped. -/
theorem skip_append (b : Bool) (s e : List Char) :
    G.skip b (s ++ e) = if (G.skip b s).1 = [] then G.skip (G.skip b s).2 e
      else ((G.skip b s).1 ++ e, (G.skip b s).2) := by
  fun_induction Grammar.skip G b s with
  | case1 => rfl
  | case2 c s ih => exact ih
  | case3 c s hblank ih =>
      rw [List.cons_append, Grammar.skip, if_pos hblank]
      exact ih
  | case4 s hblank ih =>
      rw [List.cons_append, Grammar.skip, if_neg hblank, if_pos rfl]
      exact ih
  | case5 c s hblank hhash =>
      rw [List.cons_append, Grammar.skip, if_neg hblank, if_neg hhash]
      rfl

theorem skip_append_of_cons {c : Char} {inComment : Bool} {s rest e : List Char} {b : Bool}
    (h : G.skip b s = (c :: rest, inComment)) : G.skip b (s ++ e) = (c :: (rest ++ e), inComment) := by
  rw [skip_append, h]
  rfl

theorem skip_append_of_nil {inComment : Bool} {s e : List Char} {b : Bool} (h : G.skip b s = ([], inComment)) :
    G.skip b (s ++ e) = G.skip inComment e := by
  rw [skip_append, h]
  rfl

theorem skip_length (b : Bool) (s : List Char) : (G.skip b s).1.length ≤ s.length := by
  fun_induction Grammar.skip G b s with
  | case1 => exact Nat.le_refl _
  | case2 c s ih => exact Nat.le_succ_of_le ih
  | case3 c s hblank ih => exact Nat.le_succ_of_le ih
  | case4 s hblank ih => exact Nat.le_succ_of_le ih
  | case5 => exact Nat.le_refl _

theorem skipFor_append_of_cons {flags : G.Flags} {c : Char} {inComment : Bool} {s rest : List Char}
    (h : G.skipFor flags s = (c :: rest, inComment)) (e : List Char) :
    G.skipFor flags (s ++ e) = (c :: (rest ++ e), inComment) := by
  unfold Grammar.skipFor at h ⊢
  split at h
  · rename_i hverbose
    rw [if_pos hverbose]
    exact skip_append_of_cons h
  · rename_i hverbose
    cases h
    rw [if_neg hverbose, List.cons_append]

theorem skipFor_closing {flags : G.Flags} {inComment : Bool} {s : List Char} (hblank : G.blank ')' = false)
    (h : G.skipFor flags s = ([], inComment)) :
    G.skipFor flags (s ++ closing) = if inComment then ([], true) else (closing, false) := by
  unfold Grammar.skipFor at h ⊢
  split at h
  · rename_i hverbose
    rw [if_pos hverbose, skip_append_of_nil h]
    cases inComment with
    | false => simp [Grammar.skip, closing, hblank]
    | true => rfl
  · rename_i hverbose
    cases h
    rw [if_neg hverbose]
    rfl

theorem skipFor_length (flags : G.Flags) (s : List Char) : (G.skipFor flags s).1.length ≤ s.length := by
  unfold Grammar.skipFor
  split
  · exact skip_length _ _
  · exact Nat.le_refl _

section

variable {flags : G.Flags} {memory memory' : G.Memory} {s rest : List Char} {l : Lexeme G.Flags G.Item G.Op}
  {inComment : Bool}

/-- What is read, by what is left after blanks. -/
theorem read_of_nil (h : G.skipFor flags s = ([], inComment)) : G.read flags memory s = .eof inComment := by
  rw [Grammar.read, h]

theorem read_of_cons {c : Char} (h : G.skipFor flags s = (c :: rest, inComment)) :
    G.read flags memory s =
      if c = ')' then .close rest
      else if c = '|' then .bar rest
      else
        match G.lexeme flags memory (c :: rest) with
        | none => .bad
        | some (l, memory, rest) => .lexeme l memory rest := by
  rw [Grammar.read, h]

theorem skipFor_of_eof (h : G.read flags memory s = .eof inComment) : G.skipFor flags s = ([], inComment) := by
  rcases hskip : G.skipFor flags s with ⟨_ | ⟨c, rest⟩, b⟩
  · rw [read_of_nil hskip] at h
    cases h
    rfl
  · rw [read_of_cons hskip] at h
    split_ifs at h
    split at h <;> cases h

theorem skipFor_of_close (h : G.read flags memory s = .close rest) :
    ∃ b, G.skipFor flags s = (')' :: rest, b) := by
  rcases hskip : G.skipFor flags s with ⟨_ | ⟨c, rest'⟩, b⟩
  · rw [read_of_nil hskip] at h
    cases h
  · rw [read_of_cons hskip] at h
    split_ifs at h with hclose
    · cases h
      exact ⟨b, by rw [hclose]⟩
    · split at h <;> cases h

theorem skipFor_of_bar (h : G.read flags memory s = .bar rest) : ∃ b, G.skipFor flags s = ('|' :: rest, b) := by
  rcases hskip : G.skipFor flags s with ⟨_ | ⟨c, rest'⟩, b⟩
  · rw [read_of_nil hskip] at h
    cases h
  · rw [read_of_cons hskip] at h
    split_ifs at h with hclose hbar
    · cases h
      exact ⟨b, by rw [hbar]⟩
    · split at h <;> cases h

theorem skipFor_of_lexeme (h : G.read flags memory s = .lexeme l memory' rest) :
    ∃ c cs b, c ≠ ')' ∧ c ≠ '|' ∧ G.skipFor flags s = (c :: cs, b) ∧
      G.lexeme flags memory (c :: cs) = some (l, memory', rest) := by
  rcases hskip : G.skipFor flags s with ⟨_ | ⟨c, cs⟩, b⟩
  · rw [read_of_nil hskip] at h
    cases h
  · rw [read_of_cons hskip] at h
    split_ifs at h with hclose hbar
    split at h
    · cases h
    · rename_i heq
      cases h
      exact ⟨c, cs, b, hclose, hbar, rfl, heq⟩

theorem skipFor_of_bad (h : G.read flags memory s = .bad) :
    ∃ c cs b, c ≠ ')' ∧ c ≠ '|' ∧ G.skipFor flags s = (c :: cs, b) ∧ G.lexeme flags memory (c :: cs) = none := by
  rcases hskip : G.skipFor flags s with ⟨_ | ⟨c, cs⟩, b⟩
  · rw [read_of_nil hskip] at h
    cases h
  · rw [read_of_cons hskip] at h
    split_ifs at h with hclose hbar
    split at h
    · rename_i heq
      exact ⟨c, cs, b, hclose, hbar, rfl, heq⟩
    · cases h

theorem read_closing_of_eof (hG : G.Lawful) (h : G.read flags memory s = .eof inComment) :
    G.read flags memory (s ++ closing) = if inComment then .eof true else .close ['$'] := by
  have hskip := skipFor_closing hG.blank_close (skipFor_of_eof h)
  cases inComment with
  | true => exact read_of_nil hskip
  | false => exact read_of_cons hskip

theorem read_closing_of_close (h : G.read flags memory s = .close rest) :
    G.read flags memory (s ++ closing) = .close (rest ++ closing) := by
  obtain ⟨b, hskip⟩ := skipFor_of_close h
  rw [read_of_cons (skipFor_append_of_cons hskip closing)]
  rfl

theorem read_closing_of_bar (h : G.read flags memory s = .bar rest) :
    G.read flags memory (s ++ closing) = .bar (rest ++ closing) := by
  obtain ⟨b, hskip⟩ := skipFor_of_bar h
  rw [read_of_cons (skipFor_append_of_cons hskip closing)]
  rfl

theorem read_closing_of_lexeme (hG : G.Lawful) (h : G.read flags memory s = .lexeme l memory' rest) :
    G.read flags memory (s ++ closing) = .lexeme l memory' (rest ++ closing) := by
  obtain ⟨c, cs, b, hclose, hbar, hskip, hlexeme⟩ := skipFor_of_lexeme h
  have hmore : G.lexeme flags memory (c :: (cs ++ closing)) = some (l, memory', rest ++ closing) :=
    hG.separate _ _ _ _ _ _ hlexeme
  rw [read_of_cons (skipFor_append_of_cons hskip closing), if_neg hclose, if_neg hbar, hmore]

/-- Of what could not be read, the parenthesis makes at most a lexeme that it is part of. -/
theorem read_closing_of_bad (hG : G.Lawful) (h : G.read flags memory s = .bad) :
    G.read flags memory (s ++ closing) = .bad ∨ ∃ l memory' rest,
      G.read flags memory (s ++ closing) = .lexeme l memory' rest ∧ (rest = [] ∨ rest = ['$']) := by
  obtain ⟨c, cs, b, hclose, hbar, hskip, hlexeme⟩ := skipFor_of_bad h
  rw [read_of_cons (skipFor_append_of_cons hskip closing), if_neg hclose, if_neg hbar]
  cases hmore : G.lexeme flags memory (c :: (cs ++ closing)) with
  | none => exact .inl rfl
  | some r =>
      obtain ⟨l, memory', rest⟩ := r
      have hlen := hG.completed _ _ _ _ _ _ (List.cons_ne_nil c cs) hlexeme hmore
      obtain ⟨⟨taken, htaken⟩, _⟩ := hG.consumes _ _ _ _ _ _ hmore
      refine .inr ⟨l, memory', rest, rfl, ?_⟩
      match rest, hlen with
      | [], _ => exact .inl rfl
      | [d], _ =>
          have hlast : taken ++ [d] = (c :: cs ++ [')']) ++ ['$'] := by
            rw [htaken, closing, List.append_assoc, List.cons_append]
            rfl
          exact .inr (List.append_inj' hlast rfl).2

end

end Pattern
