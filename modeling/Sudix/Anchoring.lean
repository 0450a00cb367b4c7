import Sudix.PatternFragment
import Sudix.PatternReading
import Sudix.Policy

/-! `TokenMatcher::regex` anchors a pattern by wrapping its text. The wrapper is read as a group with
an anchor on each side exactly when the pattern closes no group but its own and leaves no comment
open at its end; otherwise the crate refuses a valid pattern, or compiles a text that is no pattern. -/

namespace Sudix

open Pattern

/-- What the syntax says of the characters that the wrapper adds. -/
structure AnchorSyntax (G : Grammar) (caret dollar : G.Item) : Prop where
  lawful : G.Lawful
  plain : G.verbose G.start = false
  reads_caret : ∀ memory s, G.lexeme G.start memory ('^' :: s) = some (.item caret, memory, s)
  reads_group : ∀ memory s,
    G.lexeme G.start memory ('(' :: '?' :: ':' :: s) = some (.openGroup G.start, memory, s)
  reads_dollar : ∀ memory s, G.lexeme G.start memory ('$' :: s) = some (.item dollar, memory, s)
  matches_caret : ∀ t i j, G.itemMatches caret t i j ↔ i = 0 ∧ j = 0
  matches_dollar : ∀ t i j, G.itemMatches dollar t i j ↔ i = t.length ∧ j = t.length

/-- The crate compiles the patterns of the grammar, and finds a match wherever there is one. -/
structure RegexEngine.Follows (E : RegexEngine) (G : Grammar) : Prop where
  compiles : ∀ text, (∃ re, E.compile text = .ok re) ↔ ∃ tree, G.parse text.toList = some tree
  isMatch : ∀ text re tree, E.compile text = .ok re → G.parse text.toList = some tree →
    ∀ t, re t = true ↔ ∃ i j, i ≤ t.toList.length ∧ G.Matches t.toList tree i j

/-- The pattern on its own matches the whole of a token. -/
def MatchesWhole (G : Grammar) (pattern t : String) : Prop :=
  ∃ tree, G.parse pattern.toList = some tree ∧ G.Matches t.toList tree 0 t.toList.length

/-- The matcher of a pattern exists exactly when the pattern is valid, and accepts the tokens the
pattern matches from end to end. -/
def Anchors (E : RegexEngine) (G : Grammar) (pattern : String) : Prop :=
  ((∃ m, TokenMatcher.compile E pattern = .ok m) ↔ ∃ tree, G.parse pattern.toList = some tree) ∧
  ∀ re src, TokenMatcher.compile E pattern = .ok (.regex re src) → ∀ t, re t = true ↔ MatchesWhole G pattern t

variable {E : RegexEngine} {G : Grammar} {caret dollar : G.Item} {s : List Char}

/-- The group around the pattern and what comes before it. -/
def wrapper (G : Grammar) (caret : G.Item) : G.Flags × Frame G := (G.start, Frame.new.push (.item caret))

/-- The wrapped text of a pattern with this tree. -/
def anchored (caret dollar : G.Item) (tree : G.Tree) : G.Tree :=
  ((Frame.new.push (.item caret)).push (.group tree)).push (.item dollar) |>.tree

theorem toList_wrapped (pattern : String) :
    ("^(?:" ++ pattern ++ ")$").toList = '^' :: '(' :: '?' :: ':' :: (pattern.toList ++ closing) := by
  simp [closing]

theorem AnchorSyntax.read_start (hG : AnchorSyntax G caret dollar) (memory : G.Memory) {c : Char} {s : List Char}
    (hclose : c ≠ ')') (hbar : c ≠ '|') {l : Lexeme G.Flags G.Item G.Op} {rest : List Char}
    (h : G.lexeme G.start memory (c :: s) = some (l, memory, rest)) :
    G.read G.start memory (c :: s) = .lexeme l memory rest := by
  have hskip : G.skipFor G.start (c :: s) = (c :: s, false) := by
    rw [Grammar.skipFor, hG.plain]
    rfl
  rw [read_of_cons hskip, if_neg hclose, if_neg hbar, h]

/-- The wrapper is read as a group after an anchor. -/
theorem AnchorSyntax.reading_wrapped (hG : AnchorSyntax G caret dollar) (s : List Char) :
    reading (State.init G) ('^' :: '(' :: '?' :: ':' :: (s ++ closing)) =
      reading ((State.init G).over (wrapper G caret)) (s ++ closing) := by
  have hcaret : Advance (State.init G, '^' :: '(' :: '?' :: ':' :: (s ++ closing)) (_, _) :=
    .lexeme (hG.read_start G.fresh (by decide) (by decide) (hG.reads_caret _ _)) rfl
  have hgroup : Advance (⟨G.start, G.fresh, Frame.new.push (.item caret), []⟩,
      '(' :: '?' :: ':' :: (s ++ closing)) (_, _) :=
    .lexeme (hG.read_start G.fresh (by decide) (by decide) (hG.reads_group _ _)) rfl
  rw [hcaret.reading_eq hG.lawful]
  exact hgroup.reading_eq hG.lawful

/-- After the group the text ends in the second anchor. -/
theorem AnchorSyntax.reading_dollar (hG : AnchorSyntax G caret dollar) (memory : G.Memory) (fr : Frame G) :
    (reading ⟨G.start, memory, fr, []⟩ ['$']).tree = some (fr.push (.item dollar)).tree := by
  have hdollar : Advance (⟨G.start, memory, fr, []⟩, ['$'])
      (⟨G.start, memory, fr.push (.item dollar), []⟩, []) :=
    .lexeme (hG.read_start memory (by decide) (by decide) (hG.reads_dollar _ _)) rfl
  have hskip : G.skipFor G.start [] = ([], false) := by
    rw [Grammar.skipFor, hG.plain]
    rfl
  have hend : Stops (⟨G.start, memory, fr.push (.item dollar), []⟩, []) (.finished _ false) :=
    .eof (read_of_nil hskip)
  rw [hdollar.reading_eq hG.lawful, hend.reading_eq]
  rfl

theorem AnchorSyntax.matches_anchored (hG : AnchorSyntax G caret dollar) {tree : G.Tree} {t : List Char}
    {i j : Nat} : G.Matches t (anchored caret dollar tree) i j ↔
      i = 0 ∧ j = t.length ∧ G.Matches t tree 0 t.length := by
  show (∃ k₃, (∃ k₂, (∃ k₁, i = k₁ ∧ G.itemMatches caret t k₁ k₂) ∧ G.Matches t tree k₂ k₃) ∧
    G.itemMatches dollar t k₃ j) ↔ _
  simp only [hG.matches_caret, hG.matches_dollar]
  constructor
  · rintro ⟨_, ⟨_, ⟨_, rfl, rfl, rfl⟩, hmatch⟩, rfl, rfl⟩
    exact ⟨rfl, rfl, hmatch⟩
  · rintro ⟨rfl, rfl, hmatch⟩
    exact ⟨t.length, ⟨0, ⟨0, rfl, rfl, rfl⟩, hmatch⟩, rfl, rfl⟩

section

variable (hG : AnchorSyntax G caret dollar) {σ : State G} {rest : List Char}

include hG

theorem parse_wrapped_of_finished (h : reading (State.init G) s = .finished σ false) :
    G.parse ('^' :: '(' :: '?' :: ':' :: (s ++ closing)) =
      if σ.outer.isEmpty then some (anchored caret dollar σ.frame.tree) else none := by
  rw [Grammar.parse, hG.reading_wrapped]
  cases houter : σ.outer with
  | nil =>
      have hpop : (σ.over (wrapper G caret)).pop =
          some ⟨G.start, σ.memory, (wrapper G caret).2.push (.group σ.frame.tree), []⟩ := by
        simp only [State.pop, State.over, houter, List.nil_append]
        rfl
      rw [reading_over_finished hG.lawful h hpop, hG.reading_dollar]
      rfl
  | cons f outer =>
      have hpop : (σ.over (wrapper G caret)).pop =
          some ⟨f.1, σ.memory, f.2.push (.group σ.frame.tree), outer ++ [wrapper G caret]⟩ := by
        simp only [State.pop, State.over, houter, List.cons_append]
      rw [reading_over_finished hG.lawful h hpop]
      apply tree_of_dollar hG.lawful _ (.inr rfl)
      show outer ++ [wrapper G caret] ≠ []
      exact List.concat_ne_nil _ _

theorem parse_wrapped_of_comment (h : reading (State.init G) s = .finished σ true) :
    G.parse ('^' :: '(' :: '?' :: ':' :: (s ++ closing)) = none := by
  rw [Grammar.parse, hG.reading_wrapped, reading_over_comment hG.lawful h]
  apply if_neg
  simp [State.over]

theorem parse_wrapped_of_failed (h : reading (State.init G) s = .failed) :
    G.parse ('^' :: '(' :: '?' :: ':' :: (s ++ closing)) = none := by
  rw [Grammar.parse, hG.reading_wrapped]
  exact tree_over_failed hG.lawful h

/-- A text that closes the group around it is no pattern, and the wrapped text may be one. -/
theorem isSome_wrapped_of_stray (h : reading (State.init G) s = .stray σ rest) :
    (G.parse ('^' :: '(' :: '?' :: ':' :: (s ++ closing))).isSome = G.closesAround s := by
  rw [Grammar.parse, hG.reading_wrapped, reading_over_stray hG.lawful h]
  simp only [Grammar.closesAround, h]
  exact isSome_tree_of_shape hG.lawful rfl

end

theorem exists_compile_iff (hE : E.Follows G) (pattern : String) :
    (∃ m, TokenMatcher.compile E pattern = .ok m) ↔
      ∃ tree, G.parse ('^' :: '(' :: '?' :: ':' :: (pattern.toList ++ closing)) = some tree := by
  rw [← toList_wrapped, ← hE.compiles]
  unfold TokenMatcher.compile
  cases E.compile ("^(?:" ++ pattern ++ ")$") with
  | error e => simp [Except.map]
  | ok re => simp [Except.map]

/-- A compiled matcher accepts a token where the tree of the wrapped text matches. -/
theorem accepts_iff (hE : E.Follows G) {pattern src : String} {re : String → Bool} {tree : G.Tree}
    (hcompile : TokenMatcher.compile E pattern = .ok (.regex re src))
    (htree : G.parse ('^' :: '(' :: '?' :: ':' :: (pattern.toList ++ closing)) = some tree) (t : String) :
    re t = true ↔ ∃ i j, i ≤ t.toList.length ∧ G.Matches t.toList tree i j := by
  unfold TokenMatcher.compile at hcompile
  cases hre : E.compile ("^(?:" ++ pattern ++ ")$") with
  | error e =>
      rw [hre] at hcompile
      cases hcompile
  | ok re' =>
      rw [hre] at hcompile
      cases hcompile
      rw [← toList_wrapped] at htree
      exact hE.isMatch _ _ _ hre htree t

theorem anchors_of_valid (hE : E.Follows G) (hG : AnchorSyntax G caret dollar) {pattern : String} {σ : State G}
    (hread : reading (State.init G) pattern.toList = .finished σ false) (houter : σ.outer = []) :
    Anchors E G pattern := by
  have hparse : G.parse pattern.toList = some σ.frame.tree := by
    rw [Grammar.parse, hread, Ending.tree, houter]
    rfl
  have hwrapped : G.parse ('^' :: '(' :: '?' :: ':' :: (pattern.toList ++ closing)) =
      some (anchored caret dollar σ.frame.tree) := by
    rw [parse_wrapped_of_finished hG hread, houter]
    rfl
  constructor
  · rw [exists_compile_iff hE, hwrapped, hparse]
    exact ⟨fun _ => ⟨_, rfl⟩, fun _ => ⟨_, rfl⟩⟩
  · intro re src hcompile t
    rw [accepts_iff hE hcompile hwrapped, MatchesWhole, hparse]
    constructor
    · rintro ⟨i, j, _, hmatch⟩
      exact ⟨_, rfl, (hG.matches_anchored.mp hmatch).2.2⟩
    · rintro ⟨tree, htree, hmatch⟩
      cases htree
      exact ⟨0, _, Nat.zero_le _, hG.matches_anchored.mpr ⟨rfl, rfl, hmatch⟩⟩

/-- Neither the pattern nor the wrapped text is valid. -/
theorem anchors_of_none (hE : E.Follows G) {pattern : String} (hparse : G.parse pattern.toList = none)
    (hwrapped : G.parse ('^' :: '(' :: '?' :: ':' :: (pattern.toList ++ closing)) = none) :
    Anchors E G pattern := by
  have hnone : ¬ ∃ m, TokenMatcher.compile E pattern = .ok m := by
    rw [exists_compile_iff hE, hwrapped]
    rintro ⟨tree, htree⟩
    cases htree
  constructor
  · rw [hparse]
    exact ⟨fun h => absurd h hnone, fun ⟨tree, htree⟩ => nomatch htree⟩
  · intro re src hcompile
    exact absurd ⟨_, hcompile⟩ hnone

/-- Of the pattern and the wrapped text only one is valid. -/
theorem not_anchors_of_isSome_ne (hE : E.Follows G) {pattern : String}
    (h : (G.parse ('^' :: '(' :: '?' :: ':' :: (pattern.toList ++ closing))).isSome ≠
      (G.parse pattern.toList).isSome) : ¬ Anchors E G pattern := by
  intro hanchors
  apply h
  have hiff := hanchors.1
  rw [exists_compile_iff hE, ← Option.isSome_iff_exists, ← Option.isSome_iff_exists] at hiff
  exact Bool.eq_iff_iff.mpr hiff

/-- A pattern is anchored exactly when it ends outside of a comment and does not close the group
around it. -/
theorem anchors_iff_contained (hE : E.Follows G) (hG : AnchorSyntax G caret dollar) (pattern : String) :
    Anchors E G pattern ↔
      G.endsInComment pattern.toList = false ∧ G.closesAround pattern.toList = false := by
  cases hread : reading (State.init G) pattern.toList with
  | finished σ inComment =>
      have hcloses : G.closesAround pattern.toList = false := by simp only [Grammar.closesAround, hread]
      have hparse : G.parse pattern.toList = if σ.outer.isEmpty then some σ.frame.tree else none := by
        rw [Grammar.parse, hread, Ending.tree]
      cases inComment with
      | true =>
          have hcomment : G.endsInComment pattern.toList = σ.outer.isEmpty := by
            simp only [Grammar.endsInComment, hread]
          have hwrapped := parse_wrapped_of_comment hG hread
          cases houter : σ.outer.isEmpty with
          | true =>
              have hne : ¬ Anchors E G pattern := by
                apply not_anchors_of_isSome_ne hE
                rw [hwrapped, hparse, houter]
                exact Bool.false_ne_true
              exact ⟨fun h => absurd h hne, fun h => absurd (hcomment.trans houter) (by simp [h.1])⟩
          | false =>
              rw [houter] at hparse
              exact ⟨fun _ => ⟨hcomment.trans houter, hcloses⟩, fun _ => anchors_of_none hE hparse hwrapped⟩
      | false =>
          have hcomment : G.endsInComment pattern.toList = false := by
            simp only [Grammar.endsInComment, hread]
          refine ⟨fun _ => ⟨hcomment, hcloses⟩, fun _ => ?_⟩
          have hwrapped := parse_wrapped_of_finished hG hread
          cases houter : σ.outer with
          | nil => exact anchors_of_valid hE hG hread houter
          | cons f outer =>
              rw [houter] at hparse hwrapped
              exact anchors_of_none hE hparse hwrapped
  | stray σ rest =>
      have hcomment : G.endsInComment pattern.toList = false := by
        simp only [Grammar.endsInComment, hread]
      have hparse : G.parse pattern.toList = none := by
        rw [Grammar.parse, hread]
        rfl
      have hsome := isSome_wrapped_of_stray hG hread
      cases hcloses : G.closesAround pattern.toList with
      | true =>
          have hne : ¬ Anchors E G pattern := by
            apply not_anchors_of_isSome_ne hE
            rw [hsome, hcloses, hparse]
            exact Bool.false_ne_true.symm
          exact ⟨fun h => absurd h hne, fun h => absurd h.2 Bool.noConfusion⟩
      | false =>
          rw [hcloses, Option.isSome_eq_false_iff, Option.isNone_iff_eq_none] at hsome
          exact ⟨fun _ => ⟨hcomment, rfl⟩, fun _ => anchors_of_none hE hparse hsome⟩
  | failed =>
      have hparse : G.parse pattern.toList = none := by
        rw [Grammar.parse, hread]
        rfl
      have hwrapped := parse_wrapped_of_failed hG hread
      refine ⟨fun _ => ⟨?_, ?_⟩, fun _ => anchors_of_none hE hparse hwrapped⟩
      · simp only [Grammar.endsInComment, hread]
      · simp only [Grammar.closesAround, hread]

def fragmentEngine : RegexEngine where
  compile text :=
    match Fragment.grammar.parse text.toList with
    | none => .error "regex parse error"
    | some tree => .ok fun t => Fragment.isMatch tree t.toList

theorem fragmentEngine_follows : fragmentEngine.Follows Fragment.grammar where
  compiles text := by
    simp only [fragmentEngine]
    cases Fragment.grammar.parse text.toList with
    | none => simp
    | some tree => simp
  isMatch text re tree hcompile hparse t := by
    simp only [fragmentEngine, hparse] at hcompile
    cases hcompile
    exact Fragment.isMatch_iff tree t.toList

theorem fragment_anchorSyntax : AnchorSyntax Fragment.grammar .caret .dollar where
  lawful := Fragment.lawful
  plain := rfl
  reads_caret _ _ := rfl
  reads_group _ _ := rfl
  reads_dollar _ _ := rfl
  matches_caret t i j := by
    show j ∈ (if i = 0 then [0] else []) ↔ _
    split <;> simp_all
  matches_dollar t i j := by
    show j ∈ (if i = t.length then [t.length] else []) ↔ _
    split <;> simp_all

theorem alternatives_anchored : Anchors fragmentEngine Fragment.grammar "(?x)a|a b? # or ab\n" :=
  (anchors_iff_contained fragmentEngine_follows fragment_anchorSyntax _).mpr
    ⟨by decide +kernel, by decide +kernel⟩

/-- Not a pattern on its own; the wrapped text has two alternatives, and each has one anchor. -/
theorem closed_wrapper_not_anchored : ¬ Anchors fragmentEngine Fragment.grammar "a)|(?:b" := by
  intro hanchors
  have hcompile : ∃ m, TokenMatcher.compile fragmentEngine "a)|(?:b" = .ok m := ⟨_, rfl⟩
  obtain ⟨tree, htree⟩ := hanchors.1.mp hcompile
  have hnone : (Fragment.grammar.parse "a)|(?:b".toList).isSome = false := by decide +kernel
  rw [htree] at hnone
  cases hnone

-- The first alternative is anchored at its start only.
example : ∃ re, TokenMatcher.compile fragmentEngine "a)|(?:b" = .ok (.regex re "a)|(?:b") ∧ re "a;b c" = true :=
  ⟨_, rfl, by decide +kernel⟩

-- A valid pattern whose comment takes the end of the wrapper with it.
example : (Fragment.grammar.parse "(?x)a # one".toList).isSome = true ∧
    (Fragment.grammar.parse "^(?:(?x)a # one)$".toList).isSome = false := by
  decide +kernel

end Sudix
