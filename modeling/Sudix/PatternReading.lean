import Sudix.PatternGrammar

/-! Reading a pattern inside a group. The reading of a text and of the same text in one more open
group go along until the text ends or closes that group; how a reading goes on depends on the open
groups, not on what was read into them. -/

namespace Pattern

open Relation

variable {G : Grammar}

/-- One thing is read. -/
inductive Advance : State G × List Char → State G × List Char → Prop
  | bar {σ s rest} : G.read σ.flags σ.memory s = .bar rest → Advance (σ, s) (σ.bar, rest)
  | close {σ σ' s rest} : G.read σ.flags σ.memory s = .close rest → σ.pop = some σ' → Advance (σ, s) (σ', rest)
  | lexeme {σ σ' s l memory rest} : G.read σ.flags σ.memory s = .lexeme l memory rest →
      σ.step memory l = some σ' → Advance (σ, s) (σ', rest)

/-- The reading ends here. -/
inductive Stops : State G × List Char → Ending G → Prop
  | eof {σ s b} : G.read σ.flags σ.memory s = .eof b → Stops (σ, s) (.finished σ b)
  | stray {σ s rest} : G.read σ.flags σ.memory s = .close rest → σ.pop = none → Stops (σ, s) (.stray σ rest)
  | bad {σ s} : G.read σ.flags σ.memory s = .bad → Stops (σ, s) .failed
  | unrepeatable {σ s l memory rest} : G.read σ.flags σ.memory s = .lexeme l memory rest →
      σ.step memory l = none → Stops (σ, s) .failed

variable {σ σ' τ : State G} {s rest : List Char}

theorem Advance.shorter (hG : G.Lawful) {x y : State G × List Char} (h : Advance x y) :
    y.2.length < x.2.length := by
  have hskip : ∀ {flags : G.Flags} {c : Char} {rest s : List Char} {b : Bool},
      G.skipFor flags s = (c :: rest, b) → rest.length < s.length := by
    intro flags c rest s b hs
    have hle := skipFor_length flags s
    rw [hs, List.length_cons] at hle
    exact hle
  cases h with
  | bar hread =>
      obtain ⟨b, hs⟩ := skipFor_of_bar hread
      exact hskip hs
  | close hread _ =>
      obtain ⟨b, hs⟩ := skipFor_of_close hread
      exact hskip hs
  | @lexeme σ σ' s l memory rest hread _ =>
      obtain ⟨c, cs, b, _, _, hs, hlexeme⟩ := skipFor_of_lexeme hread
      have hlen := (hG.consumes _ _ _ _ _ _ hlexeme).2
      have hle := hskip hs
      rw [List.length_cons] at hlen
      show rest.length < s.length
      omega

theorem advance_or_stops (σ : State G) (s : List Char) :
    (∃ y, Advance (σ, s) y) ∨ ∃ e, Stops (σ, s) e := by
  cases hread : G.read σ.flags σ.memory s with
  | eof b => exact .inr ⟨_, .eof hread⟩
  | bad => exact .inr ⟨_, .bad hread⟩
  | bar rest => exact .inl ⟨_, .bar hread⟩
  | close rest =>
      cases hpop : σ.pop with
      | none => exact .inr ⟨_, .stray hread hpop⟩
      | some σ' => exact .inl ⟨_, .close hread hpop⟩
  | lexeme l memory rest =>
      cases hstep : σ.step memory l with
      | none => exact .inr ⟨_, .unrepeatable hread hstep⟩
      | some σ' => exact .inl ⟨_, .lexeme hread hstep⟩

theorem readingFrom_of_stops {fuel : Nat} {e : Ending G} (h : Stops (σ, s) e) :
    readingFrom (fuel + 1) σ s = e := by
  cases h with
  | eof hread => simp only [readingFrom, hread]
  | stray hread hpop => simp only [readingFrom, hread, hpop]
  | bad hread => simp only [readingFrom, hread]
  | unrepeatable hread hstep => simp only [readingFrom, hread, hstep]

theorem readingFrom_of_advance {fuel : Nat} (h : Advance (σ, s) (σ', rest)) :
    readingFrom (fuel + 1) σ s = readingFrom fuel σ' rest := by
  cases h with
  | bar hread => simp only [readingFrom, hread]
  | close hread hpop => simp only [readingFrom, hread, hpop]
  | lexeme hread hstep => simp only [readingFrom, hread, hstep]

/-- More fuel than characters is enough. -/
theorem readingFrom_eq (hG : G.Lawful) {fuel fuel' : Nat} (hfuel : s.length < fuel) (hfuel' : s.length < fuel') :
    readingFrom fuel σ s = readingFrom fuel' σ s := by
  induction fuel generalizing fuel' σ s with
  | zero => omega
  | succ fuel ih =>
      obtain ⟨fuel', rfl⟩ := Nat.exists_eq_succ_of_ne_zero (by omega : fuel' ≠ 0)
      obtain ⟨⟨σ', rest⟩, hadvance⟩ | ⟨e, hstop⟩ := advance_or_stops σ s
      · have hlen : rest.length < s.length := hadvance.shorter hG
        rw [readingFrom_of_advance hadvance, readingFrom_of_advance hadvance]
        exact ih (by omega) (by omega)
      · rw [readingFrom_of_stops hstop, readingFrom_of_stops hstop]

theorem Stops.reading_eq {e : Ending G} (h : Stops (σ, s) e) : reading σ s = e := readingFrom_of_stops h

theorem Advance.reading_eq (hG : G.Lawful) (h : Advance (σ, s) (σ', rest)) : reading σ s = reading σ' rest := by
  have hlen : rest.length < s.length := h.shorter hG
  rw [reading, readingFrom_of_advance h]
  exact readingFrom_eq hG hlen (Nat.lt_succ_self _)

theorem reading_eq_of_advances (hG : G.Lawful) {x y : State G × List Char} (h : ReflTransGen Advance x y) :
    reading x.1 x.2 = reading y.1 y.2 := by
  induction h with
  | refl => rfl
  | tail _ hlast ih => exact ih.trans (hlast.reading_eq hG)

/-- Every reading comes to an end. -/
theorem exists_stops (hG : G.Lawful) (σ : State G) (s : List Char) :
    ∃ y, ReflTransGen Advance (σ, s) y ∧ Stops y (reading σ s) := by
  induction hn : s.length using Nat.strongRecOn generalizing σ s with
  | ind n ih =>
      obtain ⟨⟨σ', rest⟩, hadvance⟩ | ⟨e, hstop⟩ := advance_or_stops σ s
      · have hlen : rest.length < s.length := hadvance.shorter hG
        obtain ⟨y, hsteps, hstop⟩ := ih rest.length (by omega) σ' rest rfl
        exact ⟨y, .head hadvance hsteps, (hadvance.reading_eq hG) ▸ hstop⟩
      · exact ⟨(σ, s), .refl, hstop.reading_eq ▸ hstop⟩

/-- The same state inside one more group. -/
def State.over (σ : State G) (b : G.Flags × Frame G) : State G := { σ with outer := σ.outer ++ [b] }

variable {b : G.Flags × Frame G}

theorem State.pop_over (h : σ.pop = some σ') : (σ.over b).pop = some (σ'.over b) := by
  cases houter : σ.outer with
  | nil =>
      rw [State.pop, houter] at h
      cases h
  | cons f outer =>
      rw [State.pop, houter] at h
      cases h
      simp only [State.pop, State.over, houter, List.cons_append]

theorem State.step_over {memory : G.Memory} (l : Lexeme G.Flags G.Item G.Op) :
    (σ.over b).step memory l = (σ.step memory l).map (State.over · b) := by
  cases l with
  | rep o =>
      simp only [State.step, State.over, Option.map_map]
      rfl
  | openGroup inner => rfl
  | setFlags flags => rfl
  | item x => rfl

theorem Advance.over (hG : G.Lawful) (h : Advance (σ, s) (σ', rest)) :
    Advance (σ.over b, s ++ closing) (σ'.over b, rest ++ closing) := by
  cases h with
  | bar hread => exact .bar (read_closing_of_bar hread)
  | close hread hpop => exact .close (read_closing_of_close hread) (State.pop_over hpop)
  | lexeme hread hstep =>
      refine .lexeme (read_closing_of_lexeme hG hread) ?_
      rw [State.step_over, hstep, Option.map_some]

theorem reading_over_of_advances (hG : G.Lawful) (h : ReflTransGen Advance (σ, s) (σ', rest)) :
    reading (σ.over b) (s ++ closing) = reading (σ'.over b) (rest ++ closing) := by
  have hlift := h.lift (fun x : State G × List Char => (x.1.over b, x.2 ++ closing))
    (fun _ _ hstep => Advance.over hG hstep)
  exact reading_eq_of_advances hG hlift

/-- What is inside a comment at the end takes the closing parenthesis with it. -/
theorem reading_over_comment (hG : G.Lawful) (h : reading σ s = .finished σ' true) :
    reading (σ.over b) (s ++ closing) = .finished (σ'.over b) true := by
  obtain ⟨⟨τ, rest⟩, hsteps, hstop⟩ := exists_stops hG σ s
  rw [h] at hstop
  rw [reading_over_of_advances hG hsteps]
  cases hstop with
  | eof hread =>
      have hstop : Stops (σ'.over b, rest ++ closing) (.finished (σ'.over b) true) :=
        .eof (read_closing_of_eof hG hread)
      exact hstop.reading_eq

theorem reading_over_finished (hG : G.Lawful) (h : reading σ s = .finished σ' false)
    (hpop : (σ'.over b).pop = some τ) : reading (σ.over b) (s ++ closing) = reading τ ['$'] := by
  obtain ⟨⟨υ, rest⟩, hsteps, hstop⟩ := exists_stops hG σ s
  rw [h] at hstop
  rw [reading_over_of_advances hG hsteps]
  cases hstop with
  | eof hread =>
      have hadvance : Advance (σ'.over b, rest ++ closing) (τ, ['$']) :=
        .close (read_closing_of_eof hG hread) hpop
      exact hadvance.reading_eq hG

/-- A parenthesis that closes no group closes the group around the text. -/
theorem reading_over_stray (hG : G.Lawful) (h : reading σ s = .stray σ' rest) :
    reading (σ.over b) (s ++ closing) =
      reading ⟨b.1, σ'.memory, b.2.push (.group σ'.frame.tree), []⟩ (rest ++ closing) := by
  obtain ⟨⟨υ, rest'⟩, hsteps, hstop⟩ := exists_stops hG σ s
  rw [h] at hstop
  rw [reading_over_of_advances hG hsteps]
  cases hstop with
  | stray hread hpop =>
      have houter : σ'.outer = [] := by
        cases houter : σ'.outer with
        | nil => rfl
        | cons f outer =>
            rw [State.pop, houter] at hpop
            cases hpop
      have hclose : (σ'.over b).pop = some ⟨b.1, σ'.memory, b.2.push (.group σ'.frame.tree), []⟩ := by
        simp only [State.pop, State.over, houter, List.nil_append]
      have hadvance : Advance (σ'.over b, rest' ++ closing) (_, rest ++ closing) :=
        .close (read_closing_of_close hread) hclose
      exact hadvance.reading_eq hG

theorem tree_of_eof (houter : σ.outer ≠ []) {inComment : Bool} (h : G.read σ.flags σ.memory s = .eof inComment) :
    (reading σ s).tree = none := by
  rw [(Stops.eof h).reading_eq, Ending.tree, if_neg]
  simpa using houter

theorem State.outer_of_step {memory : G.Memory} {l : Lexeme G.Flags G.Item G.Op} (houter : σ.outer ≠ [])
    (h : σ.step memory l = some σ') : σ'.outer ≠ [] := by
  cases l with
  | openGroup inner =>
      cases h
      exact List.cons_ne_nil _ _
  | setFlags flags =>
      cases h
      exact houter
  | item x =>
      cases h
      exact houter
  | rep o =>
      obtain ⟨fr, _, rfl⟩ := Option.map_eq_some_iff.mp h
      exact houter

theorem tree_of_nil (houter : σ.outer ≠ []) : (reading σ []).tree = none := by
  have hskip : ∃ inComment, G.skipFor σ.flags [] = ([], inComment) := by
    unfold Grammar.skipFor
    split
    · exact ⟨false, rfl⟩
    · exact ⟨false, rfl⟩
  obtain ⟨inComment, hskip⟩ := hskip
  exact tree_of_eof houter (read_of_nil hskip)

/-- The end of the text alone closes no group. -/
theorem tree_of_dollar (hG : G.Lawful) (houter : σ.outer ≠ []) (hrest : rest = [] ∨ rest = ['$']) :
    (reading σ rest).tree = none := by
  obtain rfl | rfl := hrest
  · exact tree_of_nil houter
  · have hclose : ∀ {c cs b}, G.skipFor σ.flags ['$'] = (c :: cs, b) → c = '$' := by
      intro c cs b hskip
      unfold Grammar.skipFor at hskip
      split_ifs at hskip
      · rw [Grammar.skip] at hskip
        split_ifs at hskip with hblank hhash
        · cases hskip
        · exact absurd hhash (by decide)
        · cases hskip
          rfl
      · cases hskip
        rfl
    obtain ⟨⟨σ', rest⟩, hadvance⟩ | ⟨e, hstop⟩ := advance_or_stops σ ['$']
    · have hlen : rest.length < 1 := hadvance.shorter hG
      obtain rfl : rest = [] := List.length_eq_zero_iff.mp (by omega)
      rw [hadvance.reading_eq hG]
      apply tree_of_nil
      cases hadvance with
      | bar hread => exact houter
      | close hread hpop =>
          obtain ⟨b, hskip⟩ := skipFor_of_close hread
          exact absurd (hclose hskip) (by decide)
      | lexeme hread hstep => exact State.outer_of_step houter hstep
    · rw [hstop.reading_eq]
      cases hstop with
      | eof hread =>
          have hnone := tree_of_eof houter hread
          rwa [(Stops.eof hread).reading_eq] at hnone
      | stray _ _ => rfl
      | bad _ => rfl
      | unrepeatable _ _ => rfl

theorem tree_over_failed (hG : G.Lawful) (h : reading σ s = .failed) :
    (reading (σ.over b) (s ++ closing)).tree = none := by
  obtain ⟨⟨τ, rest⟩, hsteps, hstop⟩ := exists_stops hG σ s
  rw [h] at hstop
  rw [reading_over_of_advances hG hsteps]
  have houter : (τ.over b).outer ≠ [] := by simp [State.over]
  cases hstop with
  | bad hread =>
      rcases read_closing_of_bad hG hread with hbad | ⟨l, memory, last, hlexeme, hlast⟩
      · have hstop : Stops (τ.over b, rest ++ closing) .failed := .bad hbad
        rw [hstop.reading_eq]
        rfl
      · cases hstep : (τ.over b).step memory l with
        | none =>
            have hstop : Stops (τ.over b, rest ++ closing) .failed := .unrepeatable hlexeme hstep
            rw [hstop.reading_eq]
            rfl
        | some τ' =>
            have hadvance : Advance (τ.over b, rest ++ closing) (τ', last) := .lexeme hlexeme hstep
            rw [hadvance.reading_eq hG]
            exact tree_of_dollar hG (State.outer_of_step houter hstep) hlast
  | @unrepeatable _ _ l memory _ hread hstep =>
      have hnone : (τ.over b).step memory l = none := by rw [State.step_over, hstep, Option.map_none]
      have hstop : Stops (τ.over b, rest ++ closing) .failed :=
        .unrepeatable (read_closing_of_lexeme hG hread) hnone
      rw [hstop.reading_eq]
      rfl

/-- The flags, and whether a repetition may follow; of the open groups, the flags outside. -/
def State.shape (σ : State G) : G.Flags × G.Memory × Bool × List G.Flags :=
  (σ.flags, σ.memory, σ.frame.repeatable, σ.outer.map Prod.fst)

theorem Frame.repeatable_rep (fr : Frame G) (o : G.Op) :
    (fr.rep o).map Frame.repeatable = if fr.repeatable then some true else none := by
  rcases fr with ⟨before, _ | ⟨a, parts⟩⟩
  · rfl
  · cases a <;> rfl

theorem State.shape_step (h : σ.shape = τ.shape) (memory : G.Memory) (l : Lexeme G.Flags G.Item G.Op) :
    (σ.step memory l).map State.shape = (τ.step memory l).map State.shape := by
  simp only [State.shape, Prod.mk.injEq] at h
  obtain ⟨hflags, _, hrep, houter⟩ := h
  cases l with
  | openGroup inner => simp [State.step, State.shape, hflags, houter]
  | setFlags flags => simp [State.step, State.shape, Frame.push, Frame.repeatable, houter]
  | item x => simp [State.step, State.shape, Frame.push, Frame.repeatable, hflags, houter]
  | rep o =>
      have hmap : ∀ υ : State G, (υ.step memory (.rep o)).map State.shape =
          ((υ.frame.rep o).map Frame.repeatable).map fun r => (υ.flags, memory, r, υ.outer.map Prod.fst) := by
        intro υ
        simp only [State.step, Option.map_map]
        rfl
      rw [hmap, hmap, Frame.repeatable_rep, Frame.repeatable_rep, hflags, hrep, houter]

theorem State.shape_pop (h : σ.shape = τ.shape) : σ.pop.map State.shape = τ.pop.map State.shape := by
  simp only [State.shape, Prod.mk.injEq] at h
  obtain ⟨_, hmemory, _, houter⟩ := h
  unfold State.pop
  cases hσ : σ.outer with
  | nil =>
      rw [hσ] at houter
      rw [List.map_eq_nil_iff.mp houter.symm]
  | cons f outer =>
      rw [hσ, List.map_cons] at houter
      obtain ⟨g, outer', hτ, hfst, hmap⟩ := List.map_eq_cons_iff.mp houter.symm
      rw [hτ]
      simp [State.shape, Frame.push, Frame.repeatable, hmemory, hfst, hmap]

/-- Whether a text can be read to its end does not depend on what stands in the groups. -/
theorem isSome_tree_of_shape (hG : G.Lawful) (h : σ.shape = τ.shape) :
    (reading σ s).tree.isSome = (reading τ s).tree.isSome := by
  induction hn : s.length using Nat.strongRecOn generalizing σ τ s with
  | ind n ih =>
      have hsame : σ.flags = τ.flags ∧ σ.memory = τ.memory ∧ σ.outer.map Prod.fst = τ.outer.map Prod.fst := by
        simp only [State.shape, Prod.mk.injEq] at h
        exact ⟨h.1, h.2.1, h.2.2.2⟩
      have hτread : G.read τ.flags τ.memory s = G.read σ.flags σ.memory s := by rw [hsame.1, hsame.2.1]
      have hnext : ∀ {σ' τ' : State G} {rest : List Char}, Advance (σ, s) (σ', rest) →
          Advance (τ, s) (τ', rest) → σ'.shape = τ'.shape →
            (reading σ s).tree.isSome = (reading τ s).tree.isSome := by
        intro σ' τ' rest hσ hτ hshape
        have hlen : rest.length < s.length := hσ.shorter hG
        rw [hσ.reading_eq hG, hτ.reading_eq hG]
        exact ih rest.length (by omega) hshape rfl
      cases hread : G.read σ.flags σ.memory s with
      | eof b =>
          rw [(Stops.eof hread).reading_eq, (Stops.eof (hτread.trans hread)).reading_eq]
          have hempty : σ.outer.isEmpty = τ.outer.isEmpty := by
            rw [← List.isEmpty_map (f := Prod.fst), hsame.2.2, List.isEmpty_map]
          simp only [Ending.tree, hempty]
          split <;> rfl
      | bad => rw [(Stops.bad hread).reading_eq, (Stops.bad (hτread.trans hread)).reading_eq]
      | bar rest =>
          refine hnext (.bar hread) (.bar (hτread.trans hread)) ?_
          simp [State.shape, State.bar, Frame.bar, Frame.repeatable, hsame]
      | close rest =>
          have hpops := State.shape_pop h
          cases hσ : σ.pop with
          | none =>
              rw [hσ] at hpops
              have hτ : τ.pop = none := Option.map_eq_none_iff.mp hpops.symm
              rw [(Stops.stray hread hσ).reading_eq, (Stops.stray (hτread.trans hread) hτ).reading_eq]
              rfl
          | some σ' =>
              rw [hσ] at hpops
              obtain ⟨τ', hτ, hshape⟩ := Option.map_eq_some_iff.mp hpops.symm
              exact hnext (.close hread hσ) (.close (hτread.trans hread) hτ) hshape.symm
      | lexeme l memory rest =>
          have hsteps := State.shape_step h memory l
          cases hσ : σ.step memory l with
          | none =>
              rw [hσ] at hsteps
              have hτ : τ.step memory l = none := Option.map_eq_none_iff.mp hsteps.symm
              rw [(Stops.unrepeatable hread hσ).reading_eq,
                (Stops.unrepeatable (hτread.trans hread) hτ).reading_eq]
          | some σ' =>
              rw [hσ] at hsteps
              obtain ⟨τ', hτ, hshape⟩ := Option.map_eq_some_iff.mp hsteps.symm
              exact hnext (.lexeme hread hσ) (.lexeme (hτread.trans hread) hτ) hshape.symm

variable (G) in
/-- A pattern that ends inside a comment. -/
def Grammar.endsInComment (s : List Char) : Bool :=
  match reading (State.init G) s with
  | .finished σ true => σ.outer.isEmpty
  | _ => false

variable (G) in
/-- The text closes a group that it did not open, and can be read on from there, as after a group, to
the end of the text and of what follows a pattern. -/
def Grammar.closesAround (s : List Char) : Bool :=
  match reading (State.init G) s with
  | .stray σ rest =>
      (reading ⟨G.start, σ.memory, Frame.new.push (.group σ.frame.tree), []⟩ (rest ++ closing)).tree.isSome
  | _ => false

end Pattern
