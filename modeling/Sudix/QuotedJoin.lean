import Mathlib.Data.List.DropRight

/-! Lists of tokens shown as one text: the tokens are joined by a separator, and a token that is empty
or has a blank in it stands between quotes. Nothing is escaped, so a text may have several readings.
A text is cut at its separators into words; a reading groups the words into tokens, a plain word for
itself and any run of words from an opening quote to a closing one. `Unambiguous` says exactly which
lists are the only reading of their text. -/

namespace QuotedJoin

/-- The separator and the quote, and which characters are blank; the separator is and the quote is not. -/
structure Quoting (α : Type) where
  sep : α
  quote : α
  blank : α → Bool
  blank_sep : blank sep = true
  blank_quote : blank quote = false

namespace Quoting

variable {α : Type} (Q : Quoting α)

/-- Shown as it is. -/
def plain (a : List α) : Bool := !a.isEmpty && !a.any Q.blank

def quoted (a : List α) : List α := Q.quote :: a ++ [Q.quote]

def shown (a : List α) : List α := if Q.plain a then a else Q.quoted a

def joined (argv : List (List α)) : List α := [Q.sep].intercalate (argv.map Q.shown)

section Tokens

variable {Q} {a b : List α}

theorem quote_ne_sep : Q.quote ≠ Q.sep := by
  intro h
  have hblank := Q.blank_quote
  rw [h, Q.blank_sep] at hblank
  cases hblank

theorem plain_iff : Q.plain a = true ↔ a ≠ [] ∧ ∀ x ∈ a, Q.blank x = false := by
  simp [plain]

theorem sep_notMem_of_plain (h : Q.plain a = true) : Q.sep ∉ a := by
  intro hsep
  have hblank := (plain_iff.mp h).2 _ hsep
  rw [Q.blank_sep] at hblank
  cases hblank

theorem shown_of_plain (h : Q.plain a = true) : Q.shown a = a := if_pos h

theorem shown_of_not_plain (h : Q.plain a = false) : Q.shown a = Q.quoted a := by
  rw [shown, if_neg (by simp [h])]

/-- An empty token is shown as the pair of quotes is. -/
theorem shown_nil : Q.shown [] = Q.shown [Q.quote, Q.quote] := by
  rw [shown_of_not_plain rfl, shown_of_plain (by simp [plain, Q.blank_quote])]
  rfl

/-- A plain token shown as a quoted one is the pair of quotes. -/
theorem eq_pair_of_shown_eq (ha : Q.plain a = true) (hb : Q.plain b = false) (h : Q.shown a = Q.shown b) :
    a = [Q.quote, Q.quote] ∧ b = [] := by
  rw [shown_of_plain ha, shown_of_not_plain hb] at h
  subst h
  have hblank : ∀ x ∈ b, Q.blank x = false := fun x hx =>
    (plain_iff.mp ha).2 x (by simp [quoted, hx])
  obtain rfl : b = [] := by
    by_contra hne
    rw [plain_iff.mpr ⟨hne, hblank⟩] at hb
    cases hb
  exact ⟨rfl, rfl⟩

theorem eq_of_shown_eq (ha : a ≠ [] ∧ a ≠ [Q.quote, Q.quote]) (h : Q.shown a = Q.shown b) : a = b := by
  cases hpa : Q.plain a with
  | true =>
      cases hpb : Q.plain b with
      | true => rwa [shown_of_plain hpa, shown_of_plain hpb] at h
      | false => exact absurd (eq_pair_of_shown_eq hpa hpb h).1 ha.2
  | false =>
      cases hpb : Q.plain b with
      | true => exact absurd (eq_pair_of_shown_eq hpb hpa h.symm).2 ha.1
      | false =>
          rw [shown_of_not_plain hpa, shown_of_not_plain hpb] at h
          simpa [quoted] using h

end Tokens

variable [DecidableEq α]

/-- The words a token is shown as. -/
def words (a : List α) : List (List α) := (Q.shown a).splitOn Q.sep

def pieces (argv : List (List α)) : List (List α) := argv.flatMap Q.words

def opens (w : List α) : Bool := w.head? == some Q.quote

def closes (w : List α) : Bool := w.getLast? == some Q.quote

/-- The words past the last that closes are plain. -/
def PlainBack (ps : List (List α)) : Prop := ∀ w ∈ ps.rtakeWhile fun w => !Q.closes w, Q.plain w = true

/-- The words before the first that opens are plain. -/
def PlainFront (ps : List (List α)) : Prop := ∀ w ∈ ps.takeWhile fun w => !Q.opens w, Q.plain w = true

instance (ps : List (List α)) : Decidable (Q.PlainBack ps) :=
  inferInstanceAs (Decidable (∀ w ∈ ps.rtakeWhile fun w => !Q.closes w, Q.plain w = true))

instance (ps : List (List α)) : Decidable (Q.PlainFront ps) :=
  inferInstanceAs (Decidable (∀ w ∈ ps.takeWhile fun w => !Q.opens w, Q.plain w = true))

/-- The token between quotes can be cut at a separator so that both parts can be read. -/
def Recuttable (a : List α) : Prop :=
  ∃ m, m < ((Q.quoted a).splitOn Q.sep).length ∧ 0 < m ∧
    Q.PlainBack (((Q.quoted a).splitOn Q.sep).take m) ∧ Q.PlainFront (((Q.quoted a).splitOn Q.sep).drop m)

instance (a : List α) : Decidable (Q.Recuttable a) :=
  inferInstanceAs (Decidable (∃ m, m < ((Q.quoted a).splitOn Q.sep).length ∧ _ ∧ _ ∧ _))

/-- No token is empty or the pair of quotes an empty one is shown as, none that is quoted or begins with
a quote stands before one that is quoted or ends with a quote, and none can be cut. -/
structure Unambiguous (argv : List (List α)) : Prop where
  nonempty : ∀ a ∈ argv, a ≠ [] ∧ a ≠ [Q.quote, Q.quote]
  apart : argv.Pairwise fun a b =>
    ¬ ((Q.plain a = false ∨ Q.opens a = true) ∧ (Q.plain b = false ∨ Q.closes b = true))
  uncuttable : ∀ a ∈ argv, ¬ Q.Recuttable a

instance (argv : List (List α)) : Decidable (Q.Unambiguous argv) :=
  decidable_of_iff ((∀ a ∈ argv, a ≠ [] ∧ a ≠ [Q.quote, Q.quote]) ∧
      (argv.Pairwise fun a b =>
        ¬ ((Q.plain a = false ∨ Q.opens a = true) ∧ (Q.plain b = false ∨ Q.closes b = true))) ∧
      ∀ a ∈ argv, ¬ Q.Recuttable a)
    ⟨fun h => ⟨h.1, h.2.1, h.2.2⟩, fun h => ⟨h.nonempty, h.apart, h.uncuttable⟩⟩

/-- The words of the list are those of no other list. -/
def Sole (argv : List (List α)) : Prop := ∀ argv', Q.pieces argv' = Q.pieces argv → argv' = argv

variable {Q} {a b w t : List α} {argv argv' ps qs : List (List α)}

theorem opens_quoted : Q.opens (Q.quoted a) = true := by
  simp [opens, quoted]

theorem closes_quoted : Q.closes (Q.quoted a) = true := by
  rw [closes, quoted, List.getLast?_concat, beq_self_eq_true]

theorem opens_shown : Q.opens (Q.shown a) = true ↔ Q.plain a = false ∨ Q.opens a = true := by
  cases h : Q.plain a with
  | true => simp [shown_of_plain h]
  | false => simp [shown_of_not_plain h, opens_quoted]

theorem closes_shown : Q.closes (Q.shown a) = true ↔ Q.plain a = false ∨ Q.closes a = true := by
  cases h : Q.plain a with
  | true => simp [shown_of_plain h]
  | false => simp [shown_of_not_plain h, closes_quoted]

/-- A text that begins and ends with a quote is how some token is shown. -/
theorem exists_shown (hopens : Q.opens t = true) (hcloses : Q.closes t = true) : ∃ a, Q.shown a = t := by
  cases hplain : Q.plain t with
  | true => exact ⟨t, shown_of_plain hplain⟩
  | false =>
      cases t with
      | nil => simp [opens] at hopens
      | cons x t =>
          obtain rfl : x = Q.quote := by simpa [opens] using hopens
          cases t using List.reverseRecOn with
          | nil => simp [plain, Q.blank_quote] at hplain
          | append_singleton a y =>
              obtain rfl : y = Q.quote := by simpa [closes, List.getLast?_cons] using hcloses
              refine ⟨a, shown_of_not_plain ?_⟩
              cases ha : Q.plain a with
              | false => rfl
              | true =>
                  rw [← hplain, eq_comm, plain_iff]
                  refine ⟨List.cons_ne_nil _ _, fun x hx => ?_⟩
                  simp only [List.mem_cons, List.mem_append, List.not_mem_nil, or_false] at hx
                  obtain rfl | hx | rfl := hx
                  · exact Q.blank_quote
                  · exact (plain_iff.mp ha).2 x hx
                  · exact Q.blank_quote

/-- The words of a text have no separator in them. -/
theorem sep_notMem_of_mem_splitOn : ∀ {t : List α}, w ∈ t.splitOn Q.sep → Q.sep ∉ w := by
  intro t
  induction t generalizing w with
  | nil =>
      intro hw
      obtain rfl : w = [] := by simpa using hw
      exact List.not_mem_nil
  | cons x t ih =>
      intro hw
      obtain ⟨v, vs, hsplit⟩ := List.exists_cons_of_ne_nil (List.splitOn_ne_nil Q.sep t)
      rw [List.splitOn_cons_eq_if_modifyHead, hsplit] at hw
      rw [hsplit] at ih
      split at hw
      · obtain rfl | hw := List.mem_cons.mp hw
        · exact List.not_mem_nil
        · exact ih hw
      · rename_i hx
        obtain rfl | hw := List.mem_cons.mp hw
        · intro hsep
          obtain hsep | hsep := List.mem_cons.mp hsep
          · exact hx (by simp [hsep])
          · exact ih List.mem_cons_self hsep
        · exact ih (List.mem_cons_of_mem _ hw)

theorem words_ne_nil : Q.words a ≠ [] := List.splitOn_ne_nil _ _

theorem sep_notMem_of_mem_words (h : w ∈ Q.words a) : Q.sep ∉ w := sep_notMem_of_mem_splitOn h

@[simp]
theorem intercalate_words : [Q.sep].intercalate (Q.words a) = Q.shown a := List.intercalate_splitOn _

theorem shown_eq_iff : Q.shown a = Q.shown b ↔ Q.words a = Q.words b := by
  constructor
  · intro h
    rw [words, h, words]
  · intro h
    rw [← intercalate_words, h, intercalate_words]

theorem words_of_plain (h : Q.plain a = true) : Q.words a = [a] := by
  rw [words, shown_of_plain h]
  exact List.splitOn_eq_singleton (sep_notMem_of_plain h)

theorem words_of_not_plain (h : Q.plain a = false) : Q.words a = (Q.quoted a).splitOn Q.sep := by
  rw [words, shown_of_not_plain h]

/-- A token that is cut into several words is not plain. -/
theorem not_plain_of_length (h : 1 < (Q.words a).length) : Q.plain a = false := by
  cases ha : Q.plain a with
  | false => rfl
  | true =>
      rw [words_of_plain ha] at h
      exact absurd h (by simp)

/-- A text opens where its first word does. -/
theorem opens_intercalate : Q.opens ([Q.sep].intercalate (w :: ps)) = Q.opens w := by
  cases ps with
  | nil => rw [List.intercalate_singleton]
  | cons v ps =>
      cases w with
      | nil => simp [opens, List.intercalate_cons_cons, quote_ne_sep.symm]
      | cons x w => simp [opens, List.intercalate_cons_cons]

/-- A text closes where its last word does. -/
theorem closes_intercalate : Q.closes ([Q.sep].intercalate (ps ++ [w])) = Q.closes w := by
  induction ps with
  | nil => rw [List.nil_append, List.intercalate_singleton]
  | cons v ps ih =>
      rw [List.cons_append, List.intercalate_cons_of_ne_nil (by simp), ← ih]
      cases ht : [Q.sep].intercalate (ps ++ [w]) with
      | nil => simp [closes, quote_ne_sep.symm]
      | cons x t => simp [closes, List.getLast?_append, List.getLast?_cons]

/-- A token is shown opening if its first word opens. -/
theorem opens_first (h : Q.words a = w :: ps) : Q.opens w = Q.opens (Q.shown a) := by
  rw [← intercalate_words, h, opens_intercalate]

theorem closes_last (h : Q.words a = ps ++ [w]) : Q.closes w = Q.closes (Q.shown a) := by
  rw [← intercalate_words, h, closes_intercalate]

/-- A token is shown closing if any of its words closes: a plain one has no other word. -/
theorem closes_shown_of_mem (hw : w ∈ Q.words a) (h : Q.closes w = true) : Q.closes (Q.shown a) = true := by
  cases ha : Q.plain a with
  | true =>
      rw [words_of_plain ha, List.mem_singleton] at hw
      rw [shown_of_plain ha, ← hw, h]
  | false => rw [shown_of_not_plain ha, closes_quoted]

/-- A run of words from one that opens to one that closes is a token. -/
theorem exists_token (hsep : ∀ v ∈ ps, Q.sep ∉ v) (hfirst : ps = a :: qs) (hopens : Q.opens a = true)
    {rs : List (List α)} (hlast : ps = rs ++ [b]) (hcloses : Q.closes b = true) :
    ∃ c, Q.words c = ps := by
  obtain ⟨c, hc⟩ : ∃ c, Q.shown c = [Q.sep].intercalate ps := by
    apply exists_shown
    · rw [hfirst, opens_intercalate, hopens]
    · rw [hlast, closes_intercalate, hcloses]
  refine ⟨c, ?_⟩
  rw [words, hc]
  exact List.splitOn_intercalate _ hsep (by simp [hfirst])

@[simp]
theorem pieces_nil : Q.pieces [] = [] := rfl

@[simp]
theorem pieces_cons : Q.pieces (a :: argv) = Q.words a ++ Q.pieces argv := rfl

@[simp]
theorem pieces_singleton : Q.pieces [a] = Q.words a := List.flatMap_singleton Q.words a

@[simp]
theorem pieces_append : Q.pieces (argv ++ argv') = Q.pieces argv ++ Q.pieces argv' := by
  simp [pieces]

theorem pieces_eq_nil : Q.pieces argv = [] ↔ argv = [] := by
  cases argv with
  | nil => simp
  | cons a argv => simp [words_ne_nil]

theorem sep_notMem_of_mem_pieces (h : w ∈ Q.pieces argv) : Q.sep ∉ w := by
  obtain ⟨a, -, hw⟩ := List.mem_flatMap.mp h
  exact sep_notMem_of_mem_words hw

theorem pieces_of_plain (h : ∀ w ∈ ps, Q.plain w = true) : Q.pieces ps = ps := by
  induction ps with
  | nil => rfl
  | cons w ps ih =>
      rw [pieces_cons, words_of_plain (h w List.mem_cons_self),
        ih fun v hv => h v (List.mem_cons_of_mem _ hv)]
      rfl

/-- Splitting the joined text gives the words of the tokens one after the other. -/
theorem splitOn_joined (h : argv ≠ []) : (Q.joined argv).splitOn Q.sep = Q.pieces argv := by
  induction argv with
  | nil => exact absurd rfl h
  | cons a argv ih =>
      cases argv with
      | nil => simp [joined, words]
      | cons b argv =>
          have hrest := ih (List.cons_ne_nil b argv)
          rw [joined, List.map_cons] at hrest
          rw [joined, List.map_cons, List.map_cons, List.intercalate_cons_cons, List.append_assoc,
            List.singleton_append, List.splitOn_append_cons_self, hrest]
          rfl

theorem joined_eq_iff (h : argv ≠ []) (h' : argv' ≠ []) :
    Q.joined argv' = Q.joined argv ↔ Q.pieces argv' = Q.pieces argv := by
  constructor
  · intro heq
    rw [← splitOn_joined h, ← splitOn_joined h', heq]
  · intro heq
    rw [← splitOn_joined h, ← splitOn_joined h'] at heq
    have hjoined := congrArg [Q.sep].intercalate heq
    rwa [List.intercalate_splitOn, List.intercalate_splitOn] at hjoined

/-- In the words of a list of tokens, those past the last that closes are plain: they are no part of a
quoted token, the last word of which closes. -/
theorem plainBack_pieces : Q.PlainBack (Q.pieces argv) := by
  induction argv using List.reverseRecOn with
  | nil => simp [PlainBack]
  | append_singleton argv a ih =>
      intro w hw
      rw [pieces_append, pieces_singleton] at hw
      cases ha : Q.plain a with
      | true =>
          rw [words_of_plain ha, List.rtakeWhile_concat] at hw
          split at hw
          · obtain hw | hw := List.mem_append.mp hw
            · exact ih w hw
            · rwa [List.mem_singleton.mp hw]
          · cases hw
      | false =>
          obtain ⟨vs, v, hv⟩ := (List.eq_nil_or_concat' (Q.words a)).resolve_left words_ne_nil
          have hcloses : Q.closes v = true := by
            rw [closes_last hv, shown_of_not_plain ha, closes_quoted]
          rw [hv, ← List.append_assoc, List.rtakeWhile_concat_neg _ _ _ (by simp [hcloses])] at hw
          cases hw

theorem PlainFront.left (h : Q.PlainFront (ps ++ qs)) : Q.PlainFront ps := by
  intro w hw
  apply h w
  rw [List.takeWhile_append]
  split
  · exact List.mem_append_left _ (List.takeWhile_subset _ hw)
  · exact hw

theorem plainFront_pieces : Q.PlainFront (Q.pieces argv) := by
  induction argv with
  | nil => simp [PlainFront]
  | cons a argv ih =>
      intro w hw
      rw [pieces_cons] at hw
      cases ha : Q.plain a with
      | true =>
          rw [words_of_plain ha, List.singleton_append, List.takeWhile_cons] at hw
          split at hw
          · obtain rfl | hw := List.mem_cons.mp hw
            · exact ha
            · exact ih w hw
          · cases hw
      | false =>
          obtain ⟨v, vs, hv⟩ := List.exists_cons_of_ne_nil (words_ne_nil (Q := Q) (a := a))
          have hopens : Q.opens v = true := by
            rw [opens_first hv, shown_of_not_plain ha, opens_quoted]
          rw [hv, List.cons_append, List.takeWhile_cons_of_neg (by simp [hopens])] at hw
          cases hw

/-- Words of which the first opens are those of some tokens, when the words past the last that closes
are plain. -/
theorem exists_argv_of_plainBack (hsep : ∀ v ∈ ps, Q.sep ∉ v) (hfirst : ps = a :: qs)
    (hopens : Q.opens a = true) (hplain : Q.PlainBack ps) : ∃ argv, Q.pieces argv = ps := by
  have hsplit := List.rdropWhile_append_rtakeWhile (p := fun w => !Q.closes w) (l := ps)
  obtain hnil | ⟨vs, v, hv⟩ := List.eq_nil_or_concat' (ps.rdropWhile fun w => !Q.closes w)
  · rw [hnil, List.nil_append] at hsplit
    rw [PlainBack, hsplit] at hplain
    exact ⟨ps, pieces_of_plain hplain⟩
  · have hcloses : Q.closes v = true := by
      have hlast := List.rdropWhile_last_not (fun w => !Q.closes w) ps (by simp [hv])
      simpa [hv] using hlast
    rw [hv] at hsplit
    obtain ⟨us, hus⟩ : ∃ us, vs ++ [v] = a :: us := by
      cases vs with
      | nil =>
          rw [hfirst] at hsplit
          exact ⟨[], by rw [(List.cons.inj hsplit).1]; rfl⟩
      | cons u vs =>
          rw [hfirst] at hsplit
          exact ⟨vs ++ [v], by rw [← (List.cons.inj hsplit).1]; rfl⟩
    obtain ⟨c, hc⟩ :=
      exists_token (fun u hu => hsep u (hsplit ▸ List.mem_append_left _ hu)) hus hopens rfl hcloses
    refine ⟨c :: ps.rtakeWhile fun w => !Q.closes w, ?_⟩
    rw [pieces_cons, hc, pieces_of_plain hplain, hsplit]

/-- Words of which the last closes are those of some tokens, when the words before the first that opens
are plain. -/
theorem exists_argv_of_plainFront (hsep : ∀ v ∈ ps, Q.sep ∉ v) (hlast : ps = qs ++ [b])
    (hcloses : Q.closes b = true) (hplain : Q.PlainFront ps) : ∃ argv, Q.pieces argv = ps := by
  have hsplit := List.takeWhile_append_dropWhile (p := fun w => !Q.opens w) (l := ps)
  cases hv : ps.dropWhile fun w => !Q.opens w with
  | nil =>
      rw [hv, List.append_nil] at hsplit
      rw [PlainFront, hsplit] at hplain
      exact ⟨ps, pieces_of_plain hplain⟩
  | cons v vs =>
      have hopens : Q.opens v = true := by
        have hfirst := List.head_dropWhile_not (fun w => !Q.opens w) (by simp [hv] : ps.dropWhile _ ≠ [])
        simpa [hv] using hfirst
      rw [hv] at hsplit
      obtain ⟨us, hus⟩ : ∃ us, v :: vs = us ++ [b] := by
        obtain ⟨us, u, hu⟩ := (List.eq_nil_or_concat' (v :: vs)).resolve_left (List.cons_ne_nil v vs)
        rw [hu, ← List.append_assoc, hlast] at hsplit
        exact ⟨us, by rw [hu, (List.append_inj' hsplit rfl).2]⟩
      obtain ⟨c, hc⟩ :=
        exists_token (fun u hu => hsep u (hsplit ▸ List.mem_append_right _ hu)) rfl hopens hus hcloses
      refine ⟨ps.takeWhile (fun w => !Q.opens w) ++ [c], ?_⟩
      rw [pieces_append, pieces_of_plain hplain, pieces_singleton, hc, hsplit]

/-- A part of a list that is the only reading of its words is the only reading of its own. -/
theorem Sole.of_append (h : Q.Sole (argv ++ ps ++ argv')) : Q.Sole ps := by
  intro qs hqs
  have hargv := h (argv ++ qs ++ argv') (by simp only [pieces_append, hqs])
  simpa using hargv

theorem Sole.of_mem (h : Q.Sole argv) (ha : a ∈ argv) : Q.Sole [a] := by
  obtain ⟨ps, qs, rfl⟩ := List.append_of_mem ha
  rw [← List.singleton_append, ← List.append_assoc] at h
  exact h.of_append

/-- An empty token could be a pair of quotes, and a pair of quotes an empty token. -/
theorem Sole.nonempty (h : Q.Sole [a]) : a ≠ [] ∧ a ≠ [Q.quote, Q.quote] := by
  have hpair : Q.words ([] : List α) = Q.words [Q.quote, Q.quote] := shown_eq_iff.mp shown_nil
  constructor
  · rintro rfl
    have hother := h [[Q.quote, Q.quote]] (by rw [pieces_singleton, pieces_singleton, hpair])
    simp at hother
  · rintro rfl
    have hother := h [[]] (by rw [pieces_singleton, pieces_singleton, hpair])
    simp at hother

/-- All from a token shown opening to one shown closing could be a single token. -/
theorem Sole.apart (h : Q.Sole (a :: argv ++ [b])) :
    ¬ (Q.opens (Q.shown a) = true ∧ Q.closes (Q.shown b) = true) := by
  rintro ⟨hopens, hcloses⟩
  obtain ⟨v, vs, hv⟩ := List.exists_cons_of_ne_nil (words_ne_nil (Q := Q) (a := a))
  obtain ⟨us, u, hu⟩ := (List.eq_nil_or_concat' (Q.words b)).resolve_left words_ne_nil
  obtain ⟨c, hc⟩ : ∃ c, Q.words c = Q.pieces (a :: argv ++ [b]) := by
    apply exists_token (fun w hw => sep_notMem_of_mem_pieces hw) (a := v) (b := u)
    · rw [List.cons_append, pieces_cons, hv, List.cons_append]
    · rw [opens_first hv, hopens]
    · rw [pieces_append, pieces_singleton, hu, ← List.append_assoc]
    · rw [closes_last hu, hcloses]
  have hone := congrArg List.length (h [c] (by rw [pieces_singleton, hc]))
  simp at hone

/-- A token that is cut into several words between quotes is quoted. -/
theorem words_of_length (h : 1 < ((Q.quoted a).splitOn Q.sep).length) :
    Q.words a = (Q.quoted a).splitOn Q.sep := by
  cases ha : Q.plain a with
  | false => exact words_of_not_plain ha
  | true =>
      have hsep : Q.sep ∉ Q.quoted a := by
        simp [quoted, quote_ne_sep.symm, sep_notMem_of_plain ha]
      rw [List.splitOn_eq_singleton hsep] at h
      exact absurd h (by simp)

/-- A token that can be cut could be the tokens of its two parts. -/
theorem Sole.uncuttable (h : Q.Sole [a]) : ¬ Q.Recuttable a := by
  rintro ⟨m, hlen, hpos, hback, hfront⟩
  have hwords : Q.words a = (Q.quoted a).splitOn Q.sep := words_of_length (by omega)
  rw [← hwords] at hlen hback hfront
  have hshown : Q.shown a = Q.quoted a := shown_of_not_plain (not_plain_of_length (by omega))
  obtain ⟨v, vs, hv⟩ := List.exists_cons_of_ne_nil (words_ne_nil (Q := Q) (a := a))
  obtain ⟨us, u, hu⟩ := (List.eq_nil_or_concat' (Q.words a)).resolve_left words_ne_nil
  obtain ⟨left, hleft⟩ : ∃ left, Q.pieces left = (Q.words a).take m := by
    refine exists_argv_of_plainBack ?_ (?_ : _ = v :: vs.take (m - 1)) ?_ hback
    · exact fun w hw => sep_notMem_of_mem_words (List.mem_of_mem_take hw)
    · rw [hv, List.take_cons hpos]
    · rw [opens_first hv, hshown, opens_quoted]
  obtain ⟨right, hright⟩ : ∃ right, Q.pieces right = (Q.words a).drop m := by
    refine exists_argv_of_plainFront ?_ (?_ : _ = us.drop m ++ [u]) ?_ hfront
    · exact fun w hw => sep_notMem_of_mem_words (List.mem_of_mem_drop hw)
    · rw [hu] at hlen ⊢
      rw [List.drop_append_of_le_length (by simp at hlen; omega)]
    · rw [closes_last hu, hshown, closes_quoted]
  have hparts : Q.pieces (left ++ right) = Q.pieces [a] := by
    rw [pieces_append, hleft, hright, List.take_append_drop, pieces_singleton]
  have hone := h (left ++ right) hparts
  have hleft_ne : left ≠ [] := by
    rintro rfl
    have hlength := congrArg List.length hleft
    simp at hlength
    omega
  have hright_ne : right ≠ [] := by
    rintro rfl
    have hlength := congrArg List.length hright
    simp at hlength
    omega
  have hlength := congrArg List.length hone
  have hleft_pos := List.length_pos_of_ne_nil hleft_ne
  have hright_pos := List.length_pos_of_ne_nil hright_ne
  simp at hlength
  omega

/-- A token that takes the words of another and some more could be cut where the other ends. -/
theorem recuttable_of_words (h : Q.words a = Q.words b ++ ps) (hne : ps ≠ []) (hfront : Q.PlainFront ps) :
    Q.Recuttable a := by
  have hpos := List.length_pos_of_ne_nil hne
  have hwords_pos := List.length_pos_of_ne_nil (words_ne_nil (Q := Q) (a := b))
  have hlen := congrArg List.length h
  rw [List.length_append] at hlen
  have hback : Q.PlainBack (Q.words b) := by
    rw [← pieces_singleton]
    exact plainBack_pieces
  have hsplit : Q.words b ++ ps = (Q.quoted a).splitOn Q.sep := by
    rw [← h, words_of_not_plain (not_plain_of_length (by omega))]
  refine ⟨(Q.words b).length, ?_, hwords_pos, ?_, ?_⟩
  · rw [← hsplit, List.length_append]
    omega
  · rwa [← hsplit, List.take_left]
  · rwa [← hsplit, List.drop_left]

/-- Where a token takes words of the tokens after another, that one opens and one of them closes. -/
theorem opens_and_closes (h : Q.words b = Q.words a ++ ps) (hne : ps ≠ [])
    (hrest : Q.pieces argv = ps ++ qs) :
    Q.opens (Q.shown a) = true ∧ ∃ c ∈ argv, Q.closes (Q.shown c) = true := by
  have hpos := List.length_pos_of_ne_nil hne
  have hwords_pos := List.length_pos_of_ne_nil (words_ne_nil (Q := Q) (a := a))
  have hlen := congrArg List.length h
  rw [List.length_append] at hlen
  have hshown : Q.shown b = Q.quoted b := shown_of_not_plain (not_plain_of_length (by omega))
  obtain ⟨v, vs, hv⟩ := List.exists_cons_of_ne_nil (words_ne_nil (Q := Q) (a := a))
  obtain ⟨us, u, hu⟩ := (List.eq_nil_or_concat' ps).resolve_left hne
  constructor
  · rw [hv, List.cons_append] at h
    rw [← opens_first hv, opens_first h, hshown, opens_quoted]
  · rw [hu, ← List.append_assoc] at h
    have hcloses : Q.closes u = true := by
      rw [closes_last h, hshown, closes_quoted]
    have hmem : u ∈ Q.pieces argv := by
      rw [hrest, hu]
      simp
    obtain ⟨c, hc, hword⟩ := List.mem_flatMap.mp hmem
    exact ⟨c, hc, closes_shown_of_mem hword hcloses⟩

/-- The first token of an unambiguous list is the first of every reading. -/
theorem Unambiguous.words_eq (h : Q.Unambiguous (a :: argv))
    (heq : Q.words b ++ Q.pieces argv' = Q.words a ++ Q.pieces argv) : Q.words b = Q.words a := by
  obtain ⟨ps, hwords, hrest⟩ | ⟨ps, hwords, hrest⟩ := List.append_eq_append_iff.mp heq
  · by_cases hne : ps = []
    · rw [hwords, hne, List.append_nil]
    · refine absurd (recuttable_of_words hwords hne ?_) (h.uncuttable a List.mem_cons_self)
      exact (hrest ▸ plainFront_pieces : Q.PlainFront (ps ++ Q.pieces argv)).left
  · by_cases hne : ps = []
    · rw [hwords, hne, List.append_nil]
    · obtain ⟨hopens, c, hc, hcloses⟩ := opens_and_closes hwords hne hrest
      exact absurd ⟨opens_shown.mp hopens, closes_shown.mp hcloses⟩
        ((List.pairwise_cons.mp h.apart).1 c hc)

theorem Unambiguous.tail (h : Q.Unambiguous (a :: argv)) : Q.Unambiguous argv where
  nonempty := fun b hb => h.nonempty b (List.mem_cons_of_mem _ hb)
  apart := (List.pairwise_cons.mp h.apart).2
  uncuttable := fun b hb => h.uncuttable b (List.mem_cons_of_mem _ hb)

theorem Unambiguous.sole (h : Q.Unambiguous argv) : Q.Sole argv := by
  induction argv with
  | nil => exact fun argv' heq => pieces_eq_nil.mp heq
  | cons a argv ih =>
      intro argv' heq
      cases argv' with
      | nil => exact absurd (pieces_eq_nil.mp heq.symm) (List.cons_ne_nil a argv)
      | cons b argv' =>
          rw [pieces_cons, pieces_cons] at heq
          have hwords := h.words_eq heq
          rw [hwords] at heq
          rw [eq_of_shown_eq (h.nonempty a List.mem_cons_self) (shown_eq_iff.mpr hwords.symm),
            ih h.tail argv' (List.append_cancel_left heq)]

theorem Sole.unambiguous (h : Q.Sole argv) : Q.Unambiguous argv where
  nonempty := fun _ ha => (h.of_mem ha).nonempty
  apart := by
    rw [List.pairwise_iff_forall_sublist]
    intro a b hab
    obtain ⟨ps, qs, rfl, ha, hb⟩ := List.cons_sublist_iff.mp hab
    obtain ⟨ps, us, rfl⟩ := List.append_of_mem ha
    obtain ⟨vs, qs, rfl⟩ := List.append_of_mem (List.singleton_sublist.mp hb)
    have hrun : Q.Sole (ps ++ (a :: (us ++ vs) ++ [b]) ++ qs) := by simpa using h
    rw [← opens_shown, ← closes_shown]
    exact hrun.of_append.apart
  uncuttable := fun _ ha => (h.of_mem ha).uncuttable

theorem sole_iff : Q.Sole argv ↔ Q.Unambiguous argv := ⟨Sole.unambiguous, Unambiguous.sole⟩

/-- **The only reading.** A list of tokens is the only one shown as its text if and only if it is
unambiguous. -/
theorem unambiguous_iff (h : argv ≠ []) :
    Q.Unambiguous argv ↔ ∀ argv', argv' ≠ [] → Q.joined argv' = Q.joined argv → argv' = argv := by
  rw [← sole_iff]
  constructor
  · intro hsole argv' hne heq
    exact hsole argv' ((joined_eq_iff h hne).mp heq)
  · intro honly argv' heq
    have hne : argv' ≠ [] := by
      rintro rfl
      exact h (pieces_eq_nil.mp heq.symm)
    exact honly argv' hne ((joined_eq_iff h hne).mpr heq)

end Quoting

end QuotedJoin
