import Sudix.JsonGrammar

/-! A library of compact JSON texts. The writer escapes what it must, in the shortest way; the reader
takes every text without blanks. Together they are standard at any depth. -/

namespace JsonText

def hexDigit (n : Nat) : Char := Nat.digitChar n

def writeChar (c : Char) : List Char :=
  match (escapes.filter fun e => e.1 != '/').find? fun e => e.2 == c with
  | some e => ['\\', e.1]
  | none => if c.toNat < 0x20 then ['\\', 'u', '0', '0', hexDigit (c.toNat / 16), hexDigit (c.toNat % 16)] else [c]

def writeString (s : String) : List Char := s.toList.flatMap writeChar

mutual

def writeValue : Json → List Char
  | .null => ['n', 'u', 'l', 'l']
  | .bool true => ['t', 'r', 'u', 'e']
  | .bool false => ['f', 'a', 'l', 's', 'e']
  | .int n => decimal n
  | .str s => quote (writeString s)
  | .arr items => '[' :: commaSep (writeItems items) ++ [']']
  | .obj members => '\x7b' :: commaSep ((writeMembers members).map memberText) ++ ['\x7d']

def writeItems : List Json → List (List Char)
  | [] => []
  | v :: vs => writeValue v :: writeItems vs

def writeMembers : List (String × Json) → List (List Char × List Char)
  | [] => []
  | (k, v) :: ms => (writeString k, writeValue v) :: writeMembers ms

end

/-- What is read off the front of a text, and the rest of it. -/
abbrev Reader (α : Type) := List Char → Option (α × List Char)

def readEscape : Reader Char
  | 'u' :: a :: b :: c :: d :: rest => do
      let hi ← hexCode [a, b, c, d]
      if HighSurrogate hi then
        match rest with
        | '\\' :: 'u' :: a :: b :: c :: d :: rest => do
            let lo ← hexCode [a, b, c, d]
            if LowSurrogate lo then some (Char.ofNat (pairCode hi lo), rest) else none
        | _ => none
      else if LowSurrogate hi then none
      else some (Char.ofNat hi, rest)
  | e :: rest => (escapes.find? fun p => p.1 == e).map fun p => (p.2, rest)
  | [] => none

def readChar : Reader Char
  | '\\' :: rest => readEscape rest
  | c :: rest => if c.toNat < 0x20 then none else some (c, rest)
  | [] => none

/-- The rest of a string, after the opening quote and up to the closing one. -/
def readChars : Nat → Reader (List Char)
  | 0, _ => none
  | _ + 1, '"' :: rest => some ([], rest)
  | fuel + 1, cs => do
      let (c, rest) ← readChar cs
      let (s, rest) ← readChars fuel rest
      some (c :: s, rest)

def readInt : Reader Int
  | '-' :: cs =>
      if (cs.takeWhile Char.isDigit).isEmpty then none
      else some (- Nat.ofDigitChars 10 (cs.takeWhile Char.isDigit) 0, cs.dropWhile Char.isDigit)
  | cs =>
      if (cs.takeWhile Char.isDigit).isEmpty then none
      else some (Nat.ofDigitChars 10 (cs.takeWhile Char.isDigit) 0, cs.dropWhile Char.isDigit)

section

variable {α : Type} (item : Reader α) (close : Char)

/-- What follows an item: the end, or a comma and more items. -/
def readMore : Nat → Reader (List α)
  | 0, _ => none
  | _ + 1, [] => none
  | fuel + 1, c :: rest =>
      if c = close then some ([], rest)
      else if c = ',' then do
        let (v, rest) ← item rest
        let (vs, rest) ← readMore fuel rest
        some (v :: vs, rest)
      else none

def readItems (fuel : Nat) : Reader (List α)
  | [] => none
  | c :: rest =>
      if c = close then some ([], rest)
      else do
        let (v, rest) ← item (c :: rest)
        let (vs, rest) ← readMore item close fuel rest
        some (v :: vs, rest)

end

def readMember (value : Reader Json) (fuel : Nat) : Reader (String × Json)
  | '"' :: rest => do
      let (k, rest) ← readChars fuel rest
      match rest with
      | ':' :: rest => do
          let (v, rest) ← value rest
          some ((String.ofList k, v), rest)
      | _ => none
  | _ => none

def readValue : Nat → Reader Json
  | 0, _ => none
  | _ + 1, 'n' :: 'u' :: 'l' :: 'l' :: rest => some (.null, rest)
  | _ + 1, 't' :: 'r' :: 'u' :: 'e' :: rest => some (.bool true, rest)
  | _ + 1, 'f' :: 'a' :: 'l' :: 's' :: 'e' :: rest => some (.bool false, rest)
  | fuel + 1, '"' :: rest => (readChars fuel rest).map fun r => (.str (String.ofList r.1), r.2)
  | fuel + 1, '[' :: rest => (readItems (readValue fuel) ']' fuel rest).map fun r => (.arr r.1, r.2)
  | fuel + 1, '\x7b' :: rest =>
      (readItems (readMember (readValue fuel) fuel) '\x7d' fuel rest).map fun r => (.obj r.1, r.2)
  | _ + 1, cs => (readInt cs).map fun r => (.int r.1, r.2)

def compact : Codec where
  write v := .ok (String.ofList (writeValue v))
  read text :=
    match readValue (text.length + 1) text.toList with
    | some (v, []) => .ok v
    | _ => .error "not a JSON text"

theorem hexVal_hexDigit : ∀ n < 16, hexVal (hexDigit n) = some n := by decide

theorem charText_writeChar (c : Char) : CharText c (writeChar c) := by
  unfold writeChar
  split
  · rename_i e hfind
    obtain rfl : e.2 = c := by simpa using List.find?_some hfind
    exact .escape (List.mem_filter.mp (List.mem_of_find?_eq_some hfind)).1
  · rename_i hfind
    have hplain : ∀ e ∈ escapes.filter fun e => e.1 != '/', e.2 ≠ c := by
      simpa using List.find?_eq_none.mp hfind
    split_ifs with hcontrol
    · refine .code rfl ?_
      have hhigh := hexVal_hexDigit (c.toNat / 16) (by omega)
      have hlow := hexVal_hexDigit (c.toNat % 16) (by omega)
      have hzero : hexVal '0' = some 0 := by decide
      simp only [hexCode, List.foldlM_cons, List.foldlM_nil, hhigh, hlow, hzero, Option.map_some,
        Option.bind_eq_bind, Option.bind_some]
      exact congrArg some (by omega)
    · exact .verbatim (by omega) (hplain ('"', '"') (by decide)).symm (hplain ('\\', '\\') (by decide)).symm

theorem charsText_writeString (s : String) : CharsText s.toList (writeString s) := by
  unfold writeString
  induction s.toList with
  | nil => exact .nil
  | cons c cs ih => exact .cons (charText_writeChar c) ih

mutual

theorem text_writeValue : ∀ v : Json, Text v (writeValue v)
  | .null => .null
  | .bool true => .true
  | .bool false => .false
  | .int n => .int n
  | .str s => .str (charsText_writeString s)
  | .arr items => .arr (texts_writeItems items).1 (texts_writeItems items).2
  | .obj members =>
      .obj (texts_writeMembers members).1 (texts_writeMembers members).2.1 (texts_writeMembers members).2.2

theorem texts_writeItems : ∀ vs : List Json,
    (writeItems vs).length = vs.length ∧ ∀ e ∈ vs.zip (writeItems vs), Text e.1 e.2
  | [] => ⟨rfl, by simp [writeItems]⟩
  | v :: vs => by
      obtain ⟨hlen, htexts⟩ := texts_writeItems vs
      exact ⟨congrArg (· + 1) hlen, List.forall_mem_cons.mpr ⟨text_writeValue v, htexts⟩⟩

theorem texts_writeMembers : ∀ ms : List (String × Json),
    (writeMembers ms).length = ms.length ∧
      (∀ e ∈ ms.zip (writeMembers ms), CharsText e.1.1.toList e.2.1) ∧
      ∀ e ∈ ms.zip (writeMembers ms), Text e.1.2 e.2.2
  | [] => ⟨rfl, by simp [writeMembers], by simp [writeMembers]⟩
  | (k, v) :: ms => by
      obtain ⟨hlen, hkeys, htexts⟩ := texts_writeMembers ms
      exact ⟨congrArg (· + 1) hlen, List.forall_mem_cons.mpr ⟨charsText_writeString k, hkeys⟩,
        List.forall_mem_cons.mpr ⟨text_writeValue v, htexts⟩⟩

end

theorem not_surrogate (c : Char) : ¬ HighSurrogate c.toNat ∧ ¬ LowSurrogate c.toNat := by
  have hvalid : c.toNat < 0xD800 ∨ 0xDFFF < c.toNat ∧ c.toNat < 0x110000 := c.valid
  simp only [HighSurrogate, LowSurrogate]
  omega

theorem exists_of_length_four {α : Type} {l : List α} (h : l.length = 4) : ∃ a b c d, l = [a, b, c, d] := by
  match l, h with
  | [a, b, c, d], _ => exact ⟨a, b, c, d, rfl⟩

theorem readChar_of_charText {c : Char} {t : List Char} (h : CharText c t) (rest : List Char) :
    readChar (t ++ rest) = some (c, rest) := by
  cases h with
  | verbatim hc _ hback =>
      have hcontrol : ¬ c.toNat < 0x20 := by omega
      simp [readChar, hcontrol]
  | @escape e _ he =>
      have hescapes : ∀ p ∈ escapes, p.1 ≠ 'u' ∧ (escapes.find? fun q => q.1 == p.1) = some p := by decide
      obtain ⟨hu, hfind⟩ := hescapes _ he
      simp only [List.cons_append, List.nil_append, readChar]
      rw [readEscape.eq_def]
      split
      · rename_i heq
        exact absurd (List.cons.inj heq).1 hu
      · rename_i heq
        obtain ⟨rfl, rfl⟩ := List.cons.inj heq
        simp [hfind]
      · rename_i heq
        cases heq
  | code hlen hcode =>
      obtain ⟨a, b, d, e, rfl⟩ := exists_of_length_four hlen
      simp [readChar, readEscape, hcode, not_surrogate c]
  | pair hlen hhi hhigh hlen' hlo hlow hc =>
      obtain ⟨a, b, d, e, rfl⟩ := exists_of_length_four hlen
      obtain ⟨a', b', d', e', rfl⟩ := exists_of_length_four hlen'
      simp [readChar, readEscape, hhi, hlo, hhigh, hlow, ← hc]

theorem CharText.head_ne_quote {c : Char} {t : List Char} (h : CharText c t) : ∃ x xs, t = x :: xs ∧ x ≠ '"' := by
  cases h with
  | verbatim _ hquote _ => exact ⟨_, _, rfl, hquote⟩
  | escape _ => exact ⟨_, _, rfl, by decide⟩
  | code _ _ => exact ⟨_, _, rfl, by decide⟩
  | pair _ _ _ _ _ _ _ => exact ⟨_, _, rfl, by decide⟩

theorem readChars_of_charsText {cs ts : List Char} (h : CharsText cs ts) (rest : List Char) :
    ∀ {fuel : Nat}, ts.length < fuel → readChars fuel (ts ++ '"' :: rest) = some (cs, rest) := by
  induction h with
  | nil =>
      intro fuel hfuel
      obtain ⟨fuel, rfl⟩ := Nat.exists_eq_succ_of_ne_zero (by omega : fuel ≠ 0)
      rfl
  | @cons c t cs ts hc _ ih =>
      intro fuel hfuel
      obtain ⟨fuel, rfl⟩ := Nat.exists_eq_succ_of_ne_zero (by omega : fuel ≠ 0)
      obtain ⟨x, xs, rfl, hx⟩ := hc.head_ne_quote
      have hread := readChar_of_charText hc (ts ++ '"' :: rest)
      have hmore : readChars fuel (ts ++ '"' :: rest) = some (cs, rest) := by
        refine ih ?_
        rw [List.length_append, List.length_cons] at hfuel
        omega
      rw [List.append_assoc, readChars, hread]
      · simp [hmore]
      · intro rest' heq
        exact hx (List.cons.inj heq).1

/-- No digit follows. -/
def Ends (rest : List Char) : Prop := ∀ c ∈ rest.head?, c.isDigit = false

theorem ends_cons {c : Char} {rest : List Char} (h : c.isDigit = false) : Ends (c :: rest) := by
  simpa [Ends] using h

theorem readInt_decimal (n : Int) {rest : List Char} (h : Ends rest) :
    readInt (decimal n ++ rest) = some (n, rest) := by
  have hdigits : ∀ m, ∀ c ∈ Nat.toDigits 10 m, c.isDigit = true :=
    fun m c hc => Nat.isDigit_of_mem_toDigits (by decide) (by decide) hc
  have hstop : rest.takeWhile Char.isDigit = [] ∧ rest.dropWhile Char.isDigit = rest := by
    cases rest with
    | nil => exact ⟨rfl, rfl⟩
    | cons c rest =>
        have hc : c.isDigit = false := h c rfl
        simp [hc]
  have htake : ∀ m, (Nat.toDigits 10 m ++ rest).takeWhile Char.isDigit = Nat.toDigits 10 m := by
    intro m
    rw [List.takeWhile_append_of_pos (hdigits m), hstop.1, List.append_nil]
  have hdrop : ∀ m, (Nat.toDigits 10 m ++ rest).dropWhile Char.isDigit = rest := by
    intro m
    rw [List.dropWhile_append_of_pos (hdigits m), hstop.2]
  cases n with
  | ofNat m =>
      rw [decimal, readInt]
      · simp [htake, hdrop]
      · intro cs heq
        obtain ⟨d, ds, hds⟩ := List.exists_cons_of_ne_nil (Nat.toDigits_ne_nil : Nat.toDigits 10 m ≠ [])
        have hd : d.isDigit = true := hdigits m d (hds ▸ List.mem_cons_self)
        rw [hds] at heq
        obtain rfl : d = '-' := (List.cons.inj heq).1
        exact absurd hd (by decide)
  | negSucc m =>
      rw [decimal, List.cons_append, readInt, htake, hdrop]
      simp [Int.negSucc_eq]

/-- The reader takes the value off the front of every text that starts with this one. -/
def Reads {α : Type} (item : Reader α) (v : α) (t : List Char) : Prop :=
  ∀ rest, Ends rest → item (t ++ rest) = some (v, rest)

section

variable {α : Type} {item : Reader α} {close : Char} {vs : List α} {ts : List (List Char)} {fuel : Nat}

theorem ends_more (hclose : close.isDigit = false) (ts : List (List Char)) (rest : List Char) :
    Ends (ts.flatMap (',' :: ·) ++ close :: rest) := by
  cases ts with
  | nil => exact ends_cons hclose
  | cons t ts => exact ends_cons (by decide)

theorem readMore_of_reads (hcomma : close ≠ ',') (hclose : close.isDigit = false)
    (hlen : ts.length = vs.length) (hreads : ∀ e ∈ vs.zip ts, Reads item e.1 e.2) (hfuel : ts.length < fuel)
    (rest : List Char) :
    readMore item close fuel (ts.flatMap (',' :: ·) ++ close :: rest) = some (vs, rest) := by
  induction vs generalizing ts fuel with
  | nil =>
      obtain rfl := List.length_eq_zero_iff.mp hlen
      obtain ⟨fuel, rfl⟩ := Nat.exists_eq_succ_of_ne_zero (by omega : fuel ≠ 0)
      simp [readMore]
  | cons v vs ih =>
      obtain ⟨t, ts, rfl⟩ := List.exists_cons_of_length_eq_add_one hlen
      obtain ⟨fuel, rfl⟩ := Nat.exists_eq_succ_of_ne_zero (by omega : fuel ≠ 0)
      rw [List.zip_cons_cons, List.forall_mem_cons] at hreads
      rw [List.length_cons, List.length_cons] at hlen
      rw [List.length_cons] at hfuel
      have hitem := hreads.1 _ (ends_more hclose ts rest)
      have hmore : readMore item close fuel (ts.flatMap (',' :: ·) ++ close :: rest) = some (vs, rest) :=
        ih (by omega) hreads.2 (by omega)
      rw [List.flatMap_cons, List.cons_append, List.cons_append, List.append_assoc, readMore,
        if_neg hcomma.symm, if_pos rfl, hitem]
      simp [hmore]

theorem readItems_of_reads (hcomma : close ≠ ',') (hclose : close.isDigit = false)
    (hlen : ts.length = vs.length) (hreads : ∀ e ∈ vs.zip ts, Reads item e.1 e.2)
    (hopen : ∀ t ∈ ts, ∃ x xs, t = x :: xs ∧ x ≠ close) (hfuel : ts.length < fuel) (rest : List Char) :
    readItems item close fuel (commaSep ts ++ close :: rest) = some (vs, rest) := by
  cases vs with
  | nil =>
      obtain rfl := List.length_eq_zero_iff.mp hlen
      simp [readItems, commaSep]
  | cons v vs =>
      obtain ⟨t, ts, rfl⟩ := List.exists_cons_of_length_eq_add_one hlen
      obtain ⟨x, xs, rfl, hx⟩ := hopen t List.mem_cons_self
      rw [List.zip_cons_cons, List.forall_mem_cons] at hreads
      rw [List.length_cons, List.length_cons] at hlen
      rw [List.length_cons] at hfuel
      have hitem := hreads.1 _ (ends_more hclose ts rest)
      have hmore := readMore_of_reads hcomma hclose (by omega) hreads.2 (by omega : ts.length < fuel) rest
      rw [List.cons_append] at hitem
      rw [commaSep, List.append_assoc, List.cons_append, readItems, if_neg hx, hitem]
      simp [hmore]

end

theorem reads_member {value : Reader Json} {fuel : Nat} {m : String × Json} {t : List Char × List Char}
    (hkey : CharsText m.1.toList t.1) (hfuel : t.1.length < fuel) (hvalue : Reads value m.2 t.2) :
    Reads (readMember value fuel) m (memberText t) := by
  intro rest hrest
  have hkeyRead := readChars_of_charsText hkey (':' :: (t.2 ++ rest)) hfuel
  have htext : memberText t ++ rest = '"' :: (t.1 ++ '"' :: ':' :: (t.2 ++ rest)) := by
    simp [memberText, quote]
  rw [htext, readMember, hkeyRead]
  simp [hvalue rest hrest]

theorem length_le_of_mem_commaSep {ts : List (List Char)} : ∀ t ∈ ts, t.length ≤ (commaSep ts).length := by
  have hmore : ∀ ts : List (List Char), ∀ t ∈ ts, t.length ≤ (ts.flatMap (',' :: ·)).length := by
    intro ts t ht
    obtain ⟨before, after, rfl⟩ := List.append_of_mem ht
    simp only [List.flatMap_append, List.flatMap_cons, List.length_append, List.length_cons]
    omega
  cases ts with
  | nil => simp
  | cons u ts =>
      intro t ht
      rw [commaSep, List.length_append]
      rcases List.mem_cons.mp ht with rfl | ht
      · omega
      · have := hmore ts t ht
        omega

theorem length_le_commaSep {ts : List (List Char)} (h : ∀ t ∈ ts, t ≠ []) : ts.length ≤ (commaSep ts).length := by
  have hmore : ∀ ts : List (List Char), ts.length ≤ (ts.flatMap (',' :: ·)).length := by
    intro ts
    induction ts with
    | nil => simp
    | cons t ts ih =>
        rw [List.flatMap_cons, List.length_append, List.length_cons, List.length_cons]
        omega
  cases ts with
  | nil => simp
  | cons t ts =>
      have ht : 0 < t.length := List.length_pos_iff.mpr (h t List.mem_cons_self)
      have := hmore ts
      rw [commaSep, List.length_append, List.length_cons]
      omega

theorem decimal_head (n : Int) : ∃ x xs, decimal n = x :: xs ∧ (x = '-' ∨ x.isDigit = true) := by
  cases n with
  | ofNat m =>
      obtain ⟨d, ds, hds⟩ := List.exists_cons_of_ne_nil (Nat.toDigits_ne_nil : Nat.toDigits 10 m ≠ [])
      have hd : d ∈ Nat.toDigits 10 m := hds ▸ List.mem_cons_self
      exact ⟨d, ds, hds, .inr (Nat.isDigit_of_mem_toDigits (by decide) (by decide) hd)⟩
  | negSucc m => exact ⟨'-', _, rfl, .inl rfl⟩

theorem decimal_append_ne {n : Int} {rest cs : List Char} {c : Char} (hminus : c ≠ '-')
    (hdigit : c.isDigit = false) : decimal n ++ rest ≠ c :: cs := by
  obtain ⟨x, xs, hx, hhead⟩ := decimal_head n
  rw [hx]
  rintro heq
  obtain rfl := (List.cons.inj heq).1
  rcases hhead with hhead | hhead
  · exact hminus hhead
  · rw [hdigit] at hhead
    cases hhead

theorem Text.head {v : Json} {cs : List Char} (h : Text v cs) :
    ∃ x xs, cs = x :: xs ∧ x ≠ ']' ∧ x ≠ '\x7d' := by
  cases h with
  | int n =>
      obtain ⟨x, xs, hx, hhead⟩ := decimal_head n
      refine ⟨x, xs, hx, ?_, ?_⟩
      · rintro rfl
        revert hhead
        decide
      · rintro rfl
        revert hhead
        decide
  | null => exact ⟨_, _, rfl, by decide, by decide⟩
  | true => exact ⟨_, _, rfl, by decide, by decide⟩
  | false => exact ⟨_, _, rfl, by decide, by decide⟩
  | str _ => exact ⟨_, _, rfl, by decide, by decide⟩
  | arr _ _ => exact ⟨_, _, rfl, by decide, by decide⟩
  | obj _ _ _ => exact ⟨_, _, rfl, by decide, by decide⟩

theorem reads_of_text {v : Json} {cs : List Char} (h : Text v cs) :
    ∀ {fuel : Nat}, cs.length < fuel → Reads (readValue fuel) v cs := by
  induction h with
  | null | true | false =>
      intro fuel hfuel rest _
      obtain ⟨fuel, rfl⟩ := Nat.exists_eq_succ_of_ne_zero (by omega : fuel ≠ 0)
      rfl
  | int n =>
      intro fuel hfuel rest hrest
      obtain ⟨fuel, rfl⟩ := Nat.exists_eq_succ_of_ne_zero (by omega : fuel ≠ 0)
      rw [readValue, readInt_decimal n hrest]
      · rfl
      all_goals exact fun _ heq => decimal_append_ne (by decide) (by decide) heq
  | @str s cs hs =>
      intro fuel hfuel rest _
      obtain ⟨fuel, rfl⟩ := Nat.exists_eq_succ_of_ne_zero (by omega : fuel ≠ 0)
      have hlen : cs.length < fuel := by
        simp only [quote, List.length_append, List.length_cons, List.length_nil] at hfuel
        omega
      have hread := readChars_of_charsText hs rest hlen
      have htext : quote cs ++ rest = '"' :: (cs ++ '"' :: rest) := by simp [quote]
      rw [htext, readValue, hread]
      simp
  | @arr items ts hlen htexts ih =>
      intro fuel hfuel rest _
      obtain ⟨fuel, rfl⟩ := Nat.exists_eq_succ_of_ne_zero (by omega : fuel ≠ 0)
      simp only [List.length_append, List.length_cons, List.length_nil] at hfuel
      have hitems : ∀ t ∈ ts, ∃ x xs, t = x :: xs ∧ x ≠ ']' := by
        intro t ht
        obtain ⟨v, hv⟩ := exists_mem_zip hlen ht
        obtain ⟨x, xs, hx, hne, _⟩ := (htexts _ hv).head
        exact ⟨x, xs, hx, hne⟩
      have hcount : ts.length ≤ (commaSep ts).length := by
        apply length_le_commaSep
        intro t ht
        obtain ⟨x, xs, rfl, _⟩ := hitems t ht
        exact List.cons_ne_nil x xs
      have hreads : ∀ e ∈ items.zip ts, Reads (readValue fuel) e.1 e.2 := by
        intro e he
        have hle := length_le_of_mem_commaSep e.2 (List.of_mem_zip he).2
        exact ih e he (by omega)
      have hread : readItems (readValue fuel) ']' fuel (commaSep ts ++ ']' :: rest) = some (items, rest) :=
        readItems_of_reads (by decide) (by decide) hlen hreads hitems (by omega) rest
      have htext : '[' :: commaSep ts ++ [']'] ++ rest = '[' :: (commaSep ts ++ ']' :: rest) := by simp
      rw [htext, readValue, hread]
      rfl
  | @obj members ts hlen hkeys _ ih =>
      intro fuel hfuel rest _
      obtain ⟨fuel, rfl⟩ := Nat.exists_eq_succ_of_ne_zero (by omega : fuel ≠ 0)
      simp only [List.length_append, List.length_cons, List.length_nil] at hfuel
      have hitems : ∀ t ∈ ts.map memberText, ∃ x xs, t = x :: xs ∧ x ≠ '\x7d' := by
        intro t ht
        obtain ⟨u, _, rfl⟩ := List.mem_map.mp ht
        exact ⟨'"', _, rfl, by decide⟩
      have hcount : (ts.map memberText).length ≤ (commaSep (ts.map memberText)).length := by
        apply length_le_commaSep
        intro t ht
        obtain ⟨x, xs, rfl, _⟩ := hitems t ht
        exact List.cons_ne_nil x xs
      have hreads : ∀ e ∈ members.zip (ts.map memberText), Reads (readMember (readValue fuel) fuel) e.1 e.2 := by
        intro e he
        rw [List.zip_map_right] at he
        obtain ⟨m, hm, rfl⟩ := List.mem_map.mp he
        have hmem : memberText m.2 ∈ ts.map memberText := List.mem_map_of_mem (List.of_mem_zip hm).2
        have hle := length_le_of_mem_commaSep _ hmem
        simp only [memberText, quote, List.length_append, List.length_cons, List.length_nil] at hle
        exact reads_member (hkeys m hm) (by omega) (ih m hm (by omega))
      have hread : readItems (readMember (readValue fuel) fuel) '\x7d' fuel
          (commaSep (ts.map memberText) ++ '\x7d' :: rest) = some (members, rest) :=
        readItems_of_reads (by decide) (by decide) (by rw [List.length_map, hlen]) hreads hitems (by omega) rest
      have htext : '\x7b' :: commaSep (ts.map memberText) ++ ['\x7d'] ++ rest =
          '\x7b' :: (commaSep (ts.map memberText) ++ '\x7d' :: rest) := by simp
      rw [htext, readValue, hread]
      rfl

theorem compact_standard (depth : Nat) : compact.Standard depth where
  writes v _ := ⟨_, rfl, by simpa using text_writeValue v⟩
  reads v text _ h := by
    have hread := reads_of_text h (Nat.lt_succ_self _) [] (by simp [Ends])
    rw [List.append_nil] at hread
    simp only [compact]
    rw [← String.length_toList, hread]

end JsonText
