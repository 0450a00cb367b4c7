import Mathlib.Algebra.Group.Int.Defs
import Mathlib.Algebra.Group.Nat.Defs
import Mathlib.Data.List.Basic

/-! JSON texts. `Text v cs` says that `cs` is a text of the value `v` without blanks between tokens:
integers in decimal, and every character of a string in any of the ways the standard has for it. A
library is a writer and a reader of such texts. -/

namespace JsonText

/-- The members of an object stand in the order of the text. Of the numbers only the integers are here. -/
inductive Json where
  | null
  | bool (b : Bool)
  | int (n : Int)
  | str (s : String)
  | arr (items : List Json)
  | obj (members : List (String × Json))

/-- The values of limited depth, with the integers of 64 bits. -/
def Json.Fits : Nat → Json → Prop
  | _, .null | _, .bool _ | _, .str _ => True
  | _, .int n => -2 ^ 63 ≤ n ∧ n < 2 ^ 64
  | 0, .arr _ | 0, .obj _ => False
  | depth + 1, .arr items => ∀ v ∈ items, Json.Fits depth v
  | depth + 1, .obj members => ∀ m ∈ members, Json.Fits depth m.2

/-- The escapes of two characters: the second of them, and the character it stands for. -/
def escapes : List (Char × Char) :=
  [('"', '"'), ('\\', '\\'), ('/', '/'), ('b', '\x08'), ('f', '\x0c'), ('n', '\n'), ('r', '\r'), ('t', '\t')]

def hexVal (c : Char) : Option Nat :=
  if '0' ≤ c ∧ c ≤ '9' then some (c.toNat - 48)
  else if 'a' ≤ c ∧ c ≤ 'f' then some (c.toNat - 87)
  else if 'A' ≤ c ∧ c ≤ 'F' then some (c.toNat - 55)
  else none

/-- The UTF-16 code unit with these hexadecimal digits. -/
def hexCode (ds : List Char) : Option Nat := ds.foldlM (fun n d => (hexVal d).map (16 * n + ·)) 0

def HighSurrogate (n : Nat) : Prop := 0xD800 ≤ n ∧ n < 0xDC00

def LowSurrogate (n : Nat) : Prop := 0xDC00 ≤ n ∧ n < 0xE000

instance (n : Nat) : Decidable (HighSurrogate n) := inferInstanceAs (Decidable (_ ∧ _))

instance (n : Nat) : Decidable (LowSurrogate n) := inferInstanceAs (Decidable (_ ∧ _))

/-- The code point of a surrogate pair. -/
def pairCode (hi lo : Nat) : Nat := 0x10000 + (hi - 0xD800) * 0x400 + (lo - 0xDC00)

/-- A character inside a string, and what may be written for it. -/
inductive CharText : Char → List Char → Prop
  | verbatim {c} : 0x20 ≤ c.toNat → c ≠ '"' → c ≠ '\\' → CharText c [c]
  | escape {e c} : (e, c) ∈ escapes → CharText c ['\\', e]
  | code {c ds} : ds.length = 4 → hexCode ds = some c.toNat → CharText c ('\\' :: 'u' :: ds)
  | pair {c hs ls hi lo} : hs.length = 4 → hexCode hs = some hi → HighSurrogate hi →
      ls.length = 4 → hexCode ls = some lo → LowSurrogate lo → c.toNat = pairCode hi lo →
      CharText c ('\\' :: 'u' :: hs ++ '\\' :: 'u' :: ls)

/-- The characters of a string, written one after the other. -/
inductive CharsText : List Char → List Char → Prop
  | nil : CharsText [] []
  | cons {c t cs ts} : CharText c t → CharsText cs ts → CharsText (c :: cs) (t ++ ts)

def quote (cs : List Char) : List Char := '"' :: cs ++ ['"']

def commaSep : List (List Char) → List Char
  | [] => []
  | t :: ts => t ++ ts.flatMap (',' :: ·)

def decimal : Int → List Char
  | .ofNat n => Nat.toDigits 10 n
  | .negSucc n => '-' :: Nat.toDigits 10 (n + 1)

/-- A member, from the texts of its name and its value. -/
def memberText (t : List Char × List Char) : List Char := quote t.1 ++ ':' :: t.2

inductive Text : Json → List Char → Prop
  | null : Text .null ['n', 'u', 'l', 'l']
  | true : Text (.bool true) ['t', 'r', 'u', 'e']
  | false : Text (.bool false) ['f', 'a', 'l', 's', 'e']
  | int (n : Int) : Text (.int n) (decimal n)
  | str {s cs} : CharsText s.toList cs → Text (.str s) (quote cs)
  | arr {items : List Json} {ts : List (List Char)} : ts.length = items.length →
      (∀ e ∈ items.zip ts, Text e.1 e.2) → Text (.arr items) ('[' :: commaSep ts ++ [']'])
  | obj {members : List (String × Json)} {ts : List (List Char × List Char)} : ts.length = members.length →
      (∀ e ∈ members.zip ts, CharsText e.1.1.toList e.2.1) → (∀ e ∈ members.zip ts, Text e.1.2 e.2.2) →
      Text (.obj members) ('\x7b' :: commaSep (ts.map memberText) ++ ['\x7d'])

theorem printable_of_hexVal {d : Char} {n : Nat} (h : hexVal d = some n) : 0x20 ≤ d.toNat := by
  unfold hexVal at h
  have hle : ∀ {a b : Char}, a ≤ b → a.toNat ≤ b.toNat := fun h => h
  split_ifs at h with hdigit hlower hupper
  · exact Nat.le_trans (by decide) (hle hdigit.1)
  · exact Nat.le_trans (by decide) (hle hlower.1)
  · exact Nat.le_trans (by decide) (hle hupper.1)

theorem printable_of_hexCode {ds : List Char} {n : Nat} (h : hexCode ds = some n) :
    ∀ d ∈ ds, 0x20 ≤ d.toNat := by
  suffices hfold : ∀ m, ds.foldlM (fun n d => (hexVal d).map (16 * n + ·)) m = some n →
      ∀ d ∈ ds, 0x20 ≤ d.toNat from hfold 0 h
  clear h
  induction ds with
  | nil => simp
  | cons d ds ih =>
      intro m h
      rw [List.foldlM_cons] at h
      cases hd : hexVal d with
      | none =>
          rw [hd] at h
          cases h
      | some k =>
          rw [hd] at h
          exact List.forall_mem_cons.mpr ⟨printable_of_hexVal hd, ih _ h⟩

theorem CharText.printable {c : Char} {t : List Char} (h : CharText c t) : ∀ x ∈ t, 0x20 ≤ x.toNat := by
  have hback : 0x20 ≤ '\\'.toNat := by decide
  have hu : 0x20 ≤ 'u'.toNat := by decide
  have hescapes : ∀ p ∈ escapes, 0x20 ≤ p.1.toNat := by decide
  cases h with
  | verbatim hc => simpa using hc
  | escape h => simpa [hback] using hescapes _ h
  | code _ hcode => simpa [hback, hu] using printable_of_hexCode hcode
  | pair _ hhi _ _ hlo =>
      intro x hx
      simp only [List.cons_append, List.mem_cons, List.mem_append] at hx
      rcases hx with rfl | rfl | hx | rfl | rfl | hx
      · exact hback
      · exact hu
      · exact printable_of_hexCode hhi x hx
      · exact hback
      · exact hu
      · exact printable_of_hexCode hlo x hx

theorem CharsText.printable {cs ts : List Char} (h : CharsText cs ts) : ∀ x ∈ ts, 0x20 ≤ x.toNat := by
  induction h with
  | nil => simp
  | cons hc _ ih =>
      intro x hx
      exact (List.mem_append.mp hx).elim (hc.printable x) (ih x)

theorem printable_quote {cs : List Char} (h : ∀ x ∈ cs, 0x20 ≤ x.toNat) : ∀ x ∈ quote cs, 0x20 ≤ x.toNat := by
  have hquote : 0x20 ≤ '"'.toNat := by decide
  simpa [quote, or_imp, forall_and, hquote] using h

theorem printable_decimal (n : Int) : ∀ x ∈ decimal n, 0x20 ≤ x.toNat := by
  have hdigits : ∀ n : Nat, ∀ x ∈ Nat.toDigits 10 n, 0x20 ≤ x.toNat := by
    intro n x hx
    have hdigit := Nat.isDigit_of_mem_toDigits (by decide) (by decide) hx
    simp only [Char.isDigit, Bool.and_eq_true, decide_eq_true_eq] at hdigit
    exact Nat.le_trans (by decide) (show (48 : UInt32).toNat ≤ x.val.toNat from hdigit.1)
  cases n with
  | ofNat n => exact hdigits n
  | negSucc n =>
      have hminus : 0x20 ≤ '-'.toNat := by decide
      exact List.forall_mem_cons.mpr ⟨hminus, hdigits _⟩

theorem mem_commaSep {x : Char} {ts : List (List Char)} (h : x ∈ commaSep ts) : x = ',' ∨ ∃ t ∈ ts, x ∈ t := by
  cases ts with
  | nil => cases h
  | cons t ts =>
      simp only [commaSep, List.mem_append, List.mem_flatMap, List.mem_cons] at h
      rcases h with hx | ⟨u, hu, rfl | hx⟩
      · exact .inr ⟨t, List.mem_cons_self, hx⟩
      · exact .inl rfl
      · exact .inr ⟨u, List.mem_cons_of_mem _ hu, hx⟩

/-- The second components of the pairs of two lists of one length are all of the second list. -/
theorem exists_mem_zip {α β : Type} {as : List α} {bs : List β} (hlen : bs.length = as.length) {b : β}
    (hb : b ∈ bs) : ∃ a, (a, b) ∈ as.zip bs := by
  obtain ⟨i, hi, rfl⟩ := List.mem_iff_getElem.mp hb
  refine ⟨as[i], List.mem_iff_getElem.mpr ⟨i, ?_, ?_⟩⟩
  · rw [List.length_zip]
    omega
  · exact List.getElem_zip

theorem Text.printable {v : Json} {cs : List Char} (h : Text v cs) : ∀ x ∈ cs, 0x20 ≤ x.toNat := by
  have hcomma : 0x20 ≤ ','.toNat := by decide
  have hcolon : 0x20 ≤ ':'.toNat := by decide
  induction h with
  | null => simp
  | true => simp
  | false => simp
  | int n => exact printable_decimal n
  | str hs => exact printable_quote hs.printable
  | @arr items ts hlen _ ih =>
      have hopen : 0x20 ≤ '['.toNat := by decide
      have hclose : 0x20 ≤ ']'.toNat := by decide
      have hitems : ∀ x ∈ commaSep ts, 0x20 ≤ x.toNat := by
        intro x hx
        obtain rfl | ⟨t, ht, hx⟩ := mem_commaSep hx
        · exact hcomma
        · obtain ⟨v, hv⟩ := exists_mem_zip hlen ht
          exact ih _ hv x hx
      simpa [or_imp, forall_and, hopen, hclose] using hitems
  | @obj members ts hlen hkeys _ ih =>
      have hopen : 0x20 ≤ '\x7b'.toNat := by decide
      have hclose : 0x20 ≤ '\x7d'.toNat := by decide
      have hmembers : ∀ x ∈ commaSep (ts.map memberText), 0x20 ≤ x.toNat := by
        intro x hx
        obtain rfl | ⟨t, ht, hx⟩ := mem_commaSep hx
        · exact hcomma
        · obtain ⟨u, hu, rfl⟩ := List.mem_map.mp ht
          obtain ⟨m, hm⟩ := exists_mem_zip hlen hu
          rcases List.mem_append.mp hx with hx | hx
          · exact printable_quote (hkeys _ hm).printable x hx
          · rcases List.mem_cons.mp hx with rfl | hx
            · exact hcolon
            · exact ih _ hm x hx
      simpa [or_imp, forall_and, hopen, hclose] using hmembers

theorem Text.object_last {members : List (String × Json)} {cs : List Char} (h : Text (.obj members) cs) :
    ∃ body, cs = body ++ ['\x7d'] := by
  cases h with
  | obj _ _ _ => exact ⟨_, rfl⟩

structure Codec where
  write : Json → Except String String
  read : String → Except String Json

/-- What is written and what is read, of the values down to a depth. -/
structure Codec.Standard (C : Codec) (depth : Nat) : Prop where
  writes : ∀ v : Json, v.Fits depth → ∃ text, C.write v = .ok text ∧ Text v text.toList
  reads : ∀ (v : Json) (text : String), v.Fits depth → Text v text.toList → C.read text = .ok v

end JsonText
