import Sudix.Policy
import Sudix.QuotedJoin
import Sudix.Wire

/-! The text a command is shown as. Tokens with whitespace stand between quotes and nothing is escaped,
so a text can be that of several commands; the commands that are alone with their text are characterized
exactly. -/

namespace Sudix

open QuotedJoin

/-- Join argv into a display string. -/
def shellJoin (argv : List String) : String :=
  " ".intercalate (argv.map fun a =>
    if a.isEmpty || a.toList.any isWhitespace then "\"" ++ a ++ "\"" else a)

/-- Some policy allows the argv. -/
def Allowable (argv : List String) : Prop := ∃ (p : Policy) (i : Nat), p.evaluate argv = .allowed i

def dialogQuoting : Quoting Char := ⟨' ', '"', isWhitespace, by decide, by decide⟩

/-- No token is empty or `""`, none that is quoted or begins with a quote stands before one that is
quoted or ends with a quote, and none that is quoted can be cut at a space. -/
def UnambiguousDisplay (argv : List String) : Prop := dialogQuoting.Unambiguous (argv.map String.toList)

instance (argv : List String) : Decidable (UnambiguousDisplay argv) :=
  inferInstanceAs (Decidable (dialogQuoting.Unambiguous (argv.map String.toList)))

variable {argv argv' : List String}

/-- Exactly the non-empty argvs without control characters can be allowed: the rule of a single `rest`
allows them all. -/
theorem allowable_iff : Allowable argv ↔ argv ≠ [] ∧ hasControlChar argv = false := by
  constructor
  · rintro ⟨p, i, h⟩
    exact Policy.evaluate_allowed h
  · rintro ⟨hne, hcontrol⟩
    refine ⟨⟨[], [⟨[.rest], List.cons_ne_nil _ _, rfl⟩]⟩, 0, ?_⟩
    simp [Policy.evaluate, hne, hcontrol, Rule.isMatch, isMatchFrom]

/-- A token is shown as the quoting of its characters. -/
theorem toList_shown (a : String) :
    (if a.isEmpty || a.toList.any isWhitespace then "\"" ++ a ++ "\"" else a).toList =
      dialogQuoting.shown a.toList := by
  have hempty : a.isEmpty = a.toList.isEmpty := by
    rw [Bool.eq_iff_iff]
    simp
  rw [Quoting.shown, Quoting.plain, hempty, ← Bool.not_or]
  cases h : a.toList.isEmpty || a.toList.any isWhitespace with
  | true =>
      rw [if_pos rfl, if_neg (by simp [dialogQuoting, h]), String.toList_append, String.toList_append]
      rfl
  | false => rw [if_neg (by simp), if_pos (by simp [dialogQuoting, h])]

theorem toList_shellJoin : (shellJoin argv).toList = dialogQuoting.joined (argv.map String.toList) := by
  rw [shellJoin, String.toList_intercalate, Quoting.joined, List.map_map, List.map_map]
  congr 1
  exact List.map_congr_left fun a _ => toList_shown a

/-- A byte that `hasControlChar` looks for. -/
def controlByte (b : UInt8) : Bool := b < 0x20 || b == 0x7f

theorem any_controlByte_shown (a : String) :
    (utf8 (if a.isEmpty || a.toList.any isWhitespace then "\"" ++ a ++ "\"" else a)).any controlByte =
      (utf8 a).any controlByte := by
  have hquote : (utf8 "\"").any controlByte = false := by decide
  split
  · rw [utf8_append, utf8_append, List.any_append, List.any_append, hquote, Bool.false_or, Bool.or_false]
  · rfl

/-- The control characters of the text are those of the tokens: a quote or a space is none. -/
theorem any_controlByte_shellJoin : (utf8 (shellJoin argv)).any controlByte = hasControlChar argv := by
  have hspace : (utf8 " ").any controlByte = false := by decide
  induction argv with
  | nil => decide
  | cons a argv ih =>
      have hcons : hasControlChar (a :: argv) = ((utf8 a).any controlByte || hasControlChar argv) := rfl
      cases argv with
      | nil =>
          rw [hcons, shellJoin, List.map_singleton, String.intercalate_singleton, any_controlByte_shown]
          exact (Bool.or_false _).symm
      | cons b argv =>
          rw [shellJoin, List.map_cons] at ih
          rw [hcons, ← ih, shellJoin, List.map_cons, List.map_cons, String.intercalate_cons_cons,
            utf8_append, utf8_append, List.any_append, List.any_append, any_controlByte_shown, hspace,
            Bool.or_false]

theorem Allowable.of_shellJoin (h : Allowable argv) (hne : argv' ≠ [])
    (heq : shellJoin argv' = shellJoin argv) : Allowable argv' := by
  refine allowable_iff.mpr ⟨hne, ?_⟩
  rw [← any_controlByte_shellJoin, heq, any_controlByte_shellJoin, (allowable_iff.mp h).2]

/-- **One text, one command.** An argv that can be allowed is the only one shown as its text if and only
if its display is unambiguous. -/
theorem shellJoin_determines_iff (h : Allowable argv) :
    (∀ argv', Allowable argv' → shellJoin argv = shellJoin argv' → argv = argv') ↔
      UnambiguousDisplay argv := by
  have hne : argv.map String.toList ≠ [] := by simpa using (allowable_iff.mp h).1
  rw [UnambiguousDisplay, Quoting.unambiguous_iff hne]
  constructor
  · intro hdetermines tokens htokens heq
    have hlists : (tokens.map String.ofList).map String.toList = tokens := by
      simp [Function.comp_def]
    have hsame : shellJoin (tokens.map String.ofList) = shellJoin argv := by
      rw [← String.toList_inj, toList_shellJoin, toList_shellJoin, hlists, heq]
    rw [hdetermines _ (h.of_shellJoin (by simpa using htokens) hsame) hsame.symm, hlists]
  · intro honly argv' hargv' heq
    have hjoined := congrArg String.toList heq
    rw [toList_shellJoin, toList_shellJoin] at hjoined
    have hne' : argv'.map String.toList ≠ [] := by simpa using (allowable_iff.mp hargv').1
    have hlists := honly _ hne' hjoined.symm
    exact (List.map_inj_right fun _ _ => String.toList_inj.mp).mp hlists.symm

/-- Between two spaces there is an empty word, which is no token: no cut is possible. -/
theorem shellJoin_double_space :
    UnambiguousDisplay ["echo", "hello  world", "plain"] ∧
      ∀ argv', Allowable argv' → shellJoin ["echo", "hello  world", "plain"] = shellJoin argv' →
        ["echo", "hello  world", "plain"] = argv' := by
  have hargv : Allowable ["echo", "hello  world", "plain"] := allowable_iff.mpr (by decide)
  have hdisplay : UnambiguousDisplay ["echo", "hello  world", "plain"] := by decide +kernel
  exact ⟨hdisplay, (shellJoin_determines_iff hargv).mpr hdisplay⟩

/-- The text `echo "hello world" plain` is that of three tokens and of four. -/
theorem shellJoin_not_injective :
    ¬ ∀ argv argv', Allowable argv → Allowable argv' → shellJoin argv = shellJoin argv' → argv = argv' := by
  intro h
  have hargv : Allowable ["echo", "hello world", "plain"] := allowable_iff.mpr (by decide)
  have hargv' : Allowable ["echo", "\"hello", "world\"", "plain"] := allowable_iff.mpr (by decide)
  exact absurd (h _ _ hargv hargv' (by decide +kernel)) (by decide)

end Sudix
