import Mathlib.Data.List.Basic

/-! Command lines that start with options, each a key followed by its value. Every list of tokens is the
spelling of some options and a rest that no option starts, and a reader that takes one option at a time takes
them all. -/

namespace OptionPairs

variable {κ τ σ ρ : Type} {accepts : τ → Prop}

/-- An option with a value that may stand for one. -/
structure Pair (κ : Type) {τ : Type} (accepts : τ → Prop) where
  key : κ
  value : τ
  accepted : accepts value

/-- The tokens of some options. -/
def spell (text : κ → τ) (options : List (Pair κ accepts)) : List τ :=
  options.flatMap fun option => [text option.key, option.value]

/-- No option starts the tokens. -/
def Stops (text : κ → τ) (accepts : τ → Prop) (tokens : List τ) : Prop :=
  ∀ key value later, tokens = text key :: value :: later → ¬ accepts value

variable {text : κ → τ} {options : List (Pair κ accepts)}

@[simp] theorem spell_nil : spell text ([] : List (Pair κ accepts)) = [] := rfl

@[simp] theorem spell_cons (option : Pair κ accepts) :
    spell text (option :: options) = text option.key :: option.value :: spell text options := rfl

/-- Every list of tokens is some options and a rest. -/
theorem exists_spell (text : κ → τ) (accepts : τ → Prop) (tokens : List τ) :
    ∃ (options : List (Pair κ accepts)) (rest : List τ),
      tokens = spell text options ++ rest ∧ Stops text accepts rest := by
  induction hlen : tokens.length using Nat.strongRecOn generalizing tokens with
  | ind len ih =>
      by_cases hstops : Stops text accepts tokens
      · exact ⟨[], tokens, rfl, hstops⟩
      · unfold Stops at hstops
        push Not at hstops
        obtain ⟨key, value, later, rfl, haccepts⟩ := hstops
        have hshorter : later.length < len := by
          simp only [List.length_cons] at hlen
          omega
        obtain ⟨options, rest, rfl, hrest⟩ := ih later.length hshorter later rfl
        exact ⟨⟨key, value, haccepts⟩ :: options, rest, rfl, hrest⟩

/-- **A reader that takes one option takes them all.** -/
theorem read_spell (text : κ → τ) (read : σ → List τ → ρ) (take : σ → Pair κ accepts → σ)
    (hread : ∀ state option later,
      read state (text option.key :: option.value :: later) = read (take state option) later)
    (options : List (Pair κ accepts)) (state : σ) (rest : List τ) :
    read state (spell text options ++ rest) = read (options.foldl take state) rest := by
  induction options generalizing state with
  | nil => rfl
  | cons option options ih =>
      rw [spell_cons, List.cons_append, List.cons_append, hread, ih]
      rfl

section

variable [DecidableEq κ]

/-- The value of the last option with a key. -/
def lastValue (key : κ) (options : List (Pair κ accepts)) : Option τ :=
  ((options.filter fun option => option.key = key).map Pair.value).getLast?

theorem lastValue_cons (key : κ) (option : Pair κ accepts) :
    lastValue key (option :: options) =
      (lastValue key options).or (if option.key = key then some option.value else none) := by
  unfold lastValue
  by_cases hkey : option.key = key
  · rw [List.filter_cons_of_pos (by simpa using hkey), List.map_cons, List.getLast?_cons, if_pos hkey]
    cases ((options.filter fun option => option.key = key).map Pair.value).getLast? <;> rfl
  · rw [List.filter_cons_of_neg (by simpa using hkey), if_neg hkey, Option.or_none]

end

end OptionPairs
