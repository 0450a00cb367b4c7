import Mathlib.Data.List.Forall2
import Sudix.Policy

/-! What a policy means, said without the loops: which argvs a rule covers, and that an argv is
allowed by the first rule that covers it when no deny rule does. A rule of literals covers its own
words when its program is a plain name, and only then. -/

namespace Sudix

/-- The command line as a rule sees it: the program by its basename, the other tokens verbatim. -/
def seen : List String → List String
  | [] => []
  | program :: args => basename program :: args

/-- One token satisfies one matcher. -/
def TokenMatcher.Accepts : TokenMatcher → String → Prop
  | .literal s, tok => tok = s
  | .regex re _, tok => re tok = true
  | .rest, _ => True

/-- Matchers cover tokens: one for one, or all but a last `rest` one for one and any tokens after. -/
def CoversTokens (ms : List TokenMatcher) (toks : List String) : Prop :=
  (TokenMatcher.rest ∉ ms ∧ toks.length = ms.length ∧ List.Forall₂ TokenMatcher.Accepts ms toks) ∨
    (ms.getLast? = some .rest ∧ ms.length - 1 ≤ toks.length ∧
      List.Forall₂ TokenMatcher.Accepts ms.dropLast (toks.take (ms.length - 1)))

def Rule.Covers (r : Rule) (argv : List String) : Prop := CoversTokens r.matchers (seen argv)

theorem seen_length (argv : List String) : (seen argv).length = argv.length := by
  cases argv with
  | nil => rfl
  | cons program args => rfl

theorem getElem_seen {argv : List String} {i : Nat} (h : i < (seen argv).length) :
    (seen argv)[i] = effective argv i := by
  cases argv with
  | nil => exact absurd h (Nat.not_lt_zero i)
  | cons program args =>
      cases i with
      | zero => rfl
      | succ i =>
          have hi : i < args.length := Nat.lt_of_succ_lt_succ h
          simp [seen, effective, hi]

/-- The tokens from a position on are the one the loop looks at and those after it. -/
theorem drop_seen {argv : List String} {i : Nat} (h : i < argv.length) :
    (seen argv).drop i = effective argv i :: (seen argv).drop (i + 1) := by
  have hi : i < (seen argv).length := by rwa [seen_length]
  rw [List.drop_eq_getElem_cons hi, getElem_seen hi]

theorem Rule.matchers_of_new {ms : List TokenMatcher} {r : Rule} (h : Rule.new ms = .ok r) :
    r.matchers = ms := by
  unfold Rule.new at h
  split at h
  · cases h
  · split at h
    · cases h
      rfl
    · cases h

theorem coversTokens_nil {toks : List String} : CoversTokens [] toks ↔ toks = [] := by
  constructor
  · rintro (⟨-, hlen, -⟩ | ⟨hlast, -⟩)
    · exact List.length_eq_zero_iff.mp hlen
    · cases hlast
  · rintro rfl
    exact .inl ⟨List.not_mem_nil, rfl, .nil⟩

theorem coversTokens_rest {toks : List String} : CoversTokens [.rest] toks :=
  .inr ⟨rfl, Nat.zero_le _, .nil⟩

theorem not_coversTokens_nil {m : TokenMatcher} {ms : List TokenMatcher} (hm : m.isRest = false) :
    ¬CoversTokens (m :: ms) [] := by
  rintro (⟨-, hlen, -⟩ | ⟨hlast, hlen, -⟩)
  · cases hlen
  · cases ms with
    | nil =>
        cases hlast
        cases hm
    | cons m' ms => cases hlen

/-- A matcher that is not `rest` takes one token. -/
theorem coversTokens_cons {m : TokenMatcher} {ms : List TokenMatcher} {tok : String} {toks : List String}
    (hm : m.isRest = false) :
    CoversTokens (m :: ms) (tok :: toks) ↔ m.Accepts tok ∧ CoversTokens ms toks := by
  have hne : m ≠ .rest := by
    rintro rfl
    cases hm
  cases ms with
  | nil =>
      rw [coversTokens_nil]
      constructor
      · rintro (⟨-, -, hall⟩ | ⟨hlast, -⟩)
        · obtain ⟨hacc, htail⟩ := List.forall₂_cons.mp hall
          exact ⟨hacc, List.forall₂_nil_left_iff.mp htail⟩
        · exact absurd (Option.some.inj hlast) hne
      · rintro ⟨hacc, rfl⟩
        exact .inl ⟨by simpa using hne.symm, rfl, .cons hacc .nil⟩
  | cons m' ms =>
      constructor
      · rintro (⟨hrest, hlen, hall⟩ | ⟨hlast, hlen, hall⟩)
        · obtain ⟨hacc, htail⟩ := List.forall₂_cons.mp hall
          exact ⟨hacc, .inl ⟨fun h => hrest (List.mem_cons_of_mem m h), Nat.succ.inj hlen, htail⟩⟩
        · obtain ⟨hacc, htail⟩ := List.forall₂_cons.mp hall
          refine ⟨hacc, .inr ⟨by simpa using hlast, ?_, htail⟩⟩
          simp only [List.length_cons] at hlen ⊢
          omega
      · rintro ⟨hacc, ⟨hrest, hlen, hall⟩ | ⟨hlast, hlen, hall⟩⟩
        · refine .inl ⟨?_, congrArg Nat.succ hlen, .cons hacc hall⟩
          rw [List.mem_cons, not_or]
          exact ⟨hne.symm, hrest⟩
        · refine .inr ⟨by simpa using hlast, ?_, .cons hacc hall⟩
          simp only [List.length_cons] at hlen ⊢
          omega

theorem restOnlyLast_tail {m : TokenMatcher} {ms : List TokenMatcher} (h : restOnlyLast (m :: ms) = true) :
    restOnlyLast ms = true := by
  cases ms with
  | nil => rfl
  | cons m' ms => exact (Bool.and_eq_true_iff.mp h).2

theorem restOnlyLast_rest {ms : List TokenMatcher} (h : restOnlyLast (.rest :: ms) = true) : ms = [] := by
  cases ms with
  | nil => rfl
  | cons m' ms => cases (Bool.and_eq_true_iff.mp h).1

/-- What the loop does with a matcher that takes one token: it stops when there is none left, or when
the token does not satisfy the matcher, and otherwise goes on. -/
theorem isMatchFrom_cons {argv : List String} {m : TokenMatcher} {ms : List TokenMatcher} {i : Nat}
    (hm : m.isRest = false) :
    isMatchFrom argv (m :: ms) i = true ↔
      i < argv.length ∧ m.Accepts (effective argv i) ∧ isMatchFrom argv ms (i + 1) = true := by
  cases m with
  | literal s => simp [isMatchFrom, TokenMatcher.Accepts]
  | regex re src => simp [isMatchFrom, TokenMatcher.Accepts]
  | rest => cases hm

/-- The loop, started at any position, decides whether the matchers left cover the tokens left. -/
theorem isMatchFrom_iff {argv : List String} {ms : List TokenMatcher} {i : Nat}
    (hms : restOnlyLast ms = true) (hi : i ≤ argv.length) :
    isMatchFrom argv ms i = true ↔ CoversTokens ms ((seen argv).drop i) := by
  induction ms generalizing i with
  | nil =>
      have hlen : (seen argv).drop i = [] ↔ argv.length ≤ i := by
        rw [List.drop_eq_nil_iff, seen_length]
      rw [coversTokens_nil, hlen, isMatchFrom, beq_iff_eq]
      omega
  | cons m ms ih =>
      cases hm : m.isRest with
      | true =>
          cases m with
          | rest =>
              obtain rfl := restOnlyLast_rest hms
              exact iff_of_true rfl coversTokens_rest
          | literal s => cases hm
          | regex re src => cases hm
      | false =>
          rw [isMatchFrom_cons hm]
          by_cases hlt : i < argv.length
          · rw [drop_seen hlt, coversTokens_cons hm, ih (restOnlyLast_tail hms) hlt]
            exact and_iff_right hlt
          · have hnil : (seen argv).drop i = [] := by
              rw [List.drop_eq_nil_iff, seen_length]
              omega
            rw [hnil]
            exact iff_of_false (fun h => hlt h.1) (not_coversTokens_nil hm)

theorem Rule.isMatch_iff_covers (r : Rule) (argv : List String) : r.isMatch argv = true ↔ r.Covers argv :=
  isMatchFrom_iff r.restLast (Nat.zero_le _)

/-- What `has_control_char` looks for. -/
def ControlFree (argv : List String) : Prop :=
  ∀ tok ∈ argv, ∀ b ∈ utf8 tok, ¬(b < 0x20 ∨ b = 0x7f)

theorem hasControlChar_eq_false_iff (argv : List String) : hasControlChar argv = false ↔ ControlFree argv := by
  simp [hasControlChar, ControlFree]

/-- The policy grants an argv by its `i`-th allow rule: the argv is well formed, no deny rule covers
it, and this is the first allow rule that does. -/
structure Policy.Grants (p : Policy) (argv : List String) (i : Nat) : Prop where
  nonempty : argv ≠ []
  controlFree : ControlFree argv
  notDenied : ∀ r ∈ p.deny, ¬r.Covers argv
  covered : ∃ h : i < p.allow.length, p.allow[i].Covers argv
  first : ∀ j (h : j < p.allow.length), j < i → ¬p.allow[j].Covers argv

theorem denyFind_eq_none_iff {rules : List Rule} {argv : List String} :
    rules.zipIdx.find? (fun ri => ri.1.isMatch argv) = none ↔ ∀ r ∈ rules, ¬r.Covers argv := by
  simp only [List.find?_eq_none, Rule.isMatch_iff_covers]
  constructor
  · intro h r hr
    obtain ⟨i, hi, rfl⟩ := List.mem_iff_getElem.mp hr
    exact h (rules[i], i) (List.mk_mem_zipIdx_iff_getElem?.mpr (List.getElem?_eq_getElem hi))
  · rintro h ⟨r, i⟩ hri
    exact h r (List.mem_of_getElem? (List.mk_mem_zipIdx_iff_getElem?.mp hri))

theorem allowPosition_eq_some_iff {rules : List Rule} {argv : List String} {i : Nat} :
    rules.findIdx? (fun r => r.isMatch argv) = some i ↔
      (∃ h : i < rules.length, rules[i].Covers argv) ∧
        ∀ j (h : j < rules.length), j < i → ¬rules[j].Covers argv := by
  simp only [List.findIdx?_eq_some_iff_getElem, Rule.isMatch_iff_covers]
  constructor
  · rintro ⟨hi, hcov, hfirst⟩
    exact ⟨⟨hi, hcov⟩, fun j _ hj => hfirst j hj⟩
  · rintro ⟨⟨hi, hcov⟩, hfirst⟩
    exact ⟨hi, hcov, fun j hj => hfirst j (Nat.lt_trans hj hi) hj⟩

theorem Policy.evaluate_eq_allowed_iff (p : Policy) (argv : List String) (i : Nat) :
    p.evaluate argv = .allowed i ↔ p.Grants argv i := by
  constructor
  · intro h
    obtain ⟨hne, hctl⟩ := Policy.evaluate_allowed h
    have hempty : argv.isEmpty = false := by simpa using hne
    rw [Policy.evaluate, hempty, hctl, if_neg Bool.false_ne_true, if_neg Bool.false_ne_true] at h
    cases hdeny : p.deny.zipIdx.find? (fun ri => ri.1.isMatch argv) with
    | some ri =>
        rw [hdeny] at h
        cases h
    | none =>
        rw [hdeny] at h
        cases hallow : p.allow.findIdx? (fun r => r.isMatch argv) with
        | none =>
            rw [hallow] at h
            cases h
        | some k =>
            rw [hallow] at h
            obtain rfl : k = i := PolicyVerdict.allowed.inj h
            obtain ⟨hcov, hfirst⟩ := allowPosition_eq_some_iff.mp hallow
            exact ⟨hne, (hasControlChar_eq_false_iff argv).mp hctl, denyFind_eq_none_iff.mp hdeny, hcov, hfirst⟩
  · intro h
    have hempty : argv.isEmpty = false := by simpa using h.nonempty
    rw [Policy.evaluate, hempty, (hasControlChar_eq_false_iff argv).mpr h.controlFree,
      denyFind_eq_none_iff.mpr h.notDenied, allowPosition_eq_some_iff.mpr ⟨h.covered, h.first⟩]
    rfl

/-- Evaluation is what the policy means: an argv is allowed by the rule that grants it, and denied
when none does. -/
theorem Policy.evaluate_meaning (deny allow : List Rule) (argv : List String) :
    (∀ i, Policy.evaluate ⟨deny, allow⟩ argv = .allowed i ↔ Policy.Grants ⟨deny, allow⟩ argv i) ∧
      ((∃ reason, Policy.evaluate ⟨deny, allow⟩ argv = .denied reason) ↔
        ∀ i, ¬Policy.Grants ⟨deny, allow⟩ argv i) := by
  refine ⟨Policy.evaluate_eq_allowed_iff _ argv, ?_⟩
  simp only [← Policy.evaluate_eq_allowed_iff]
  cases Policy.evaluate ⟨deny, allow⟩ argv with
  | allowed i => simp
  | denied reason => simp

/-- Matchers that spell out words, with any tokens after them when there is a `rest`. -/
def literalMatchers (words : List String) (rest : Bool) : List TokenMatcher :=
  words.map .literal ++ if rest then [.rest] else []

theorem coversTokens_literals {words : List String} {rest : Bool} {toks : List String} :
    CoversTokens (literalMatchers words rest) toks ↔
      ∃ tail, toks = words ++ tail ∧ (rest = false → tail = []) := by
  induction words generalizing toks with
  | nil =>
      cases rest with
      | true => exact iff_of_true coversTokens_rest ⟨toks, rfl, nofun⟩
      | false =>
          rw [show literalMatchers [] false = [] from rfl, coversTokens_nil]
          constructor
          · rintro rfl
            exact ⟨[], rfl, fun _ => rfl⟩
          · rintro ⟨tail, rfl, htail⟩
            exact htail rfl
  | cons w words ih =>
      cases toks with
      | nil => exact iff_of_false (not_coversTokens_nil rfl) (by simp)
      | cons tok toks =>
          rw [show literalMatchers (w :: words) rest = .literal w :: literalMatchers words rest from rfl,
            coversTokens_cons rfl, ih]
          constructor
          · rintro ⟨rfl, tail, rfl, htail⟩
            exact ⟨tail, rfl, htail⟩
          · rintro ⟨tail, heq, htail⟩
            obtain ⟨rfl, rfl⟩ := List.cons.inj heq
            exact ⟨rfl, tail, rfl, htail⟩

/-- A literal without a slash is its own basename. -/
theorem basename_of_plain {s : String} (h : '/' ∉ s.toList) : basename s = s := by
  unfold basename fileName
  rw [List.splitOn_eq_singleton h]
  by_cases hs : s = "" ∨ s = "."
  · rcases hs with rfl | rfl
    · rfl
    · rfl
  · have hkeep : (s != "" && s != ".") = true := by simpa using hs
    simp only [List.map_cons, List.map_nil, String.ofList_toList, List.filter_cons, hkeep, if_true,
      List.filter_nil, List.getLast?_singleton]
    split
    · rfl
    · rfl

/-- A rule of literals matches its own words exactly when its program is its own basename; a policy
that denies by such a rule never allows the words. -/
theorem Rule.matches_own_literals {program : String} {args : List String} {rest : Bool} {r : Rule}
    {tail : List String} (hr : Rule.new (literalMatchers (program :: args) rest) = .ok r)
    (htail : rest = false → tail = []) :
    (r.isMatch (program :: args ++ tail) = true ↔ basename program = program) ∧
      (basename program = program →
        ∀ p : Policy, r ∈ p.deny → ∀ i, p.evaluate (program :: args ++ tail) ≠ .allowed i) := by
  have hmatch : r.isMatch (program :: args ++ tail) = true ↔ basename program = program := by
    rw [Rule.isMatch_iff_covers, Rule.Covers, Rule.matchers_of_new hr, coversTokens_literals]
    constructor
    · rintro ⟨tail', heq, -⟩
      exact (List.cons.inj heq).1
    · intro hbase
      refine ⟨tail, ?_, htail⟩
      show basename program :: (args ++ tail) = program :: (args ++ tail)
      rw [hbase]
  refine ⟨hmatch, ?_⟩
  intro hbase p hdeny i hallowed
  have hgrants := (Policy.evaluate_eq_allowed_iff p _ i).mp hallowed
  exact hgrants.notDenied r hdeny ((r.isMatch_iff_covers _).mp (hmatch.mpr hbase))

/-- The rule `dd`, `rest` in the deny list keeps out `dd of=/dev/sda`. -/
theorem Rule.matches_own_literals_dd :
    ∃ r, Rule.new (literalMatchers ["dd"] true) = .ok r ∧ r.isMatch ["dd", "of=/dev/sda"] = true ∧
      ∀ i, Policy.evaluate ⟨[r], []⟩ ["dd", "of=/dev/sda"] ≠ .allowed i := by
  have hbase : basename "dd" = "dd" := basename_of_plain (by decide)
  obtain ⟨hmatch, hdeny⟩ := @Rule.matches_own_literals "dd" [] true _ ["of=/dev/sda"] rfl nofun
  exact ⟨_, rfl, hmatch.mpr hbase, hdeny hbase ⟨[_], []⟩ List.mem_cons_self⟩

/-- The rule `/usr/bin/dd`, `rest` does not match the words it is made of, and a policy that denies by
it allows them. -/
theorem Rule.misses_own_literals :
    ∃ deny allow, Rule.new (literalMatchers ["/usr/bin/dd"] true) = .ok deny ∧
      Rule.new [.rest] = .ok allow ∧ deny.isMatch ["/usr/bin/dd", "of=/dev/sda"] = false ∧
      Policy.evaluate ⟨[deny], [allow]⟩ ["/usr/bin/dd", "of=/dev/sda"] = .allowed 0 :=
  ⟨_, _, rfl, rfl, by decide, by decide⟩

end Sudix
