import Sudix.OptionPairs

/-! The command line of the client: options first, then the command, taken over token for token. -/

namespace Sudix

open OptionPairs

structure Args where
  reason : String
  otp : Option String
  argv : List String
  deriving DecidableEq

/-- The value of an option flag, and what the iterator has left. -/
def flagValue (raw : List String) (flag : String) : Except String (String × List String) :=
  match raw with
  | v :: raw => if v ≠ "--" then .ok (v, raw) else .error (flag ++ " requires a value (got `--`)")
  | [] => .error (flag ++ " requires a value")

theorem flagValue_length {raw left : List String} {flag v : String} (h : flagValue raw flag = .ok (v, left)) :
    left.length < raw.length := by
  cases raw with
  | nil => cases h
  | cons w raw =>
      by_cases hw : w ≠ "--"
      · rw [flagValue, if_pos hw] at h
        cases h
        exact Nat.lt_succ_self _
      · rw [flagValue, if_neg hw] at h
        cases h

def startsWithDash (tok : String) : Bool := tok.toList.head? = some '-'

/-- The end of `parse_args`, behind its loop. -/
def commandGiven (reason : String) (otp : Option String) (argv : List String) : Except String (Option Args) :=
  if argv = [] then .error "no command given" else .ok (some ⟨reason, otp, argv⟩)

/-- The loop of `parse_args`, with the values of the options seen so far. -/
def parseArgsFrom (reason : String) (otp : Option String) (raw : List String) : Except String (Option Args) :=
  match raw with
  | [] => commandGiven reason otp []
  | tok :: raw =>
      if tok = "-h" ∨ tok = "--help" then .ok none
      else if tok = "--reason" then
        match _ : flagValue raw "--reason" with
        | .error e => .error e
        | .ok (v, left) => parseArgsFrom v otp left
      else if tok = "--otp" then
        match _ : flagValue raw "--otp" with
        | .error e => .error e
        | .ok (v, left) => parseArgsFrom reason (some v) left
      else if tok = "--" then commandGiven reason otp raw
      else if startsWithDash tok then .error ("unknown flag: " ++ tok)
      else commandGiven reason otp (tok :: raw)
termination_by raw.length
decreasing_by
  all_goals exact Nat.lt_succ_of_lt (flagValue_length ‹_›)

def parseArgs (raw : List String) : Except String (Option Args) := parseArgsFrom "no reason given" none raw

/-- The options that take a value. -/
inductive Flag where
  | reason
  | otp
  deriving DecidableEq

def Flag.text : Flag → String
  | .reason => "--reason"
  | .otp => "--otp"

/-- An option as it may be given: `--` is not a value. -/
abbrev Given := Pair Flag fun value : String => value ≠ "--"

/-- What an option sets. -/
def Flag.set (value : String) (state : String × Option String) : Flag → String × Option String
  | .reason => (value, state.2)
  | .otp => (state.1, some value)

/-- What may follow the options, and what it comes to: a command, the help or an error. -/
inductive Ending : List String → Except String (Option (List String)) → Prop where
  | dashes {argv : List String} (hargv : argv ≠ []) : Ending ("--" :: argv) (.ok (some argv))
  | command {tok : String} {later : List String} (htok : startsWithDash tok = false) :
      Ending (tok :: later) (.ok (some (tok :: later)))
  | help {tok : String} {later : List String} (htok : tok = "-h" ∨ tok = "--help") :
      Ending (tok :: later) (.ok none)
  | nothing : Ending [] (.error "no command given")
  | dashesOnly : Ending ["--"] (.error "no command given")
  | unknown {tok : String} {later : List String} (htok : startsWithDash tok = true)
      (hknown : tok ∉ ["-h", "--help", "--reason", "--otp", "--"]) :
      Ending (tok :: later) (.error ("unknown flag: " ++ tok))
  | valueMissing (flag : Flag) : Ending [flag.text] (.error (flag.text ++ " requires a value"))
  | valueDashes (flag : Flag) {later : List String} :
      Ending (flag.text :: "--" :: later) (.error (flag.text ++ " requires a value (got `--`)"))

section

variable (reason : String) (otp : Option String) {raw later : List String} {tok : String}

theorem parseArgsFrom_flag (state : String × Option String) (flag : Flag) :
    parseArgsFrom state.1 state.2 (flag.text :: raw) = (flagValue raw flag.text).bind fun taken =>
      parseArgsFrom (flag.set taken.1 state).1 (flag.set taken.1 state).2 taken.2 := by
  cases flag with
  | reason =>
      rw [parseArgsFrom, if_neg (by decide), if_pos (by decide)]
      split
      · next e h => rw [Flag.text, h]; rfl
      · next v left h => rw [Flag.text, h]; rfl
  | otp =>
      rw [parseArgsFrom, if_neg (by decide), if_neg (by decide), if_pos (by decide)]
      split
      · next e h => rw [Flag.text, h]; rfl
      · next v left h => rw [Flag.text, h]; rfl

theorem parseArgsFrom_dashes : parseArgsFrom reason otp ("--" :: raw) = commandGiven reason otp raw := by
  rw [parseArgsFrom, if_neg (by decide), if_neg (by decide), if_neg (by decide), if_pos rfl]

/-- A token that is none of those the loop knows. -/
theorem parseArgsFrom_other (htok : tok ∉ ["-h", "--help", "--reason", "--otp", "--"]) :
    parseArgsFrom reason otp (tok :: later) =
      if startsWithDash tok then .error ("unknown flag: " ++ tok) else commandGiven reason otp (tok :: later) := by
  simp only [List.mem_cons, List.not_mem_nil, or_false, not_or] at htok
  obtain ⟨hshort, hlong, hreason, hotp, hdashes⟩ := htok
  rw [parseArgsFrom, if_neg (not_or.mpr ⟨hshort, hlong⟩), if_neg hreason, if_neg hotp, if_neg hdashes]

end

/-- The last value given for each option stands. -/
theorem foldl_set (options : List Given) (reason : String) (otp : Option String) :
    options.foldl (fun state option => option.key.set option.value state) (reason, otp) =
      ((lastValue .reason options).getD reason, (lastValue .otp options).or otp) := by
  induction options generalizing reason otp with
  | nil => rfl
  | cons option options ih =>
      obtain ⟨key, value, hvalue⟩ := option
      rw [List.foldl_cons, lastValue_cons, lastValue_cons]
      cases key with
      | reason =>
          apply (ih value otp).trans
          simp
      | otp =>
          apply (ih reason (some value)).trans
          simp

/-- The reading of a command line: the options come first, each sets its value, and what follows them
decides. -/
theorem parseArgs_spell (options : List Given) (rest : List String) :
    parseArgs (spell Flag.text options ++ rest) =
      parseArgsFrom ((lastValue .reason options).getD "no reason given") (lastValue .otp options) rest := by
  have hoption : ∀ (state : String × Option String) (option : Given) (later : List String),
      parseArgsFrom state.1 state.2 (option.key.text :: option.value :: later) =
        parseArgsFrom (option.key.set option.value state).1 (option.key.set option.value state).2 later := by
    intro state option later
    rw [parseArgsFrom_flag, flagValue, if_pos option.accepted]
    rfl
  rw [parseArgs]
  apply (read_spell Flag.text (fun state raw => parseArgsFrom state.1 state.2 raw)
    (fun state option => option.key.set option.value state) hoption options ("no reason given", none) rest).trans
  rw [foldl_set, Option.or_none]

theorem Ending.parse {rest : List String} {ending : Except String (Option (List String))} (h : Ending rest ending)
    (reason : String) (otp : Option String) :
    parseArgsFrom reason otp rest = ending.map (Option.map (Args.mk reason otp)) := by
  cases h with
  | dashes hargv =>
      rw [parseArgsFrom_dashes, commandGiven, if_neg hargv]
      rfl
  | command htok =>
      rename_i tok later
      have hother : tok ∉ ["-h", "--help", "--reason", "--otp", "--"] := by
        intro hmem
        simp only [List.mem_cons, List.not_mem_nil, or_false] at hmem
        rcases hmem with rfl | rfl | rfl | rfl | rfl <;> exact absurd htok (by decide)
      rw [parseArgsFrom_other _ _ hother, htok, commandGiven, if_neg (List.cons_ne_nil _ _)]
      rfl
  | help htok =>
      rw [parseArgsFrom, if_pos htok]
      rfl
  | nothing =>
      rw [parseArgsFrom]
      rfl
  | dashesOnly =>
      rw [parseArgsFrom_dashes]
      rfl
  | unknown htok hknown =>
      rw [parseArgsFrom_other _ _ hknown, if_pos htok]
      rfl
  | valueMissing flag =>
      rw [parseArgsFrom_flag (reason, otp), flagValue]
      rfl
  | valueDashes flag =>
      rw [parseArgsFrom_flag (reason, otp), flagValue, if_neg (not_not_intro rfl)]
      rfl

/-- What no option starts is one of the endings. -/
theorem exists_ending {rest : List String} (hstops : Stops Flag.text (· ≠ "--") rest) :
    ∃ ending, Ending rest ending := by
  cases rest with
  | nil => exact ⟨_, .nothing⟩
  | cons tok later =>
      by_cases hdash : startsWithDash tok = true
      · by_cases hhelp : tok = "-h" ∨ tok = "--help"
        · exact ⟨_, .help hhelp⟩
        · by_cases hflag : ∃ flag : Flag, tok = flag.text
          · obtain ⟨flag, rfl⟩ := hflag
            cases later with
            | nil => exact ⟨_, .valueMissing flag⟩
            | cons value later =>
                have hvalue : value = "--" := Decidable.not_not.mp (hstops flag value later rfl)
                subst hvalue
                exact ⟨_, .valueDashes flag⟩
          · by_cases hdashes : tok = "--"
            · subst hdashes
              cases later with
              | nil => exact ⟨_, .dashesOnly⟩
              | cons value later => exact ⟨_, .dashes (List.cons_ne_nil value later)⟩
            · refine ⟨_, .unknown hdash ?_⟩
              simp only [List.mem_cons, List.not_mem_nil, or_false, not_or]
              rw [not_or] at hhelp
              exact ⟨hhelp.1, hhelp.2, fun h => hflag ⟨.reason, h⟩, fun h => hflag ⟨.otp, h⟩, hdashes⟩
      · exact ⟨_, .command (Bool.eq_false_iff.mpr hdash)⟩

/-- What a command line comes to: the values of its options stand for what its ending gives. -/
theorem parseArgs_eq_iff {raw : List String} {result : Except String (Option Args)} :
    parseArgs raw = result ↔ ∃ (options : List Given) (rest : List String) (ending : _),
      raw = spell Flag.text options ++ rest ∧ Ending rest ending ∧
        ending.map (Option.map (Args.mk ((lastValue .reason options).getD "no reason given")
          (lastValue .otp options))) = result := by
  constructor
  · rintro rfl
    obtain ⟨options, rest, rfl, hstops⟩ := exists_spell Flag.text (· ≠ "--") raw
    obtain ⟨ending, hending⟩ := exists_ending hstops
    exact ⟨options, rest, ending, rfl, hending, by rw [parseArgs_spell, hending.parse]⟩
  · rintro ⟨options, rest, ending, rfl, hending, rfl⟩
    rw [parseArgs_spell, hending.parse]

/-- The command that follows the options: what stands behind `--`, or the rest itself when its first token does
not start with a dash. -/
def GivesCommand (rest argv : List String) : Prop :=
  (rest = "--" :: argv ∧ argv ≠ []) ∨
    (rest = argv ∧ ∃ tok later, argv = tok :: later ∧ startsWithDash tok = false)

def AsksHelp (rest : List String) : Prop := ∃ tok later, rest = tok :: later ∧ (tok = "-h" ∨ tok = "--help")

theorem ending_command_iff {rest argv : List String} : Ending rest (.ok (some argv)) ↔ GivesCommand rest argv := by
  constructor
  · intro h
    cases h with
    | dashes hargv => exact .inl ⟨rfl, hargv⟩
    | command htok => exact .inr ⟨rfl, _, _, rfl, htok⟩
  · rintro (⟨rfl, hargv⟩ | ⟨rfl, tok, later, rfl, htok⟩)
    · exact .dashes hargv
    · exact .command htok

theorem ending_help_iff {rest : List String} : Ending rest (.ok none) ↔ AsksHelp rest := by
  constructor
  · intro h
    cases h with
    | help htok => exact ⟨_, _, rfl, htok⟩
  · rintro ⟨tok, later, rfl, htok⟩
    exact .help htok

theorem parseArgs_some_iff {raw : List String} {args : Args} :
    parseArgs raw = .ok (some args) ↔
      ∃ (options : List Given) (rest : List String), raw = spell Flag.text options ++ rest ∧
        GivesCommand rest args.argv ∧ args.reason = (lastValue .reason options).getD "no reason given" ∧
        args.otp = lastValue .otp options := by
  rw [parseArgs_eq_iff]
  constructor
  · rintro ⟨options, rest, ending, hraw, hending, hresult⟩
    rcases ending with e | _ | argv
    · cases hresult
    · cases hresult
    · cases hresult
      exact ⟨options, rest, hraw, ending_command_iff.mp hending, rfl, rfl⟩
  · rintro ⟨options, rest, hraw, hgives, hreason, hotp⟩
    refine ⟨options, rest, _, hraw, ending_command_iff.mpr hgives, ?_⟩
    rw [← hreason, ← hotp]
    rfl

theorem parseArgs_none_iff {raw : List String} :
    parseArgs raw = .ok none ↔
      ∃ (options : List Given) (rest : List String), raw = spell Flag.text options ++ rest ∧ AsksHelp rest := by
  rw [parseArgs_eq_iff]
  constructor
  · rintro ⟨options, rest, ending, hraw, hending, hresult⟩
    rcases ending with e | _ | argv
    · cases hresult
    · exact ⟨options, rest, hraw, ending_help_iff.mp hending⟩
    · cases hresult
  · rintro ⟨options, rest, hraw, hasks⟩
    exact ⟨options, rest, _, hraw, ending_help_iff.mpr hasks, rfl⟩

/-- **The grammar of the client's command line.** The arguments are accepted exactly when they are options with
values other than `--` and then a command, which is taken over token for token; of each option the last value
counts. They ask for help exactly when `-h` or `--help` follows the options, and anything else is an error. -/
theorem parseArgs_grammar (raw : List String) :
    (∀ args, parseArgs raw = .ok (some args) ↔
      ∃ (options : List Given) (rest : List String), raw = spell Flag.text options ++ rest ∧
        GivesCommand rest args.argv ∧ args.reason = (lastValue .reason options).getD "no reason given" ∧
        args.otp = lastValue .otp options) ∧
      (parseArgs raw = .ok none ↔
        ∃ (options : List Given) (rest : List String), raw = spell Flag.text options ++ rest ∧ AsksHelp rest) ∧
      ((∃ e, parseArgs raw = .error e) ↔
        ∀ (options : List Given) (rest : List String), raw = spell Flag.text options ++ rest →
          ¬ AsksHelp rest ∧ ∀ argv, ¬ GivesCommand rest argv) := by
  refine ⟨fun args => parseArgs_some_iff, parseArgs_none_iff, ?_⟩
  constructor
  · rintro ⟨e, he⟩ options rest hraw
    refine ⟨fun hasks => ?_, fun argv hgives => ?_⟩
    · have hnone := parseArgs_none_iff.mpr ⟨options, rest, hraw, hasks⟩
      rw [he] at hnone
      cases hnone
    · obtain ⟨args, hargs⟩ : ∃ args : Args, parseArgs raw = .ok (some args) :=
        ⟨⟨_, _, argv⟩, parseArgs_some_iff.mpr ⟨options, rest, hraw, hgives, rfl, rfl⟩⟩
      rw [he] at hargs
      cases hargs
  · intro hneither
    rcases hresult : parseArgs raw with e | _ | args
    · exact ⟨e, rfl⟩
    · obtain ⟨options, rest, hraw, hasks⟩ := parseArgs_none_iff.mp hresult
      exact absurd hasks (hneither options rest hraw).1
    · obtain ⟨options, rest, hraw, hgives, -⟩ := parseArgs_some_iff.mp hresult
      exact absurd hgives ((hneither options rest hraw).2 args.argv)

/-- A value may look like a flag, the last of two values counts, and a flag behind the command is the
command's. -/
example : parseArgs ["--reason", "-h", "--reason", "update", "--", "pacman", "--otp"] =
    .ok (some ⟨"update", none, ["pacman", "--otp"]⟩) := by
  simp [parseArgs, parseArgsFrom, flagValue, commandGiven]

end Sudix
