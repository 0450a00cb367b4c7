import Sudix.Protocol

/-! The authorization policy: token matchers, rules, and the deny-by-default evaluation of an argv
against a deny and an allow list. A rule carries the proof that `rest` stands only at its end. -/

namespace Sudix

/-- A token matcher; `re` is the compiled, anchored pattern of `src` as a predicate on tokens. -/
inductive TokenMatcher where
  | literal (s : String)
  | regex (re : String → Bool) (src : String)
  | rest

def TokenMatcher.isRest : TokenMatcher → Bool
  | .rest => true
  | _ => false

/-- The regex crate: compiling a pattern text gives the predicate `is_match` or an error. -/
structure RegexEngine where
  compile : String → Except String (String → Bool)

/-- `TokenMatcher::regex`: the pattern is wrapped before it is compiled. -/
def TokenMatcher.compile (E : RegexEngine) (pattern : String) : Except String TokenMatcher :=
  (E.compile ("^(?:" ++ pattern ++ ")$")).map fun re => .regex re pattern

/-- The loop of `Rule::new`: no matcher but the last is `rest`. -/
def restOnlyLast : List TokenMatcher → Bool
  | [] => true
  | [_] => true
  | m :: ms => !m.isRest && restOnlyLast ms

structure Rule where
  matchers : List TokenMatcher
  nonempty : matchers ≠ []
  restLast : restOnlyLast matchers = true

def Rule.new (matchers : List TokenMatcher) : Except String Rule :=
  match matchers with
  | [] => .error "rule must have at least one matcher"
  | m :: ms =>
      if h : restOnlyLast (m :: ms) = true then .ok ⟨m :: ms, List.cons_ne_nil m ms, h⟩
      else .error "`rest` is only valid as the final matcher"

theorem literal_ne_nil (text : String) : [TokenMatcher.literal text] ≠ [] := List.cons_ne_nil _ _

theorem restOnlyLast_literal (text : String) : restOnlyLast [.literal text] = true := rfl

/-- `Path::file_name`: the last component unless it is `..`; empty and `.` components are no
components. -/
def fileName (s : String) : Option String :=
  match ((s.toList.splitOn '/').map String.ofList).filter (fun c => c != "" && c != ".") |>.getLast? with
  | none => none
  | some n => if n = ".." then none else some n

def basename (s : String) : String := (fileName s).getD s

/-- The token a matcher at position `i` sees: the program by its basename, the others verbatim. -/
def effective (argv : List String) (i : Nat) : String :=
  if i = 0 then basename (argv.getD 0 "") else argv.getD i ""

def hasControlChar (argv : List String) : Bool :=
  argv.any fun tok => (utf8 tok).any fun b => b < 0x20 || b == 0x7f

/-- The loop of `Rule::is_match`, from matcher to matcher with the index of the next token. -/
def isMatchFrom (argv : List String) : List TokenMatcher → Nat → Bool
  | [], argvIdx => argvIdx == argv.length
  | .rest :: _, _ => true
  | .literal s :: ms, argvIdx =>
      if argv.length ≤ argvIdx then false
      else if effective argv argvIdx ≠ s then false
      else isMatchFrom argv ms (argvIdx + 1)
  | .regex re _ :: ms, argvIdx =>
      if argv.length ≤ argvIdx then false
      else if !re (effective argv argvIdx) then false
      else isMatchFrom argv ms (argvIdx + 1)

def Rule.isMatch (r : Rule) (argv : List String) : Bool := isMatchFrom argv r.matchers 0

def TokenMatcher.describe : TokenMatcher → String
  | .literal s => s
  | .regex _ src => "\x7bre:" ++ src ++ "\x7d"
  | .rest => "\x7brest\x7d"

def Rule.describe (r : Rule) : String := " ".intercalate (r.matchers.map TokenMatcher.describe)

structure Policy where
  deny : List Rule
  allow : List Rule

/-- `policy::Verdict`, the outcome of the policy check. -/
inductive PolicyVerdict where
  | allowed (ruleIndex : Nat)
  | denied (reason : String)
  deriving DecidableEq

def Policy.evaluate (p : Policy) (argv : List String) : PolicyVerdict :=
  if argv.isEmpty then .denied "empty argv"
  else if hasControlChar argv then .denied "control character in argument"
  else match p.deny.zipIdx.find? (fun ri => ri.1.isMatch argv) with
  | some (r, i) => .denied ("denied by rule " ++ toString i ++ ": " ++ r.describe)
  | none =>
      match p.allow.findIdx? (fun r => r.isMatch argv) with
      | some i => .allowed i
      | none => .denied "no allow rule matched"

/-- An allowed argv is non-empty and free of control characters. -/
theorem Policy.evaluate_allowed {p : Policy} {argv : List String} {i : Nat}
    (h : p.evaluate argv = .allowed i) : argv ≠ [] ∧ hasControlChar argv = false := by
  unfold Policy.evaluate at h
  split at h
  · cases h
  · rename_i hne
    split at h
    · cases h
    · rename_i hctl
      exact ⟨by simpa using hne, by simpa using hctl⟩

end Sudix
