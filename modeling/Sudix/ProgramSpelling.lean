import Sudix.PolicyMeaning
import Sudix.Wire

/-! Respelling the program's path. Evaluation reads a command line only through `seen` and the control
character scan, and a directory in front of a program's name, a slash or a `/.` behind it are in
neither. -/

namespace Sudix

/-- The components `fileName` picks its last from. -/
def components (s : String) : List String :=
  ((s.toList.splitOn '/').map String.ofList).filter fun c => c != "" && c != "."

theorem fileName_eq (s : String) :
    fileName s = match (components s).getLast? with
      | none => none
      | some n => if n = ".." then none else some n := rfl

theorem components_slash (a b : String) : components (a ++ "/" ++ b) = components a ++ components b := by
  have htext : (a ++ "/" ++ b).toList = a.toList ++ '/' :: b.toList := by
    rw [String.toList_append, String.toList_append, List.append_assoc]
    rfl
  rw [components, htext, List.splitOn_append_cons_self, List.map_append, List.filter_append]
  rfl

theorem components_empty : components "" = [] := rfl

theorem components_dot : components "." = [] := rfl

/-- A slash behind a path, with nothing or a `.` after it, adds no component. -/
theorem fileName_slash (s : String) : fileName (s ++ "/") = fileName s := by
  have h := components_slash s ""
  rw [components_empty, List.append_nil, String.append_empty] at h
  rw [fileName_eq, fileName_eq, h]

theorem fileName_slash_dot (s : String) : fileName (s ++ "/.") = fileName s := by
  have h := components_slash s "."
  rw [components_dot, List.append_nil, String.append_assoc] at h
  rw [fileName_eq, fileName_eq, show "/." = "/" ++ "." from rfl, h]

/-- The name of a program: what a path may end in and still have a file name. -/
structure PlainName (n : String) : Prop where
  nonempty : n ≠ ""
  noSlash : '/' ∉ n.toList
  notDot : n ≠ "."
  notDotDot : n ≠ ".."

theorem PlainName.components {n : String} (h : PlainName n) : components n = [n] := by
  have hkeep : (n != "" && n != ".") = true := by simpa using ⟨h.nonempty, h.notDot⟩
  rw [Sudix.components, List.splitOn_eq_singleton h.noSlash, List.map_singleton, String.ofList_toList,
    List.filter_cons, hkeep]
  rfl

theorem PlainName.fileName_slash {n : String} (h : PlainName n) (dir : String) :
    fileName (dir ++ "/" ++ n) = some n := by
  rw [fileName_eq, components_slash, h.components, List.getLast?_concat]
  exact if_neg h.notDotDot

theorem PlainName.basename {n : String} (h : PlainName n) : basename n = n :=
  basename_of_plain h.noSlash

theorem PlainName.basename_of_fileName {n path : String} (h : PlainName n) (hpath : fileName path = some n) :
    Sudix.basename path = Sudix.basename n := by
  rw [h.basename, Sudix.basename, hpath]
  rfl

theorem Rule.isMatch_congr (r : Rule) {argv argv' : List String} (h : seen argv = seen argv') :
    r.isMatch argv = r.isMatch argv' := by
  rw [Bool.eq_iff_iff, Rule.isMatch_iff_covers, Rule.isMatch_iff_covers, Rule.Covers, Rule.Covers, h]

/-- Two command lines that every rule sees alike, and the control character scan too, get one verdict. -/
theorem Policy.evaluate_congr (p : Policy) {argv argv' : List String} (hseen : seen argv = seen argv')
    (hctl : hasControlChar argv = hasControlChar argv') : p.evaluate argv = p.evaluate argv' := by
  have hempty : argv.isEmpty = argv'.isEmpty := by
    rw [Bool.eq_iff_iff, List.isEmpty_iff_length_eq_zero, List.isEmpty_iff_length_eq_zero, ← seen_length argv,
      hseen, seen_length]
  simp only [Policy.evaluate, hempty, hctl, fun r : Rule => r.isMatch_congr hseen]

theorem hasControlChar_cons (tok : String) (args : List String) :
    hasControlChar (tok :: args) = (hasControlChar [tok] || hasControlChar args) := by
  simp [hasControlChar]

/-- The scan of a token in two parts. -/
theorem hasControlChar_append (a b : String) :
    hasControlChar [a ++ b] = (hasControlChar [a] || hasControlChar [b]) := by
  simp [hasControlChar, utf8_append]

theorem Policy.evaluate_program_congr (p : Policy) {path path' : String} (args : List String)
    (hbase : basename path = basename path') (hctl : hasControlChar [path] = hasControlChar [path']) :
    p.evaluate (path :: args) = p.evaluate (path' :: args) := by
  refine p.evaluate_congr ?_ ?_
  · rw [seen, seen, hbase]
  · rw [hasControlChar_cons path, hasControlChar_cons path', hctl]

theorem hasControlChar_slash : hasControlChar ["/"] = false := by decide

theorem hasControlChar_slash_dot : hasControlChar ["/."] = false := by decide

/-- A program named plainly, by a path of it, and by that path with a slash or a `/.` behind it: the
policy's verdict is the same for all four. -/
theorem Policy.evaluate_respelled (p : Policy) {n dir : String} (args : List String) (hne : n ≠ "")
    (hslash : '/' ∉ n.toList) (hdot : n ≠ ".") (hdotdot : n ≠ "..")
    (hdir : ControlFree [dir]) :
    p.evaluate ((dir ++ "/" ++ n) :: args) = p.evaluate (n :: args) ∧
      p.evaluate ((dir ++ "/" ++ n ++ "/") :: args) = p.evaluate (n :: args) ∧
      p.evaluate ((dir ++ "/" ++ n ++ "/.") :: args) = p.evaluate (n :: args) := by
  have hn : PlainName n := ⟨hne, hslash, hdot, hdotdot⟩
  have hscan : hasControlChar [dir] = false := (hasControlChar_eq_false_iff [dir]).mpr hdir
  have hpath : hasControlChar [dir ++ "/" ++ n] = hasControlChar [n] := by
    rw [hasControlChar_append, hasControlChar_append, hscan, hasControlChar_slash, Bool.or_false,
      Bool.false_or]
  refine ⟨?_, ?_, ?_⟩
  · exact p.evaluate_program_congr args (hn.basename_of_fileName (hn.fileName_slash dir)) hpath
  · refine p.evaluate_program_congr args (hn.basename_of_fileName ?_) ?_
    · rw [Sudix.fileName_slash, hn.fileName_slash]
    · rw [hasControlChar_append, hpath, hasControlChar_slash, Bool.or_false]
  · refine p.evaluate_program_congr args (hn.basename_of_fileName ?_) ?_
    · rw [fileName_slash_dot, hn.fileName_slash]
    · rw [hasControlChar_append, hpath, hasControlChar_slash_dot, Bool.or_false]

/-- `dd` is denied, whatever its arguments. -/
def ddPolicy : Policy := ⟨[⟨[.literal "dd", .rest], List.cons_ne_nil _ _, rfl⟩], []⟩

/-- `dd` under four spellings. -/
theorem Policy.evaluate_respelled_dd :
    ddPolicy.evaluate ["/usr/bin/dd", "of=x"] = ddPolicy.evaluate ["dd", "of=x"] ∧
      ddPolicy.evaluate ["/usr/bin/dd/", "of=x"] = ddPolicy.evaluate ["dd", "of=x"] ∧
      ddPolicy.evaluate ["/usr/bin/dd/.", "of=x"] = ddPolicy.evaluate ["dd", "of=x"] :=
  @Policy.evaluate_respelled ddPolicy "dd" "/usr/bin" ["of=x"] (by decide) (by decide) (by decide)
    (by decide) ((hasControlChar_eq_false_iff _).mp (by decide))

end Sudix
