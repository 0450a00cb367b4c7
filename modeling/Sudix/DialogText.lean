import Sudix.Display
import Sudix.Separators
import Sudix.Server

/-! The whole text of the dialog. The command's line has no control characters, so where it ends is seen;
the directory and the reason are free text, and where one ends and the other begins can be read in several
ways when the label between them stands in one of them. -/

namespace Sudix

open Separators

def promptText (p : Prompt) : String :=
  "A coding agent is requesting root to run:\n\n" ++ shellJoin p.argv ++ "\n\nWorking directory: " ++ p.cwd ++
    "\nReason: " ++ p.reason ++ "\n\nAllow this single command to run as root?"

/-- The label between the directory and the reason. -/
def reasonLabel : String := "\nReason: "

/-- A client can send the directory: no NUL in it, and it exists. -/
structure SendableDir (files : FileSystem) (cwd : String) : Prop where
  nulFree : '\x00' ∉ cwd.toList
  existing : ∃ path, files.canonicalize cwd = .ok path ∧ files.isDir path = true

/-- What can come to the dialog: an argv without control characters, a directory, a bounded reason. -/
structure Sendable (files : FileSystem) (p : Prompt) : Prop where
  argv : hasControlChar p.argv = false
  cwd : SendableDir files p.cwd
  reason : p.reason.utf8ByteSize ≤ maxReasonBytes

/-- The label stands in the directory or the reason, and the text can be cut there as well. -/
def Recuttable (files : FileSystem) (p : Prompt) : Prop :=
  (∃ dir rest, p.cwd = dir ++ reasonLabel ++ rest ∧ SendableDir files dir ∧
      (rest ++ reasonLabel ++ p.reason).utf8ByteSize ≤ maxReasonBytes) ∨
    ∃ start rest, p.reason = start ++ reasonLabel ++ rest ∧ SendableDir files (p.cwd ++ reasonLabel ++ start)

variable {files : FileSystem} {p p' : Prompt}

/-- The free part of the text: the directory, the label and the reason. -/
def freeText (p : Prompt) : String := p.cwd ++ reasonLabel ++ p.reason

theorem append_groups (a b c d e f g : String) :
    a ++ b ++ c ++ d ++ e ++ f ++ g = a ++ (b ++ (c ++ (d ++ e ++ f ++ g))) := by
  simp only [String.append_assoc]

theorem promptText_eq (p : Prompt) :
    promptText p = "A coding agent is requesting root to run:\n\n" ++ (shellJoin p.argv ++
      ("\n\nWorking directory: " ++ (freeText p ++ "\n\nAllow this single command to run as root?"))) :=
  append_groups ..

/-- A command line without control characters has no line break. -/
theorem newline_not_mem_shellJoin {argv : List String} (h : hasControlChar argv = false) :
    '\n' ∉ (shellJoin argv).toList := by
  intro hmem
  obtain ⟨before, after, hsplit⟩ := List.append_of_mem hmem
  have htext : shellJoin argv = String.ofList before ++ ("\n" ++ String.ofList after) := by
    refine String.toList_inj.mp ?_
    simp [hsplit]
  have hnewline : (utf8 "\n").any controlByte = true := by decide
  rw [← any_controlByte_shellJoin, htext, utf8_append, utf8_append, List.any_append, List.any_append,
    hnewline, Bool.true_or, Bool.or_true] at h
  cases h

/-- The command is always read off the text; what is left is the free part. -/
theorem promptText_inj {p p' : Prompt} (h : hasControlChar p.argv = false) (h' : hasControlChar p'.argv = false) :
    promptText p = promptText p' ↔ shellJoin p.argv = shellJoin p'.argv ∧ freeText p = freeText p' := by
  constructor
  · intro heq
    rw [promptText_eq, promptText_eq, String.append_right_inj] at heq
    have hlists := congrArg String.toList heq
    have hlabel : "\n\nWorking directory: ".toList = '\n' :: "\nWorking directory: ".toList := rfl
    simp only [String.toList_append, hlabel, List.cons_append] at hlists
    obtain ⟨hcommand, hrest⟩ := cut_first (newline_not_mem_shellJoin h) (newline_not_mem_shellJoin h') hlists
    refine ⟨String.toList_inj.mp hcommand, String.toList_inj.mp ?_⟩
    exact List.append_cancel_right (List.append_cancel_left hrest)
  · rintro ⟨hcommand, hfree⟩
    rw [promptText_eq, promptText_eq, hcommand, hfree]

theorem freeText_toList (p : Prompt) :
    (freeText p).toList = p.cwd.toList ++ ('\n' :: "Reason: ".toList ++ p.reason.toList) := by
  rw [freeText, String.toList_append, String.toList_append, List.append_assoc]
  rfl

/-- What the shorter directory lacks stands in front of the longer reason. -/
theorem moved {cwd cwd' reason reason' w : List Char} (hcwd : cwd' = cwd ++ ('\n' :: "Reason: ".toList ++ w))
    (hreason : reason = w ++ ('\n' :: "Reason: ".toList ++ reason')) :
    String.ofList cwd' = String.ofList cwd ++ reasonLabel ++ String.ofList w ∧
      String.ofList reason = String.ofList w ++ reasonLabel ++ String.ofList reason' := by
  subst hcwd hreason
  have hlabel : reasonLabel = String.ofList ('\n' :: "Reason: ".toList) := by decide
  rw [hlabel, ← String.ofList_append, ← String.ofList_append, ← String.ofList_append, ← String.ofList_append,
    List.append_assoc, List.append_assoc]
  exact ⟨rfl, rfl⟩

/-- Two prompts with one free part are alike, or the label stands in the longer directory and in the
longer reason. -/
theorem freeText_cases (h : freeText p = freeText p') :
    (p.cwd = p'.cwd ∧ p.reason = p'.reason) ∨
      (∃ w, p'.cwd = p.cwd ++ reasonLabel ++ w ∧ p.reason = w ++ reasonLabel ++ p'.reason) ∨
      ∃ w, p.cwd = p'.cwd ++ reasonLabel ++ w ∧ p'.reason = w ++ reasonLabel ++ p.reason := by
  have hlists := congrArg String.toList h
  rw [freeText_toList, freeText_toList] at hlists
  rcases cut_cases (by decide) hlists with ⟨hcwd, hreason⟩ | ⟨w, hcwd, hreason⟩ | ⟨w, hcwd, hreason⟩
  · exact .inl ⟨String.toList_inj.mp hcwd, String.toList_inj.mp hreason⟩
  · have hmoved := moved hcwd hreason
    simp only [String.ofList_toList] at hmoved
    exact .inr (.inl ⟨_, hmoved⟩)
  · have hmoved := moved hcwd hreason
    simp only [String.ofList_toList] at hmoved
    exact .inr (.inr ⟨_, hmoved⟩)

theorem append_label_ne (cwd w : String) : cwd ++ reasonLabel ++ w ≠ cwd := by
  intro h
  have hlength := congrArg (fun s => s.toList.length) h
  have hlabel : 0 < reasonLabel.toList.length := by decide
  simp only [String.toList_append, List.length_append] at hlength
  omega

theorem newline_mem_label (a b : String) : '\n' ∈ (a ++ reasonLabel ++ b).toList := by
  have hlabel : '\n' ∈ reasonLabel.toList := by decide
  simp [hlabel]

/-- A directory and a reason of one line each cannot be cut elsewhere. -/
theorem not_recuttable_of_lines (hcwd : '\n' ∉ p.cwd.toList) (hreason : '\n' ∉ p.reason.toList) :
    ¬Recuttable files p := by
  rintro (⟨dir, rest, heq, -⟩ | ⟨start, rest, heq, -⟩)
  · rw [heq] at hcwd
    exact hcwd (newline_mem_label dir rest)
  · rw [heq] at hreason
    exact hreason (newline_mem_label start rest)

/-- **One text, one directory and reason, exactly.** The text of a prompt determines the command's line,
the directory and the reason among all that can come to the dialog if and only if it cannot be cut at
another label. -/
theorem promptText_determines_iff (h : Sendable files p) :
    (∀ p', Sendable files p' → promptText p = promptText p' →
      shellJoin p.argv = shellJoin p'.argv ∧ p.cwd = p'.cwd ∧ p.reason = p'.reason) ↔
      ¬Recuttable files p := by
  constructor
  · rintro hdetermines (⟨dir, rest, hcwd, hdir, hlong⟩ | ⟨start, rest, hreason, hdir⟩)
    · have htext : promptText p = promptText ⟨p.argv, dir, rest ++ reasonLabel ++ p.reason⟩ := by
        refine (promptText_inj h.argv (by exact h.argv)).mpr ⟨rfl, ?_⟩
        simp only [freeText, hcwd, String.append_assoc]
      have hsame := hdetermines ⟨p.argv, dir, rest ++ reasonLabel ++ p.reason⟩ ⟨h.argv, hdir, hlong⟩ htext
      exact append_label_ne dir rest (hcwd.symm.trans hsame.2.1)
    · have htext : promptText p = promptText ⟨p.argv, p.cwd ++ reasonLabel ++ start, rest⟩ := by
        refine (promptText_inj h.argv (by exact h.argv)).mpr ⟨rfl, ?_⟩
        simp only [freeText, hreason, String.append_assoc]
      have hshort : rest.utf8ByteSize ≤ maxReasonBytes := by
        have hlong := h.reason
        rw [hreason, String.utf8ByteSize_append] at hlong
        omega
      have hsame := hdetermines ⟨p.argv, p.cwd ++ reasonLabel ++ start, rest⟩ ⟨h.argv, hdir, hshort⟩ htext
      exact append_label_ne p.cwd start hsame.2.1.symm
  · intro hcut p' h' htext
    obtain ⟨hcommand, hfree⟩ := (promptText_inj h.argv h'.argv).mp htext
    refine ⟨hcommand, ?_⟩
    rcases freeText_cases hfree with hsame | ⟨w, hcwd, hreason⟩ | ⟨w, hcwd, hreason⟩
    · exact hsame
    · refine absurd (.inr ⟨w, p'.reason, hreason, ?_⟩) hcut
      rw [← hcwd]
      exact h'.cwd
    · refine absurd (.inl ⟨p'.cwd, w, hcwd, h'.cwd, ?_⟩) hcut
      rw [← hreason]
      exact h'.reason

/-- A file system with the directory `/tmp/a` and one whose name continues it. -/
def labelledDirs : FileSystem where
  canonicalize path :=
    if path = "/tmp/a" ∨ path = "/tmp/a\nReason: cleanup" then .ok path else .error "No such file or directory"
  isDir _ := true

def plainPrompt : Prompt := ⟨["id"], "/tmp/a", "cleanup\nReason: approved by ops"⟩

def labelledPrompt : Prompt := ⟨["id"], "/tmp/a\nReason: cleanup", "approved by ops"⟩

theorem plainPrompt_sendable : Sendable labelledDirs plainPrompt :=
  ⟨by decide, ⟨by decide, "/tmp/a", by decide, rfl⟩, by decide⟩

theorem labelledPrompt_sendable : Sendable labelledDirs labelledPrompt :=
  ⟨by decide, ⟨by decide, "/tmp/a\nReason: cleanup", by decide, rfl⟩, by decide⟩

/-- Two prompts with different directories and reasons are shown as one text. -/
theorem promptText_not_injective :
    ¬∀ files p p', Sendable files p → Sendable files p' → promptText p = promptText p' →
      shellJoin p.argv = shellJoin p'.argv ∧ p.cwd = p'.cwd ∧ p.reason = p'.reason := by
  intro h
  have htext : promptText plainPrompt = promptText labelledPrompt :=
    (promptText_inj rfl rfl).mpr ⟨rfl, by decide⟩
  have hsame := h labelledDirs _ _ plainPrompt_sendable labelledPrompt_sendable htext
  exact absurd hsame.2.1 (by decide)

/-- A prompt of one line each is the only one with its text. -/
theorem promptText_determines_plain :
    Sendable labelledDirs ⟨["id"], "/tmp/a", "cleanup"⟩ ∧
      ∀ p', Sendable labelledDirs p' → promptText ⟨["id"], "/tmp/a", "cleanup"⟩ = promptText p' →
        shellJoin ["id"] = shellJoin p'.argv ∧ "/tmp/a" = p'.cwd ∧ "cleanup" = p'.reason := by
  have hsendable : Sendable labelledDirs ⟨["id"], "/tmp/a", "cleanup"⟩ :=
    ⟨by decide, ⟨by decide, "/tmp/a", by decide, rfl⟩, by decide⟩
  exact ⟨hsendable, (promptText_determines_iff hsendable).mpr (not_recuttable_of_lines (by decide) (by decide))⟩

end Sudix
