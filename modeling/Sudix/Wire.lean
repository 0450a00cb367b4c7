import Sudix.Protocol

/-! Lines on the wire. What the proofs assume of the JSON library is one structure: a value's text
is one line without trailing whitespace, decodes to the value, and decodes to nothing when it is cut
short. A message line is that text with a newline, as bytes and as a string. -/

namespace Sudix

theorem utf8_append (s t : String) : utf8 (s ++ t) = utf8 s ++ utf8 t := by
  simp [utf8, String.toUTF8]

theorem fromUtf8_utf8 (s : String) : fromUtf8 (utf8 s) = some s := by
  have hvalid : (⟨(utf8 s).toArray⟩ : ByteArray) = s.toByteArray := rfl
  unfold fromUtf8 String.fromUTF8?
  rw [hvalid, dif_pos s.isValidUTF8]
  rfl

theorem utf8_of_fromUtf8 {bytes : List UInt8} {s : String} (h : fromUtf8 bytes = some s) : utf8 s = bytes := by
  unfold fromUtf8 String.fromUTF8? at h
  split at h
  · cases h
    rfl
  · cases h

theorem utf8_injective : Function.Injective utf8 := by
  intro s t h
  have hs := fromUtf8_utf8 s
  rw [h, fromUtf8_utf8] at hs
  exact (Option.some.inj hs).symm

theorem utf8_newline : utf8 "\n" = [newline] := by decide

theorem newline_not_mem_utf8EncodeChar {c : Char} (h : c ≠ '\n') : newline ∉ String.utf8EncodeChar c := by
  have hvalue : c.val.toNat ≠ 10 := fun hval => h (Char.ext (UInt32.toNat_inj.mp hval))
  fun_cases String.utf8EncodeChar c <;> simp [newline, UInt8.ext_iff] <;> omega

theorem utf8_eq_flatMap (s : String) : utf8 s = s.toList.flatMap String.utf8EncodeChar := by
  rw [utf8, String.toUTF8_eq_toByteArray, ← String.utf8Encode_toList, List.utf8Encode,
    List.toList_data_toByteArray]

/-- No character but a newline has its byte. -/
theorem newline_mem_utf8 {s : String} : newline ∈ utf8 s ↔ '\n' ∈ s.toList := by
  rw [utf8_eq_flatMap, List.mem_flatMap]
  constructor
  · rintro ⟨c, hc, hbyte⟩
    by_contra hnot
    refine newline_not_mem_utf8EncodeChar ?_ hbyte
    rintro rfl
    exact hnot hc
  · exact fun hmem => ⟨'\n', hmem, by decide⟩

theorem trimEnd_append_newline (s : String) : trimEnd (s ++ "\n") = trimEnd s := by
  have hnl : isWhitespace '\n' = true := by decide
  simp [trimEnd, hnl]

theorem trimEnd_prefix (s : String) : ∃ rest, s = trimEnd s ++ rest := by
  refine ⟨String.ofList (s.toList.reverse.takeWhile isWhitespace).reverse, ?_⟩
  rw [trimEnd, ← String.ofList_append, ← List.reverse_append, List.takeWhile_append_dropWhile,
    List.reverse_reverse, String.ofList_toList]

/-- A text is what stands before the only separator at its end. -/
theorem eq_of_append_cons_eq_concat {α : Type} {x y z : List α} {u : α} (h : x ++ u :: y = z ++ [u])
    (hz : u ∉ z) : x = z := by
  rcases List.eq_nil_or_concat y with rfl | ⟨y', last, rfl⟩
  · exact (List.append_inj' h rfl).1
  · rw [List.concat_eq_append, ← List.cons_append, ← List.append_assoc] at h
    have hx := (List.append_inj' h rfl).1
    exact absurd (hx ▸ List.mem_append_right _ List.mem_cons_self) hz

/-- What serde_json does for a type: `encode` and `decode` are its `to_string` and `from_str`. -/
structure LawfulCodec {α : Type} (encode : α → Except String String) (decode : String → Except String α) :
    Prop where
  oneLine : ∀ v text, encode v = .ok text → newline ∉ utf8 text
  trimmed : ∀ v text, encode v = .ok text → trimEnd text = text
  roundTrip : ∀ v text, encode v = .ok text → decode text = .ok v
  truncated : ∀ v text n start v', encode v = .ok text → n < (utf8 text).length →
    fromUtf8 ((utf8 text).take n) = some start → decode (trimEnd start) ≠ .ok v'

structure SerdeJson.Lawful (J : SerdeJson) : Prop where
  prompt : LawfulCodec J.promptToString J.promptFromStr
  verdict : LawfulCodec J.verdictToString J.verdictFromStr

section Line

variable {α : Type} {encode : α → Except String String} {decode : String → Except String α}
  {v : α} {line : String}

theorem line_eq (h : (encode v).map (· ++ "\n") = .ok line) :
    ∃ text, encode v = .ok text ∧ line = text ++ "\n" := by
  cases htext : encode v with
  | error e =>
      rw [htext] at h
      cases h
  | ok text =>
      rw [htext] at h
      cases h
      exact ⟨text, rfl, rfl⟩

/-- The bytes of a line: those of the text, none of them a newline, and then the newline. -/
theorem LawfulCodec.utf8_line (hlaw : LawfulCodec encode decode)
    (h : (encode v).map (· ++ "\n") = .ok line) :
    ∃ text, encode v = .ok text ∧ utf8 line = utf8 text ++ [newline] ∧ newline ∉ utf8 text := by
  obtain ⟨text, htext, rfl⟩ := line_eq h
  refine ⟨text, htext, ?_, hlaw.oneLine v text htext⟩
  rw [utf8_append, utf8_newline]

theorem LawfulCodec.decode_line (hlaw : LawfulCodec encode decode)
    (h : (encode v).map (· ++ "\n") = .ok line) : decode (trimEnd line) = .ok v := by
  obtain ⟨text, htext, rfl⟩ := line_eq h
  rw [trimEnd_append_newline, hlaw.trimmed v text htext]
  exact hlaw.roundTrip v text htext

end Line

theorem Prompt.fromLine_toLine {J : SerdeJson} (hlaw : J.Lawful) {p : Prompt} {line : String}
    (h : p.toLine J = .ok line) : Prompt.fromLine J line = .ok p :=
  hlaw.prompt.decode_line h

theorem Verdict.fromLine_toLine {J : SerdeJson} (hlaw : J.Lawful) {v : Verdict} {line : String}
    (h : v.toLine J = .ok line) : Verdict.fromLine J line = .ok v :=
  hlaw.verdict.decode_line h

section Table

variable {α : Type} [DecidableEq α] (table : List (α × String))

/-- The codec that knows the values of a table and their texts, and no others. -/
def tableEncode (v : α) : Except String String :=
  match table.find? fun e => e.1 = v with
  | some e => .ok e.2
  | none => .error "unknown value"

def tableDecode (text : String) : Except String α :=
  match table.find? fun e => e.2 = text with
  | some e => .ok e.1
  | none => .error "unknown text"

/-- Every text is one line without trailing whitespace, stands once, and is the only one among its
truncations. -/
def LawfulTable : Prop :=
  ∀ e ∈ table, newline ∉ utf8 e.2 ∧ trimEnd e.2 = e.2 ∧ table.find? (fun e' => e'.2 = e.2) = some e ∧
    ∀ e' ∈ table, utf8 e'.2 <+: utf8 e.2 → e'.2 = e.2

instance : Decidable (LawfulTable table) :=
  inferInstanceAs (Decidable (∀ e ∈ table, _ ∧ _ ∧ _ ∧ _))

variable {table}

theorem mem_of_tableEncode {v : α} {text : String} (h : tableEncode table v = .ok text) :
    (v, text) ∈ table := by
  unfold tableEncode at h
  split at h
  · rename_i e hfind
    cases h
    have hv : e.1 = v := by simpa using List.find?_some hfind
    subst hv
    exact List.mem_of_find?_eq_some hfind
  · cases h

omit [DecidableEq α] in
theorem tableDecode_ok {text : String} {v : α} (h : tableDecode table text = .ok v) :
    ∃ e ∈ table, e.2 = text := by
  unfold tableDecode at h
  split at h
  · rename_i e hfind
    exact ⟨e, List.mem_of_find?_eq_some hfind, by simpa using List.find?_some hfind⟩
  · cases h

theorem LawfulTable.codec (h : LawfulTable table) : LawfulCodec (tableEncode table) (tableDecode table) where
  oneLine v text hv := (h _ (mem_of_tableEncode hv)).1
  trimmed v text hv := (h _ (mem_of_tableEncode hv)).2.1
  roundTrip v text hv := by
    simp only [tableDecode, (h _ (mem_of_tableEncode hv)).2.2.1]
  truncated v text n start v' hv hn hstart hdecode := by
    obtain ⟨e, he, htext⟩ := tableDecode_ok hdecode
    obtain ⟨rest, hrest⟩ := trimEnd_prefix start
    have htake : utf8 e.2 ++ utf8 rest = (utf8 text).take n := by
      rw [← utf8_of_fromUtf8 hstart, htext, ← utf8_append, ← hrest]
    have heq : e.2 = text := by
      refine (h _ (mem_of_tableEncode hv)).2.2.2 e he ?_
      exact (List.prefix_append _ _).trans (htake ▸ List.take_prefix n _)
    have hlen := congrArg List.length htake
    rw [heq, List.length_append, List.length_take] at hlen
    omega

end Table

/-- The JSON library on tables of texts. -/
def SerdeJson.ofTables (hellos : List (Hello × String)) (prompts : List (Prompt × String))
    (verdicts : List (Verdict × String)) (responses : List (Response × String)) : SerdeJson where
  responseToString := tableEncode responses
  promptToString := tableEncode prompts
  verdictToString := tableEncode verdicts
  helloFromStr := tableDecode hellos
  promptFromStr := tableDecode prompts
  verdictFromStr := tableDecode verdicts

theorem SerdeJson.ofTables_lawful {hellos : List (Hello × String)} {prompts : List (Prompt × String)}
    {verdicts : List (Verdict × String)} {responses : List (Response × String)}
    (hprompts : LawfulTable prompts) (hverdicts : LawfulTable verdicts) :
    (SerdeJson.ofTables hellos prompts verdicts responses).Lawful :=
  ⟨hprompts.codec, hverdicts.codec⟩

end Sudix
