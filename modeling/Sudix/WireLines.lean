import Sudix.JsonCompact
import Sudix.Serde
import Sudix.Wire

/-! Every message and every audit entry is one line, whatever its strings hold: the text of a value
has no control character, so that the newline after it is the only one. The audit log is a file of
bytes here, and a write to it can be short, be interrupted or fail. -/

namespace Sudix

open JsonText

theorem newline_not_mem_utf8 {s : String} (h : ∀ c ∈ s.toList, 0x20 ≤ c.toNat) : newline ∉ utf8 s := by
  rw [newline_mem_utf8]
  intro hmem
  exact absurd (h _ hmem) (by decide)

/-- The text of an object ends in a brace. -/
theorem trimEnd_of_object {members : List (String × Json)} {text : String}
    (h : Text (.obj members) text.toList) : trimEnd text = text := by
  obtain ⟨body, hbody⟩ := h.object_last
  have hbrace : isWhitespace '\x7d' = false := by decide
  rw [trimEnd, hbody, List.reverse_append, List.reverse_singleton, List.singleton_append,
    List.dropWhile_cons_of_neg (by simp [hbrace]), List.reverse_cons, List.reverse_reverse, ← hbody,
    String.ofList_toList]

/-- serde_json, with its message for JSON that is not a value of the wanted type. -/
structure SerdeText where
  codec : Codec
  mismatch : String → String

def SerdeText.Standard (T : SerdeText) : Prop := T.codec.Standard recursionLimit

variable (T : SerdeText)

section

variable {α : Type}

def SerdeText.toString (toJson : α → Json) (m : α) : Except String String := T.codec.write (toJson m)

def SerdeText.fromStr (ofJson : Json → Option α) (text : String) : Except String α :=
  match T.codec.read text with
  | .error e => .error e
  | .ok v => (ofJson v).elim (.error (T.mismatch text)) .ok

end

def SerdeText.json : SerdeJson where
  responseToString := T.toString Response.toJson
  promptToString := T.toString Prompt.toJson
  verdictToString := T.toString Verdict.toJson
  helloFromStr := T.fromStr Hello.ofJson
  promptFromStr := T.fromStr Prompt.ofJson
  verdictFromStr := T.fromStr Verdict.ofJson

def Request.toLine (req : Request) : Except String String := (T.toString Request.toJson req).map (· ++ "\n")

def Request.fromLine (line : String) : Except String Request := T.fromStr Request.ofJson (trimEnd line)

def Response.fromLine (line : String) : Except String Response := T.fromStr Response.ofJson (trimEnd line)

def Hello.toLine (hello : Hello) : Except String String := (T.toString Hello.toJson hello).map (· ++ "\n")

/-- One newline, as the last byte. -/
def EndsOnly (line : String) : Prop :=
  (utf8 line).count newline = 1 ∧ (utf8 line).getLast? = some newline

/-- Every value is one line, and is read back from it with the newline and without. -/
def OneLine {α : Type} (toLine : α → Except String String) (fromLine : String → Except String α) : Prop :=
  ∀ m, ∃ text, toLine m = .ok (text ++ "\n") ∧ EndsOnly (text ++ "\n") ∧
    fromLine (text ++ "\n") = .ok m ∧ fromLine text = .ok m

variable {T}

/-- The text of an object, and what `SerdeText.Standard` says of it. -/
theorem SerdeText.Standard.object (hT : T.Standard) {v : Json} {members : List (String × Json)}
    (hobj : v = .obj members) (hfits : v.Fits recursionLimit) :
    ∃ text, T.codec.write v = .ok text ∧ T.codec.read text = .ok v ∧ newline ∉ utf8 text ∧
      trimEnd text = text := by
  subst hobj
  obtain ⟨text, hwrite, htext⟩ := hT.writes _ hfits
  exact ⟨text, hwrite, hT.reads _ text hfits htext, newline_not_mem_utf8 htext.printable,
    trimEnd_of_object htext⟩

theorem endsOnly_of_not_mem {text : String} (h : newline ∉ utf8 text) : EndsOnly (text ++ "\n") := by
  have hbytes : utf8 (text ++ "\n") = utf8 text ++ [newline] := by rw [utf8_append, utf8_newline]
  constructor
  · rw [hbytes, List.count_append, List.count_eq_zero_of_not_mem h]
    rfl
  · rw [hbytes, List.getLast?_concat]

theorem DerivedCodec.oneLine {α : Type} {toJson : α → Json} {ofJson : Json → Option α}
    (hcodec : DerivedCodec toJson ofJson) (hT : T.Standard) :
    OneLine (fun m => (T.toString toJson m).map (· ++ "\n")) fun line => T.fromStr ofJson (trimEnd line) := by
  intro m
  obtain ⟨members, hobj⟩ := hcodec.object m
  obtain ⟨text, hwrite, hread, hnewline, htrim⟩ := hT.object hobj (hcodec.fits m)
  have hfrom : T.fromStr ofJson text = .ok m := by
    simp only [SerdeText.fromStr, hread, hcodec.roundTrip m, Option.elim_some]
  refine ⟨text, ?_, endsOnly_of_not_mem hnewline, ?_, ?_⟩
  · show (T.codec.write (toJson m)).map (· ++ "\n") = .ok (text ++ "\n")
    rw [hwrite]
    rfl
  · show T.fromStr ofJson (trimEnd (text ++ "\n")) = .ok m
    rw [trimEnd_append_newline, htrim, hfrom]
  · show T.fromStr ofJson (trimEnd text) = .ok m
    rw [htrim, hfrom]

/-- What one `write` to the log does. -/
inductive WriteResult where
  | wrote (count : Nat)
  | interrupted
  | failed (e : IoError)

/-- `Write::write_all` on the log: what it returns and the bytes of the log then, unless a write does
not return. -/
def writeAll (log : List UInt8) : List WriteResult → List UInt8 → Option (Except IoError Unit × List UInt8)
  | _, [] => some (.ok (), log)
  | [], _ :: _ => none
  | .wrote 0 :: _, _ :: _ => some (.error "failed to write whole buffer", log)
  | .wrote (count + 1) :: more, byte :: bytes =>
      writeAll (log ++ byte :: bytes.take count) more (bytes.drop count)
  | .interrupted :: more, byte :: bytes => writeAll log more (byte :: bytes)
  | .failed e :: _, _ :: _ => some (.error e, log)

/-- The arguments of one `audit::record`, and what the clock and the file system do during it. -/
structure RecordCall where
  callerUid : Uid
  req : Request
  outcome : Outcome
  sinceEpoch : Option UInt64
  opened : Except IoError Unit
  writes : List WriteResult

def RecordCall.entry (call : RecordCall) : Entry :=
  Entry.of ((call.sinceEpoch.map UInt64.toNat).getD 0) call.callerUid call.req call.outcome

variable (T) in
def record (call : RecordCall) (log : List UInt8) : Option (Except IoError Unit × List UInt8) :=
  match T.toString Entry.toJson call.entry with
  | .error e => some (.error e, log)
  | .ok text =>
      match call.opened with
      | .error e => some (.error e, log)
      | .ok () => writeAll log call.writes (utf8 (text ++ "\n"))

variable (T) in
/-- One call after the other, as long as each returns. -/
def recordAll : List RecordCall → List UInt8 → Option (List (Except IoError Unit) × List UInt8)
  | [], log => some ([], log)
  | call :: calls, log => do
      let (result, log) ← record T call log
      let (results, log) ← recordAll calls log
      some (result :: results, log)

/-- The part of the bytes that was written: all of them, or a proper start. -/
def Written (bytes : List UInt8) : Except IoError Unit → List UInt8 → Prop
  | .ok (), part => part = bytes
  | .error _, part => ∃ k < bytes.length, part = bytes.take k

theorem Written.cons {byte : UInt8} {bytes part : List UInt8} {result : Except IoError Unit} {count : Nat}
    (h : Written (bytes.drop count) result part) :
    Written (byte :: bytes) result (byte :: bytes.take count ++ part) := by
  cases result with
  | ok =>
      show byte :: bytes.take count ++ part = byte :: bytes
      rw [show part = bytes.drop count from h, List.cons_append, List.take_append_drop]
  | error e =>
      obtain ⟨k, hk, rfl⟩ := h
      rw [List.length_drop] at hk
      refine ⟨count + k + 1, ?_, ?_⟩
      · rw [List.length_cons]
        omega
      · rw [List.take_succ_cons, List.take_add, List.cons_append]

theorem writeAll_written {log log' bytes : List UInt8} {writes : List WriteResult}
    {result : Except IoError Unit} (h : writeAll log writes bytes = some (result, log')) :
    ∃ part, log' = log ++ part ∧ Written bytes result part := by
  fun_induction writeAll log writes bytes with
  | case1 =>
      cases h
      exact ⟨[], (List.append_nil _).symm, rfl⟩
  | case2 => cases h
  | case3 =>
      cases h
      exact ⟨[], (List.append_nil _).symm, 0, Nat.succ_pos _, rfl⟩
  | case4 log count more byte bytes ih =>
      obtain ⟨part, hlog, hpart⟩ := ih h
      exact ⟨byte :: bytes.take count ++ part, by rw [hlog, List.append_assoc], hpart.cons⟩
  | case5 log more byte bytes ih => exact ih h
  | case6 =>
      cases h
      exact ⟨[], (List.append_nil _).symm, 0, Nat.succ_pos _, rfl⟩

variable (T) in
/-- The line of an audit entry. -/
def EntryLine (entry : Entry) (line : String) : Prop :=
  ∃ text, line = text ++ "\n" ∧ EndsOnly line ∧ T.codec.read text = .ok entry.toJson

theorem RecordCall.unixSecs_lt (call : RecordCall) : call.entry.unixSecs < 2 ^ 64 := by
  show (call.sinceEpoch.map UInt64.toNat).getD 0 < 2 ^ 64
  cases call.sinceEpoch with
  | none => simp
  | some secs => exact secs.toNat_lt

/-- What one call leaves in the log: its line, or a start of it when it failed. -/
theorem record_appends (hT : T.Standard) {call : RecordCall} {log log' : List UInt8}
    {result : Except IoError Unit} (h : record T call log = some (result, log')) :
    ∃ line part, EntryLine T call.entry line ∧ log' = log ++ part ∧ Written (utf8 line) result part := by
  obtain ⟨text, hwrite, hread, hnewline, _⟩ := hT.object rfl (Entry.fits_toJson call.unixSecs_lt)
  have hends := endsOnly_of_not_mem hnewline
  have hline : EntryLine T call.entry (text ++ "\n") := ⟨text, rfl, hends, hread⟩
  have hpos : 0 < (utf8 (text ++ "\n")).length := by
    rw [utf8_append, utf8_newline, List.length_append]
    exact Nat.succ_pos _
  rw [record, show T.toString Entry.toJson call.entry = .ok text from hwrite] at h
  cases hopened : call.opened with
  | error e =>
      rw [hopened] at h
      cases h
      exact ⟨_, [], hline, (List.append_nil _).symm, 0, hpos, rfl⟩
  | ok =>
      rw [hopened] at h
      obtain ⟨part, hlog, hpart⟩ := writeAll_written h
      exact ⟨_, part, hline, hlog, hpart⟩

theorem EndsOnly.count_written {line : String} (h : EndsOnly line) {result : Except IoError Unit}
    {part : List UInt8} (hpart : Written (utf8 line) result part) :
    part.count newline = if result.isOk then 1 else 0 := by
  cases result with
  | ok =>
      rw [show part = utf8 line from hpart]
      exact h.1
  | error e =>
      obtain ⟨k, hk, rfl⟩ := hpart
      obtain ⟨start, hstart⟩ := List.getLast?_eq_some_iff.mp h.2
      have hcount := h.1
      rw [hstart, List.count_append, List.count_singleton_self] at hcount
      rw [hstart, List.length_append, List.length_singleton] at hk
      have hnone : newline ∉ start := List.count_eq_zero.mp (by omega)
      rw [hstart, List.take_append_of_le_length (by omega)]
      apply List.count_eq_zero_of_not_mem
      exact fun hmem => hnone (List.mem_of_mem_take hmem)

variable (T) in
/-- What a call with this result has left in the log is its line, or a proper start of it when it failed. -/
def LeftPart (made : RecordCall × Except IoError Unit) (part : List UInt8) : Prop :=
  ∃ line, EntryLine T made.1.entry line ∧ Written (utf8 line) made.2 part

/-- What the calls leave in the log, one after the other. -/
theorem recordAll_appends (hT : T.Standard) {calls : List RecordCall} {log log' : List UInt8}
    {results : List (Except IoError Unit)} (h : recordAll T calls log = some (results, log')) :
    ∃ added, log' = log ++ added ∧ added.count newline = results.countP Except.isOk ∧
      ((∀ result ∈ results, result = .ok ()) →
        ∃ lines, List.Forall₂ (fun call line => EntryLine T call.entry line) calls lines ∧
          added = lines.flatMap utf8) ∧
      ∃ parts, added = parts.flatten ∧ List.Forall₂ (LeftPart T) (calls.zip results) parts := by
  induction calls generalizing log results with
  | nil =>
      cases h
      exact ⟨[], (List.append_nil _).symm, rfl, fun _ => ⟨[], .nil, rfl⟩, [], rfl, .nil⟩
  | cons call calls ih =>
      simp only [recordAll, Option.bind_eq_bind, Option.bind_eq_some_iff, Prod.exists, Option.some.injEq,
        Prod.mk.injEq] at h
      obtain ⟨result, log₁, hrecord, results, log₂, hrest, rfl, rfl⟩ := h
      obtain ⟨line, part, hline, rfl, hpart⟩ := record_appends hT hrecord
      obtain ⟨added, rfl, hcount, hlines, parts, hadded, hparts⟩ := ih hrest
      obtain ⟨_, _, hends, _⟩ := id hline
      refine ⟨part ++ added, List.append_assoc .., ?_, ?_, part :: parts, ?_, .cons ⟨line, hline, hpart⟩ hparts⟩
      · rw [List.count_append, hends.count_written hpart, hcount, List.countP_cons, Nat.add_comm]
      · intro hok
        obtain ⟨rfl, hmore⟩ := List.forall_mem_cons.mp hok
        obtain ⟨lines, hforall, rfl⟩ := hlines hmore
        have hpart : part = utf8 line := hpart
        exact ⟨line :: lines, .cons hline hforall, by rw [List.flatMap_cons, hpart]⟩
      · rw [hadded, List.flatten_cons]

/-- No string in a message or in an audit entry makes a line of its own. -/
theorem no_text_forges_line (hT : T.Standard) :
    (OneLine (Request.toLine T) (Request.fromLine T) ∧
      OneLine (Response.toLine T.json) (Response.fromLine T) ∧
      OneLine (Hello.toLine T) (Hello.fromLine T.json) ∧
      OneLine (Prompt.toLine T.json) (Prompt.fromLine T.json) ∧
      OneLine (Verdict.toLine T.json) (Verdict.fromLine T.json)) ∧
    ∀ (calls : List RecordCall) (log log' : List UInt8) (results : List (Except IoError Unit)),
      recordAll T calls log = some (results, log') →
      ∃ added, log' = log ++ added ∧ added.count newline = results.countP Except.isOk ∧
        ((∀ result ∈ results, result = .ok ()) →
          ∃ lines, List.Forall₂ (fun call line => EntryLine T call.entry line) calls lines ∧
            added = lines.flatMap utf8) ∧
        ∃ parts, added = parts.flatten ∧ List.Forall₂ (LeftPart T) (calls.zip results) parts :=
  ⟨⟨request_codec.oneLine hT, response_codec.oneLine hT, hello_codec.oneLine hT, prompt_codec.oneLine hT,
    verdict_codec.oneLine hT⟩, fun _ _ _ _ h => recordAll_appends hT h⟩

def compactText : SerdeText := ⟨compact, fun _ => "invalid type"⟩

theorem compactText_standard : compactText.Standard := compact_standard recursionLimit

/-- A request whose strings hold quotes, newlines and what looks like another message. -/
def forgingRequest : Request where
  argv := ["id", "\n\x7b\"kind\":\"register_agent\"\x7d\n"]
  cwd := "/tmp\\\t\n "
  reason := "\"\r\n\u2028\x00 "
  otp := none

def forgingCall (writes : List WriteResult) : RecordCall where
  callerUid := 1000
  req := forgingRequest
  outcome := .executed (-1)
  sinceEpoch := some 1700000000
  opened := .ok ()
  writes := writes

/-- Two entries, the first of them written in two pieces. -/
def wholeCalls : List RecordCall := [forgingCall [.wrote 7, .interrupted, .wrote 500], forgingCall [.wrote 500]]

/-- The disk is full after seven bytes of the first entry, and has room again for the second. -/
def halfCalls : List RecordCall :=
  [forgingCall [.wrote 7, .failed "No space left on device"], forgingCall [.wrote 500]]

theorem forgingRequest_lines :
    (∃ text, (Hello.command forgingRequest).toLine compactText = .ok (text ++ "\n") ∧
      EndsOnly (text ++ "\n") ∧
      Hello.fromLine compactText.json (text ++ "\n") = .ok (.command forgingRequest) ∧
      Hello.fromLine compactText.json text = .ok (.command forgingRequest)) ∧
    ∃ results added, recordAll compactText wholeCalls [] = some (results, [] ++ added) ∧
      results = [.ok (), .ok ()] ∧
      ∃ lines, List.Forall₂ (fun call line => EntryLine compactText call.entry line) wholeCalls lines ∧
        added = lines.flatMap utf8 := by
  have hlines := no_text_forges_line compactText_standard
  refine ⟨hlines.1.2.2.1 (.command forgingRequest), ?_⟩
  have hok : (recordAll compactText wholeCalls []).map Prod.fst = some [.ok (), .ok ()] := by decide +kernel
  obtain ⟨⟨results, log⟩, hlog, rfl⟩ := Option.map_eq_some_iff.mp hok
  obtain ⟨_, rfl, _, hadded, -⟩ := hlines.2 _ _ _ _ hlog
  exact ⟨_, log, hlog, rfl, hadded (by decide)⟩

theorem half_written_entry :
    ∃ results log, recordAll compactText halfCalls [] = some (results, log) ∧
      ¬ ∃ lines : List String, lines.length = 2 ∧ (∀ line ∈ lines, EndsOnly line) ∧
        log = [] ++ lines.flatMap utf8 := by
  have hone : (recordAll compactText halfCalls []).map (fun r => r.2.count newline) = some 1 := by decide +kernel
  obtain ⟨⟨results, log⟩, hlog, hcount⟩ := Option.map_eq_some_iff.mp hone
  refine ⟨results, log, hlog, ?_⟩
  rintro ⟨lines, hlen, hends, rfl⟩
  match lines, hlen with
  | [line, line'], _ =>
      rw [List.forall_mem_cons] at hends
      have hfirst := hends.1.1
      have hsecond := (hends.2 line' List.mem_cons_self).1
      simp only [List.nil_append, List.flatMap_cons, List.flatMap_nil, List.append_nil,
        List.count_append] at hcount
      omega

end Sudix
