import Sudix.JsonGrammar
import Sudix.Audit

/-! The encoders and decoders derived for the wire types and the audit entry, on JSON values. An
optional field that is `None` is left out and read back from nothing; the payload of an internally
tagged enum shares the object with its tag. Fields are found by name, or in order in an array; a
decoder ignores fields it does not know and refuses one that comes twice. -/

namespace Sudix

open JsonText

def fieldValues (name : String) (members : List (String × Json)) : List Json :=
  (members.filter fun m => m.1 = name).map Prod.snd

section

variable {α : Type} (decode : Json → Option α) (name : String) (members : List (String × Json))

def field : Option α :=
  match fieldValues name members with
  | [v] => decode v
  | _ => none

/-- An optional field under `#[serde(default)]`. -/
def defaultedField : Option (Option α) :=
  match fieldValues name members with
  | [] | [.null] => some none
  | [v] => (decode v).map some
  | _ => none

end

def structMembers (names : List String) : Json → Option (List (String × Json))
  | .obj members => some members
  | .arr items => if items.length ≤ names.length then some (names.zip items) else none
  | _ => none

/-- The variant named by the tag, and what stands beside the tag. -/
def untag (tag : String) : Json → Option (String × Json)
  | .obj members =>
      match fieldValues tag members with
      | [.str variant] => some (variant, .obj (members.filter fun m => m.1 ≠ tag))
      | _ => none
  | .arr (.str variant :: items) => some (variant, .arr items)
  | _ => none

/-- What may stand beside the tag of a variant without fields. -/
def unitVariant : Json → Option Unit
  | .obj _ | .arr [] => some ()
  | _ => none

def decodeString : Json → Option String
  | .str s => some s
  | _ => none

def encodeStrings (strings : List String) : Json := .arr (strings.map .str)

def decodeStrings : Json → Option (List String)
  | .arr items => items.mapM decodeString
  | _ => none

def encodeI32 (n : Int32) : Json := .int n.toInt

def decodeI32 : Json → Option Int32
  | .int n => if -2 ^ 31 ≤ n ∧ n < 2 ^ 31 then some (Int32.ofInt n) else none
  | _ => none

def Request.members (req : Request) : List (String × Json) :=
  [("argv", encodeStrings req.argv), ("cwd", .str req.cwd), ("reason", .str req.reason)] ++
    (req.otp.map fun code => ("otp", Json.str code)).toList

def Request.toJson (req : Request) : Json := .obj req.members

def Request.ofJson (v : Json) : Option Request := do
  let members ← structMembers ["argv", "cwd", "reason", "otp"] v
  let argv ← field decodeStrings "argv" members
  let cwd ← field decodeString "cwd" members
  let reason ← field decodeString "reason" members
  let otp ← defaultedField decodeString "otp" members
  some { argv, cwd, reason, otp }

def Response.toJson : Response → Json
  | .approved exitCode stdout stderr =>
      .obj [("decision", .str "approved"), ("exit_code", encodeI32 exitCode), ("stdout", .str stdout),
        ("stderr", .str stderr)]
  | .denied why => .obj [("decision", .str "denied"), ("why", .str why)]
  | .error why => .obj [("decision", .str "error"), ("why", .str why)]

/-- The fields of the variants that only say why. -/
def decodeWhy (v : Json) : Option String := do
  let members ← structMembers ["why"] v
  field decodeString "why" members

def Response.ofJson (v : Json) : Option Response := do
  let (variant, rest) ← untag "decision" v
  match variant with
  | "approved" => do
      let members ← structMembers ["exit_code", "stdout", "stderr"] rest
      let exitCode ← field decodeI32 "exit_code" members
      let stdout ← field decodeString "stdout" members
      let stderr ← field decodeString "stderr" members
      some (.approved exitCode stdout stderr)
  | "denied" => (decodeWhy rest).map .denied
  | "error" => (decodeWhy rest).map .error
  | _ => none

def Hello.toJson : Hello → Json
  | .command req => .obj (("kind", .str "command") :: req.members)
  | .registerAgent => .obj [("kind", .str "register_agent")]

def Hello.ofJson (v : Json) : Option Hello := do
  let (variant, rest) ← untag "kind" v
  match variant with
  | "command" => (Request.ofJson rest).map .command
  | "register_agent" => (unitVariant rest).map fun _ => .registerAgent
  | _ => none

def Prompt.toJson (p : Prompt) : Json :=
  .obj [("argv", encodeStrings p.argv), ("cwd", .str p.cwd), ("reason", .str p.reason)]

def Prompt.ofJson (v : Json) : Option Prompt := do
  let members ← structMembers ["argv", "cwd", "reason"] v
  let argv ← field decodeStrings "argv" members
  let cwd ← field decodeString "cwd" members
  let reason ← field decodeString "reason" members
  some { argv, cwd, reason }

def Verdict.toJson : Verdict → Json
  | .allow => .obj [("verdict", .str "allow")]
  | .deny => .obj [("verdict", .str "deny")]
  | .error why => .obj [("verdict", .str "error"), ("why", .str why)]

def Verdict.ofJson (v : Json) : Option Verdict := do
  let (variant, rest) ← untag "verdict" v
  match variant with
  | "allow" => (unitVariant rest).map fun _ => .allow
  | "deny" => (unitVariant rest).map fun _ => .deny
  | "error" => (decodeWhy rest).map .error
  | _ => none

/-- An audit entry is only ever written. -/
def Entry.toJson (entry : Entry) : Json :=
  .obj ([("unix_secs", .int entry.unixSecs), ("caller_uid", .int entry.callerUid.toNat),
    ("argv", encodeStrings entry.argv), ("cwd", .str entry.cwd), ("reason", .str entry.reason),
    ("outcome", .str entry.outcome)] ++ (entry.exitCode.map fun code => ("exit_code", encodeI32 code)).toList)

/-- The depth of arrays and objects that serde_json reads. -/
def recursionLimit : Nat := 127

/-- What the lines of a type rest on: an object within the limits of the JSON library, and the
value back from it. -/
structure DerivedCodec {α : Type} (toJson : α → Json) (ofJson : Json → Option α) : Prop where
  object : ∀ m, ∃ members, toJson m = .obj members
  fits : ∀ m, (toJson m).Fits recursionLimit
  roundTrip : ∀ m, ofJson (toJson m) = some m

@[simp] theorem decodeStrings_encodeStrings (strings : List String) :
    decodeStrings (encodeStrings strings) = some strings := by
  simp only [decodeStrings, encodeStrings]
  induction strings with
  | nil => rfl
  | cons s strings ih => simp [decodeString, ih]

@[simp] theorem decodeI32_encodeI32 (n : Int32) : decodeI32 (encodeI32 n) = some n := by
  have hlow := n.le_toInt
  have hhigh := n.toInt_lt
  simp only [decodeI32, encodeI32]
  rw [if_pos ⟨hlow, hhigh⟩, Int32.ofInt_toInt]

@[simp] theorem fits_encodeStrings (depth : Nat) (strings : List String) :
    (encodeStrings strings).Fits (depth + 1) := by
  simp [encodeStrings, Json.Fits]

@[simp] theorem fits_encodeI32 (depth : Nat) (n : Int32) : (encodeI32 n).Fits depth := by
  have hlow := n.le_toInt
  have hhigh := n.toInt_lt
  simp only [encodeI32, Json.Fits]
  omega

theorem request_codec : DerivedCodec Request.toJson Request.ofJson where
  object req := ⟨_, rfl⟩
  fits req := by
    rcases req with ⟨argv, cwd, reason, _ | code⟩ <;>
      simp [Request.toJson, Request.members, recursionLimit, Json.Fits]
  roundTrip req := by
    rcases req with ⟨argv, cwd, reason, _ | code⟩ <;>
      simp [Request.toJson, Request.members, Request.ofJson, structMembers, field, defaultedField, fieldValues,
        decodeString]

theorem response_codec : DerivedCodec Response.toJson Response.ofJson where
  object resp := by cases resp <;> exact ⟨_, rfl⟩
  fits resp := by cases resp <;> simp [Response.toJson, recursionLimit, Json.Fits]
  roundTrip resp := by
    cases resp <;>
      simp [Response.toJson, Response.ofJson, decodeWhy, untag, structMembers, field, fieldValues, decodeString]

/-- No field of a request is named as the tag it shares the object with. -/
theorem untag_command (req : Request) : untag "kind" (Hello.toJson (.command req)) =
    some ("command", req.toJson) := by
  rcases req with ⟨argv, cwd, reason, _ | code⟩ <;>
    simp [Hello.toJson, Request.toJson, Request.members, untag, fieldValues]

theorem hello_codec : DerivedCodec Hello.toJson Hello.ofJson where
  object hello := by cases hello <;> exact ⟨_, rfl⟩
  fits hello := by
    cases hello with
    | command req =>
        have hreq : ∀ m ∈ req.members, m.2.Fits 126 := request_codec.fits req
        exact List.forall_mem_cons.mpr ⟨trivial, hreq⟩
    | registerAgent => simp [Hello.toJson, recursionLimit, Json.Fits]
  roundTrip hello := by
    cases hello with
    | command req => simp [Hello.ofJson, untag_command, request_codec.roundTrip]
    | registerAgent => simp [Hello.toJson, Hello.ofJson, untag, fieldValues, unitVariant]

theorem prompt_codec : DerivedCodec Prompt.toJson Prompt.ofJson where
  object p := ⟨_, rfl⟩
  fits p := by simp [Prompt.toJson, recursionLimit, Json.Fits]
  roundTrip p := by simp [Prompt.toJson, Prompt.ofJson, structMembers, field, fieldValues, decodeString]

theorem verdict_codec : DerivedCodec Verdict.toJson Verdict.ofJson where
  object v := by cases v <;> exact ⟨_, rfl⟩
  fits v := by cases v <;> simp [Verdict.toJson, recursionLimit, Json.Fits]
  roundTrip v := by
    cases v <;>
      simp [Verdict.toJson, Verdict.ofJson, decodeWhy, untag, structMembers, field, fieldValues, decodeString,
        unitVariant]

theorem Entry.fits_toJson {entry : Entry} (h : entry.unixSecs < 2 ^ 64) :
    entry.toJson.Fits recursionLimit := by
  have huid := entry.callerUid.toNat_lt
  cases hexit : entry.exitCode <;> simp [Entry.toJson, hexit, recursionLimit, Json.Fits] <;> omega

end Sudix
