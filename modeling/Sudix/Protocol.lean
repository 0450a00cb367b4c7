import Mathlib.Data.List.Basic

/-! The wire types between the client, the broker and the approval agents: one line of JSON for each
message. The JSON text of a value is produced and read by third-party code (`SerdeJson`); the
framing around it, a trailing newline on the way out and `trim_end` on the way in, is the
repository's. -/

namespace Sudix

abbrev Uid := UInt32

/-- An I/O failure, as the text it is displayed with. -/
abbrev IoError := String

structure Request where
  argv : List String
  cwd : String
  reason : String
  otp : Option String
  deriving DecidableEq

inductive Response where
  | approved (exitCode : Int32) (stdout stderr : String)
  | denied (why : String)
  | error (why : String)
  deriving DecidableEq

/-- The first line of every connection. -/
inductive Hello where
  | command (req : Request)
  | registerAgent
  deriving DecidableEq

/-- The displayable part of a request: the one-time code is left out. -/
structure Prompt where
  argv : List String
  cwd : String
  reason : String
  deriving DecidableEq

inductive Verdict where
  | allow
  | deny
  | error (why : String)
  deriving DecidableEq

/-- The JSON encoders and decoders derived for the message types. -/
structure SerdeJson where
  responseToString : Response → Except String String
  promptToString : Prompt → Except String String
  verdictToString : Verdict → Except String String
  helloFromStr : String → Except String Hello
  promptFromStr : String → Except String Prompt
  verdictFromStr : String → Except String Verdict

/-- The characters with the Unicode property `White_Space`. -/
def isWhitespace (c : Char) : Bool :=
  (9 ≤ c.toNat && c.toNat ≤ 13) || c.toNat == 0x20 || c.toNat == 0x85 || c.toNat == 0xA0 ||
  c.toNat == 0x1680 || (0x2000 ≤ c.toNat && c.toNat ≤ 0x200A) || c.toNat == 0x2028 ||
  c.toNat == 0x2029 || c.toNat == 0x202F || c.toNat == 0x205F || c.toNat == 0x3000

def trimEnd (s : String) : String :=
  String.ofList (s.toList.reverse.dropWhile isWhitespace).reverse

/-- The bytes of a string on the wire. -/
def utf8 (s : String) : List UInt8 := s.toUTF8.data.toList

/-- The string a sequence of bytes encodes, if it is valid UTF-8. -/
def fromUtf8 (bytes : List UInt8) : Option String := String.fromUTF8? ⟨bytes.toArray⟩

/-- The byte that ends a line. -/
def newline : UInt8 := 10

variable (J : SerdeJson)

def Response.toLine (resp : Response) : Except String String :=
  (J.responseToString resp).map (· ++ "\n")

def Prompt.toLine (p : Prompt) : Except String String := (J.promptToString p).map (· ++ "\n")

def Verdict.toLine (v : Verdict) : Except String String := (J.verdictToString v).map (· ++ "\n")

def Hello.fromLine (line : String) : Except String Hello := J.helloFromStr (trimEnd line)

def Prompt.fromLine (line : String) : Except String Prompt := J.promptFromStr (trimEnd line)

def Verdict.fromLine (line : String) : Except String Verdict := J.verdictFromStr (trimEnd line)

end Sudix
