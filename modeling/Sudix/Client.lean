import Sudix.ClientArgs
import Sudix.ConcurrentProgram
import Sudix.Protocol

/-! The client as a program: it reads its arguments, sends one request over a new connection, waits for the line
that answers it and ends as the answer says. What it can have done at any point, and how it ends, is its
specification. -/

namespace Sudix

open Concurrent

/-- The JSON encoder and decoder on the client's side. -/
structure ClientJson where
  helloToString : Hello → Except String String
  responseFromStr : String → Except String Response

/-- What the client asks of the system. `readLine` is `read_line` before it checks the encoding: the bytes up to a
newline, or up to the end of the stream. -/
inductive ClientOp where
  | socketVar
  | currentDir
  | connect (path : String)
  | writeAll (bytes : List UInt8)
  | flush
  | readLine
  | print (text : String)
  | eprint (text : String)

/-- An unset `SUDIX_SOCKET` and an unknown current directory are `none`; the directory is decoded lossily. -/
@[reducible] def ClientAnswer : ClientOp → Type
  | .socketVar => Option String
  | .currentDir => Option String
  | .connect _ => Except IoError Unit
  | .writeAll _ => Except IoError Unit
  | .flush => Except IoError Unit
  | .readLine => Except IoError (List UInt8)
  | .print _ => Unit
  | .eprint _ => Unit

@[reducible] def clientSig : Signature := ⟨ClientOp, ClientAnswer⟩

abbrev ClientProg (α : Type) := Program clientSig α

def clientCall (op : ClientOp) : ClientProg (ClientAnswer op) := Program.perform (S := clientSig) op

theorem meets_clientCall_bind {α : Type} {op : ClientOp} {f : ClientAnswer op → ClientProg α}
    {pre : History clientSig → ClientOp → Prop} {post : History clientSig → α → Prop} {past : History clientSig} :
    (clientCall op >>= f).Meets pre post past ↔
      pre past op ∧ ∀ answer : ClientAnswer op, (f answer).Meets pre post (past ++ [⟨op, answer⟩]) := Iff.rfl

variable (J : ClientJson)

def helloToLine (hello : Hello) : Except String String := (J.helloToString hello).map (· ++ "\n")

def responseFromLine (line : String) : Except String Response := J.responseFromStr (trimEnd line)

namespace Client

def help : String :=
"sudix — request privileged command execution via the sudix broker.

Usage:
    sudix [--reason TEXT] [--otp CODE] [--] <command> [args...]
    sudix -h | --help

Options:
    --reason TEXT   Human-readable justification shown to the approver.
    --otp CODE      One-time code (when the broker uses TOTP approval).
    -h, --help      Show this help and exit.

The command after `--` (or the first non-flag token) is submitted to the
broker, which gates it through policy + human approval and, if approved,
runs it as root and relays its output and exit code.

Environment:
    SUDIX_SOCKET    Broker socket path (default: /run/sudix/sudixd.sock).
"

def socketPath (var : Option String) : String := var.getD "/run/sudix/sudixd.sock"

def request (args : Args) (dir : Option String) : Request := ⟨args.argv, dir.getD ".", args.reason, args.otp⟩

/-- The end of `run`: the response is shown, and the exit code is the command's or one of the client's own. -/
def report : Response → ClientProg (Except String Int32)
  | .approved exitCode stdout stderr => do
      clientCall (.print stdout)
      clientCall (.eprint stderr)
      return .ok exitCode
  | .denied why => do
      clientCall (.eprint ("sudix: denied: " ++ why ++ "\n"))
      return .ok 126
  | .error why => do
      clientCall (.eprint ("sudix: error: " ++ why ++ "\n"))
      return .ok 125

def run (raw : List String) : ClientProg (Except String Int32) :=
  match parseArgs raw with
  | .error e => return .error e
  | .ok none => do
      clientCall (.print help)
      return .ok 0
  | .ok (some args) => do
      let var ← clientCall .socketVar
      let dir ← clientCall .currentDir
      match ← clientCall (.connect (socketPath var)) with
      | .error e => return .error ("cannot reach broker at " ++ socketPath var ++ ": " ++ e)
      | .ok () =>
          match helloToLine J (.command (request args dir)) with
          | .error e => return .error e
          | .ok line =>
              match ← clientCall (.writeAll (utf8 line)) with
              | .error e => return .error e
              | .ok () =>
                  match ← clientCall .flush with
                  | .error e => return .error e
                  | .ok () =>
                      match ← clientCall .readLine with
                      | .error e => return .error e
                      | .ok bytes =>
                          match fromUtf8 bytes with
                          | none => return .error "stream did not contain valid UTF-8"
                          | some answer =>
                              match responseFromLine J answer with
                              | .error e => return .error e
                              | .ok resp => report resp

def u8TryFrom (code : Int32) : Option UInt8 :=
  if 0 ≤ code ∧ code ≤ 255 then some (UInt8.ofNat code.toInt.toNat) else none

def exitCode (code : Int32) : UInt8 := (u8TryFrom (code &&& 0xff)).getD 1

def main (raw : List String) : ClientProg UInt8 := do
  match ← run J raw with
  | .ok code => return exitCode code
  | .error e =>
      clientCall (.eprint ("sudix: " ++ e ++ "\n"))
      return 125

theorem toInt_and_255 (code : Int32) : (code &&& 0xff).toInt = code.toInt % 256 := by
  have hmask : (code &&& 0xff).toBitVec.toNat = code.toBitVec.toNat % 256 := by
    rw [Int32.toBitVec_and, BitVec.toNat_and]
    exact Nat.and_two_pow_sub_one_eq_mod code.toBitVec.toNat 8
  have hcode := code.toBitVec.toInt_eq_toNat_cond
  show (code &&& 0xff).toBitVec.toInt = code.toBitVec.toInt % 256
  rw [BitVec.toInt_eq_toNat_of_lt (by omega), hmask, hcode]
  split
  · omega
  · omega

/-- The exit code is the low byte of the command's, as a shell gives it: the masked code always fits. -/
theorem exitCode_toNat (code : Int32) : ((exitCode code).toNat : Int) = code.toInt % 256 := by
  have hlow := toInt_and_255 code
  have hfits : 0 ≤ code &&& 0xff ∧ code &&& 0xff ≤ 255 := by
    rw [Int32.le_iff_toInt_le, Int32.le_iff_toInt_le, hlow]
    constructor
    · show (0 : Int) ≤ _
      omega
    · show _ ≤ (255 : Int)
      omega
  rw [exitCode, u8TryFrom, if_pos hfits, hlow, Option.getD_some, UInt8.toNat_ofNat']
  omega

/-- What a response has the client print. -/
def shown : Response → History clientSig
  | .approved _ stdout stderr => [⟨.print stdout, ()⟩, ⟨.eprint stderr, ()⟩]
  | .denied why => [⟨.eprint ("sudix: denied: " ++ why ++ "\n"), ()⟩]
  | .error why => [⟨.eprint ("sudix: error: " ++ why ++ "\n"), ()⟩]

/-- The exit code `run` returns for a response. -/
def code : Response → Int32
  | .approved exitCode _ _ => exitCode
  | .denied _ => 126
  | .error _ => 125

/-- A connection has been asked for with the environment as it is. -/
def dialed (var dir : Option String) (result : Except IoError Unit) : History clientSig :=
  [⟨.socketVar, var⟩, ⟨.currentDir, dir⟩, ⟨.connect (socketPath var), result⟩]

section

variable (raw : List String)

/-- The arguments are read, and the line of their request, in this directory, is the one to send. -/
structure Composed (args : Args) (dir : Option String) (line : String) : Prop where
  parsed : parseArgs raw = .ok (some args)
  encoded : helloToLine J (.command (request args dir)) = .ok line

/-- The request has been sent whole. -/
def submitted (var dir : Option String) (line : String) : History clientSig :=
  dialed var dir (.ok ()) ++ [⟨.writeAll (utf8 line), .ok ()⟩, ⟨.flush, .ok ()⟩]

/-- The failures that end the client without a response, with their messages. -/
inductive Failed : History clientSig → String → Prop
  | usage {e} : parseArgs raw = .error e → Failed [] e
  | unreachable {args var dir e} : parseArgs raw = .ok (some args) →
      Failed (dialed var dir (.error e)) ("cannot reach broker at " ++ socketPath var ++ ": " ++ e)
  | unserializable {args var dir e} : parseArgs raw = .ok (some args) →
      helloToLine J (.command (request args dir)) = .error e → Failed (dialed var dir (.ok ())) e
  | unsent {args var dir line e} : Composed J raw args dir line →
      Failed (dialed var dir (.ok ()) ++ [⟨.writeAll (utf8 line), .error e⟩]) e
  | unflushed {args var dir line e} : Composed J raw args dir line →
      Failed (dialed var dir (.ok ()) ++ [⟨.writeAll (utf8 line), .ok ()⟩, ⟨.flush, .error e⟩]) e
  | unread {args var dir line e} : Composed J raw args dir line →
      Failed (submitted var dir line ++ [⟨.readLine, .error e⟩]) e
  | invalid {args var dir line bytes} : Composed J raw args dir line → fromUtf8 bytes = none →
      Failed (submitted var dir line ++ [⟨.readLine, .ok bytes⟩]) "stream did not contain valid UTF-8"
  | undecodable {args var dir line bytes answer e} : Composed J raw args dir line →
      fromUtf8 bytes = some answer → responseFromLine J answer = .error e →
      Failed (submitted var dir line ++ [⟨.readLine, .ok bytes⟩]) e

/-- The request has been answered with this response. -/
inductive Told : History clientSig → Response → Prop
  | intro {args var dir line bytes answer resp} : Composed J raw args dir line →
      fromUtf8 bytes = some answer → responseFromLine J answer = .ok resp →
      Told (submitted var dir line ++ [⟨.readLine, .ok bytes⟩]) resp

inductive Stage : History clientSig → ClientOp → Prop
  | help : parseArgs raw = .ok none → Stage [] (.print help)
  | socketVar {args} : parseArgs raw = .ok (some args) → Stage [] .socketVar
  | currentDir {args var} : parseArgs raw = .ok (some args) → Stage [⟨.socketVar, var⟩] .currentDir
  | connect {args var dir} : parseArgs raw = .ok (some args) →
      Stage [⟨.socketVar, var⟩, ⟨.currentDir, dir⟩] (.connect (socketPath var))
  | writeAll {args var dir line} : Composed J raw args dir line →
      Stage (dialed var dir (.ok ())) (.writeAll (utf8 line))
  | flush {args var dir line} : Composed J raw args dir line →
      Stage (dialed var dir (.ok ()) ++ [⟨.writeAll (utf8 line), .ok ()⟩]) .flush
  | readLine {args var dir line} : Composed J raw args dir line → Stage (submitted var dir line) .readLine
  | tell {own resp before e after} : Told J raw own resp → shown resp = before ++ e :: after →
      Stage (own ++ before) e.op
  | complain {own why} : Failed J raw own why → Stage own (.eprint ("sudix: " ++ why ++ "\n"))

/-- How `run` ends. -/
inductive Ran : History clientSig → Except String Int32 → Prop
  | help : parseArgs raw = .ok none → Ran [⟨.print Client.help, ()⟩] (.ok 0)
  | failed {own why} : Failed J raw own why → Ran own (.error why)
  | told {own resp} : Told J raw own resp → Ran (own ++ shown resp) (.ok (code resp))

/-- How a client ends, with its exit code. -/
inductive Done : History clientSig → UInt8 → Prop
  | help : parseArgs raw = .ok none → Done [⟨.print Client.help, ()⟩] 0
  | failed {own why} : Failed J raw own why →
      Done (own ++ [⟨.eprint ("sudix: " ++ why ++ "\n"), ()⟩]) 125
  | told {own resp} : Told J raw own resp → Done (own ++ shown resp) (exitCode (code resp))

variable {J raw}

theorem report_meets {own : History clientSig} {resp : Response} (h : Told J raw own resp) :
    (report resp).Meets (Stage J raw) (Ran J raw) own := by
  have hdone := Ran.told h
  have hfirst : ∀ op answer after, shown resp = ⟨op, answer⟩ :: after → Stage J raw own op := by
    intro op answer after hshown
    have hstage : Stage J raw (own ++ []) op := .tell (e := ⟨op, answer⟩) h hshown
    rwa [List.append_nil] at hstage
  cases resp with
  | approved exitCode stdout stderr =>
      refine meets_clientCall_bind.mpr ⟨hfirst _ () _ rfl, fun _ => ?_⟩
      refine meets_clientCall_bind.mpr ⟨.tell (e := ⟨.eprint stderr, ()⟩) h rfl, fun _ => ?_⟩
      rw [List.append_assoc]
      exact hdone
  | denied why => exact meets_clientCall_bind.mpr ⟨hfirst _ () _ rfl, fun _ => hdone⟩
  | error why => exact meets_clientCall_bind.mpr ⟨hfirst _ () _ rfl, fun _ => hdone⟩

variable (J raw)

theorem run_meets : (run J raw).Meets (Stage J raw) (Ran J raw) [] := by
  unfold run
  cases hargs : parseArgs raw with
  | error e => exact .failed (.usage hargs)
  | ok given =>
      cases given with
      | none => exact meets_clientCall_bind.mpr ⟨.help hargs, fun _ => .help hargs⟩
      | some args =>
          refine meets_clientCall_bind.mpr ⟨.socketVar hargs, fun var => ?_⟩
          refine meets_clientCall_bind.mpr ⟨.currentDir hargs, fun dir => ?_⟩
          refine meets_clientCall_bind.mpr ⟨.connect hargs, fun connected => ?_⟩
          cases connected with
          | error e => exact .failed (.unreachable hargs)
          | ok _ =>
              dsimp only
              cases hline : helloToLine J (.command (request args dir)) with
              | error e => exact .failed (.unserializable hargs hline)
              | ok line =>
                  have hcomposed : Composed J raw args dir line := ⟨hargs, hline⟩
                  refine meets_clientCall_bind.mpr ⟨.writeAll hcomposed, fun written => ?_⟩
                  cases written with
                  | error e => exact .failed (.unsent hcomposed)
                  | ok _ =>
                      refine meets_clientCall_bind.mpr ⟨.flush hcomposed, fun flushed => ?_⟩
                      cases flushed with
                      | error e => exact .failed (.unflushed hcomposed)
                      | ok _ =>
                          refine meets_clientCall_bind.mpr ⟨.readLine hcomposed, fun read => ?_⟩
                          cases read with
                          | error e => exact .failed (.unread hcomposed)
                          | ok bytes =>
                              dsimp only
                              cases htext : fromUtf8 bytes with
                              | none => exact .failed (.invalid hcomposed htext)
                              | some answer =>
                                  dsimp only
                                  cases hresp : responseFromLine J answer with
                                  | error e => exact .failed (.undecodable hcomposed htext hresp)
                                  | ok resp => exact report_meets (.intro hcomposed htext hresp)

theorem main_meets : (main J raw).Meets (Stage J raw) (Done J raw) [] := by
  refine (run_meets J raw).bind (fun _ _ => id) fun own result hran => ?_
  cases hran with
  | help hargs => exact .help hargs
  | failed hfailed => exact meets_clientCall_bind.mpr ⟨.complain hfailed, fun _ => .failed hfailed⟩
  | told htold => exact .told htold

end

/-- The bytes a client has written. -/
def written (own : History clientSig) : List UInt8 :=
  own.flatMap fun event =>
    match event with
    | ⟨.writeAll bytes, _⟩ => bytes
    | _ => []

@[simp] theorem written_append (own own' : History clientSig) : written (own ++ own') = written own ++ written own' :=
  List.flatMap_append

/-- The client has read a line and decoded this response from it. -/
def Heard (own : History clientSig) (resp : Response) : Prop :=
  ∃ bytes answer, ⟨.readLine, .ok bytes⟩ ∈ own ∧ fromUtf8 bytes = some answer ∧
    responseFromLine J answer = .ok resp

variable (raw : List String)

/-- Nothing has been written, or the line of the request. -/
def Sent (own : History clientSig) : Prop :=
  written own = [] ∨
    ∃ args dir line, Composed J raw args dir line ∧ ⟨.currentDir, dir⟩ ∈ own ∧ written own = utf8 line

variable {J raw} {own : History clientSig} {resp resp' : Response}

theorem written_shown (resp : Response) : written (shown resp) = [] := by
  cases resp with
  | approved exitCode stdout stderr => rfl
  | denied why => rfl
  | error why => rfl

/-- What is added after the line keeps it the only one. -/
theorem Sent.append {own' : History clientSig} (h : Sent J raw own) (hnone : written own' = []) :
    Sent J raw (own ++ own') := by
  have hsame : written (own ++ own') = written own := by rw [written_append, hnone, List.append_nil]
  rw [Sent, hsame]
  refine h.imp id ?_
  rintro ⟨args, dir, line, hcomposed, hdir, hwritten⟩
  exact ⟨args, dir, line, hcomposed, List.mem_append_left _ hdir, hwritten⟩

theorem Composed.sent {args : Args} {var dir : Option String} {line : String} (h : Composed J raw args dir line)
    (result : Except IoError Unit) : Sent J raw (dialed var dir (.ok ()) ++ [⟨.writeAll (utf8 line), result⟩]) :=
  .inr ⟨args, dir, line, h, by simp [dialed], by simp [dialed, written]⟩

theorem Composed.submitted_sent {args : Args} {var dir : Option String} {line : String}
    (h : Composed J raw args dir line) : Sent J raw (submitted var dir line) := by
  rw [submitted, List.append_cons]
  exact (h.sent _).append rfl

theorem Failed.sent {why : String} (h : Failed J raw own why) : Sent J raw own := by
  cases h with
  | usage _ | unreachable _ | unserializable _ _ => exact .inl rfl
  | unsent hcomposed => exact hcomposed.sent _
  | unflushed hcomposed =>
      rw [List.append_cons]
      exact (hcomposed.sent _).append rfl
  | unread hcomposed | invalid hcomposed _ | undecodable hcomposed _ _ => exact hcomposed.submitted_sent.append rfl

theorem Told.sent (h : Told J raw own resp) : Sent J raw own := by
  cases h with
  | intro hcomposed _ _ => exact hcomposed.submitted_sent.append rfl

theorem Stage.sent {op : ClientOp} (h : Stage J raw own op) : Sent J raw own := by
  cases h with
  | help _ | socketVar _ | currentDir _ | connect _ | writeAll _ => exact .inl rfl
  | flush hcomposed => exact hcomposed.sent _
  | readLine hcomposed => exact hcomposed.submitted_sent
  | @tell own resp before e after htold hshown =>
      refine htold.sent.append ?_
      have hnone := written_shown resp
      rw [hshown, written_append, List.append_eq_nil_iff] at hnone
      exact hnone.1
  | complain hfailed => exact hfailed.sent

theorem Done.sent {status : UInt8} (h : Done J raw own status) : Sent J raw own := by
  cases h with
  | help _ => exact .inl rfl
  | failed hfailed => exact hfailed.sent.append rfl
  | told htold => exact htold.sent.append (written_shown _)

/-- However far a client has come, it has sent at most the request that was typed. -/
theorem sent_of_follows {q : ClientProg UInt8} (h : (main J raw).Follows own q) : Sent J raw own := by
  have hrest := (main_meets J raw).follows h
  cases q with
  | ret status => exact hrest.sent
  | call op next => exact hrest.1.sent

theorem readLine_not_mem_shown {result : Except IoError (List UInt8)} : ⟨.readLine, result⟩ ∉ shown resp := by
  cases resp with
  | approved exitCode stdout stderr => simp [shown]
  | denied why => simp [shown]
  | error why => simp [shown]

theorem Failed.not_heard {why : String} (h : Failed J raw own why) : ¬ Heard J own resp := by
  rintro ⟨bytes, answer, hmem, htext, hresp⟩
  cases h with
  | usage _ | unreachable _ | unserializable _ _ | unsent _ | unflushed _ | unread _ =>
      simp [dialed, submitted] at hmem
  | invalid _ hinvalid =>
      obtain rfl : bytes = _ := by simpa [dialed, submitted] using hmem
      rw [htext] at hinvalid
      cases hinvalid
  | undecodable _ htext' herror =>
      obtain rfl : bytes = _ := by simpa [dialed, submitted] using hmem
      rw [htext] at htext'
      cases htext'
      rw [hresp] at herror
      cases herror

theorem Told.heard (h : Told J raw own resp) (hheard : Heard J own resp') : resp' = resp := by
  obtain ⟨bytes, answer, hmem, htext, hresp⟩ := hheard
  cases h with
  | intro _ htext' hresp' =>
      obtain rfl : bytes = _ := by simpa [dialed, submitted] using hmem
      rw [htext] at htext'
      cases htext'
      rw [hresp] at hresp'
      exact Except.ok.inj hresp'

theorem Heard.of_append {own' : History clientSig} (h : Heard J (own ++ own') resp)
    (hnone : ∀ result, ⟨.readLine, result⟩ ∉ own') : Heard J own resp := by
  obtain ⟨bytes, answer, hmem, hdecoded⟩ := h
  exact ⟨bytes, answer, (List.mem_append.mp hmem).resolve_right (hnone _), hdecoded⟩

/-- A client that has heard a response ends by telling it. -/
theorem Done.heard {status : UInt8} (h : Done J raw own status) (hheard : Heard J own resp) :
    (∃ own', own = own' ++ shown resp) ∧ status = exitCode (code resp) := by
  cases h with
  | help _ =>
      obtain ⟨bytes, answer, hmem, -⟩ := hheard
      simp at hmem
  | failed hfailed => exact absurd (hheard.of_append (by simp)) hfailed.not_heard
  | told htold =>
      obtain rfl := htold.heard (hheard.of_append fun _ => readLine_not_mem_shown)
      exact ⟨⟨_, rfl⟩, rfl⟩

/-- A client that has heard no response ends with its help, where that is what it was asked for, or with a complaint
and exit code 125. -/
theorem Done.unheard {status : UInt8} (h : Done J raw own status) (hunheard : ∀ resp, ¬ Heard J own resp) :
    (parseArgs raw = .ok none ∧ own = [⟨.print Client.help, ()⟩] ∧ status = 0) ∨
      ∃ own' why, Failed J raw own' why ∧ own = own' ++ [⟨.eprint ("sudix: " ++ why ++ "\n"), ()⟩] ∧ status = 125 := by
  cases h with
  | help hargs => exact .inl ⟨hargs, rfl, rfl⟩
  | failed hfailed => exact .inr ⟨_, _, hfailed, rfl, rfl⟩
  | @told own' resp htold =>
      refine absurd ?_ (hunheard resp)
      obtain ⟨-, htext, hresp⟩ := htold
      exact ⟨_, _, by simp, htext, hresp⟩

theorem report_follows (resp : Response) : (report resp).Follows (shown resp) (.ret (.ok (code resp))) := by
  cases resp with
  | approved exitCode stdout stderr => exact .step (.step .refl)
  | denied why => exact .step .refl
  | error why => exact .step .refl

/-- A client that is told a response does end so. -/
theorem Told.follows (h : Told J raw own resp) :
    (main J raw).Follows (own ++ shown resp) (.ret (exitCode (code resp))) := by
  have hrun : (run J raw).Follows (own ++ shown resp) (.ret (.ok (code resp))) := by
    obtain ⟨hcomposed, htext, hresp⟩ := h
    unfold run
    simp only [hcomposed.parsed]
    refine .step (.step (.step ?_))
    simp only [hcomposed.encoded]
    refine .step (.step (.step ?_))
    simp only [Program.bind, htext, hresp]
    exact report_follows resp
  exact hrun.bind _

end Client

end Sudix
