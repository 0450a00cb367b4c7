import Sudix.Client
import Sudix.DialogText

/-! The approval agent as a program: it registers with the broker and then shows a dialog for each prompt it reads,
one after the other, and writes back how the dialog was answered. -/

namespace Sudix

open Concurrent

/-- What an agent asks of the system. `readLine` is `read_line` before it checks the encoding: the bytes up to a
newline, none at the end of the stream. A process that a signal ended has no exit code. -/
inductive AgentOp where
  | connect (path : String)
  | writeAll (bytes : List UInt8)
  | flush
  | tryClone
  | readLine
  | status (program : String) (args : List String)
  | eprint (text : String)

@[reducible] def AgentAnswer : AgentOp → Type
  | .connect _ => Except IoError Unit
  | .writeAll _ => Except IoError Unit
  | .flush => Except IoError Unit
  | .tryClone => Except IoError Unit
  | .readLine => Except IoError (List UInt8)
  | .status _ _ => Except IoError (Option Int32)
  | .eprint _ => Unit

@[reducible] def agentSig : Signature := ⟨AgentOp, AgentAnswer⟩

abbrev AgentProg (α : Type) := Program agentSig α

def agentCall (op : AgentOp) : AgentProg (AgentAnswer op) := Program.perform (S := agentSig) op

namespace Agent

/-- The dialog starts on the refusing button and takes its text as it is, without markup. -/
def zenityArgs (p : Prompt) : List String :=
  ["--question", "--no-markup", "--title=sudix: root access requested", "--text=" ++ promptText p,
    "--ok-label=Allow", "--cancel-label=Deny", "--default-cancel", "--width=500"]

def verdictFromStatus : Except IoError (Option Int32) → Verdict
  | .ok code => if code = some 0 then .allow else .deny
  | .error e => .error ("zenity spawn failed: " ++ e)

def spawnZenity (p : Prompt) : AgentProg Verdict := do
  let result ← agentCall (.status "zenity" (zenityArgs p))
  return verdictFromStatus result

variable (J : SerdeJson)

/-- The end of a round; `next` is the rest of the loop over the prompts. -/
def flushVerdict (next : AgentProg (Except String Unit)) : AgentProg (Except String Unit) := do
  match ← agentCall .flush with
  | .error e => return .error ("failed to flush verdict: " ++ e)
  | .ok () => next

def sendVerdict (vLine : String) (next : AgentProg (Except String Unit)) : AgentProg (Except String Unit) := do
  match ← agentCall (.writeAll (utf8 vLine)) with
  | .error e => return .error ("failed to send verdict: " ++ e)
  | .ok () => flushVerdict next

/-- From the prompt to its verdict on the wire. -/
def answerPrompt (p : Prompt) (next : AgentProg (Except String Unit)) : AgentProg (Except String Unit) := do
  let verdict ← spawnZenity p
  match verdict.toLine J with
  | .error e => do
      agentCall (.eprint ("sudix-agent: failed to serialize verdict: " ++ e ++ "\n"))
      next
  | .ok vLine => sendVerdict vLine next

/-- What follows a line that has been read. -/
def takeLine (bytes : List UInt8) (next : AgentProg (Except String Unit)) : AgentProg (Except String Unit) :=
  if bytes = [] then return .error "broker closed the connection"
  else
    match fromUtf8 bytes with
    | none => return .error "read error: stream did not contain valid UTF-8"
    | some line =>
        match Prompt.fromLine J line with
        | .error e => do
            agentCall (.eprint ("sudix-agent: malformed prompt: " ++ e ++ "\n"))
            next
        | .ok p => answerPrompt J p next

/-- The loop for a number of rounds; `.ok` says that it is still going on. -/
def loop : Nat → AgentProg (Except String Unit)
  | 0 => return .ok ()
  | rounds + 1 => do
      match ← agentCall .readLine with
      | .error e => return .error ("read error: " ++ e)
      | .ok bytes => takeLine J bytes (loop rounds)

def runAgent (C : ClientJson) (socketPath : String) (rounds : Nat) : AgentProg (Except String Unit) := do
  match ← agentCall (.connect socketPath) with
  | .error e => return .error ("cannot reach broker at " ++ socketPath ++ ": " ++ e)
  | .ok () =>
      match helloToLine C .registerAgent with
      | .error e => return .error e
      | .ok hello =>
          match ← agentCall (.writeAll (utf8 hello)) with
          | .error e => return .error e
          | .ok () =>
              match ← agentCall .flush with
              | .error e => return .error e
              | .ok () =>
                  agentCall (.eprint ("sudix-agent: registered with broker at " ++ socketPath ++ "\n"))
                  match ← agentCall .tryClone with
                  | .error e => return .error e
                  | .ok () => loop J rounds

/-- The operations with which an agent registers. -/
def registered (socketPath hello : String) : History agentSig :=
  [⟨.connect socketPath, .ok ()⟩, ⟨.writeAll (utf8 hello), .ok ()⟩, ⟨.flush, .ok ()⟩,
    ⟨.eprint ("sudix-agent: registered with broker at " ++ socketPath ++ "\n"), ()⟩, ⟨.tryClone, .ok ()⟩]

/-- An agent whose hello is written stands at the start of its loop. -/
theorem runAgent_registered {C : ClientJson} {socketPath hello : String} (rounds : Nat)
    (hline : helloToLine C .registerAgent = .ok hello) :
    (runAgent J C socketPath rounds).Follows (registered socketPath hello) (loop J rounds) := by
  refine .step ?_
  dsimp only [Program.perform, Program.bind]
  rw [hline]
  exact .step (.step (.step (.step .refl)))

end Agent

end Sudix
