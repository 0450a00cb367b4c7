import Sudix.Daemon

/-! The approvers as programs: reading a line under a size cap, the prompt round-trip over an agent's
stream, the agent approver with its registration wait and its gate, and the TOTP approver. -/

namespace Sudix

open Concurrent

variable (P : Platform)

/-- The capacity of a `BufReader`. -/
def bufCapacity : Nat := 8192

def maxVerdictBytes : Nat := 4096

/-- `read_line` up to `limit` bytes. A read asks for `chunk remaining` bytes; what it returns past
the limit or past the newline stays in the buffer and is dropped with it. Every read returns at
least one byte, so `limit` rounds are enough. -/
def readLineBytes (c : Conn) (chunk : Nat → Nat) (limit : Nat) :
    Nat → List UInt8 → Prog P (Except IoError (List UInt8))
  | 0, line => return .ok line
  | rounds + 1, line => do
      if limit ≤ line.length then return .ok line
      else
        match ← call P (.recv c (chunk (limit - line.length))) with
        | .error e => return .error e
        | .ok bytes =>
            let seen := bytes.take (limit - line.length)
            if newline ∈ seen then return .ok (line ++ seen.takeWhile (· != newline) ++ [newline])
            else if seen = [] then return .ok line
            else readLineBytes c chunk limit rounds (line ++ seen)

def readLine (c : Conn) (chunk : Nat → Nat) (limit : Nat) : Prog P (Except IoError String) := do
  match ← readLineBytes P c chunk limit limit [] with
  | .error e => return .error e
  | .ok bytes =>
      match fromUtf8 bytes with
      | none => return .error "stream did not contain valid UTF-8"
      | some line => return .ok line

/-- The verdict line as an answer to the request. -/
def approvalOf (line : String) : Approval :=
  match Verdict.fromLine P.json line with
  | .ok .allow => .allowed
  | .ok .deny => .denied
  | .ok (.error why) => .error why
  | .error e => .error ("malformed verdict from agent: " ++ e)

/-- `AgentHandle::prompt` while the stream's mutex is held. -/
def promptLocked (c : Conn) (p : Prompt) : Prog P Approval :=
  match Prompt.toLine P.json p with
  | .error e => return .error ("failed to serialize prompt: " ++ e)
  | .ok line => do
      match ← call P (.writeAll c (utf8 line)) with
      | .error e =>
          call P (.signalDisconnected c)
          return .error ("failed to send prompt to agent: " ++ e)
      | .ok () =>
          match ← call P (.flush c) with
          | .error e =>
              call P (.signalDisconnected c)
              return .error ("failed to flush prompt to agent: " ++ e)
          | .ok () =>
              match ← call P (.setReadTimeout c) with
              | .error e => return .error ("set_read_timeout failed: " ++ e)
              | .ok () =>
                  -- the `Take` is inside the `BufReader`: no read goes past the cap
                  match ← readLine P c (min bufCapacity) maxVerdictBytes with
                  | .error e =>
                      call P (.signalDisconnected c)
                      return .error ("approval agent timed out or disconnected: " ++ e)
                  | .ok line =>
                      if line = "" then
                        call P (.signalDisconnected c)
                        return .error "approval agent disconnected"
                      else return approvalOf P line

def AgentHandle.prompt (c : Conn) (p : Prompt) : Prog P Approval := do
  let poisoned ← call P (.lock (.stream c))
  if poisoned then
    call P (.unlock (.stream c))
    return .error "agent handle poisoned: poisoned lock: another task failed inside"
  else
    let approval ← promptLocked P c p
    call P (.unlock (.stream c))
    return approval

def noAgentMsg : String := "no approval agent running in your session; is sudix-agent running?"

/-- Phase 1: wait for the agent of `callerUid` to appear. `rounds` is how many wake-ups of the
condition variable come before the deadline. -/
def awaitAgent (callerUid : Uid) (deadline : Instant) : Nat → Prog P (Option Conn)
  | 0 => call P (.lookupAgent callerUid)
  | rounds + 1 => do
      match ← call P (.lookupAgent callerUid) with
      | some c => return some c
      | none =>
          let now ← call P .instantNow
          if deadline - now = 0 then return none
          else
            let timedOut ← call P .waitRegistry
            if timedOut then return none
            else awaitAgent callerUid deadline rounds

def AgentApprover.approve (registerWait rounds : Nat) (callerUid : Uid) (req : Request) :
    Prog P Approval := do
  let start ← call P .instantNow
  match ← awaitAgent P callerUid (start + registerWait) rounds with
  | none => return .error noAgentMsg
  | some c =>
      -- phase 2: one dialog at a time
      let _ ← call P (.lock .approvalGate)
      let approval ← AgentHandle.prompt P c ⟨req.argv, req.cwd, req.reason⟩
      call P (.unlock .approvalGate)
      return approval

def TotpApprover.approve (req : Request) : Prog P Approval :=
  match req.otp with
  | none => return .denied
  | some code => do
      let accepted ← call P (.checkCurrent code)
      if !accepted then return .denied
      else
        let unixSecs ← call P .systemTime
        let fresh ← call P (.consumeCounter (unixSecs / totpStep))
        if !fresh then return .denied
        else return .allowed

/-- The implementations of the `Approver` trait; `external` is any other one. -/
inductive Approver where
  | external
  | totp
  | agent (registerWait rounds : Nat)

def Approver.approve : Approver → Uid → Request → Prog P Approval
  | .external, callerUid, req => call P (.consult callerUid req)
  | .totp, _, req => TotpApprover.approve P req
  | .agent registerWait rounds, callerUid, req => AgentApprover.approve P registerWait rounds callerUid req

end Sudix
