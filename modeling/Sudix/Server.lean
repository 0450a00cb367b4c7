import Sudix.Approval

/-! The worker of a connection: reload, authorization, the hello line, and then either the decision
pipeline of a command or the life of an agent registration. -/

namespace Sudix

open Concurrent

variable (P : Platform)

def maxRequestBytes : Nat := 65536

def maxReasonBytes : Nat := 512

/-- `maybe_reload` while `last_hash` is held. -/
def reloadLocked (h : Hash) : Prog P (Except ConfigError Unit) := do
  let last ← call P .readLastHash
  if last = some h then return .ok ()
  else
    match ← call P .loadConfig with
    | .ok fc =>
        call P (.swapCurrent (bundleFromFileCfg fc))
        call P .resetApprovals
        call P (.storeLastHash h)
        return .ok ()
    | .error e => return .error e

def maybeReload : Prog P (Except ConfigError Unit) := do
  match ← call P .configHash with
  | .error e => return .error (.io e)
  | .ok h =>
      let _ ← call P (.lock .lastHash)
      let result ← reloadLocked P h
      call P (.unlock .lastHash)
      return result

/-- The snapshot a request is decided with. -/
structure RequestCtx where
  bundle : PolicyBundle
  callerUid : Uid

/-- `audit_best_effort`: a failing log write changes nothing. -/
def auditBestEffort (callerUid : Uid) (req : Request) (outcome : Outcome) : Prog P Unit := do
  let unixSecs ← call P .systemTime
  let _ ← call P (.appendAudit (Entry.of unixSecs callerUid req outcome))

structure Output where
  exitCode : Int32
  stdout : String
  stderr : String

def execute (req : Request) (cwd : String) : Prog P (Except IoError Output) := do
  match ← call P (.spawn (req.argv.headD "") req.argv.tail cwd) with
  | .error e => return .error e
  | .ok output => return .ok ⟨output.code.getD (-1), output.stdout, output.stderr⟩

/-- Both ends of `handle_request` that execute: the outcome is the only difference. -/
def executeAndReport (ctx : RequestCtx) (req : Request) (cwd : String) (outcome : Int32 → Outcome) :
    Prog P Response := do
  match ← execute P req cwd with
  | .ok output =>
      auditBestEffort P ctx.callerUid req (outcome output.exitCode)
      return .approved output.exitCode output.stdout output.stderr
  | .error e =>
      auditBestEffort P ctx.callerUid req .executeError
      return .denied ("execution failed: " ++ e)

/-- The approver call under the outer gate, if the server passes one; a fresh mutex is no gate. -/
def gated (approvalMutex : Bool) (approve : Prog P Approval) : Prog P Approval :=
  if approvalMutex then do
    let _ ← call P (.lock .approvalMutex)
    let approval ← approve
    call P (.unlock .approvalMutex)
    return approval
  else approve

def refuse (ctx : RequestCtx) (req : Request) (outcome : Outcome) (resp : Response) : Prog P Response := do
  auditBestEffort P ctx.callerUid req outcome
  return resp

def handleRequest (ctx : RequestCtx) (approver : Approver) (approvalMutex : Bool) (req : Request) :
    Prog P Response :=
  if req.argv.isEmpty then refuse P ctx req .deniedEmpty (.denied "empty argv")
  else if maxReasonBytes < req.reason.utf8ByteSize then
    refuse P ctx req .deniedReason (.denied "reason field too long")
  else
    match ctx.bundle.policy.evaluate req.argv with
    | .denied reason => refuse P ctx req .deniedPolicy (.denied reason)
    | .allowed ruleIndex => do
        match ← call P (.canonicalize req.cwd) with
        | .error _ => refuse P ctx req .deniedCwd (.denied "invalid working directory")
        | .ok cwd =>
            let isDir ← call P (.isDir cwd)
            if !isDir then refuse P ctx req .deniedCwd (.denied "invalid working directory")
            else
              let limited ← call P (.isRateLimited ctx.bundle.ruleScopes ruleIndex)
              if limited then refuse P ctx req .deniedRate (.denied "rate limit exceeded")
              else
                match ← call P (.checkCache ctx.bundle.ruleScopes ruleIndex req.argv) with
                | .hit =>
                    call P (.recordCacheHit ctx.bundle.ruleScopes ruleIndex)
                    executeAndReport P ctx req cwd .approvedCached
                | .miss =>
                    match ← gated P approvalMutex (approver.approve P ctx.callerUid req) with
                    | .denied => refuse P ctx req .deniedUser (.denied "denied by user")
                    | .error why => refuse P ctx req .approverError (.error why)
                    | .allowed =>
                        call P (.recordApproval ctx.bundle.ruleScopes ruleIndex req.argv)
                        executeAndReport P ctx req cwd .executed

/-- `write_response`; whether it fails is the result of the connection handler. -/
def writeResponse (c : Conn) (resp : Response) : Prog P (Except IoError Unit) :=
  match resp.toLine P.json with
  | .error e => return .error e
  | .ok line => do
      match ← call P (.writeAll c (utf8 line)) with
      | .error e => return .error e
      | .ok () => call P (.flush c)

/-- The `RegisterAgent` branch: the connection is the live agent of its uid until a prompt on it
signals that it has disconnected. -/
def serveAgent (c : Conn) (callerUid : Uid) : Prog P (Except IoError Unit) := do
  match ← call P .tryClone with
  | .error e => return .error e
  | .ok () =>
      call P (.insertAgent callerUid c)
      call P (.waitDisconnected c)
      call P (.removeAgent callerUid)
      return .ok ()

def serveHello (c : Conn) (bundle : PolicyBundle) (callerUid : Uid) (approver : Approver)
    (approvalMutex : Bool) (line : String) : Prog P (Except IoError Unit) :=
  match Hello.fromLine P.json line with
  | .ok (.command req) => do
      let resp ← handleRequest P ⟨bundle, callerUid⟩ approver approvalMutex req
      writeResponse P c resp
  | .ok .registerAgent => serveAgent P c callerUid
  | .error e => writeResponse P c (.denied ("malformed request: " ++ e))

def handleConnection (c : Conn) (approver : Approver) (approvalMutex : Bool) :
    Prog P (Except IoError Unit) := do
  match ← maybeReload P with
  | .error e => writeResponse P c (.error ("config reload failed; request refused: " ++ e.display))
  | .ok () =>
      let loaded ← call P .snapshot
      match ← call P .peerUid with
      | .error e => return .error ("getsockopt(SO_PEERCRED): " ++ e)
      | .ok callerUid =>
          if !loaded.bundle.agentUids.contains callerUid then
            writeResponse P c (.denied "caller uid not authorized")
          else
            match ← call P .tryClone with
            | .error e => return .error e
            | .ok () =>
                -- the `Take` is outside the `BufReader`: a read may go past the cap
                match ← readLine P c (fun _ => bufCapacity) maxRequestBytes with
                | .error e => return .error e
                | .ok line =>
                    if line = "" then return .ok ()
                    else if maxRequestBytes ≤ line.utf8ByteSize ∧ line.toList.getLast? ≠ some '\n' then
                      writeResponse P c (.denied "request too large")
                    else serveHello P c loaded.bundle callerUid approver approvalMutex line

/-- The thread of one connection: it holds one of the slots from start to end. -/
def worker (approver : Approver) (approvalMutex : Bool) (c : Conn) : Prog P (Except IoError Unit) := do
  call P .acquireSlot
  let result ← handleConnection P c approver approvalMutex
  call P .releaseSlot
  return result

end Sudix
