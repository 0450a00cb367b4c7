import Sudix.ApprovalSpec
import Sudix.Server

/-! What a worker can do, from the acceptance of its connection to the release of its slot: for each
function of the server the operations it performs with the exact history before them, and the
histories it returns after. `Decided` is the decision table of `handle_request`. -/

namespace Sudix

open Concurrent

variable {P : Platform}

/-- The file is hashed and the last hash read under its lock. -/
def looked (h : Hash) (poisoned : Bool) (last : Option Hash) : History (sig P) :=
  [⟨.configHash, .ok h⟩, ⟨.lock .lastHash, poisoned⟩, ⟨.readLastHash, last⟩]

/-- The bundle is swapped, the approval state not reset yet. -/
def swapped (h : Hash) (poisoned : Bool) (last : Option Hash) (fc : ValidConfig P.regex) :
    History (sig P) :=
  looked h poisoned last ++ [⟨.loadConfig, .ok fc⟩, ⟨.swapCurrent (bundleFromFileCfg fc), ()⟩]

/-- A finished reload that still holds `last_hash`. -/
inductive Reloaded : History (sig P) → Except ConfigError Unit → Prop
  | same {h poisoned} : Reloaded (looked h poisoned (some h)) (.ok ())
  | loaded {h poisoned last fc} : last ≠ some h →
      Reloaded (swapped h poisoned last fc ++ [⟨.resetApprovals, ()⟩, ⟨.storeLastHash h, ()⟩]) (.ok ())
  | failed {h poisoned last e} : last ≠ some h →
      Reloaded (looked h poisoned last ++ [⟨.loadConfig, .error e⟩]) (.error e)

inductive ReloadStage : History (sig P) → Op → Prop
  | hash : ReloadStage [] .configHash
  | lock {h} : ReloadStage [⟨.configHash, .ok h⟩] (.lock .lastHash)
  | readLast {h poisoned} :
      ReloadStage [⟨.configHash, .ok h⟩, ⟨.lock .lastHash, poisoned⟩] .readLastHash
  | load {h poisoned last} : last ≠ some h → ReloadStage (looked h poisoned last) .loadConfig
  | swap {h poisoned last fc} : last ≠ some h →
      ReloadStage (looked h poisoned last ++ [⟨.loadConfig, .ok fc⟩]) (.swapCurrent (bundleFromFileCfg fc))
  | reset {h poisoned last fc} : last ≠ some h →
      ReloadStage (swapped h poisoned last fc) .resetApprovals
  | store {h poisoned last fc} : last ≠ some h →
      ReloadStage (swapped h poisoned last fc ++ [⟨.resetApprovals, ()⟩]) (.storeLastHash h)
  | unlock {own result} : Reloaded own result → ReloadStage own (.unlock .lastHash)

inductive ReloadDone : History (sig P) → Except ConfigError Unit → Prop
  | unreadable {e} : ReloadDone [⟨.configHash, .error e⟩] (.error (.io e))
  | unlocked {own result} : Reloaded own result →
      ReloadDone (own ++ [⟨.unlock .lastHash, ()⟩]) result

theorem reloadLocked_meets (h : Hash) (poisoned : Bool) :
    (reloadLocked P h).Meets ReloadStage Reloaded [⟨.configHash, .ok h⟩, ⟨.lock .lastHash, poisoned⟩] := by
  refine meets_call_bind.mpr ⟨.readLast, fun last => ?_⟩
  split
  · rename_i hsame
    subst hsame
    exact .same
  · rename_i hnew
    refine meets_call_bind.mpr ⟨.load hnew, fun loaded => ?_⟩
    cases loaded with
    | error e => exact .failed hnew
    | ok fc =>
        refine meets_call_bind.mpr ⟨.swap hnew, fun _ => ?_⟩
        refine meets_call_bind.mpr ⟨.reset hnew, fun _ => ?_⟩
        exact meets_call_bind.mpr ⟨.store hnew, fun _ => .loaded hnew⟩

theorem maybeReload_meets : (maybeReload P).Meets ReloadStage ReloadDone [] := by
  refine meets_call_bind.mpr ⟨.hash, fun hash => ?_⟩
  cases hash with
  | error e => exact .unreadable
  | ok h =>
      refine meets_call_bind.mpr ⟨.lock, fun poisoned => ?_⟩
      refine Program.meets_bind.mpr ((reloadLocked_meets h poisoned).mono (fun _ _ => id) ?_)
      intro past result hreloaded
      exact meets_call_bind.mpr ⟨.unlock hreloaded, fun _ => .unlocked hreloaded⟩

/-- The checks that touch no shared state: a request past them has a rule. -/
structure Screened (ctx : RequestCtx) (req : Request) (ruleIndex : Nat) : Prop where
  argv : req.argv ≠ []
  reason : req.reason.utf8ByteSize ≤ maxReasonBytes
  policy : ctx.bundle.policy.evaluate req.argv = .allowed ruleIndex

/-- The requested directory resolves. -/
def located (req : Request) (cwd : String) : History (sig P) :=
  [⟨.canonicalize req.cwd, .ok cwd⟩, ⟨.isDir cwd, true⟩]

def unlimited (ctx : RequestCtx) (req : Request) (ruleIndex : Nat) (cwd : String) : History (sig P) :=
  located req cwd ++ [⟨.isRateLimited ctx.bundle.ruleScopes ruleIndex, false⟩]

def checked (ctx : RequestCtx) (req : Request) (ruleIndex : Nat) (cwd : String)
    (verdict : CacheVerdict) : History (sig P) :=
  unlimited ctx req ruleIndex cwd ++ [⟨.checkCache ctx.bundle.ruleScopes ruleIndex req.argv, verdict⟩]

section Gate

variable (approver : Approver) (callerUid : Uid) (req : Request)

inductive GateStage : Bool → History (sig P) → Op → Prop
  | ungated {own op} : approver.Stage callerUid req own op → GateStage false own op
  | lock : GateStage true [] (.lock .approvalMutex)
  | held {poisoned own op} : approver.Stage callerUid req own op →
      GateStage true (⟨.lock .approvalMutex, poisoned⟩ :: own) op
  | unlock {poisoned own approval} : approver.Done callerUid req own approval →
      GateStage true (⟨.lock .approvalMutex, poisoned⟩ :: own) (.unlock .approvalMutex)

inductive GateDone : Bool → History (sig P) → Approval → Prop
  | ungated {own approval} : approver.Done callerUid req own approval → GateDone false own approval
  | released {poisoned own approval} : approver.Done callerUid req own approval →
      GateDone true (⟨.lock .approvalMutex, poisoned⟩ :: own ++ [⟨.unlock .approvalMutex, ()⟩]) approval

theorem gated_meets (approvalMutex : Bool) :
    (gated P approvalMutex (approver.approve P callerUid req)).Meets
      (GateStage approver callerUid req approvalMutex) (GateDone approver callerUid req approvalMutex) [] := by
  have happrove := approver.approve_meets (P := P) callerUid req
  cases approvalMutex with
  | false => exact happrove.mono (fun _ _ => .ungated) fun _ _ => .ungated
  | true =>
      refine meets_call_bind.mpr ⟨.lock, fun poisoned => ?_⟩
      refine happrove.bind (fun own op h => .held h) fun own approval h => ?_
      exact meets_call_bind.mpr ⟨.unlock h, fun _ => .released h⟩

end Gate

section Request

variable (ctx : RequestCtx) (approver : Approver) (approvalMutex : Bool) (req : Request)

/-- The two ways a request comes to be executed, with the directory and the kind of its outcome. -/
inductive Ready : History (sig P) → String → (Int32 → Outcome) → Prop
  | cached {ruleIndex cwd} : Screened ctx req ruleIndex →
      Ready (checked ctx req ruleIndex cwd .hit ++ [⟨.recordCacheHit ctx.bundle.ruleScopes ruleIndex, ()⟩]) cwd
        .approvedCached
  | fresh {ruleIndex cwd own} : Screened ctx req ruleIndex →
      GateDone approver ctx.callerUid req approvalMutex own .allowed →
      Ready (checked ctx req ruleIndex cwd .miss ++ own ++
        [⟨.recordApproval ctx.bundle.ruleScopes ruleIndex req.argv, ()⟩]) cwd .executed

/-- The decision table: what was done and answered, the audited outcome and the response. -/
inductive Decided : History (sig P) → Outcome → Response → Prop
  | empty : req.argv = [] → Decided [] .deniedEmpty (.denied "empty argv")
  | reason : req.argv ≠ [] → maxReasonBytes < req.reason.utf8ByteSize →
      Decided [] .deniedReason (.denied "reason field too long")
  | policy {why} : req.argv ≠ [] → req.reason.utf8ByteSize ≤ maxReasonBytes →
      ctx.bundle.policy.evaluate req.argv = .denied why → Decided [] .deniedPolicy (.denied why)
  | noPath {ruleIndex e} : Screened ctx req ruleIndex →
      Decided [⟨.canonicalize req.cwd, .error e⟩] .deniedCwd (.denied "invalid working directory")
  | noDir {ruleIndex cwd} : Screened ctx req ruleIndex →
      Decided [⟨.canonicalize req.cwd, .ok cwd⟩, ⟨.isDir cwd, false⟩] .deniedCwd
        (.denied "invalid working directory")
  | limited {ruleIndex cwd} : Screened ctx req ruleIndex →
      Decided (located req cwd ++ [⟨.isRateLimited ctx.bundle.ruleScopes ruleIndex, true⟩]) .deniedRate
        (.denied "rate limit exceeded")
  | deniedUser {ruleIndex cwd own} : Screened ctx req ruleIndex →
      GateDone approver ctx.callerUid req approvalMutex own .denied →
      Decided (checked ctx req ruleIndex cwd .miss ++ own) .deniedUser (.denied "denied by user")
  | approverError {ruleIndex cwd own why} : Screened ctx req ruleIndex →
      GateDone approver ctx.callerUid req approvalMutex own (.error why) →
      Decided (checked ctx req ruleIndex cwd .miss ++ own) .approverError (.error why)
  | executed {own cwd outcome output} : Ready ctx approver approvalMutex req own cwd outcome →
      Decided (own ++ [⟨.spawn (req.argv.headD "") req.argv.tail cwd, .ok output⟩])
        (outcome (output.code.getD (-1))) (.approved (output.code.getD (-1)) output.stdout output.stderr)
  | executeError {own cwd outcome e} : Ready ctx approver approvalMutex req own cwd outcome →
      Decided (own ++ [⟨.spawn (req.argv.headD "") req.argv.tail cwd, .error e⟩]) .executeError
        (.denied ("execution failed: " ++ e))

inductive RequestStage : History (sig P) → Op → Prop
  | canonicalize {ruleIndex} : Screened ctx req ruleIndex → RequestStage [] (.canonicalize req.cwd)
  | isDir {ruleIndex cwd} : Screened ctx req ruleIndex →
      RequestStage [⟨.canonicalize req.cwd, .ok cwd⟩] (.isDir cwd)
  | isRateLimited {ruleIndex cwd} : Screened ctx req ruleIndex →
      RequestStage (located req cwd) (.isRateLimited ctx.bundle.ruleScopes ruleIndex)
  | checkCache {ruleIndex cwd} : Screened ctx req ruleIndex →
      RequestStage (unlimited ctx req ruleIndex cwd) (.checkCache ctx.bundle.ruleScopes ruleIndex req.argv)
  | recordCacheHit {ruleIndex cwd} : Screened ctx req ruleIndex →
      RequestStage (checked ctx req ruleIndex cwd .hit) (.recordCacheHit ctx.bundle.ruleScopes ruleIndex)
  | approve {ruleIndex cwd own op} : Screened ctx req ruleIndex →
      GateStage approver ctx.callerUid req approvalMutex own op →
      RequestStage (checked ctx req ruleIndex cwd .miss ++ own) op
  | recordApproval {ruleIndex cwd own} : Screened ctx req ruleIndex →
      GateDone approver ctx.callerUid req approvalMutex own .allowed →
      RequestStage (checked ctx req ruleIndex cwd .miss ++ own)
        (.recordApproval ctx.bundle.ruleScopes ruleIndex req.argv)
  | spawn {own cwd outcome} : Ready ctx approver approvalMutex req own cwd outcome →
      RequestStage own (.spawn (req.argv.headD "") req.argv.tail cwd)
  | systemTime {own outcome resp} : Decided ctx approver approvalMutex req own outcome resp →
      RequestStage own .systemTime
  | appendAudit {own outcome resp unixSecs} : Decided ctx approver approvalMutex req own outcome resp →
      RequestStage (own ++ [⟨.systemTime, unixSecs⟩])
        (.appendAudit (Entry.of unixSecs ctx.callerUid req outcome))

inductive RequestDone : History (sig P) → Response → Prop
  | audited {own outcome resp unixSecs logged} : Decided ctx approver approvalMutex req own outcome resp →
      RequestDone (own ++ [⟨.systemTime, unixSecs⟩] ++
        [⟨.appendAudit (Entry.of unixSecs ctx.callerUid req outcome), logged⟩]) resp

variable {ctx approver approvalMutex req}

/-- Whatever is decided is audited and answered. -/
theorem audit_meets {own : History (sig P)} {outcome : Outcome} {resp : Response}
    (h : Decided ctx approver approvalMutex req own outcome resp) :
    (auditBestEffort P ctx.callerUid req outcome >>= fun _ => (return resp : Prog P Response)).Meets
      (RequestStage ctx approver approvalMutex req) (RequestDone ctx approver approvalMutex req) own :=
  meets_call_bind.mpr ⟨.systemTime h, fun _ => meets_call_bind.mpr ⟨.appendAudit h, fun _ => .audited h⟩⟩

theorem refuse_meets {own : History (sig P)} {outcome : Outcome} {resp : Response}
    (h : Decided ctx approver approvalMutex req own outcome resp) :
    (refuse P ctx req outcome resp).Meets (RequestStage ctx approver approvalMutex req)
      (RequestDone ctx approver approvalMutex req) own :=
  audit_meets h

theorem executeAndReport_meets {own : History (sig P)} {cwd : String} {outcome : Int32 → Outcome}
    (h : Ready ctx approver approvalMutex req own cwd outcome) :
    (executeAndReport P ctx req cwd outcome).Meets (RequestStage ctx approver approvalMutex req)
      (RequestDone ctx approver approvalMutex req) own := by
  refine Program.meets_bind.mpr (meets_call_bind.mpr ⟨.spawn h, fun spawned => ?_⟩)
  cases spawned with
  | error e => exact audit_meets (.executeError h)
  | ok output => exact audit_meets (.executed h)

variable (ctx approver approvalMutex req)

theorem handleRequest_meets :
    (handleRequest P ctx approver approvalMutex req).Meets (RequestStage ctx approver approvalMutex req)
      (RequestDone ctx approver approvalMutex req) [] := by
  unfold handleRequest
  split
  · rename_i hempty
    exact refuse_meets (.empty (List.isEmpty_iff.mp hempty))
  · rename_i hargv
    have hne : req.argv ≠ [] := fun h => hargv (List.isEmpty_iff.mpr h)
    split
    · rename_i hlong
      exact refuse_meets (.reason hne hlong)
    · rename_i hshort
      have hreason := Nat.le_of_not_lt hshort
      split
      · rename_i why hdenied
        exact refuse_meets (.policy hne hreason hdenied)
      · rename_i ruleIndex hallowed
        have hs : Screened ctx req ruleIndex := ⟨hne, hreason, hallowed⟩
        refine meets_call_bind.mpr ⟨.canonicalize hs, fun path => ?_⟩
        cases path with
        | error e => exact refuse_meets (.noPath hs)
        | ok cwd =>
            refine meets_call_bind.mpr ⟨.isDir hs, fun isDir => ?_⟩
            cases isDir with
            | false => exact refuse_meets (.noDir hs)
            | true =>
                refine meets_call_bind.mpr ⟨.isRateLimited hs, fun limited => ?_⟩
                cases limited with
                | true => exact refuse_meets (.limited hs)
                | false =>
                    refine meets_call_bind.mpr ⟨.checkCache hs, fun verdict => ?_⟩
                    cases verdict with
                    | hit =>
                        exact meets_call_bind.mpr
                          ⟨.recordCacheHit hs, fun _ => executeAndReport_meets (.cached hs)⟩
                    | miss =>
                        refine (gated_meets approver ctx.callerUid req approvalMutex).bind
                          (fun own op h => .approve hs h) fun own approval h => ?_
                        cases approval with
                        | denied => exact refuse_meets (.deniedUser hs h)
                        | error why => exact refuse_meets (.approverError hs h)
                        | allowed =>
                            exact meets_call_bind.mpr
                              ⟨.recordApproval hs h, fun _ => executeAndReport_meets (.fresh hs h)⟩

end Request

inductive WriteStage (c : Conn) (resp : Response) : History (sig P) → Op → Prop
  | write {line} : resp.toLine P.json = .ok line → WriteStage c resp [] (.writeAll c (utf8 line))
  | flush {line} : resp.toLine P.json = .ok line →
      WriteStage c resp [⟨.writeAll c (utf8 line), .ok ()⟩] (.flush c)

inductive WriteDone (c : Conn) (resp : Response) : History (sig P) → Except IoError Unit → Prop
  | unserializable {e} : resp.toLine P.json = .error e → WriteDone c resp [] (.error e)
  | failed {line e} : resp.toLine P.json = .ok line →
      WriteDone c resp [⟨.writeAll c (utf8 line), .error e⟩] (.error e)
  | flushed {line result} : resp.toLine P.json = .ok line →
      WriteDone c resp [⟨.writeAll c (utf8 line), .ok ()⟩, ⟨.flush c, result⟩] result

theorem writeResponse_meets (c : Conn) (resp : Response) :
    (writeResponse P c resp).Meets (WriteStage c resp) (WriteDone c resp) [] := by
  unfold writeResponse
  cases hline : resp.toLine P.json with
  | error e => exact .unserializable hline
  | ok line =>
      refine meets_call_bind.mpr ⟨.write hline, fun written => ?_⟩
      cases written with
      | error e => exact .failed hline
      | ok _ => exact meets_call.mpr ⟨.flush hline, fun _ => .flushed hline⟩

inductive RegisterStage (c : Conn) (callerUid : Uid) : History (sig P) → Op → Prop
  | tryClone : RegisterStage c callerUid [] .tryClone
  | insert : RegisterStage c callerUid [⟨.tryClone, .ok ()⟩] (.insertAgent callerUid c)
  | wait : RegisterStage c callerUid [⟨.tryClone, .ok ()⟩, ⟨.insertAgent callerUid c, ()⟩] (.waitDisconnected c)
  | remove : RegisterStage c callerUid
      [⟨.tryClone, .ok ()⟩, ⟨.insertAgent callerUid c, ()⟩, ⟨.waitDisconnected c, ()⟩] (.removeAgent callerUid)

inductive RegisterDone (c : Conn) (callerUid : Uid) : History (sig P) → Except IoError Unit → Prop
  | failed {e} : RegisterDone c callerUid [⟨.tryClone, .error e⟩] (.error e)
  | removed : RegisterDone c callerUid
      [⟨.tryClone, .ok ()⟩, ⟨.insertAgent callerUid c, ()⟩, ⟨.waitDisconnected c, ()⟩,
        ⟨.removeAgent callerUid, ()⟩] (.ok ())

theorem serveAgent_meets (c : Conn) (callerUid : Uid) :
    (serveAgent P c callerUid).Meets (RegisterStage c callerUid) (RegisterDone c callerUid) [] := by
  refine meets_call_bind.mpr ⟨.tryClone, fun cloned => ?_⟩
  cases cloned with
  | error e => exact .failed
  | ok _ =>
      refine meets_call_bind.mpr ⟨.insert, fun _ => ?_⟩
      refine meets_call_bind.mpr ⟨.wait, fun _ => ?_⟩
      exact meets_call_bind.mpr ⟨.remove, fun _ => .removed⟩

section Connection

variable (c : Conn) (approver : Approver) (approvalMutex : Bool)

/-- The policy is up to date, a bundle is snapshotted and the peer's uid known. -/
inductive Identified : History (sig P) → Loaded → Uid → Prop
  | intro {own loaded callerUid} : ReloadDone own (.ok ()) →
      Identified (own ++ [⟨.snapshot, loaded⟩] ++ [⟨.peerUid, .ok callerUid⟩]) loaded callerUid

/-- The uid is authorized and the first line has been read. -/
inductive Greeted : History (sig P) → Loaded → Uid → String → Prop
  | intro {own loaded callerUid own' line} : Identified own loaded callerUid →
      loaded.bundle.agentUids.contains callerUid = true →
      LineDone c (fun _ => bufCapacity) maxRequestBytes own' (.ok line) →
      Greeted (own ++ [⟨.tryClone, .ok ()⟩] ++ own') loaded callerUid line

/-- The read stopped at the cap without a newline. -/
def tooLarge (line : String) : Prop :=
  maxRequestBytes ≤ line.utf8ByteSize ∧ line.toList.getLast? ≠ some '\n'

/-- The line is neither empty nor truncated, and it is a hello. -/
inductive Admitted : History (sig P) → Loaded → Uid → Hello → Prop
  | intro {own loaded callerUid line hello} : Greeted c own loaded callerUid line → line ≠ "" →
      ¬ tooLarge line → Hello.fromLine P.json line = .ok hello → Admitted own loaded callerUid hello

/-- The ways a connection comes to be answered. -/
inductive Answered : History (sig P) → Response → Prop
  | reloadFailed {own e} : ReloadDone own (.error e) →
      Answered own (.error ("config reload failed; request refused: " ++ e.display))
  | unauthorized {own loaded callerUid} : Identified own loaded callerUid →
      loaded.bundle.agentUids.contains callerUid = false →
      Answered own (.denied "caller uid not authorized")
  | tooLarge {own loaded callerUid line} : Greeted c own loaded callerUid line → line ≠ "" →
      Sudix.tooLarge line → Answered own (.denied "request too large")
  | malformed {own loaded callerUid line e} : Greeted c own loaded callerUid line → line ≠ "" →
      ¬ Sudix.tooLarge line → Hello.fromLine P.json line = .error e →
      Answered own (.denied ("malformed request: " ++ e))
  | command {own loaded callerUid req own' resp} : Admitted c own loaded callerUid (.command req) →
      RequestDone ⟨loaded.bundle, callerUid⟩ approver approvalMutex req own' resp →
      Answered (own ++ own') resp

inductive ConnectionStage : History (sig P) → Op → Prop
  | reload {own op} : ReloadStage own op → ConnectionStage own op
  | snapshot {own} : ReloadDone own (.ok ()) → ConnectionStage own .snapshot
  | peerUid {own loaded} : ReloadDone own (.ok ()) →
      ConnectionStage (own ++ [⟨.snapshot, loaded⟩]) .peerUid
  | tryClone {own loaded callerUid} : Identified own loaded callerUid →
      loaded.bundle.agentUids.contains callerUid = true → ConnectionStage own .tryClone
  | read {own loaded callerUid own' op} : Identified own loaded callerUid →
      loaded.bundle.agentUids.contains callerUid = true →
      ReadStage c (fun _ => bufCapacity) maxRequestBytes own' op →
      ConnectionStage (own ++ [⟨.tryClone, .ok ()⟩] ++ own') op
  | request {own loaded callerUid req own' op} : Admitted c own loaded callerUid (.command req) →
      RequestStage ⟨loaded.bundle, callerUid⟩ approver approvalMutex req own' op →
      ConnectionStage (own ++ own') op
  | register {own loaded callerUid own' op} : Admitted c own loaded callerUid .registerAgent →
      RegisterStage c callerUid own' op → ConnectionStage (own ++ own') op
  | respond {own resp own' op} : Answered c approver approvalMutex own resp → WriteStage c resp own' op →
      ConnectionStage (own ++ own') op

inductive ConnectionDone : History (sig P) → Except IoError Unit → Prop
  | answered {own resp own' result} : Answered c approver approvalMutex own resp →
      WriteDone c resp own' result → ConnectionDone (own ++ own') result
  | noPeer {own loaded e} : ReloadDone own (.ok ()) →
      ConnectionDone (own ++ [⟨.snapshot, loaded⟩] ++ [⟨.peerUid, .error e⟩])
        (.error ("getsockopt(SO_PEERCRED): " ++ e))
  | noClone {own loaded callerUid e} : Identified own loaded callerUid →
      loaded.bundle.agentUids.contains callerUid = true →
      ConnectionDone (own ++ [⟨.tryClone, .error e⟩]) (.error e)
  | noLine {own loaded callerUid own' e} : Identified own loaded callerUid →
      loaded.bundle.agentUids.contains callerUid = true →
      LineDone c (fun _ => bufCapacity) maxRequestBytes own' (.error e) →
      ConnectionDone (own ++ [⟨.tryClone, .ok ()⟩] ++ own') (.error e)
  | closed {own loaded callerUid} : Greeted c own loaded callerUid "" → ConnectionDone own (.ok ())
  | registered {own loaded callerUid own' result} : Admitted c own loaded callerUid .registerAgent →
      RegisterDone c callerUid own' result → ConnectionDone (own ++ own') result

variable {c approver approvalMutex}

theorem respond_meets {own : History (sig P)} {resp : Response}
    (h : Answered c approver approvalMutex own resp) :
    (writeResponse P c resp).Meets (ConnectionStage c approver approvalMutex)
      (ConnectionDone c approver approvalMutex) own :=
  (writeResponse_meets c resp).tail (fun _ _ hw => .respond h hw) fun _ _ hw => .answered h hw

theorem serveHello_meets {own : History (sig P)} {loaded : Loaded} {callerUid : Uid} {line : String}
    (h : Greeted c own loaded callerUid line) (hne : line ≠ "") (hsize : ¬ tooLarge line) :
    (serveHello P c loaded.bundle callerUid approver approvalMutex line).Meets
      (ConnectionStage c approver approvalMutex) (ConnectionDone c approver approvalMutex) own := by
  unfold serveHello
  cases hhello : Hello.fromLine P.json line with
  | error e => exact respond_meets (.malformed h hne hsize hhello)
  | ok hello =>
      have hadmitted : Admitted c own loaded callerUid hello := .intro h hne hsize hhello
      cases hello with
      | command req =>
          refine (handleRequest_meets _ approver approvalMutex req).bind (fun _ _ hr => .request hadmitted hr)
            fun own' resp hr => ?_
          exact respond_meets (.command hadmitted hr)
      | registerAgent =>
          exact (serveAgent_meets c callerUid).tail (fun _ _ hr => .register hadmitted hr)
            fun _ _ hr => .registered hadmitted hr

variable (c approver approvalMutex)

theorem handleConnection_meets :
    (handleConnection P c approver approvalMutex).Meets (ConnectionStage c approver approvalMutex)
      (ConnectionDone c approver approvalMutex) [] := by
  refine maybeReload_meets.bind (fun _ _ h => .reload h) fun own result hreload => ?_
  cases result with
  | error e => exact respond_meets (.reloadFailed hreload)
  | ok _ =>
      refine meets_call_bind.mpr ⟨.snapshot hreload, fun loaded => ?_⟩
      refine meets_call_bind.mpr ⟨.peerUid hreload, fun peer => ?_⟩
      cases peer with
      | error e => exact .noPeer hreload
      | ok callerUid =>
          have hid : Identified _ loaded callerUid := .intro hreload
          dsimp only
          cases hauth : loaded.bundle.agentUids.contains callerUid with
          | false => exact respond_meets (.unauthorized hid hauth)
          | true =>
              refine meets_call_bind.mpr ⟨.tryClone hid hauth, fun cloned => ?_⟩
              cases cloned with
              | error e => exact .noClone hid hauth
              | ok _ =>
                  refine (readLine_meets c _ _).bind (fun _ _ h => .read hid hauth h) fun own' read hread => ?_
                  cases read with
                  | error e => exact .noLine hid hauth hread
                  | ok line =>
                      have hgreeted : Greeted c _ loaded callerUid line := .intro hid hauth hread
                      dsimp only
                      split
                      · rename_i hempty
                        subst hempty
                        exact .closed hgreeted
                      · rename_i hne
                        split
                        · rename_i hlarge
                          exact respond_meets (.tooLarge hgreeted hne hlarge)
                        · rename_i hsmall
                          exact serveHello_meets hgreeted hne hsmall

/-- A worker's operations: its slot's around those of its connection. -/
inductive WorkerStage : History (sig P) → Op → Prop
  | acquire : WorkerStage [] .acquireSlot
  | connection {own op} : ConnectionStage c approver approvalMutex own op →
      WorkerStage (⟨.acquireSlot, ()⟩ :: own) op
  | release {own result} : ConnectionDone c approver approvalMutex own result →
      WorkerStage (⟨.acquireSlot, ()⟩ :: own) .releaseSlot

inductive WorkerDone : History (sig P) → Except IoError Unit → Prop
  | released {own result} : ConnectionDone c approver approvalMutex own result →
      WorkerDone (⟨.acquireSlot, ()⟩ :: own ++ [⟨.releaseSlot, ()⟩]) result

theorem worker_meets :
    (worker P approver approvalMutex c).Meets (WorkerStage c approver approvalMutex)
      (WorkerDone c approver approvalMutex) [] := by
  refine meets_call_bind.mpr ⟨.acquire, fun _ => ?_⟩
  refine (handleConnection_meets c approver approvalMutex).bind (fun _ _ h => .connection h)
    fun own result h => ?_
  exact meets_call_bind.mpr ⟨.release h, fun _ => .released h⟩

end Connection

end Sudix
