import Mathlib.Data.List.Basic
import Sudix.Audit
import Sudix.ConcurrentRun
import Sudix.Config

/-! The shared state of the daemon and the atomic operations its worker threads perform on it: the
mutexes, the config and its reload, the byte streams to the peers, the file system, the approval
state, the agent registry and the one-time codes. A worker and the connection it serves have one
number. Everything outside the repository that an operation depends on is a field of `Platform`
or a choice of the environment. -/

namespace Sudix

open Concurrent

abbrev Tid := Nat

/-- A connection, by the number of the worker that serves it. -/
abbrev Conn := Nat

abbrev Hash := List UInt8

/-- Third-party code and settings the daemon runs with. -/
structure Platform where
  json : SerdeJson
  regex : RegexEngine
  /-- The TOML decoder of the config schema. -/
  parseToml : String → Except String FileConfig
  sha256 : List UInt8 → Hash
  configPath : String
  enforcePerms : Bool
  /-- The one-time code of a time step. -/
  totpCode : Nat → String

/-- A platform whose third-party decoders reject everything. -/
def Platform.bare : Platform where
  json :=
    { responseToString := fun _ => .error "unsupported"
      promptToString := fun _ => .error "unsupported"
      verdictToString := fun _ => .error "unsupported"
      helloFromStr := fun _ => .error "unsupported"
      promptFromStr := fun _ => .error "unsupported"
      verdictFromStr := fun _ => .error "unsupported" }
  regex := ⟨fun _ => .error "unsupported"⟩
  parseToml := fun _ => .error "unsupported"
  sha256 := fun _ => []
  configPath := "/etc/sudix/policy.toml"
  enforcePerms := true
  totpCode := fun _ => ""

/-- A loaded bundle; the generation is the identity of the `Arc` that holds it. -/
structure Loaded where
  bundle : PolicyBundle
  generation : Nat

structure FileSystem where
  canonicalize : String → Except IoError String
  isDir : String → Bool

/-- The result of a finished child process, its output decoded lossily. -/
structure ProcessOutput where
  code : Option Int32
  stdout : String
  stderr : String

/-- The result of asking for approval. -/
inductive Approval where
  | allowed
  | denied
  | error (why : String)
  deriving DecidableEq

inductive Lock where
  | lastHash
  | approvalMutex
  | approvalGate
  | stream (c : Conn)
  deriving DecidableEq

/-- Where a process that behaves like `run_agent` stands; `asker` is the thread whose prompt it
handles. -/
inductive AgentState where
  | reading
  | dialog (p : Prompt) (asker : Tid)
  | writing (rest : List UInt8) (asker : Tid)
  deriving DecidableEq

/-- The process at the other end of a connection. -/
inductive Peer where
  | client
  | agent (state : AgentState)
  | gone
  deriving DecidableEq

/-- The two byte queues of a connection. A byte carries where it comes from, which no program sees:
towards the peer the thread that wrote it, towards the daemon the thread whose dialog it answers. -/
structure Channel where
  toPeer : List (UInt8 × Tid)
  toDaemon : List (UInt8 × Option Tid)
  peer : Peer

structure Daemon where
  now : Instant
  unixSecs : Nat
  file : ConfigOnDisk
  files : FileSystem
  current : Loaded
  /-- The number of bundles loaded so far. -/
  generations : Nat
  lastHash : Option Hash
  approvals : ApprovalState
  auditLog : List Entry
  registry : Uid → Option Conn
  disconnected : Conn → Bool
  holder : Lock → Option Tid
  slots : Nat
  usedCounters : List Nat
  uidOf : Conn → Uid
  channel : Conn → Channel

/-- The daemon as it starts to accept connections, with the bundle and the hash of its config file. -/
def Daemon.start (file : ConfigOnDisk) (files : FileSystem) (bundle : PolicyBundle) (lastHash : Option Hash)
    (uidOf : Conn → Uid) (channel : Conn → Channel) (now : Instant) (unixSecs : Nat) : Daemon where
  now := now
  unixSecs := unixSecs
  file := file
  files := files
  current := ⟨bundle, 0⟩
  generations := 1
  lastHash := lastHash
  approvals := ApprovalState.new
  auditLog := []
  registry := fun _ => none
  disconnected := fun _ => false
  holder := fun _ => none
  slots := 0
  usedCounters := []
  uidOf := uidOf
  channel := channel

inductive Op where
  | acquireSlot
  | releaseSlot
  | lock (l : Lock)
  | unlock (l : Lock)
  | configHash
  | readLastHash
  | loadConfig
  | swapCurrent (b : PolicyBundle)
  | resetApprovals
  | storeLastHash (h : Hash)
  | snapshot
  | peerUid
  | tryClone
  | recv (c : Conn) (max : Nat)
  | writeAll (c : Conn) (bytes : List UInt8)
  | flush (c : Conn)
  | setReadTimeout (c : Conn)
  | canonicalize (path : String)
  | isDir (path : String)
  | isRateLimited (scopes : List RuleScope) (ruleIndex : Nat)
  | checkCache (scopes : List RuleScope) (ruleIndex : Nat) (argv : List String)
  | recordCacheHit (scopes : List RuleScope) (ruleIndex : Nat)
  | recordApproval (scopes : List RuleScope) (ruleIndex : Nat) (argv : List String)
  | spawn (program : String) (args : List String) (dir : String)
  | instantNow
  | systemTime
  | appendAudit (entry : Entry)
  | consult (callerUid : Uid) (req : Request)
  | lookupAgent (uid : Uid)
  | waitRegistry
  | insertAgent (uid : Uid) (c : Conn)
  | removeAgent (uid : Uid)
  | signalDisconnected (c : Conn)
  | waitDisconnected (c : Conn)
  | checkCurrent (code : String)
  | consumeCounter (counter : Nat)

variable (P : Platform)

@[reducible] def Answer : Op → Type
  | .lock _ => Bool
  | .configHash => Except IoError Hash
  | .readLastHash => Option Hash
  | .loadConfig => Except ConfigError (ValidConfig P.regex)
  | .snapshot => Loaded
  | .peerUid => Except IoError Uid
  | .tryClone => Except IoError Unit
  | .recv _ _ => Except IoError (List UInt8)
  | .writeAll _ _ => Except IoError Unit
  | .flush _ => Except IoError Unit
  | .setReadTimeout _ => Except IoError Unit
  | .canonicalize _ => Except IoError String
  | .isDir _ => Bool
  | .isRateLimited _ _ => Bool
  | .checkCache _ _ _ => CacheVerdict
  | .spawn _ _ _ => Except IoError ProcessOutput
  | .instantNow => Instant
  | .systemTime => Nat
  | .appendAudit _ => Except IoError Unit
  | .consult _ _ => Approval
  | .lookupAgent _ => Option Conn
  | .waitRegistry => Bool
  | .checkCurrent _ => Bool
  | .consumeCounter _ => Bool
  | _ => Unit

@[reducible] def sig : Signature := ⟨Op, Answer P⟩

abbrev Prog (α : Type) := Program (sig P) α

/-- One operation as a program. -/
def call (op : Op) : Prog P (Answer P op) := Program.perform (S := sig P) op

variable {P} in
theorem meets_call {op : Op} {pre : History (sig P) → Op → Prop}
    {post : History (sig P) → Answer P op → Prop} {past : History (sig P)} :
    (call P op).Meets pre post past ↔
      pre past op ∧ ∀ answer : Answer P op, post (past ++ [⟨op, answer⟩]) answer := Iff.rfl

variable {P} in
theorem meets_call_bind {α : Type} {op : Op} {f : Answer P op → Prog P α}
    {pre : History (sig P) → Op → Prop} {post : History (sig P) → α → Prop} {past : History (sig P)} :
    (call P op >>= f).Meets pre post past ↔
      pre past op ∧ ∀ answer : Answer P op, (f answer).Meets pre post (past ++ [⟨op, answer⟩]) := Iff.rfl

/-- How a read ends: with bytes that have arrived, at the end of the stream, or with an error such as
the read timeout. -/
inductive Read where
  | data (n : Nat)
  | eof
  | error (e : IoError)

/-- What the environment decides when an operation is performed. A failing write says how many bytes
it still delivered; `lock` says whether the mutex is poisoned. -/
@[reducible] def Choice : Op → Type
  | .lock _ => Bool
  | .peerUid => Option IoError
  | .tryClone => Except IoError Unit
  | .recv _ _ => Read
  | .writeAll _ _ => Except (IoError × Nat) Unit
  | .flush _ => Except IoError Unit
  | .setReadTimeout _ => Except IoError Unit
  | .spawn _ _ _ => Except IoError ProcessOutput
  | .appendAudit _ => Except IoError Unit
  | .consult _ _ => Approval
  | .waitRegistry => Bool
  | _ => Unit

/-- Nothing fails: a read brings `n` bytes and whoever is asked for approval answers `approval`. -/
def smooth (n : Nat) (approval : Approval) : (op : Op) → Choice op
  | .lock _ => false
  | .peerUid => none
  | .tryClone => .ok ()
  | .recv _ _ => .data n
  | .writeAll _ _ => .ok ()
  | .flush _ => .ok ()
  | .setReadTimeout _ => .ok ()
  | .spawn _ _ _ => .ok ⟨some 0, "", ""⟩
  | .appendAudit _ => .ok ()
  | .consult _ _ => approval
  | .waitRegistry => false
  | .acquireSlot | .releaseSlot | .unlock _ | .configHash | .readLastHash | .loadConfig | .swapCurrent _
  | .resetApprovals | .storeLastHash _ | .snapshot | .canonicalize _ | .isDir _ | .isRateLimited _ _
  | .checkCache _ _ _ | .recordCacheHit _ _ | .recordApproval _ _ _ | .instantNow | .systemTime
  | .lookupAgent _ | .insertAgent _ _ | .removeAgent _ | .signalDisconnected _ | .waitDisconnected _
  | .checkCurrent _ | .consumeCounter _ => ()

/-- Over this many connections, new ones wait for a slot. -/
def maxConcurrent : Nat := 16

/-- The length of a one-time code's time step, in seconds. -/
def totpStep : Nat := 30

/-- The codes accepted in a time step: its own and, with a skew of one, those of its neighbours. -/
def acceptsAt (step : Nat) (code : String) : Bool :=
  code == P.totpCode (step - 1) || code == P.totpCode step || code == P.totpCode (step + 1)

def Channel.send (ch : Channel) (t : Tid) (bytes : List UInt8) : Channel :=
  { ch with toPeer := ch.toPeer ++ bytes.map fun b => (b, t) }

def Daemon.setChannel (s : Daemon) (c : Conn) (ch : Channel) : Daemon :=
  { s with channel := Function.update s.channel c ch }

/-- What thread `t` performing an operation answers and does. Reads and writes on a stream may fail
at any time; a lock, a slot and `waitDisconnected` block until they can be had. A load finds the owner
and the text of one file; `splitWorld` has its two accesses. -/
def act (s : Daemon) (t : Tid) : (op : Op) → Choice op → Option (Answer P op × Daemon)
  | .acquireSlot, _ => if s.slots < maxConcurrent then some ((), { s with slots := s.slots + 1 }) else none
  | .releaseSlot, _ => some ((), { s with slots := s.slots - 1 })
  | .lock l, poisoned =>
      if s.holder l = none then some (poisoned, { s with holder := Function.update s.holder l (some t) })
      else none
  | .unlock l, _ =>
      if s.holder l = some t then some ((), { s with holder := Function.update s.holder l none }) else none
  | .configHash, _ => some (s.file.map fun f => P.sha256 f.contents, s)
  | .readLastHash, _ => some (s.lastHash, s)
  | .loadConfig, _ =>
      some (loadWithChecks P.regex P.parseToml P.configPath P.enforcePerms s.file, s)
  | .swapCurrent b, _ =>
      some ((), { s with current := ⟨b, s.generations⟩, generations := s.generations + 1 })
  | .resetApprovals, _ => some ((), { s with approvals := ApprovalState.new })
  | .storeLastHash h, _ => some ((), { s with lastHash := some h })
  | .snapshot, _ => some (s.current, s)
  | .peerUid, failure => some (failure.elim (.ok (s.uidOf t)) .error, s)
  | .tryClone, result => some (result, s)
  | .recv c max, read =>
      match read with
      | .data n =>
          let ch := s.channel c
          if 0 < n ∧ n ≤ max ∧ n ≤ ch.toDaemon.length then
            some (.ok ((ch.toDaemon.take n).map Prod.fst),
              s.setChannel c { ch with toDaemon := ch.toDaemon.drop n })
          else none
      | .eof => if (s.channel c).peer = .gone ∧ (s.channel c).toDaemon = [] then some (.ok [], s) else none
      | .error e => some (.error e, s)
  | .writeAll c bytes, result =>
      match result with
      | .ok () => some (.ok (), s.setChannel c ((s.channel c).send t bytes))
      | .error (e, n) => some (.error e, s.setChannel c ((s.channel c).send t (bytes.take n)))
  | .flush _, result => some (result, s)
  | .setReadTimeout _, result => some (result, s)
  | .canonicalize path, _ => some (s.files.canonicalize path, s)
  | .isDir path, _ => some (s.files.isDir path, s)
  | .isRateLimited scopes ruleIndex, _ =>
      let r := isRateLimited s.approvals scopes ruleIndex s.now
      some (r.1, { s with approvals := r.2 })
  | .checkCache scopes ruleIndex argv, _ =>
      some (checkCache s.approvals scopes ruleIndex argv s.now, s)
  | .recordCacheHit scopes ruleIndex, _ =>
      some ((), { s with approvals := recordCacheHit s.approvals scopes ruleIndex s.now })
  | .recordApproval scopes ruleIndex argv, _ =>
      some ((), { s with approvals := recordApproval s.approvals scopes ruleIndex argv s.now })
  | .spawn _ _ _, result => some (result, s)
  | .instantNow, _ => some (s.now, s)
  | .systemTime, _ => some (s.unixSecs, s)
  | .appendAudit entry, result =>
      some (result, match result with
        | .ok () => { s with auditLog := s.auditLog ++ [entry] }
        | .error _ => s)
  | .consult _ _, approval => some (approval, s)
  | .lookupAgent uid, _ => some (s.registry uid, s)
  | .waitRegistry, timedOut => some (timedOut, s)
  | .insertAgent uid c, _ => some ((), { s with registry := Function.update s.registry uid (some c) })
  | .removeAgent uid, _ => some ((), { s with registry := Function.update s.registry uid none })
  | .signalDisconnected c, _ =>
      some ((), { s with disconnected := Function.update s.disconnected c true })
  | .waitDisconnected c, _ => if s.disconnected c then some ((), s) else none
  | .checkCurrent code, _ => some (acceptsAt P (s.unixSecs / totpStep) code, s)
  | .consumeCounter counter, _ =>
      if counter ∈ s.usedCounters then some (false, s)
      else some (true, { s with usedCounters := counter :: s.usedCounters })

/-- What happens around the daemon: time passes, files are edited, peers send, receive and leave, and
a process that behaves like `run_agent` reads a prompt, is answered, writes its verdict or exits. It
reads whole lines: the text without a newline that it may find at the end of its stream, once the daemon
has dropped it, is left out. Neither clock goes back. -/
inductive Env where
  | tick (nanos : Nat)
  | tickUnix (secs : Nat)
  | editConfig (file : ConfigOnDisk)
  | editFiles (files : FileSystem)
  | peerSend (c : Conn) (bytes : List UInt8)
  | peerReceive (c : Conn) (n : Nat)
  | peerClose (c : Conn)
  | agentRead (c : Conn)
  | agentAnswer (c : Conn) (v : Verdict)
  | agentWrite (c : Conn) (n : Nat)
  | agentExit (c : Conn)

/-- The agent after reading a line: a malformed prompt is skipped, an undecodable line ends it. -/
def agentReads (line : List UInt8) (asker : Tid) : Peer :=
  match fromUtf8 line with
  | none => .gone
  | some text =>
      match Prompt.fromLine P.json text with
      | .ok p => .agent (.dialog p asker)
      | .error _ => .agent .reading

def env (s : Daemon) : Env → Option Daemon
  | .tick nanos => some { s with now := s.now + nanos }
  | .tickUnix secs => some { s with unixSecs := s.unixSecs + secs }
  | .editConfig file => some { s with file := file }
  | .editFiles files => some { s with files := files }
  | .peerSend c bytes =>
      let ch := s.channel c
      if ch.peer = .client then
        some (s.setChannel c { ch with toDaemon := ch.toDaemon ++ bytes.map fun b => (b, none) })
      else none
  | .peerReceive c n =>
      let ch := s.channel c
      if ch.peer = .client then some (s.setChannel c { ch with toPeer := ch.toPeer.drop n }) else none
  | .peerClose c =>
      let ch := s.channel c
      if ch.peer = .client then some (s.setChannel c { ch with peer := .gone }) else none
  | .agentRead c =>
      let ch := s.channel c
      match ch.peer, ch.toPeer.dropWhile (fun b => b.1 != newline) with
      | .agent .reading, last :: rest =>
          let line := (ch.toPeer.takeWhile fun b => b.1 != newline).map Prod.fst ++ [newline]
          some (s.setChannel c { ch with toPeer := rest, peer := agentReads P line last.2 })
      | _, _ => none
  | .agentAnswer c v =>
      let ch := s.channel c
      match ch.peer with
      | .agent (.dialog _ asker) =>
          match Verdict.toLine P.json v with
          | .ok line => some (s.setChannel c { ch with peer := .agent (.writing (utf8 line) asker) })
          | .error _ => some (s.setChannel c { ch with peer := .agent .reading })
      | _ => none
  | .agentWrite c n =>
      let ch := s.channel c
      match ch.peer with
      | .agent (.writing rest asker) =>
          let sent := (rest.take n).map fun b => (b, some asker)
          let next := if rest.drop n = [] then .reading else .writing (rest.drop n) asker
          some (s.setChannel c { ch with toDaemon := ch.toDaemon ++ sent, peer := .agent next })
      | _ => none
  | .agentExit c =>
      let ch := s.channel c
      match ch.peer with
      | .agent _ => some (s.setChannel c { ch with peer := .gone })
      | _ => none

/-- The daemon as a world its worker threads run in. -/
def world : World (sig P) Daemon Tid Env where
  Choice := Choice
  act := act P
  env := env P

end Sudix
