import Sudix.Agent
import Sudix.ConcurrentRefinement
import Sudix.DaemonSteps

/-! The daemon together with real agent processes. Each process runs its program over its end of a connection: it
takes bytes off the socket in pieces of any size, keeps what follows a line for the next one, waits for zenity, and
writes a verdict in pieces of any size. The daemon's own model knows such a process only by the state it shows. -/

namespace Sudix

open Concurrent

/-- A running agent: what remains of its program, the bytes it has taken off the socket and not yet used, how much of
the line it writes is written, and the thread whose prompt it read last, which no program sees. -/
structure Process where
  program : AgentProg (Except String Unit)
  pending : List (UInt8 × Tid)
  sent : Nat
  asker : Tid

/-- How an operation of an agent goes on or ends. `readEnd` is the end of the stream between two lines; that a stream
ends within a line, whose text `read_line` would return all the same, is left out. -/
inductive ProcessMove where
  | fill (n : Nat)
  | readLine
  | readEnd
  | readFail (e : IoError)
  | status (result : Except IoError (Option Int32))
  | send (n : Nat)
  | sent
  | sendFail (e : IoError)
  | flush (result : Except IoError Unit)
  | eprint

def Process.move (p : Process) (ch : Channel) (m : ProcessMove) : Option (Process × Channel) :=
  match p.program with
  | .ret _ => none
  | .call op next =>
      match op with
      | .readLine =>
          let next : Except IoError (List UInt8) → AgentProg (Except String Unit) := next
          match m with
          | .fill n =>
              if newline ∈ p.pending.map Prod.fst then none
              else some ({ p with pending := p.pending ++ ch.toPeer.take n }, { ch with toPeer := ch.toPeer.drop n })
          | .readLine =>
              match p.pending.dropWhile (fun b => b.1 != newline) with
              | [] => none
              | last :: rest =>
                  let line := (p.pending.takeWhile fun b => b.1 != newline).map Prod.fst ++ [newline]
                  some (⟨next (.ok line), rest, 0, last.2⟩, ch)
          | .readEnd =>
              if p.pending = [] ∧ ch.toPeer = [] then some ({ p with program := next (.ok []) }, ch) else none
          | .readFail e => some ({ p with program := next (.error e) }, ch)
          | _ => none
      | .status _ _ =>
          match m with
          | .status result => some ({ p with program := next result, sent := 0 }, ch)
          | _ => none
      | .writeAll bytes =>
          let next : Except IoError Unit → AgentProg (Except String Unit) := next
          match m with
          | .send n =>
              let piece := (bytes.drop p.sent).take n
              some ({ p with sent := p.sent + n },
                { ch with toDaemon := ch.toDaemon ++ piece.map fun b => (b, some p.asker) })
          | .sent => if bytes.drop p.sent = [] then some ({ p with program := next (.ok ()) }, ch) else none
          | .sendFail e => some ({ p with program := next (.error e) }, ch)
          | _ => none
      | .flush =>
          match m with
          | .flush result => some ({ p with program := next result }, ch)
          | _ => none
      | .eprint _ =>
          match m with
          | .eprint => some ({ p with program := next () }, ch)
          | _ => none
      | .connect _ | .tryClone => none

/-- A move is an operation of the process's program, or a part of one. -/
theorem Process.move_follows {p p' : Process} {ch ch' : Channel} {m : ProcessMove}
    (h : p.move ch m = some (p', ch')) : ∃ own, p.program.Follows own p'.program := by
  obtain ⟨program, pending, sent, asker⟩ := p
  unfold Process.move at h
  cases program with
  | ret result => cases h
  | call op next =>
      cases op with
      | readLine =>
          cases m with
          | fill n =>
              dsimp only at h
              split at h
              · cases h
              · cases h
                exact ⟨[], .refl⟩
          | readLine =>
              dsimp only at h
              split at h
              · cases h
              · cases h
                exact ⟨_, .step .refl⟩
          | readEnd =>
              dsimp only at h
              split at h
              · cases h
                exact ⟨_, .step .refl⟩
              · cases h
          | readFail e =>
              cases h
              exact ⟨_, .step .refl⟩
          | _ => cases h
      | writeAll bytes =>
          cases m with
          | send n =>
              cases h
              exact ⟨[], .refl⟩
          | sent =>
              dsimp only at h
              split at h
              · cases h
                exact ⟨_, .step .refl⟩
              · cases h
          | sendFail e =>
              cases h
              exact ⟨_, .step .refl⟩
          | _ => cases h
      | status program args =>
          cases m with
          | status result =>
              cases h
              exact ⟨_, .step .refl⟩
          | _ => cases h
      | flush =>
          cases m with
          | flush result =>
              cases h
              exact ⟨_, .step .refl⟩
          | _ => cases h
      | eprint text =>
          cases m with
          | eprint =>
              cases h
              exact ⟨_, .step .refl⟩
          | _ => cases h
      | connect path | tryClone => cases h

/-- The daemon and the agent processes, by the connections they hold. -/
structure Site where
  daemon : Daemon
  process : Conn → Option Process

/-- What happens around the daemon's threads: a process moves, ends or is ended, or something else happens. -/
inductive SiteEvent where
  | outer (event : Env)
  | move (c : Conn) (m : ProcessMove)
  | leave (c : Conn)

/-- What the abstract agents do, and nobody else. -/
def Env.ofAgent : Env → Bool
  | .agentRead _ | .agentAnswer _ _ | .agentWrite _ _ | .agentExit _ => true
  | _ => false

variable (P : Platform)

def siteEnv (s : Site) : SiteEvent → Option Site
  | .outer event =>
      if event.ofAgent then none else (env P s.daemon event).map fun d => { s with daemon := d }
  | .move c m =>
      match s.process c with
      | none => none
      | some p =>
          (p.move (s.daemon.channel c) m).map fun r =>
            ⟨s.daemon.setChannel c r.2, Function.update s.process c (some r.1)⟩
  | .leave c =>
      match s.process c with
      | none => none
      | some _ =>
          some ⟨s.daemon.setChannel c { s.daemon.channel c with peer := .gone }, Function.update s.process c none⟩

/-- The daemon's threads with real agents around them. -/
def siteWorld : World (sig P) Site Tid SiteEvent where
  Choice := Choice
  act s t op choice := (act P s.daemon t op choice).map fun r => (r.1, { s with daemon := r.2 })
  env := siteEnv P

/-- Every agent connection is held by a process at the start of its loop. -/
def Site.ofDaemon (d : Daemon) (rounds : Conn → Nat) : Site where
  daemon := d
  process c := if (d.channel c).peer = .agent .reading then some ⟨Agent.loop P.json (rounds c), [], 0, 0⟩ else none

/-- An operation of a thread, or a dialog that ends: on which connection it was asked for, with which
command, and with which verdict it ended. -/
inductive Seen where
  | operation (t : Tid) (event : Event (sig P))
  | dialog (c : Conn) (command : List String) (v : Verdict)

variable {P}

/-- The dialog that a move ends: its command and the verdict. -/
def Process.dialog (p : Process) (m : ProcessMove) : Option (List String × Verdict) :=
  match p.program, m with
  | .call (.status program args) _, .status result => some (program :: args, Agent.verdictFromStatus result)
  | _, _ => none

def seenAtSite (st : Step (sig P) Site Tid SiteEvent) : Option (Seen P) :=
  match st.label with
  | .thread t event => some (.operation t event)
  | .env (.move c m) => ((st.pre.process c).bind fun p => p.dialog m).map fun d => .dialog c d.1 d.2
  | .env _ => none

def seenAtDaemon (st : Step (sig P) Daemon Tid Env) : Option (Seen P) :=
  match st.label with
  | .thread t event => some (.operation t event)
  | .env (.agentAnswer c v) =>
      match (st.pre.channel c).peer with
      | .agent (.dialog p _) => some (.dialog c ("zenity" :: Agent.zenityArgs p) v)
      | _ => none
  | .env _ => none

end Sudix
