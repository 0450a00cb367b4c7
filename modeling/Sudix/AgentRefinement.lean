import Sudix.AgentSite
import Sudix.AgentVerdict

/-! Real agents are what the daemon's model takes them for. Whatever the daemon's threads and the agent processes do
together, in pieces of any size and in any order, the threads do the same among the abstract agents, and every dialog
that ends there ends here, for the prompt that zenity was shown and with the verdict of its exit. -/

namespace Sudix

open Concurrent

variable {P : Platform}

/-- Where a process stands in its program, and the peer that the daemon's model has in its place. A process that is
about to end is still there, or has already gone for the model. -/
inductive Standing (J : SerdeJson) (sent : Nat) (asker : Tid) : AgentProg (Except String Unit) → Peer → Prop
  | between (rounds : Nat) : Standing J sent asker (Agent.loop J rounds) (.agent .reading)
  | skipping (text : String) (rounds : Nat) :
      Standing J sent asker (agentCall (.eprint text) >>= fun _ => Agent.loop J rounds) (.agent .reading)
  | asking (q : Prompt) (rounds : Nat) :
      Standing J sent asker (Agent.answerPrompt J q (Agent.loop J rounds)) (.agent (.dialog q asker))
  | sending {line : String} (rounds : Nat) : (utf8 line).drop sent ≠ [] →
      Standing J sent asker (Agent.sendVerdict line (Agent.loop J rounds))
        (.agent (.writing ((utf8 line).drop sent) asker))
  | sentAll {line : String} (rounds : Nat) : (utf8 line).drop sent = [] →
      Standing J sent asker (Agent.sendVerdict line (Agent.loop J rounds)) (.agent .reading)
  | flushing (rounds : Nat) : Standing J sent asker (Agent.flushVerdict (Agent.loop J rounds)) (.agent .reading)
  | ended {e : String} {peer : Peer} : peer ≠ .client → Standing J sent asker (.ret (.error e)) peer

/-- A connection on both sides. What a process has taken off the socket is still on its way in the model, and what
was sent to a process that has gone is nobody's. -/
inductive Linked (J : SerdeJson) : Option Process → Channel → Channel → Prop
  | apart (ch : Channel) : Linked J none ch ch
  | left {toPeer toPeer' : List (UInt8 × Tid)} {toDaemon : List (UInt8 × Option Tid)} :
      Linked J none ⟨toPeer, toDaemon, .gone⟩ ⟨toPeer', toDaemon, .gone⟩
  | held {p : Process} {toPeer : List (UInt8 × Tid)} {toDaemon : List (UInt8 × Option Tid)} {peer : Peer} :
      Standing J p.sent p.asker p.program peer →
      Linked J (some p) ⟨toPeer, toDaemon, .agent .reading⟩ ⟨p.pending ++ toPeer, toDaemon, peer⟩

variable (P) in
structure SiteLinked (s : Site) (a : Daemon) : Prop where
  rest : a = { s.daemon with channel := a.channel }
  channel : ∀ c, Linked P.json (s.process c) (s.daemon.channel c) (a.channel c)

theorem Standing.ne_client {J : SerdeJson} {sent : Nat} {asker : Tid} {q : AgentProg (Except String Unit)} {peer : Peer}
    (h : Standing J sent asker q peer) : peer ≠ .client := by
  cases h with
  | ended hpeer => exact hpeer
  | _ => exact Peer.noConfusion

theorem Linked.held_inv {J : SerdeJson} {p : Process} {ch a : Channel} (h : Linked J (some p) ch a) :
    ∃ peer, Standing J p.sent p.asker p.program peer ∧ ch.peer = .agent .reading ∧
      a = ⟨p.pending ++ ch.toPeer, ch.toDaemon, peer⟩ := by
  cases h with
  | held hstanding => exact ⟨_, hstanding, rfl, rfl⟩

/-- Both sides of one connection change. -/
theorem SiteLinked.set {s : Site} {a : Daemon} (h : SiteLinked P s a) {c : Conn} {p : Option Process}
    {ch ch' : Channel} (hlinked : Linked P.json p ch ch') :
    SiteLinked P ⟨s.daemon.setChannel c ch, Function.update s.process c p⟩ (a.setChannel c ch') where
  rest := by
    show Daemon.setChannel a c ch' = _
    rw [Daemon.setChannel, h.rest]
    rfl
  channel c' := by
    by_cases hc : c' = c
    · subst hc
      simpa [Daemon.setChannel] using hlinked
    · simpa [Daemon.setChannel, Function.update_of_ne hc] using h.channel c'

section Moves

variable {a : Daemon} {c : Conn} {asker : Tid} {pending : List (UInt8 × Tid)} {sent : Nat} {ch ch' : Channel}
  {p' : Process} {m : ProcessMove} {after : Channel}

/-- The daemon's model follows a move on connection `c`, by standing still or by an event. -/
inductive Follow (P : Platform) (a : Daemon) (c : Conn) (after : Channel) : Option (List String × Verdict) → Prop
  | still : a.channel c = after → Follow P a c after none
  | event {e : Env} {ended : Option (List String × Verdict)} : env P a e = some (a.setChannel c after) →
      seenAtDaemon (P := P) ⟨a, .env e, a.setChannel c after⟩ = (ended.map fun d => .dialog c d.1 d.2) →
      Follow P a c after ended

/-- What the model has in place of a process and its end of the connection. -/
def Process.view (p : Process) (ch : Channel) (peer : Peer) : Channel := ⟨p.pending ++ ch.toPeer, ch.toDaemon, peer⟩

/-- A move of process `p` is followed, whatever it leaves. -/
def Followed (P : Platform) (a : Daemon) (c : Conn) (p : Process) (ch : Channel) (m : ProcessMove) (p' : Process)
    (ch' : Channel) : Prop :=
  ∃ peer, Standing P.json p'.sent p'.asker p'.program peer ∧ ch'.peer = ch.peer ∧
    Follow P a c (p'.view ch' peer) (p.dialog m)

theorem Standing.takeLine {bytes : List UInt8} (hbytes : bytes ≠ []) (rounds : Nat) :
    Standing P.json sent asker (Agent.takeLine P.json bytes (Agent.loop P.json rounds))
      (agentReads P bytes asker) := by
  rw [Agent.takeLine, if_neg hbytes, agentReads]
  cases fromUtf8 bytes with
  | none => exact .ended Peer.noConfusion
  | some line =>
      dsimp only
      cases Prompt.fromLine P.json line with
      | error e => exact .skipping _ rounds
      | ok q => exact .asking q rounds

/-- A line that stands in what a process has taken off the socket is the first one on its way. -/
theorem env_agentRead {rest toPeer : List (UInt8 × Tid)} {toDaemon : List (UInt8 × Option Tid)} {last : UInt8 × Tid}
    (ha : a.channel c = ⟨pending ++ toPeer, toDaemon, .agent .reading⟩)
    (hline : pending.dropWhile (fun b => b.1 != newline) = last :: rest) :
    env P a (.agentRead c) = some (a.setChannel c ⟨rest ++ toPeer, toDaemon,
      agentReads P ((pending.takeWhile fun b => b.1 != newline).map Prod.fst ++ [newline]) last.2⟩) := by
  have hdrop : (pending ++ toPeer).dropWhile (fun b => b.1 != newline) = last :: (rest ++ toPeer) := by
    rw [List.dropWhile_append, hline]
    rfl
  have htake : (pending ++ toPeer).takeWhile (fun b => b.1 != newline) =
      pending.takeWhile fun b => b.1 != newline := by
    have hlength := congrArg List.length (List.takeWhile_append_dropWhile (p := fun b => b.1 != newline) (l := pending))
    rw [hline, List.length_append, List.length_cons] at hlength
    rw [List.takeWhile_append, if_neg (by omega)]
  simp only [env, ha, hdrop, htake]

theorem loop_move {rounds : Nat}
    (ha : a.channel c = Process.view ⟨Agent.loop P.json rounds, pending, sent, asker⟩ ch (.agent .reading))
    (hmove : Process.move ⟨Agent.loop P.json rounds, pending, sent, asker⟩ ch m = some (p', ch')) :
    Followed P a c ⟨Agent.loop P.json rounds, pending, sent, asker⟩ ch m p' ch' := by
  cases rounds with
  | zero => cases hmove
  | succ rounds =>
      unfold Process.move at hmove
      dsimp only [Agent.loop, agentCall, Program.perform] at hmove
      simp only [Program.call_bind, Program.ret_bind] at hmove
      cases m with
      | fill n =>
          dsimp only at hmove
          split at hmove
          · cases hmove
          · cases hmove
            refine ⟨.agent .reading, .between (rounds + 1), rfl, .still ?_⟩
            rw [ha, Process.view, Process.view, List.append_assoc, List.take_append_drop]
      | readLine =>
          dsimp only at hmove
          split at hmove
          · cases hmove
          · rename_i last rest hline
            cases hmove
            exact ⟨_, .takeLine (by simp) rounds, rfl, .event (env_agentRead ha hline) rfl⟩
      | readEnd =>
          dsimp only at hmove
          split at hmove
          · cases hmove
            exact ⟨.agent .reading, .ended Peer.noConfusion, rfl, .still ha⟩
          · cases hmove
      | readFail e =>
          cases hmove
          exact ⟨.agent .reading, .ended Peer.noConfusion, rfl, .still ha⟩
      | _ => cases hmove

theorem eprint_move {text : String} {rounds : Nat}
    (ha : a.channel c =
      Process.view ⟨agentCall (.eprint text) >>= fun _ => Agent.loop P.json rounds, pending, sent, asker⟩ ch
        (.agent .reading))
    (hmove :
      Process.move ⟨agentCall (.eprint text) >>= fun _ => Agent.loop P.json rounds, pending, sent, asker⟩ ch m =
        some (p', ch')) :
    Followed P a c ⟨agentCall (.eprint text) >>= fun _ => Agent.loop P.json rounds, pending, sent, asker⟩ ch m p'
      ch' := by
  unfold Process.move at hmove
  cases m with
  | eprint =>
      cases hmove
      exact ⟨.agent .reading, .between rounds, rfl, .still ha⟩
  | _ => cases hmove

/-- The exit of zenity is the answer in the model, with the verdict that its status stands for. -/
theorem answerPrompt_move {q : Prompt} {rounds : Nat}
    (ha : a.channel c = Process.view ⟨Agent.answerPrompt P.json q (Agent.loop P.json rounds), pending, sent, asker⟩ ch
      (.agent (.dialog q asker)))
    (hmove : Process.move ⟨Agent.answerPrompt P.json q (Agent.loop P.json rounds), pending, sent, asker⟩ ch m =
      some (p', ch')) :
    Followed P a c ⟨Agent.answerPrompt P.json q (Agent.loop P.json rounds), pending, sent, asker⟩ ch m p' ch' := by
  unfold Process.move at hmove
  dsimp only [Agent.answerPrompt, Agent.spawnZenity, agentCall, Program.perform] at hmove
  simp only [Program.call_bind, Program.ret_bind, Program.pure_eq] at hmove
  cases m with
  | status result =>
      cases hmove
      have hseen : ∀ d : Daemon, seenAtDaemon (P := P) ⟨a, .env (.agentAnswer c (Agent.verdictFromStatus result)), d⟩ =
          some (.dialog c ("zenity" :: Agent.zenityArgs q) (Agent.verdictFromStatus result)) := by
        intro d
        simp only [seenAtDaemon, ha, Process.view]
      cases hline : (Agent.verdictFromStatus result).toLine P.json with
      | error e =>
          refine ⟨.agent .reading, .skipping _ rounds, rfl, .event ?_ (hseen _)⟩
          simp only [env, ha, Process.view, hline]
      | ok vLine =>
          have hunsent : (utf8 vLine).drop 0 ≠ [] := by
            obtain ⟨text, -, rfl⟩ := line_eq hline
            simp [utf8_append, utf8_newline]
          refine ⟨.agent (.writing ((utf8 vLine).drop 0) asker), .sending rounds hunsent, rfl, .event ?_ (hseen _)⟩
          simp only [env, ha, Process.view, hline, List.drop_zero]
  | _ => cases hmove

theorem sendVerdict_move {line : String} {rounds : Nat} (hleft : (utf8 line).drop sent ≠ [])
    (ha : a.channel c = Process.view ⟨Agent.sendVerdict line (Agent.loop P.json rounds), pending, sent, asker⟩ ch
      (.agent (.writing ((utf8 line).drop sent) asker)))
    (hmove : Process.move ⟨Agent.sendVerdict line (Agent.loop P.json rounds), pending, sent, asker⟩ ch m =
      some (p', ch')) :
    Followed P a c ⟨Agent.sendVerdict line (Agent.loop P.json rounds), pending, sent, asker⟩ ch m p' ch' := by
  unfold Process.move at hmove
  dsimp only [Agent.sendVerdict, agentCall, Program.perform] at hmove
  simp only [Program.call_bind, Program.ret_bind] at hmove
  cases m with
  | send n =>
      cases hmove
      by_cases hrest : ((utf8 line).drop sent).drop n = []
      · refine ⟨.agent .reading, .sentAll rounds ?_, rfl, .event (e := .agentWrite c n) ?_ rfl⟩
        · rw [← hrest, List.drop_drop]
        · simp only [env, ha, Process.view, if_pos hrest]
      · refine ⟨.agent (.writing (((utf8 line).drop sent).drop n) asker), ?_, rfl, .event (e := .agentWrite c n) ?_ rfl⟩
        · rw [List.drop_drop] at hrest ⊢
          exact .sending rounds hrest
        · simp only [env, ha, Process.view, if_neg hrest]
  | sent =>
      dsimp only at hmove
      rw [if_neg hleft] at hmove
      cases hmove
  | sendFail e =>
      cases hmove
      exact ⟨_, .ended Peer.noConfusion, rfl, .still ha⟩
  | _ => cases hmove

theorem sentAll_move {line : String} {rounds : Nat} (hleft : (utf8 line).drop sent = [])
    (ha : a.channel c = Process.view ⟨Agent.sendVerdict line (Agent.loop P.json rounds), pending, sent, asker⟩ ch
      (.agent .reading))
    (hmove : Process.move ⟨Agent.sendVerdict line (Agent.loop P.json rounds), pending, sent, asker⟩ ch m =
      some (p', ch')) :
    Followed P a c ⟨Agent.sendVerdict line (Agent.loop P.json rounds), pending, sent, asker⟩ ch m p' ch' := by
  unfold Process.move at hmove
  dsimp only [Agent.sendVerdict, agentCall, Program.perform] at hmove
  simp only [Program.call_bind, Program.ret_bind] at hmove
  cases m with
  | send n =>
      cases hmove
      refine ⟨.agent .reading, .sentAll rounds ?_, rfl, .still ?_⟩
      · rw [← List.drop_drop, hleft, List.drop_nil]
      · simp only [ha, Process.view, hleft, List.take_nil, List.map_nil, List.append_nil]
  | sent =>
      dsimp only at hmove
      rw [if_pos hleft] at hmove
      cases hmove
      exact ⟨.agent .reading, .flushing rounds, rfl, .still ha⟩
  | sendFail e =>
      cases hmove
      exact ⟨.agent .reading, .ended Peer.noConfusion, rfl, .still ha⟩
  | _ => cases hmove

theorem flushVerdict_move {rounds : Nat}
    (ha : a.channel c = Process.view ⟨Agent.flushVerdict (Agent.loop P.json rounds), pending, sent, asker⟩ ch
      (.agent .reading))
    (hmove : Process.move ⟨Agent.flushVerdict (Agent.loop P.json rounds), pending, sent, asker⟩ ch m =
      some (p', ch')) :
    Followed P a c ⟨Agent.flushVerdict (Agent.loop P.json rounds), pending, sent, asker⟩ ch m p' ch' := by
  unfold Process.move at hmove
  dsimp only [Agent.flushVerdict, agentCall, Program.perform] at hmove
  simp only [Program.call_bind, Program.ret_bind] at hmove
  cases m with
  | flush result =>
      cases result with
      | error e =>
          cases hmove
          exact ⟨.agent .reading, .ended Peer.noConfusion, rfl, .still ha⟩
      | ok _ =>
          cases hmove
          exact ⟨.agent .reading, .between rounds, rfl, .still ha⟩
  | _ => cases hmove

/-- Every move of a process is followed. -/
theorem Standing.move {p : Process} {peer : Peer} (h : Standing P.json p.sent p.asker p.program peer)
    (ha : a.channel c = p.view ch peer) (hmove : p.move ch m = some (p', ch')) : Followed P a c p ch m p' ch' := by
  obtain ⟨program, pending, sent, asker⟩ := p
  dsimp only at h
  cases h with
  | between rounds => exact loop_move ha hmove
  | skipping text rounds => exact eprint_move ha hmove
  | asking q rounds => exact answerPrompt_move ha hmove
  | sending rounds hleft => exact sendVerdict_move hleft ha hmove
  | sentAll rounds hleft => exact sentAll_move hleft ha hmove
  | flushing rounds => exact flushVerdict_move ha hmove
  | ended _ => cases hmove

end Moves

section Steps

variable {J : SerdeJson} {p : Option Process} {ch a : Channel} {t : Tid}

theorem Linked.toDaemon_eq (h : Linked J p ch a) : a.toDaemon = ch.toDaemon := by
  cases h with
  | _ => rfl

theorem Linked.gone (h : Linked J p ch a) (hgone : ch.peer = .gone) : a.peer = .gone := by
  cases h with
  | apart => exact hgone
  | left => rfl
  | held _ => cases hgone

theorem Linked.client (h : Linked J p ch a) (hclient : ch.peer = .client) : p = none ∧ a = ch := by
  cases h with
  | apart => exact ⟨rfl, rfl⟩
  | _ => cases hclient

theorem Linked.recv (h : Linked J p ch a) (n : Nat) :
    Linked J p { ch with toDaemon := ch.toDaemon.drop n } { a with toDaemon := a.toDaemon.drop n } := by
  cases h with
  | apart => exact .apart _
  | left => exact .left
  | held hstanding => exact .held hstanding

theorem Linked.send (h : Linked J p ch a) (bytes : List UInt8) : Linked J p (ch.send t bytes) (a.send t bytes) := by
  cases h with
  | apart => exact .apart _
  | left => exact .left
  | held hstanding =>
      rw [Channel.send, Channel.send, List.append_assoc]
      exact .held hstanding

variable {s : Site} {a : Daemon}

/-- An operation that works on no stream does not look at the channels. -/
theorem act_rechannel {op : Op} (h : op.stream = none) (u : Daemon) (channel : Conn → Channel) (choice : Choice op) :
    act P { u with channel := channel } t op choice =
      (act P u t op choice).map fun r => (r.1, { r.2 with channel := channel }) := by
  cases op
  all_goals first
    | cases h
      done
    | simp only [act]
      repeat' split
      all_goals rfl

/-- Both sides of one connection change, and the processes do not. -/
theorem SiteLinked.setChannel (h : SiteLinked P s a) {c : Conn} {ch ch' : Channel}
    (hlinked : Linked P.json (s.process c) ch ch') :
    SiteLinked P { s with daemon := s.daemon.setChannel c ch } (a.setChannel c ch') := by
  have hset : SiteLinked P ⟨s.daemon.setChannel c ch, Function.update s.process c (s.process c)⟩ (a.setChannel c ch') :=
    h.set hlinked
  rwa [Function.update_eq_self] at hset

theorem SiteLinked.recv (h : SiteLinked P s a) {c : Conn} {max : Nat} {read : Read} {answer : Answer P (.recv c max)}
    {d : Daemon} (hact : act P s.daemon t (.recv c max) read = some (answer, d)) :
    ∃ a', act P a t (.recv c max) read = some (answer, a') ∧ SiteLinked P { s with daemon := d } a' := by
  have hlinked := h.channel c
  cases read with
  | data n =>
      simp only [act] at hact ⊢
      split at hact
      · rename_i hn
        cases hact
        rw [if_pos (by rw [hlinked.toDaemon_eq]; exact hn)]
        refine ⟨_, ?_, h.setChannel (hlinked.recv n)⟩
        rw [hlinked.toDaemon_eq]
      · cases hact
  | eof =>
      simp only [act] at hact ⊢
      split at hact
      · rename_i hend
        cases hact
        exact ⟨a, if_pos ⟨hlinked.gone hend.1, hlinked.toDaemon_eq.trans hend.2⟩, h⟩
      · cases hact
  | error e =>
      cases hact
      exact ⟨a, rfl, h⟩

theorem SiteLinked.writeAll (h : SiteLinked P s a) {c : Conn} {bytes : List UInt8}
    {result : Except (IoError × Nat) Unit} {answer : Answer P (.writeAll c bytes)} {d : Daemon}
    (hact : act P s.daemon t (.writeAll c bytes) result = some (answer, d)) :
    ∃ a', act P a t (.writeAll c bytes) result = some (answer, a') ∧ SiteLinked P { s with daemon := d } a' := by
  cases result with
  | ok _ =>
      cases hact
      exact ⟨_, rfl, h.setChannel ((h.channel c).send bytes)⟩
  | error failure =>
      cases hact
      exact ⟨_, rfl, h.setChannel ((h.channel c).send _)⟩

/-- The model's threads can do what the site's do. -/
theorem SiteLinked.act (h : SiteLinked P s a) {op : Op} {choice : Choice op} {answer : Answer P op} {d : Daemon}
    (hact : Sudix.act P s.daemon t op choice = some (answer, d)) :
    ∃ a', Sudix.act P a t op choice = some (answer, a') ∧ SiteLinked P { s with daemon := d } a' := by
  cases hstream : op.stream with
  | some c =>
      cases op with
      | recv c max => exact h.recv hact
      | writeAll c bytes => exact h.writeAll hact
      | _ => cases hstream
  | none =>
      refine ⟨{ d with channel := a.channel }, ?_, rfl, fun c => ?_⟩
      · rw [h.rest, act_rechannel hstream, hact]
        rfl
      · have hsame := (act_frame hact).channel c (by rw [hstream]; exact (Option.some_ne_none c).symm)
        show Linked P.json (s.process c) (d.channel c) (a.channel c)
        rw [hsame]
        exact h.channel c

/-- What neither a thread nor an agent does happens alike. -/
theorem SiteLinked.outer (h : SiteLinked P s a) {event : Env} {d : Daemon} (hevent : event.ofAgent = false)
    (henv : env P s.daemon event = some d) :
    ∃ a', env P a event = some a' ∧ SiteLinked P { s with daemon := d } a' := by
  have hpeer : ∀ c (ch : Channel), (s.daemon.channel c).peer = .client → a.channel c = s.daemon.channel c ∧
      SiteLinked P { s with daemon := s.daemon.setChannel c ch } (a.setChannel c ch) := by
    intro c ch hclient
    obtain ⟨hnone, hsame⟩ := (h.channel c).client hclient
    refine ⟨hsame, h.setChannel ?_⟩
    rw [hnone]
    exact .apart ch
  cases event with
  | peerSend c _ | peerReceive c _ | peerClose c =>
      simp only [env] at henv ⊢
      split at henv
      · rename_i hclient
        cases henv
        obtain ⟨hsame, hset⟩ := hpeer c _ hclient
        exact ⟨_, by rw [hsame, if_pos hclient], hset⟩
      · cases henv
  | tick nanos | tickUnix secs | editConfig file | editFiles files =>
      cases henv
      refine ⟨_, rfl, ?_, h.channel⟩
      conv_lhs => rw [h.rest]
  | _ => cases hevent

/-- A process that goes has gone for the model, or goes there as well. -/
theorem SiteLinked.leave (h : SiteLinked P s a) {c : Conn} {p : Process} (hp : s.process c = some p) :
    ∃ toPeer, SiteLinked P
        ⟨s.daemon.setChannel c { s.daemon.channel c with peer := .gone }, Function.update s.process c none⟩
        (a.setChannel c ⟨toPeer, (a.channel c).toDaemon, .gone⟩) ∧
      (a.channel c = ⟨toPeer, (a.channel c).toDaemon, .gone⟩ ∨
        env P a (.agentExit c) = some (a.setChannel c ⟨toPeer, (a.channel c).toDaemon, .gone⟩)) := by
  have hlinked := h.channel c
  rw [hp] at hlinked
  obtain ⟨peer, hstanding, -, ha⟩ := hlinked.held_inv
  refine ⟨p.pending ++ (s.daemon.channel c).toPeer, h.set ?_, ?_⟩
  · rw [hlinked.toDaemon_eq]
    exact .left
  · cases peer with
    | client => exact absurd rfl hstanding.ne_client
    | gone => exact .inl (by rw [ha])
    | agent state =>
        refine .inr ?_
        simp only [env, ha]

theorem setChannel_eq_self {d : Daemon} {c : Conn} {ch : Channel} (h : d.channel c = ch) : d.setChannel c ch = d := by
  rw [Daemon.setChannel, ← h, Function.update_eq_self]

/-- **Real agents are abstract agents.** Every step of the site is a step of the daemon's model, or none. -/
theorem site_simulates : Simulates (siteWorld P) (world P) (SiteLinked P) seenAtSite seenAtDaemon where
  thread {s a t op choice answer s'} h hact := by
    obtain ⟨⟨answer', d⟩, hact', heq⟩ := Option.map_eq_some_iff.mp hact
    obtain ⟨rfl, rfl⟩ := Prod.mk.inj heq
    obtain ⟨a', hact'', hlinked⟩ := h.act hact'
    exact ⟨choice, a', hact'', hlinked, rfl⟩
  env {s a event s'} h henv := by
    cases event with
    | outer event =>
        simp only [siteWorld, siteEnv] at henv
        split at henv
        · cases henv
        · rename_i hagent
          obtain ⟨d, henv', rfl⟩ := Option.map_eq_some_iff.mp henv
          obtain ⟨a', hstep, hlinked⟩ := h.outer (Bool.eq_false_iff.mpr hagent) henv'
          refine .inr ⟨event, a', hstep, hlinked, ?_⟩
          cases event with
          | agentAnswer c v => exact absurd rfl hagent
          | _ => rfl
    | move c m =>
        simp only [siteWorld, siteEnv] at henv
        split at henv
        · cases henv
        · rename_i p hp
          obtain ⟨⟨p', ch'⟩, hmove, rfl⟩ := Option.map_eq_some_iff.mp henv
          have hlinked := h.channel c
          rw [hp] at hlinked
          obtain ⟨peer, hstanding, hagent, ha⟩ := hlinked.held_inv
          obtain ⟨peer', hstanding', hpeer, hfollow⟩ := hstanding.move ha hmove
          have hafter : Linked P.json (some p') ch' (p'.view ch' peer') := by
            obtain ⟨toPeer, toDaemon, _⟩ := ch'
            obtain rfl : _ = Peer.agent .reading := hpeer.trans hagent
            exact .held hstanding'
          have hset := h.set (c := c) hafter
          have hseen : ∀ d, seenAtSite (P := P) ⟨s, .env (.move c m), d⟩ =
              (p.dialog m).map fun d => .dialog c d.1 d.2 := by
            intro d
            simp only [seenAtSite, hp, Option.bind_some]
          rw [hseen]
          generalize p.dialog m = ended at hfollow
          cases hfollow with
          | still hsame =>
              rw [setChannel_eq_self hsame] at hset
              exact .inl ⟨hset, rfl⟩
          | event hstep hshown => exact .inr ⟨_, _, hstep, hset, hshown⟩
    | leave c =>
        simp only [siteWorld, siteEnv] at henv
        split at henv
        · cases henv
        · rename_i p hp
          cases henv
          obtain ⟨toPeer, hlinked, hgone | hexit⟩ := h.leave hp
          · rw [setChannel_eq_self hgone] at hlinked
            exact .inl ⟨hlinked, rfl⟩
          · exact .inr ⟨.agentExit c, _, hexit, hlinked, rfl⟩

/-- Processes at the start of their loops are agents that read. -/
theorem ofDaemon_linked (d : Daemon) (rounds : Conn → Nat) : SiteLinked P (Site.ofDaemon P d rounds) d where
  rest := rfl
  channel c := by
    show Linked P.json (if (d.channel c).peer = .agent .reading then _ else _) (d.channel c) (d.channel c)
    split
    · rename_i hagent
      cases hchannel : d.channel c with
      | mk toPeer toDaemon peer =>
          rw [hchannel] at hagent
          obtain rfl : peer = .agent .reading := hagent
          exact .held (p := ⟨_, [], 0, 0⟩) (.between (rounds c))
    · exact .apart _

end Steps

variable {α : Type} {p₀ ps : Pool (sig P) Tid α} {d : Daemon} {rounds : Conn → Nat} {s : Site}
  {tr : Trace (sig P) Site Tid SiteEvent}

/-- Whatever the threads of the daemon do among real agents, which read and write in pieces and show their dialogs
with zenity, they do among the abstract agents: a run there performs the same operations with the same answers, and
ends the same dialogs with the same verdicts, in the same order. The daemon ends in the same state, up to what is on
its way to the agents and who holds the other ends. -/
theorem agents_refine (hrun : Run (siteWorld P) (Site.ofDaemon P d rounds) p₀ tr s ps) :
    ∃ tr' d', Run (world P) d p₀ tr' d' ps ∧ tr'.filterMap seenAtDaemon = tr.filterMap seenAtSite ∧
      d' = { s.daemon with channel := d'.channel } ∧
      ∀ c, (d'.channel c).toDaemon = (s.daemon.channel c).toDaemon := by
  obtain ⟨tr', d', hrun', hlinked, hseen, -⟩ := site_simulates.run (ofDaemon_linked d rounds) hrun
  exact ⟨tr', d', hrun', hseen, hlinked.rest, fun c => (hlinked.channel c).toDaemon_eq⟩

/-- A prompt goes out, the agent takes it in two pieces, zenity exits with 0, and the verdict comes back in two. -/
def clickTrip (t : Tid) : List (Move (siteWorld latePlatform)) :=
  List.replicate 4 (.thread t (smooth 0 .denied)) ++
    [.env (.move 7 (.fill 5)), .env (.move 7 (.fill 4096)), .env (.move 7 .readLine),
      .env (.move 7 (.status (.ok (some 0)))), .env (.move 7 (.send 13)), .env (.move 7 (.send 100)),
      .env (.move 7 .sent), .env (.move 7 (.flush (.ok ())))] ++
    List.replicate 2 (.thread t (smooth 20 .denied))

/-- Two prompts, one after the other, of an agent that goes on for a third round. -/
def clickRun : Option (Point (sig latePlatform) Site Tid SiteEvent Approval) :=
  replay (siteWorld latePlatform) ⟨[], Site.ofDaemon latePlatform lateDaemon fun _ => 3, lateCalls⟩
    (clickTrip 0 ++ clickTrip 1)

theorem clickRun_steps :
    ∃ c, clickRun = some c ∧
      Run (siteWorld latePlatform) (Site.ofDaemon latePlatform lateDaemon fun _ => 3) lateCalls c.trace c.state c.pool ∧
      c.pool 0 = .ret .allowed ∧ c.pool 1 = .ret .allowed := by
  obtain ⟨c, hc⟩ : ∃ c, clickRun = some c := ⟨_, rfl⟩
  refine ⟨c, hc, run_of_replay .start hc, ?_⟩
  obtain rfl := Option.some.inj hc
  exact ⟨rfl, rfl⟩

theorem clickRun_refined :
    ∃ c, clickRun = some c ∧ c.pool 0 = .ret .allowed ∧ c.pool 1 = .ret .allowed ∧
      ∃ tr' d', Run (world latePlatform) lateDaemon lateCalls tr' d' c.pool ∧
        tr'.filterMap seenAtDaemon = c.trace.filterMap seenAtSite ∧
        d' = { c.state.daemon with channel := d'.channel } ∧
        ∀ i, (d'.channel i).toDaemon = (c.state.daemon.channel i).toDaemon := by
  obtain ⟨c, hc, hrun, hfirst, hsecond⟩ := clickRun_steps
  exact ⟨c, hc, hfirst, hsecond, agents_refine hrun⟩

end Sudix
