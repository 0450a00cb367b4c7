import Sudix.RestartEquivalence
import Sudix.Separators
import Sudix.SingleDialog

/-! The first line of a connection. `read_line` under the cap cuts the stream its peer sends, however
it arrives: after the first newline, at the cap, or at the end of the stream. The cap counts bytes
and the line is a `String`, so that a cut inside a character makes it an error of the read. -/

namespace Sudix

open Concurrent Separators

variable {P : Platform} {c : Conn} {own : History (sig P)} {approver : Approver} {approvalMutex : Bool}

/-- The first line of a stream of bytes, as far as it stands before the cap. -/
def lineBytes (limit : Nat) (stream : List UInt8) : List UInt8 :=
  if newline ∈ stream.take limit then (stream.take limit).takeWhile (· != newline) ++ [newline]
  else stream.take limit

theorem lineBytes_length (limit : Nat) (stream : List UInt8) : (lineBytes limit stream).length ≤ limit := by
  unfold lineBytes
  split
  · rename_i hmem
    obtain ⟨front, rest, hcut, hfront⟩ := List.eq_append_cons_of_mem hmem
    have hlength := List.length_take_le limit stream
    rw [hcut, takeWhile_cut hfront]
    rw [hcut] at hlength
    simp only [List.length_append, List.length_cons, List.length_nil] at hlength ⊢
    omega
  · exact List.length_take_le limit stream

/-- A newline before the cap ends the line. -/
theorem lineBytes_cut {limit : Nat} {line rest : List UInt8} (hline : newline ∉ line)
    (hlength : line.length < limit) : lineBytes limit (line ++ newline :: rest) = line ++ [newline] := by
  obtain ⟨room, hroom⟩ : ∃ room, limit - line.length = room + 1 := ⟨limit - line.length - 1, by omega⟩
  have htake : (line ++ newline :: rest).take limit = line ++ newline :: rest.take room := by
    rw [List.take_append, List.take_of_length_le (Nat.le_of_lt hlength), hroom, List.take_succ_cons]
  rw [lineBytes, htake, if_pos (List.mem_append_right _ List.mem_cons_self), takeWhile_cut hline]

/-- The reads on a connection bring a stream piece by piece; one that brings nothing is at its end. -/
def Delivers (c : Conn) (stream : List UInt8) (own : History (sig P)) : Prop :=
  ∀ before n bytes after, own = before ++ ⟨.recv c n, .ok bytes⟩ :: after →
    received before ++ bytes <+: stream ∧ (bytes = [] → received before = stream)

section Reading

variable {chunk : Nat → Nat} {limit : Nat} {line stream : List UInt8}

/-- A line in progress is what has been read, up to the limit. -/
theorem Reading.eq_take (h : Reading c chunk limit own line) :
    line = (received own).take limit ∧ newline ∉ line ∧ (line.length < limit → line = received own) := by
  induction h with
  | start => simp [received]
  | @more own line bytes _ hlt hnl hne ih =>
      obtain ⟨-, hnone, hline⟩ := ih
      have hall : received (own ++ [⟨.recv c (chunk (limit - line.length)), .ok bytes⟩]) = line ++ bytes := by
        rw [received_append, ← hline hlt]
        simp [received]
      have htake : line ++ bytes.take (limit - line.length) = (line ++ bytes).take limit := by
        rw [List.take_append, List.take_of_length_le (Nat.le_of_lt hlt)]
      rw [hall]
      refine ⟨htake, by simp [hnone, hnl], fun hshort => ?_⟩
      rw [htake] at hshort ⊢
      rw [List.length_take] at hshort
      exact List.take_of_length_le (by omega)

theorem Delivers.last {n : Nat} {bytes : List UInt8}
    (h : Delivers c stream (own ++ [⟨.recv c n, .ok bytes⟩])) :
    received own ++ bytes <+: stream ∧ (bytes = [] → received own = stream) :=
  h own n bytes [] rfl

/-- What a line in progress has been read from is a beginning of the stream. -/
theorem Reading.prefix_stream (h : Reading c chunk limit own line) (hdelivers : Delivers c stream own) :
    received own <+: stream := by
  cases h with
  | start => exact List.nil_prefix
  | @more own line bytes _ _ _ _ =>
      have hlast := hdelivers.last.1
      rw [received_append]
      simpa [received] using hlast

/-- **A line is the cut of its stream**, however the stream is delivered. -/
theorem ReadDone.eq_lineBytes {bytes : List UInt8} (h : ReadDone c chunk limit own (.ok bytes))
    (hdelivers : Delivers c stream own) : bytes = lineBytes limit stream := by
  cases h with
  | full hreading hfull =>
      obtain ⟨htake, hnone, -⟩ := hreading.eq_take
      obtain ⟨rest, hrest⟩ := hreading.prefix_stream hdelivers
      have hlength := congrArg List.length htake
      rw [List.length_take] at hlength
      have hstream : stream.take limit = bytes := by
        rw [htake, ← hrest, List.take_append_of_le_length (by omega)]
      rw [lineBytes, hstream, if_neg hnone]
  | @newline own line brought hreading hlt hnl =>
      obtain ⟨-, hnone, hline⟩ := hreading.eq_take
      obtain ⟨rest, hrest⟩ := hdelivers.last.1
      obtain ⟨front, tail, hcut, hfront⟩ := List.eq_append_cons_of_mem hnl
      have hlength := List.length_take_le (limit - line.length) brought
      rw [hcut, List.length_append, List.length_cons] at hlength
      obtain ⟨excess, hexcess⟩ := List.take_prefix (limit - line.length) brought
      have hstream : stream = (line ++ front) ++ Sudix.newline :: (tail ++ excess ++ rest) := by
        rw [← hrest, ← hline hlt, ← hexcess, hcut]
        simp
      rw [hcut, takeWhile_cut hfront, hstream, lineBytes_cut (by simp [hnone, hfront])]
      rw [List.length_append]
      omega
  | @eof own line brought hreading hlt hnil =>
      obtain ⟨htake, hnone, hline⟩ := hreading.eq_take
      have hempty : brought = [] := (List.take_eq_nil_iff.mp hnil).resolve_left (by omega)
      rw [hdelivers.last.2 hempty] at htake
      rw [lineBytes, ← htake, if_neg hnone]

end Reading

/-- The first line of a text, with its newline if it has one. -/
def firstLine (text : String) : String :=
  if '\n' ∈ text.toList then String.ofList (text.toList.takeWhile (· != '\n') ++ ['\n']) else text

section Text

variable {text line : String} {limit : Nat}

theorem utf8ByteSize_eq (line : String) : line.utf8ByteSize = (utf8 line).length := rfl

/-- Up to its first newline a text is encoded in front of the newline's byte. -/
theorem utf8_cut (h : newline ∈ utf8 text) :
    ∃ front rest, utf8 text = front ++ newline :: rest ∧ newline ∉ front ∧
      utf8 (firstLine text) = front ++ [newline] := by
  rw [newline_mem_utf8] at h
  obtain ⟨front, rest, htext, hfront⟩ := List.eq_append_cons_of_mem h
  refine ⟨utf8 (String.ofList front), utf8 (String.ofList rest), ?_, ?_, ?_⟩
  · have hsplit : text = String.ofList front ++ "\n" ++ String.ofList rest := by
      apply String.ext
      simpa using htext
    rw [hsplit, utf8_append, utf8_append, utf8_newline, List.append_assoc, List.singleton_append]
  · rw [newline_mem_utf8]
    simpa using hfront
  · rw [firstLine, if_pos h, htext, takeWhile_cut hfront, String.ofList_append, utf8_append]
    exact congrArg _ utf8_newline

theorem lineBytes_text (h : newline ∈ (utf8 text).take limit) :
    lineBytes limit (utf8 text) = utf8 (firstLine text) := by
  obtain ⟨front, rest, htext, hfront, hline⟩ := utf8_cut (List.mem_of_mem_take h)
  rw [hline, htext]
  refine lineBytes_cut hfront ?_
  by_contra hlong
  rw [htext, List.take_append_of_le_length (Nat.le_of_not_lt hlong)] at h
  exact hfront (List.mem_of_mem_take h)

theorem firstLine_getLast? (h : newline ∈ utf8 text) : (firstLine text).toList.getLast? = some '\n' := by
  rw [firstLine, if_pos (newline_mem_utf8.mp h), String.toList_ofList, List.getLast?_concat]

theorem firstLine_of_not_mem (h : newline ∉ utf8 text) : firstLine text = text := by
  rw [firstLine, if_neg]
  rwa [newline_mem_utf8] at h

theorem getLast?_ne_newline (h : newline ∉ utf8 line) : line.toList.getLast? ≠ some '\n' := by
  intro hlast
  rw [newline_mem_utf8] at h
  exact h (List.mem_of_getLast? hlast)

end Text

section Served

variable (P)

/-- The rest of a worker whose connection is handled by `rest`. -/
def releasing (rest : Prog P (Except IoError Unit)) : Prog P (Except IoError Unit) := do
  let result ← rest
  call P .releaseSlot
  return result

/-- `handle_connection_threaded` from the bytes `read_line` has taken on. -/
def serveBytes (c : Conn) (bundle : PolicyBundle) (callerUid : Uid) (approver : Approver)
    (approvalMutex : Bool) (bytes : List UInt8) : Prog P (Except IoError Unit) :=
  match fromUtf8 bytes with
  | none => return .error "stream did not contain valid UTF-8"
  | some line =>
      if line = "" then return .ok ()
      else if maxRequestBytes ≤ line.utf8ByteSize ∧ line.toList.getLast? ≠ some '\n' then
        writeResponse P c (.denied "request too large")
      else serveHello P c bundle callerUid approver approvalMutex line

end Served

section Follows

variable {chunk : Nat → Nat} {limit : Nat} {line : List UInt8}

theorem readLineBytes_succ (rounds : Nat) (hlt : line.length < limit) :
    readLineBytes P c chunk limit (rounds + 1) line =
      .call (.recv c (chunk (limit - line.length))) fun answer =>
        match answer with
        | .error e => .ret (.error e)
        | .ok bytes =>
            let seen := bytes.take (limit - line.length)
            if newline ∈ seen then .ret (.ok (line ++ seen.takeWhile (· != newline) ++ [newline]))
            else if seen = [] then .ret (.ok line)
            else readLineBytes P c chunk limit rounds (line ++ seen) := by
  rw [readLineBytes, if_neg (Nat.not_le.mpr hlt)]
  rfl

theorem Reading.follows (h : Reading c chunk limit own line) :
    ∃ rounds, limit ≤ line.length + rounds ∧
      (readLineBytes P c chunk limit limit []).Follows own (readLineBytes P c chunk limit rounds line) := by
  induction h with
  | start => exact ⟨limit, by simp, .refl⟩
  | @more own line bytes _ hlt hnl hne ih =>
      obtain ⟨rounds, hrounds, hfollows⟩ := ih
      obtain ⟨rounds, rfl⟩ : ∃ rest, rounds = rest + 1 := ⟨rounds - 1, by omega⟩
      rw [readLineBytes_succ rounds hlt] at hfollows
      have hnext := hfollows.snoc (.ok bytes)
      simp only [if_neg hnl, if_neg hne] at hnext
      refine ⟨rounds, ?_, hnext⟩
      have hpos := List.length_pos_iff.mpr hne
      rw [List.length_append]
      omega

theorem ReadDone.follows {result : Except IoError (List UInt8)} (h : ReadDone c chunk limit own result) :
    (readLineBytes P c chunk limit limit []).Follows own (.ret result) := by
  cases h with
  | @full own line hreading hfull =>
      obtain ⟨rounds, -, hfollows⟩ := hreading.follows
      cases rounds with
      | zero => exact hfollows
      | succ rounds =>
          rw [readLineBytes, if_pos hfull] at hfollows
          exact hfollows
  | @newline own line bytes hreading hlt hnl =>
      obtain ⟨rounds, hrounds, hfollows⟩ := hreading.follows
      obtain ⟨rounds, rfl⟩ : ∃ rest, rounds = rest + 1 := ⟨rounds - 1, by omega⟩
      rw [readLineBytes_succ rounds hlt] at hfollows
      have hnext := hfollows.snoc (.ok bytes)
      simp only [if_pos hnl] at hnext
      exact hnext
  | @eof own line bytes hreading hlt hnil =>
      obtain ⟨rounds, hrounds, hfollows⟩ := hreading.follows
      obtain ⟨rounds, rfl⟩ : ∃ rest, rounds = rest + 1 := ⟨rounds - 1, by omega⟩
      rw [readLineBytes_succ rounds hlt] at hfollows
      have hnext := hfollows.snoc (.ok bytes)
      simp only [hnil, List.not_mem_nil, if_false, if_true] at hnext
      exact hnext
  | @error own line e hreading hlt =>
      obtain ⟨rounds, hrounds, hfollows⟩ := hreading.follows
      obtain ⟨rounds, rfl⟩ : ∃ rest, rounds = rest + 1 := ⟨rounds - 1, by omega⟩
      rw [readLineBytes_succ rounds hlt] at hfollows
      exact hfollows.snoc (.error e)

/-- What an authorized connection has done once it has read. -/
def opened (own : History (sig P)) (loaded : Loaded) (callerUid : Uid) (reads : History (sig P)) :
    History (sig P) :=
  ⟨.acquireSlot, ()⟩ :: own ++ [⟨.snapshot, loaded⟩] ++
    (⟨.peerUid, .ok callerUid⟩ :: ⟨.tryClone, .ok ()⟩ :: reads)

/-- The worker of an authorized connection while it reads: `q` is what remains of the read. -/
theorem worker_reading {loaded : Loaded} {callerUid : Uid} {reads : History (sig P)}
    {q : Prog P (Except IoError (List UInt8))}
    (hreload : ReloadDone own (.ok ())) (hauth : loaded.bundle.agentUids.contains callerUid = true)
    (hread : (readLineBytes P c (fun _ => bufCapacity) maxRequestBytes maxRequestBytes []).Follows reads q) :
    (worker P approver approvalMutex c).Follows (opened own loaded callerUid reads)
      (releasing P (q >>= fun result =>
        match result with
        | .error e => return .error e
        | .ok bytes => serveBytes P c loaded.bundle callerUid approver approvalMutex bytes)) := by
  refine (worker_follows hreload).trans (Program.Follows.bind (.step ?_) _)
  show Program.Follows (if (!loaded.bundle.agentUids.contains callerUid) = true then _ else _) _ _
  rw [hauth, if_neg (by decide)]
  refine .step ?_
  have hline : (readLine P c (fun _ => bufCapacity) maxRequestBytes).Follows reads _ := hread.bind _
  refine Eq.mp (congrArg (Program.Follows _ reads) ?_) (hline.bind _)
  rw [Program.bind_assoc]
  refine congrArg (Program.bind q) ?_
  funext result
  cases result with
  | error e => rfl
  | ok bytes =>
      unfold serveBytes
      dsimp only
      cases fromUtf8 bytes <;> rfl

end Follows

variable {s₀ s s' : Daemon} {ps : Pool (sig P) Tid (Except IoError Unit)} {tr : Trace (sig P) Daemon Tid Env}
  {stream : List UInt8} {t : Tid}

/-- The bytes the peer of connection `c` has sent. -/
def sentBy (c : Conn) (tr : Trace (sig P) Daemon Tid Env) : List UInt8 :=
  tr.flatMap fun st =>
    match st.label with
    | .env (.peerSend c' bytes) => if c' = c then bytes else []
    | _ => []

/-- The peer of connection `c` sends a stream, and closes only after all of it. -/
def Sends (c : Conn) (stream : List UInt8) (before : Trace (sig P) Daemon Tid Env)
    (st : Step (sig P) Daemon Tid Env) : Prop :=
  (∀ bytes, st.label = .env (.peerSend c bytes) → sentBy c before ++ bytes <+: stream) ∧
    (st.label = .env (.peerClose c) → sentBy c before = stream)

theorem sentBy_thread (event : Event (sig P)) :
    sentBy c (tr ++ [⟨s, .thread t event, s'⟩]) = sentBy c tr := by
  simp [sentBy]

theorem sentBy_env {event : Env} (h : ∀ bytes, event ≠ .peerSend c bytes) :
    sentBy c (tr ++ [⟨s, .env event, s'⟩]) = sentBy c tr := by
  cases event with
  | peerSend c' bytes =>
      have hne : c' ≠ c := by
        rintro rfl
        exact h bytes rfl
      simp [sentBy, hne]
  | _ => simp [sentBy]

theorem sentBy_peerSend (bytes : List UInt8) :
    sentBy c (tr ++ [⟨s, .env (.peerSend c bytes), s'⟩]) = sentBy c tr ++ bytes := by
  simp [sentBy]

theorem Delivers.snoc {event : Event (sig P)} (h : Delivers c stream own)
    (hlast : ∀ n bytes, event = ⟨.recv c n, .ok bytes⟩ →
      received own ++ bytes <+: stream ∧ (bytes = [] → received own = stream)) :
    Delivers c stream (own ++ [event]) := by
  intro before n bytes after heq
  rcases snoc_eq_append_cons heq with ⟨rfl, rfl, hevent⟩ | ⟨after', rfl, hown⟩
  · exact hlast n bytes hevent
  · exact h before n bytes after' hown

/-- The stream of a connection that is read by its own worker only: what has been read and what is
queued is what has been sent, and reads have delivered a part of the stream. -/
structure Arriving (c : Conn) (stream : List UInt8) (tr : Trace (sig P) Daemon Tid Env) (s : Daemon) : Prop where
  queued : received (history c tr) ++ (s.channel c).toDaemon.map Prod.fst = sentBy c tr
  sent : sentBy c tr <+: stream
  peer : (s.channel c).peer = .client ∨ (s.channel c).peer = .gone ∧ sentBy c tr = stream
  delivers : Delivers c stream (history c tr)

/-- A read takes bytes off the queue, or finds the stream ended, or fails. -/
theorem legal_recv {n : Nat} {result : Except IoError (List UInt8)}
    (h : Step.Legal (world P) ⟨s, .thread t ⟨.recv c n, result⟩, s'⟩) :
    (∃ bytes, result = .ok bytes ∧ bytes ≠ [] ∧
      (s.channel c).toDaemon.map Prod.fst = bytes ++ (s'.channel c).toDaemon.map Prod.fst) ∨
    (result = .ok [] ∧ s' = s ∧ (s.channel c).peer = .gone ∧ (s.channel c).toDaemon = []) ∨
    ∃ e, result = .error e ∧ s' = s := by
  obtain ⟨choice, hact⟩ := legal_act h
  cases choice with
  | data k =>
      simp only [act] at hact
      split at hact
      · rename_i hk
        cases hact
        refine .inl ⟨_, rfl, ?_, ?_⟩
        · apply List.ne_nil_of_length_pos
          rw [List.length_map, List.length_take]
          omega
        · rw [setChannel_self, ← List.map_append, List.take_append_drop]
      · cases hact
  | eof =>
      simp only [act] at hact
      split at hact
      · rename_i hend
        cases hact
        exact .inr (.inl ⟨rfl, rfl, hend⟩)
      · cases hact
  | error e =>
      cases hact
      exact .inr (.inr ⟨e, rfl, rfl⟩)

theorem Arriving.of_eq {tr' : Trace (sig P) Daemon Tid Env} (h : Arriving c stream tr s)
    (hhistory : history c tr' = history c tr) (hsent : sentBy c tr' = sentBy c tr)
    (hqueue : (s'.channel c).toDaemon = (s.channel c).toDaemon)
    (hpeer : (s'.channel c).peer = (s.channel c).peer) : Arriving c stream tr' s' where
  queued := by rw [hhistory, hqueue, hsent, h.queued]
  sent := by
    rw [hsent]
    exact h.sent
  peer := by
    rw [hpeer, hsent]
    exact h.peer
  delivers := by
    rw [hhistory]
    exact h.delivers

/-- Until all is sent the peer can only send, and close when it has sent all. -/
theorem Arriving.env {event : Env} (h : Arriving c stream tr s) (hstep : Sudix.env P s event = some s')
    (hsends : Sends c stream tr ⟨s, .env event, s'⟩) :
    Arriving c stream (tr ++ [⟨s, .env event, s'⟩]) s' := by
  have hhistory : history c (tr ++ [⟨s, .env event, s'⟩]) = history c tr := by
    rw [history_append, history_env, List.append_nil]
  have hagent : ∀ state, (s.channel c).peer ≠ .agent state := by
    intro state hpeer
    rcases h.peer with hclient | ⟨hgone, -⟩
    · rw [hpeer] at hclient
      cases hclient
    · rw [hpeer] at hgone
      cases hgone
  by_cases hc : event.stream = some c
  · cases event with
    | peerSend c' bytes =>
        cases hc
        simp only [Sudix.env] at hstep
        split at hstep
        · rename_i hclient
          cases hstep
          refine ⟨?_, ?_, ?_, ?_⟩
          · rw [hhistory, setChannel_self, sentBy_peerSend, ← h.queued, List.map_append, ← List.append_assoc]
            simp [Function.comp_def]
          · rw [sentBy_peerSend]
            exact hsends.1 bytes rfl
          · rw [setChannel_self]
            exact .inl hclient
          · rw [hhistory]
            exact h.delivers
        · cases hstep
    | peerReceive c' n =>
        cases hc
        simp only [Sudix.env] at hstep
        split at hstep
        · cases hstep
          refine h.of_eq hhistory (sentBy_env (by simp)) ?_ ?_ <;> rw [setChannel_self]
        · cases hstep
    | peerClose c' =>
        cases hc
        simp only [Sudix.env] at hstep
        split at hstep
        · cases hstep
          have hsame : ∀ s', sentBy c (tr ++ [⟨s, .env (.peerClose c), s'⟩]) = sentBy c tr :=
            fun _ => sentBy_env (by simp)
          refine ⟨?_, ?_, ?_, ?_⟩
          · rw [hhistory, setChannel_self, hsame]
            exact h.queued
          · rw [hsame]
            exact h.sent
          · rw [setChannel_self, hsame]
            exact .inr ⟨rfl, hsends.2 rfl⟩
          · rw [hhistory]
            exact h.delivers
        · cases hstep
    | agentRead c' | agentAnswer c' v | agentWrite c' n | agentExit c' =>
        cases hc
        simp only [Sudix.env] at hstep
        repeat' split at hstep
        all_goals first
          | cases hstep
            done
          | exact absurd (by assumption) (hagent _)
    | _ => cases hc
  · refine h.of_eq hhistory (sentBy_env ?_) ?_ ?_
    · rintro bytes rfl
      exact hc rfl
    · rw [env_channel hstep hc]
    · rw [env_channel hstep hc]

theorem received_snoc {event : Event (sig P)} (h : ∀ c n, event.op ≠ .recv c n) :
    received (own ++ [event]) = received own := by
  obtain ⟨op, answer⟩ := event
  rw [received_append]
  cases op with
  | recv c n => exact absurd rfl (h c n)
  | _ => simp [received]

/-- What the worker does keeps what arrives, if its reads account for the queue. -/
theorem Arriving.of_thread {event : Event (sig P)} (h : Arriving c stream tr s)
    (hpeer : (s'.channel c).peer = (s.channel c).peer)
    (hqueue : received (history c tr ++ [event]) ++ (s'.channel c).toDaemon.map Prod.fst =
      received (history c tr) ++ (s.channel c).toDaemon.map Prod.fst)
    (hlast : ∀ n bytes, event = ⟨.recv c n, .ok bytes⟩ →
      received (history c tr) ++ bytes <+: stream ∧ (bytes = [] → received (history c tr) = stream)) :
    Arriving c stream (tr ++ [⟨s, .thread c event, s'⟩]) s' where
  queued := by rw [history_append, history_thread_self, sentBy_thread, hqueue, h.queued]
  sent := by
    rw [sentBy_thread]
    exact h.sent
  peer := by
    rw [hpeer, sentBy_thread]
    exact h.peer
  delivers := by
    rw [history_append, history_thread_self]
    exact h.delivers.snoc hlast

/-- Operations other than reads leave what arrives as it is. -/
theorem Arriving.quiet {event : Event (sig P)} (h : Arriving c stream tr s)
    (hop : t = c → ∀ c' n, event.op ≠ .recv c' n)
    (hqueue : (s'.channel c).toDaemon = (s.channel c).toDaemon)
    (hpeer : (s'.channel c).peer = (s.channel c).peer) :
    Arriving c stream (tr ++ [⟨s, .thread t event, s'⟩]) s' := by
  by_cases ht : t = c
  · subst ht
    refine h.of_thread hpeer ?_ fun n bytes heq => ?_
    · rw [received_snoc (hop rfl), hqueue]
    · exact absurd (congrArg Event.op heq) (hop rfl t n)
  · refine h.of_eq ?_ (sentBy_thread event) hqueue hpeer
    rw [history_append, history_thread_other ht, List.append_nil]

/-- A read of the connection's own worker brings what comes next. -/
theorem Arriving.recv {n : Nat} {result : Except IoError (List UInt8)} (h : Arriving c stream tr s)
    (hlegal : Step.Legal (world P) ⟨s, .thread c ⟨.recv c n, result⟩, s'⟩) :
    Arriving c stream (tr ++ [⟨s, .thread c ⟨.recv c n, result⟩, s'⟩]) s' := by
  have hqueued := h.queued
  refine h.of_thread (legal_recv_channel hlegal).2 ?_ ?_
  · rcases legal_recv hlegal with ⟨bytes, rfl, -, hqueue⟩ | ⟨rfl, rfl, -, -⟩ | ⟨e, rfl, rfl⟩
    · rw [received_append, hqueue]
      simp [received]
    · rw [received_append]
      simp [received]
    · rw [received_append]
      simp [received]
  · intro m read heq
    cases heq
    rcases legal_recv hlegal with ⟨bytes, heq, hne, hqueue⟩ | ⟨heq, -, hgone, hnil⟩ | ⟨e, heq, -⟩
    · cases heq
      rw [hqueue, ← List.append_assoc] at hqueued
      exact ⟨List.IsPrefix.trans ⟨_, hqueued⟩ h.sent, fun hnil => absurd hnil hne⟩
    · -- at the end of the stream all has been sent and read
      cases heq
      rw [hnil, List.map_nil, List.append_nil] at hqueued
      rcases h.peer with hclient | ⟨-, hsent⟩
      · rw [hgone] at hclient
        cases hclient
      · rw [hqueued, hsent, List.append_nil]
        exact ⟨List.prefix_rfl, fun _ => rfl⟩
    · cases heq

/-- A history before any request and any registration. -/
def Greeting (own : History (sig P)) : Prop :=
  ∀ e ∈ own, e.op.deciding = false ∧ e.op.writesRegistry = false

theorem arriving_of_run (hrun : Run (world P) s₀ (workers P approver approvalMutex) tr s ps)
    (hempty : s₀.registry = fun _ => none) (hqueue : (s₀.channel c).toDaemon = [])
    (hclient : (s₀.channel c).peer = .client) (hsends : Every (Sends c stream) tr)
    (hgreeting : Greeting (history c tr)) : Arriving c stream tr s := by
  induction hrun with
  | start =>
      refine ⟨by simp [received, hqueue, sentBy], List.nil_prefix, .inl hclient, ?_⟩
      intro before n bytes after heq
      simp at heq
  | @env tr s ps event s' hbefore henv ih =>
      obtain ⟨hsends, hlast⟩ := every_snoc.mp hsends
      rw [history_append, history_env, List.append_nil] at hgreeting
      exact (ih hsends hgreeting).env henv hlast
  | @thread tr s ps u op next choice answer s' hbefore hnext hact ih =>
      have hall : Run _ _ _ _ _ _ := .thread u choice hbefore hnext hact
      have hlegal : Step.Legal (world P) ⟨s, .thread u ⟨op, answer⟩, s'⟩ := ⟨choice, hact⟩
      have hstage := hall.every_pre workers_meets tr _ [] rfl u _ rfl
      rw [history_append] at hgreeting
      have hbefore' : Greeting (history c tr) := fun e he => hgreeting e (List.mem_append_left _ he)
      have harriving := ih (every_snoc.mp hsends).1 hbefore'
      -- only the worker of the connection reads, and it reads nothing else
      have hreader : ∀ c' n, op = .recv c' n → c' = c ∨ u = c → c' = c ∧ u = c := by
        rintro c' n rfl hor
        rcases hstage.recv_inv with ⟨rfl, -⟩ | ⟨v, -, hlookup⟩
        · simpa using hor
        · rcases hor with rfl | rfl
          · have hinsert := insertAgent_of_lookup hbefore hempty hlookup
            cases (hbefore' _ hinsert).2
          · cases (hbefore' _ hlookup).1
      by_cases hc : op.stream = some c
      · cases op with
        | recv c' n =>
            cases hc
            obtain ⟨-, rfl⟩ := hreader _ n rfl (.inl rfl)
            exact harriving.recv hlegal
        | writeAll c' bytes =>
            cases hc
            obtain ⟨n, hsend⟩ := legal_writeAll_channel hlegal
            refine harriving.quiet (by simp) ?_ ?_ <;> rw [hsend] <;> rfl
        | _ => cases hc
      · refine harriving.quiet ?_ ?_ ?_
        · rintro rfl c' n rfl
          obtain ⟨rfl, -⟩ := hreader c' n rfl (.inr rfl)
          exact hc rfl
        · rw [legal_channel hlegal hc]
        · rw [legal_channel hlegal hc]

section Framing

/-- A first line that ends before the cap, or that ends with its stream before the cap, is handled as
the hello. Of a stream without a newline up to the cap nothing is handled, and it is refused. -/
structure Framed (P : Platform) (c : Conn) (bundle : PolicyBundle) (callerUid : Uid) (approver : Approver)
    (approvalMutex : Bool) (text : String) (rest : Prog P (Except IoError Unit)) : Prop where
  line : newline ∈ (utf8 text).take maxRequestBytes ∨
      (text ≠ "" ∧ (utf8 text).length < maxRequestBytes ∧ newline ∉ utf8 text) →
    rest = releasing P (serveHello P c bundle callerUid approver approvalMutex (firstLine text))
  tooLarge : maxRequestBytes ≤ (utf8 text).length → newline ∉ (utf8 text).take maxRequestBytes →
    rest = releasing P (writeResponse P c (.denied "request too large"))
  empty : text = "" → rest = releasing P (.ret (.ok ()))

/-- The cap cuts a character of a text that has no newline before it. -/
def CutInside (text : String) : Prop :=
  maxRequestBytes ≤ (utf8 text).length ∧ newline ∉ (utf8 text).take maxRequestBytes ∧
    fromUtf8 ((utf8 text).take maxRequestBytes) = none

variable {bundle : PolicyBundle} {callerUid : Uid} {text : String}

theorem serveBytes_cutInside (h : CutInside text) :
    serveBytes P c bundle callerUid approver approvalMutex (lineBytes maxRequestBytes (utf8 text)) =
      .ret (.error "stream did not contain valid UTF-8") := by
  obtain ⟨-, hnl, hinvalid⟩ := h
  rw [lineBytes, if_neg hnl, serveBytes, hinvalid]
  rfl

theorem serveBytes_of_line {line : String} (hne : line ≠ "")
    (hsmall : ¬ (maxRequestBytes ≤ line.utf8ByteSize ∧ line.toList.getLast? ≠ some '\n')) :
    serveBytes P c bundle callerUid approver approvalMutex (utf8 line) =
      serveHello P c bundle callerUid approver approvalMutex line := by
  rw [serveBytes, fromUtf8_utf8]
  dsimp only
  rw [if_neg hne, if_neg hsmall]

theorem firstLine_ne_empty (h : newline ∈ utf8 text) : firstLine text ≠ "" := by
  intro hempty
  have hlast := firstLine_getLast? h
  rw [hempty] at hlast
  cases hlast

theorem framed_of_not_cutInside (h : ¬ CutInside text) :
    Framed P c bundle callerUid approver approvalMutex text
      (releasing P (serveBytes P c bundle callerUid approver approvalMutex
        (lineBytes maxRequestBytes (utf8 text)))) where
  line := by
    rintro (hnl | ⟨hne, hshort, hnl⟩)
    · have hmem := List.mem_of_mem_take hnl
      rw [lineBytes_text hnl, serveBytes_of_line (firstLine_ne_empty hmem)]
      exact fun hlarge => hlarge.2 (firstLine_getLast? hmem)
    · have hcut : lineBytes maxRequestBytes (utf8 text) = utf8 text := by
        rw [lineBytes, List.take_of_length_le (Nat.le_of_lt hshort), if_neg hnl]
      rw [hcut, firstLine_of_not_mem hnl, serveBytes_of_line hne]
      exact fun hlarge => absurd hlarge.1 (Nat.not_le.mpr hshort)
  tooLarge := by
    intro hlong hnl
    rw [lineBytes, if_neg hnl]
    cases hline : fromUtf8 ((utf8 text).take maxRequestBytes) with
    | none => exact absurd ⟨hlong, hnl, hline⟩ h
    | some line =>
        have hbytes := utf8_of_fromUtf8 hline
        have hsize : line.utf8ByteSize = maxRequestBytes := by
          rw [utf8ByteSize_eq, hbytes, List.length_take, Nat.min_eq_left hlong]
        have hne : line ≠ "" := by
          rintro rfl
          cases hsize
        rw [serveBytes, hline]
        dsimp only
        rw [if_neg hne, if_pos ⟨Nat.le_of_eq hsize.symm, getLast?_ne_newline (by rwa [hbytes])⟩]
  empty := by
    rintro rfl
    rfl

/-- **The cut of a text is framed, exactly** when the cap cuts no character of it. -/
theorem framed_serveBytes_iff
    (hdenied : ∃ line, (Response.denied "request too large").toLine P.json = .ok line) :
    Framed P c bundle callerUid approver approvalMutex text
      (releasing P (serveBytes P c bundle callerUid approver approvalMutex
        (lineBytes maxRequestBytes (utf8 text)))) ↔ ¬ CutInside text := by
  refine ⟨fun hframed hcut => ?_, framed_of_not_cutInside⟩
  obtain ⟨line, hline⟩ := hdenied
  have hrefused := hframed.tooLarge hcut.1 hcut.2.1
  rw [serveBytes_cutInside hcut, writeResponse, hline] at hrefused
  injection hrefused with hop
  cases hop

variable {loaded : Loaded} {reads : History (sig P)} {bytes : List UInt8}

theorem Op.opening.greeting {op : Op} (h : op.opening = true) :
    op.deciding = false ∧ op.writesRegistry = false := by
  cases op <;> first | exact ⟨rfl, rfl⟩ | cases h

theorem ReadDone.only {chunk : Nat → Nat} {limit : Nat} (h : ReadDone c chunk limit own (.ok bytes)) :
    Only Op.opening own := by
  cases hline : fromUtf8 bytes with
  | none => exact (LineDone.invalid h hline).only
  | some line => exact (LineDone.ok h hline).only

theorem opened_greeting (hreload : ReloadDone own (.ok ()))
    (hread : ReadDone c (fun _ => bufCapacity) maxRequestBytes reads (.ok bytes)) :
    Greeting (opened own loaded callerUid reads) := by
  have hacquire : Greeting [(⟨.acquireSlot, ()⟩ : Event (sig P))] := by
    simp [Greeting, Op.deciding, Op.writesRegistry]
  have hrest : Only Op.opening (own ++ [⟨.snapshot, loaded⟩] ++
      (⟨.peerUid, .ok callerUid⟩ :: ⟨.tryClone, .ok ()⟩ :: reads)) := by
    simp [hreload.only, hread.only, Op.opening]
  intro e he
  rcases List.mem_cons.mp he with rfl | he
  · exact hacquire _ List.mem_cons_self
  · exact Op.opening.greeting (hrest e he)

/-- Nothing is read before the line. -/
theorem received_opened (hreload : ReloadDone own (.ok ())) :
    received (⟨.acquireSlot, ()⟩ :: own ++ [⟨.snapshot, loaded⟩] ++
      [⟨.peerUid, .ok callerUid⟩, ⟨.tryClone, .ok ()⟩]) = [] := by
  cases hreload with
  | unlocked hreloaded => cases hreloaded <;> simp [received, looked, swapped]

theorem Delivers.of_append {own' : History (sig P)} (h : Delivers c stream (own ++ own'))
    (hnone : received own = []) : Delivers c stream own' := by
  intro before n bytes after heq
  have hread := h (own ++ before) n bytes after (by rw [heq, List.append_assoc])
  rwa [received_append, hnone, List.nil_append] at hread

/-- After the read the worker serves the cut of its stream. -/
theorem served_of_run (hrun : Run (world P) s₀ (workers P approver approvalMutex) tr s ps)
    (hempty : s₀.registry = fun _ => none) (hqueue : (s₀.channel c).toDaemon = [])
    (hclient : (s₀.channel c).peer = .client) (hsends : Every (Sends c stream) tr)
    (hreload : ReloadDone own (.ok ())) (hauth : loaded.bundle.agentUids.contains callerUid = true)
    (hread : ReadDone c (fun _ => bufCapacity) maxRequestBytes reads (.ok bytes))
    (hhistory : history c tr = opened own loaded callerUid reads) :
    bytes = lineBytes maxRequestBytes stream ∧
      ps c = releasing P (serveBytes P c loaded.bundle callerUid approver approvalMutex bytes) := by
  have hdelivers : Delivers c stream reads := by
    have hall := (arriving_of_run hrun hempty hqueue hclient hsends
      (hhistory ▸ opened_greeting hreload hread)).delivers
    have hsplit : opened own loaded callerUid reads = (⟨.acquireSlot, ()⟩ :: own ++ [⟨.snapshot, loaded⟩] ++
        [⟨.peerUid, .ok callerUid⟩, ⟨.tryClone, .ok ()⟩]) ++ reads := by
      simp [opened]
    rw [hhistory, hsplit] at hall
    exact hall.of_append (received_opened hreload)
  have hfollows := hrun.follows c
  rw [hhistory] at hfollows
  exact ⟨hread.eq_lineBytes hdelivers, hfollows.det (worker_reading hreload hauth hread.follows)⟩

/-- **Requests are framed at the cap, exactly** when the cap cuts no character. However the stream of
an authorized peer arrives, its first line is handled as the hello if it ends before the cap or with
the stream, and a stream with no newline up to the cap is refused, if and only if it is not one whose
first bytes up to the cap end inside a character. No line is ever longer than the cap. -/
theorem request_framed_iff (hdenied : ∃ line, (Response.denied "request too large").toLine P.json = .ok line)
    (hrun : Run (world P) s₀ (workers P approver approvalMutex) tr s ps)
    (hempty : s₀.registry = fun _ => none) (hqueue : (s₀.channel c).toDaemon = [])
    (hclient : (s₀.channel c).peer = .client) (hsends : Every (Sends c (utf8 text)) tr)
    (hreload : ReloadDone own (.ok ())) (hauth : loaded.bundle.agentUids.contains callerUid = true)
    (hread : ReadDone c (fun _ => bufCapacity) maxRequestBytes reads (.ok bytes))
    (hhistory : history c tr = opened own loaded callerUid reads) :
    (Framed P c loaded.bundle callerUid approver approvalMutex text (ps c) ↔ ¬ CutInside text) ∧
      bytes.length ≤ maxRequestBytes := by
  obtain ⟨rfl, hserved⟩ :=
    served_of_run hrun hempty hqueue hclient hsends hreload hauth hread hhistory
  rw [hserved]
  exact ⟨framed_serveBytes_iff hdenied, lineBytes_length _ _⟩

end Framing

theorem utf8_replicate (n : Nat) : utf8 (String.ofList (List.replicate n 'x')) = List.replicate n 0x78 := by
  rw [utf8_eq_flatMap, String.toList_ofList]
  induction n with
  | zero => rfl
  | succ n ih =>
      rw [List.replicate_succ, List.flatMap_cons, ih]
      rfl

/-- No character's last byte is one that begins a character of two bytes. -/
theorem utf8EncodeChar_getLast? (c : Char) : (String.utf8EncodeChar c).getLast? ≠ some 0xC3 := by
  fun_cases String.utf8EncodeChar c <;> simp [UInt8.ext_iff] <;> omega

theorem fromUtf8_of_last (front : List UInt8) : fromUtf8 (front ++ [0xC3]) = none := by
  cases h : fromUtf8 (front ++ [0xC3]) with
  | none => rfl
  | some s =>
      have hend := congrArg List.getLast? (utf8_of_fromUtf8 h)
      rw [utf8_eq_flatMap, List.getLast?_concat] at hend
      rcases List.eq_nil_or_concat s.toList with hnil | ⟨init, last, hlast⟩
      · rw [hnil] at hend
        cases hend
      · have hne : String.utf8EncodeChar last ≠ [] := String.utf8EncodeChar_ne_nil
        rw [hlast, List.concat_eq_append, List.flatMap_append, List.flatMap_singleton,
          List.getLast?_append_of_ne_nil _ hne] at hend
        exact absurd hend (utf8EncodeChar_getLast? last)

/-- A text of which the byte before the cap begins a character of two bytes. -/
def acrossText : String := String.ofList (List.replicate (maxRequestBytes - 1) 'x') ++ "é"

theorem acrossText_cutInside : CutInside acrossText := by
  have haccent : utf8 "é" = [0xC3, 0xA9] := by decide
  have hutf8 : utf8 acrossText = List.replicate (maxRequestBytes - 1) 0x78 ++ [0xC3] ++ [0xA9] := by
    rw [acrossText, utf8_append, utf8_replicate, haccent, List.append_assoc]
    rfl
  have hlength : (List.replicate (maxRequestBytes - 1) (0x78 : UInt8) ++ [0xC3]).length = maxRequestBytes := by
    rw [List.length_append, List.length_replicate]
    rfl
  have htake : (utf8 acrossText).take maxRequestBytes = List.replicate (maxRequestBytes - 1) 0x78 ++ [0xC3] := by
    rw [hutf8]
    exact List.take_left' hlength
  refine ⟨?_, ?_, ?_⟩
  · rw [hutf8, List.length_append, hlength]
    exact Nat.le_add_right _ _
  · rw [htake]
    intro hmem
    rcases List.mem_append.mp hmem with hmem | hmem
    · exact absurd (List.eq_of_mem_replicate hmem) (by decide)
    · exact absurd hmem (by decide)
  · rw [htake]
    exact fromUtf8_of_last _

section Reading

variable {α : Type} {p₀ : Pool (sig P) Tid α} {chunk : Nat → Nat} {limit : Nat} {before : History (sig P)}
  (hchunk : ∀ n, 0 < n → 0 < chunk n)
  (hcalls : ∀ own op next, (readLineBytes P c chunk limit limit []).Follows own (.call op next) →
    ∃ next', (p₀ c).Follows (before ++ own) (.call op next'))

include hchunk hcalls

/-- One read can bring as much as is asked for and still wanted. -/
theorem read_round {s : Daemon} {qs : Pool (sig P) Tid α} {reads : History (sig P)} {line : List UInt8}
    (hrun : Run (world P) s₀ p₀ tr s qs) (hhistory : history c tr = before ++ reads)
    (hreading : Reading c chunk limit reads line) (hlt : line.length < limit)
    (hnl : newline ∉ ((s.channel c).toDaemon.map Prod.fst).take (limit - line.length))
    (henough : limit - line.length ≤ (s.channel c).toDaemon.length) :
    ∃ n event s' qs', 0 < n ∧ n ≤ limit - line.length ∧
      (s'.channel c).toDaemon = (s.channel c).toDaemon.drop n ∧
      Run (world P) s₀ p₀ (tr ++ [⟨s, .thread c event, s'⟩]) s' qs' ∧
      Reading c chunk limit (reads ++ [event]) (line ++ ((s.channel c).toDaemon.take n).map Prod.fst) := by
  obtain ⟨left, hleft, hfollows⟩ := hreading.follows
  obtain ⟨left, rfl⟩ : ∃ rest, left = rest + 1 := ⟨left - 1, by omega⟩
  rw [readLineBytes_succ left hlt] at hfollows
  obtain ⟨next, hcall⟩ := hcalls _ _ _ hfollows
  have hat := hrun.follows c
  rw [hhistory] at hat
  have hnext : qs c = .call _ next := hat.det hcall
  obtain ⟨n, hn⟩ : ∃ n, n = min (chunk (limit - line.length)) (limit - line.length) := ⟨_, rfl⟩
  have hpos := hchunk (limit - line.length) (by omega)
  have hact : (world P).act s c (.recv c (chunk (limit - line.length))) (Read.data n) =
      some (.ok (((s.channel c).toDaemon.take n).map Prod.fst),
        s.setChannel c { s.channel c with toDaemon := (s.channel c).toDaemon.drop n }) := by
    show act P s c (.recv c (chunk (limit - line.length))) (.data n) = _
    simp only [act]
    rw [if_pos ⟨by omega, by omega, by omega⟩]
  have hbytes : (((s.channel c).toDaemon.take n).map Prod.fst).take (limit - line.length) =
      ((s.channel c).toDaemon.take n).map Prod.fst := by
    apply List.take_of_length_le
    rw [List.length_map, List.length_take]
    omega
  have hnone : newline ∉ ((s.channel c).toDaemon.take n).map Prod.fst := by
    intro hmem
    rw [List.map_take] at hmem
    exact hnl (List.take_subset_take_left _ (by omega) hmem)
  have hmore := Reading.more hreading hlt (by rw [hbytes]; exact hnone) (by
    rw [hbytes]
    apply List.ne_nil_of_length_pos
    rw [List.length_map, List.length_take]
    omega)
  rw [hbytes] at hmore
  exact ⟨n, _, _, _, by omega, by omega, by rw [setChannel_self], Run.thread c _ hrun hnext hact, hmore⟩

/-- A queue with enough bytes and no newline among them can be read up to the limit. -/
theorem read_to_limit (rounds : Nat) :
    ∀ {tr s qs reads line}, Run (world P) s₀ p₀ tr s qs → history c tr = before ++ reads →
      Reading c chunk limit reads line → limit ≤ line.length + rounds →
      newline ∉ ((s.channel c).toDaemon.map Prod.fst).take (limit - line.length) →
      limit - line.length ≤ (s.channel c).toDaemon.length →
      ∃ tr' s' qs' reads' bytes, Run (world P) s₀ p₀ (tr ++ tr') s' qs' ∧
        (∀ st ∈ tr', ∃ event, st.label = .thread c event) ∧ history c (tr ++ tr') = before ++ reads' ∧
        ReadDone c chunk limit reads' (.ok bytes) := by
  induction rounds with
  | zero =>
      intro tr s qs reads line hrun hhistory hreading hrounds hnl henough
      exact ⟨[], s, qs, reads, line, by rwa [List.append_nil], by simp, by rwa [List.append_nil],
        .full hreading (by omega)⟩
  | succ rounds ih =>
      intro tr s qs reads line hrun hhistory hreading hrounds hnl henough
      by_cases hfull : limit ≤ line.length
      · exact ⟨[], s, qs, reads, line, by rwa [List.append_nil], by simp, by rwa [List.append_nil],
          .full hreading hfull⟩
      · have hlt : line.length < limit := Nat.lt_of_not_le hfull
        obtain ⟨n, event, s', qs', hpos, hle, hqueue, hrun', hmore⟩ :=
          read_round hchunk hcalls hrun hhistory hreading hlt hnl henough
        have hlength : (((s.channel c).toDaemon.take n).map Prod.fst).length = n := by
          rw [List.length_map, List.length_take]
          omega
        have hsplit : ((s.channel c).toDaemon.map Prod.fst).take (limit - line.length) =
            ((s.channel c).toDaemon.take n).map Prod.fst ++
              (((s.channel c).toDaemon.drop n).map Prod.fst).take (limit - line.length - n) := by
          rw [List.map_take, List.map_drop, ← List.take_add]
          congr 1
          omega
        rw [hsplit, List.mem_append, not_or] at hnl
        have hhistory' : history c (tr ++ [⟨s, .thread c event, s'⟩]) = before ++ (reads ++ [event]) := by
          rw [history_append, history_thread_self, hhistory, List.append_assoc]
        obtain ⟨tr', s'', qs'', reads', bytes, hrun'', hthreads, hhistory'', hdone⟩ :=
          ih hrun' hhistory' hmore (by rw [List.length_append, hlength]; omega)
            (by rw [hqueue, List.length_append, hlength, ← Nat.sub_sub]; exact hnl.2)
            (by rw [hqueue, List.length_append, hlength, List.length_drop]; omega)
        rw [List.append_assoc] at hrun'' hhistory''
        refine ⟨_, s'', qs'', reads', bytes, hrun'', ?_, hhistory'', hdone⟩
        intro st hst
        rcases List.mem_cons.mp hst with rfl | hst
        · exact ⟨_, rfl⟩
        · exact hthreads st hst

end Reading

def framingPlatform : Platform :=
  { Platform.bare with
    json := SerdeJson.ofTables helloTexts [] []
      [(.denied "request too large", "\x7b\"decision\":\"denied\",\"why\":\"request too large\"\x7d")] }

theorem framingPlatform_denied :
    ∃ line, (Response.denied "request too large").toLine framingPlatform.json = .ok line := ⟨_, rfl⟩

/-- Nothing has been sent on any connection; all are of uid 1000. -/
def framingDaemon : Daemon := { reconnectDaemon with channel := fun _ => ⟨[], [], .client⟩ }

def framingWorkers : Pool (sig framingPlatform) Tid (Except IoError Unit) := workers framingPlatform .totp false

/-- What a connection has done when its contents of the file are the last loaded. -/
def unchanged : History (sig framingPlatform) :=
  looked [] false (some []) ++ [⟨.unlock .lastHash, ()⟩]

theorem unchanged_done : ReloadDone unchanged (.ok ()) := .unlocked .same

/-- Connection 0 is about to read. -/
def openedRun : Option (Point (sig framingPlatform) Daemon Tid Env (Except IoError Unit)) :=
  replay (world framingPlatform) ⟨[], framingDaemon, framingWorkers⟩
    (List.replicate 8 (.thread 0 (smooth 0 .denied)))

/-- Whether a step is one of a thread. -/
def ofThread (st : Step (sig P) Daemon Tid Env) : Bool :=
  match st.label with
  | .thread _ _ => true
  | .env _ => false

theorem sends_of_thread {before : Trace (sig P) Daemon Tid Env} {st : Step (sig P) Daemon Tid Env}
    (h : ofThread st = true) : Sends c stream before st := by
  obtain ⟨pre, label, post⟩ := st
  cases label with
  | thread t event => exact ⟨by simp, by simp⟩
  | env event => cases h

theorem openedRun_steps :
    ∃ c, openedRun = some c ∧ Run (world framingPlatform) framingDaemon framingWorkers c.trace c.state c.pool ∧
      history 0 c.trace = opened unchanged framingDaemon.current 1000 [] ∧
      c.state.channel 0 = ⟨[], [], .client⟩ ∧ c.trace.all ofThread = true ∧ sentBy 0 c.trace = [] := by
  obtain ⟨c, hc⟩ : ∃ c, openedRun = some c := ⟨_, rfl⟩
  refine ⟨c, hc, run_of_replay .start hc, ?_⟩
  obtain rfl := Option.some.inj hc
  exact ⟨rfl, rfl, rfl, rfl⟩

theorem every_sends_of_thread (h : ∀ st ∈ tr, ofThread st = true) : Every (Sends c stream) tr := by
  rintro before st after rfl
  exact sends_of_thread (h st (by simp))

/-- What a connection sends in one piece, and then only threads move. -/
theorem every_sends_once {tr' : Trace (sig P) Daemon Tid Env} (h : ∀ st ∈ tr, ofThread st = true)
    (h' : ∀ st ∈ tr', ofThread st = true) (hnone : sentBy c tr = []) :
    Every (Sends c stream) (tr ++ [⟨s, .env (.peerSend c stream), s'⟩] ++ tr') := by
  induction tr' using List.reverseRecOn with
  | nil =>
      rw [List.append_nil]
      refine every_snoc.mpr ⟨every_sends_of_thread h, ?_, by simp⟩
      intro bytes hbytes
      cases hbytes
      simp [hnone]
  | append_singleton tr' st ih =>
      rw [← List.append_assoc]
      refine every_snoc.mpr ⟨ih fun st hst => h' st (List.mem_append_left _ hst), ?_⟩
      exact sends_of_thread (h' st (List.mem_append_right _ List.mem_cons_self))

/-- A text that is cut inside a character is sent, and read up to the cap. -/
theorem cutInside_read {text : String} (hcut : CutInside text) :
    ∃ tr s ps reads bytes, Run (world framingPlatform) framingDaemon framingWorkers tr s ps ∧
      Every (Sends 0 (utf8 text)) tr ∧ history 0 tr = opened unchanged framingDaemon.current 1000 reads ∧
      ReadDone 0 (fun _ => bufCapacity) maxRequestBytes reads (.ok bytes) := by
  obtain ⟨c, -, hrun, hhistory, hchannel, hthreads, hnone⟩ := openedRun_steps
  rw [List.all_eq_true] at hthreads
  have hsent : (world framingPlatform).env c.state (.peerSend 0 (utf8 text)) =
      some (c.state.setChannel 0 ⟨[], (utf8 text).map fun b => (b, none), .client⟩) := by
    show env framingPlatform c.state (.peerSend 0 (utf8 text)) = _
    simp [env, hchannel]
  have hrun' := Run.env _ hrun hsent
  obtain ⟨hlong, hnl, -⟩ := hcut
  have hcalls : ∀ own op next,
      (readLineBytes framingPlatform 0 (fun _ => bufCapacity) maxRequestBytes maxRequestBytes []).Follows own
        (.call op next) →
      ∃ next', (framingWorkers 0).Follows (opened unchanged framingDaemon.current 1000 [] ++ own)
        (.call op next') := by
    intro own op next hfollows
    have hreading : (worker framingPlatform .totp false 0).Follows
        (opened unchanged framingDaemon.current 1000 own) _ := worker_reading unchanged_done (by decide) hfollows
    exact ⟨_, hreading⟩
  have hqueue : ((utf8 text).map fun b => (b, (none : Option Tid))).map Prod.fst = utf8 text := by
    simp [Function.comp_def]
  have hstart : Reading 0 (fun _ => bufCapacity) maxRequestBytes ([] : History (sig framingPlatform)) [] := .start
  obtain ⟨tr', s', ps', reads, bytes, hrun'', hreads, hhistory', hdone⟩ :=
    read_to_limit (fun _ _ => by decide) hcalls maxRequestBytes hrun' (by
        rw [history_append, history_env, hhistory]) hstart (by simp) (by
        rw [setChannel_self, hqueue]
        exact hnl) (by
        rw [setChannel_self, List.length_map]
        exact hlong)
  refine ⟨_, s', ps', reads, bytes, hrun'', every_sends_once hthreads ?_ hnone, hhistory', hdone⟩
  intro st hst
  obtain ⟨event, hlabel⟩ := hreads st hst
  simp [ofThread, hlabel]

/-- Its worker gives up without an answer. -/
theorem cutInside_not_framed {text : String} (hcut : CutInside text) :
    ∃ tr s ps reads bytes, Run (world framingPlatform) framingDaemon framingWorkers tr s ps ∧
      Every (Sends 0 (utf8 text)) tr ∧ history 0 tr = opened unchanged framingDaemon.current 1000 reads ∧
      ReadDone 0 (fun _ => bufCapacity) maxRequestBytes reads (.ok bytes) ∧
      ps 0 = releasing framingPlatform (.ret (.error "stream did not contain valid UTF-8")) ∧
      ¬ Framed framingPlatform 0 framingDaemon.current.bundle 1000 .totp false text (ps 0) := by
  obtain ⟨tr, s, ps, reads, bytes, hrun, hsends, hhistory, hdone⟩ := cutInside_read hcut
  obtain ⟨rfl, hserved⟩ := served_of_run hrun rfl rfl rfl hsends unchanged_done (by decide) hdone hhistory
  refine ⟨tr, s, ps, reads, _, hrun, hsends, hhistory, hdone, ?_, fun hframed => ?_⟩
  · rw [hserved, serveBytes_cutInside hcut]
  · rw [hserved] at hframed
    exact (framed_serveBytes_iff framingPlatform_denied).mp hframed hcut

/-- So the worker that is sent a character across the cap gives up without an answer. -/
theorem acrossText_not_framed :
    ∃ tr s ps reads bytes, Run (world framingPlatform) framingDaemon framingWorkers tr s ps ∧
      Every (Sends 0 (utf8 acrossText)) tr ∧ history 0 tr = opened unchanged framingDaemon.current 1000 reads ∧
      ReadDone 0 (fun _ => bufCapacity) maxRequestBytes reads (.ok bytes) ∧
      ps 0 = releasing framingPlatform (.ret (.error "stream did not contain valid UTF-8")) ∧
      ¬ Framed framingPlatform 0 framingDaemon.current.bundle 1000 .totp false acrossText (ps 0) :=
  cutInside_not_framed acrossText_cutInside

/-- The registration hello arrives and is read. -/
def helloRun : Option (Point (sig framingPlatform) Daemon Tid Env (Except IoError Unit)) :=
  replay (world framingPlatform) ⟨[], framingDaemon, framingWorkers⟩
    (List.replicate 8 (.thread 0 (smooth 0 .denied)) ++
      [.env (.peerSend 0 (utf8 (registerLine ++ "\n"))), .thread 0 (smooth 26 .denied)])

theorem helloRun_steps :
    ∃ c, helloRun = some c ∧ Run (world framingPlatform) framingDaemon framingWorkers c.trace c.state c.pool ∧
      Every (Sends 0 (utf8 (registerLine ++ "\n"))) c.trace ∧
      ∃ reads bytes, history 0 c.trace = opened unchanged framingDaemon.current 1000 reads ∧
        ReadDone 0 (fun _ => bufCapacity) maxRequestBytes reads (.ok bytes) := by
  obtain ⟨c, hc⟩ : ∃ c, helloRun = some c := ⟨_, rfl⟩
  refine ⟨c, hc, run_of_replay .start hc, ?_⟩
  obtain rfl := Option.some.inj hc
  refine ⟨?_, _, _, rfl, .newline .start (by decide) (by decide +kernel)⟩
  exact every_sends_once (List.all_eq_true.mp rfl) (List.all_eq_true.mp rfl) rfl

/-- It is handled as the line it is. -/
theorem helloRun_framed :
    ∃ c, helloRun = some c ∧ Framed framingPlatform 0 framingDaemon.current.bundle 1000 .totp false
      (registerLine ++ "\n") (c.pool 0) := by
  obtain ⟨c, hc, hrun, hsends, reads, bytes, hhistory, hdone⟩ := helloRun_steps
  refine ⟨c, hc, ?_⟩
  refine (request_framed_iff framingPlatform_denied hrun rfl rfl rfl hsends unchanged_done (by decide) hdone
    hhistory).1.mpr fun hcut => ?_
  exact absurd hcut.1 (by decide +kernel)

end Sudix
