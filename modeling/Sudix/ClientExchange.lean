import Sudix.Client
import Sudix.Executions
import Sudix.PromptsShown
import Sudix.RequestFraming

/-! A client and the daemon on one connection. Nothing numbers the two lines they exchange, and the client decides
nothing itself; that its connection carries one request and one response makes the daemon execute what was typed,
at most once, and makes the client tell what was done. -/

namespace Sudix

open Concurrent

variable {P : Platform} {J : ClientJson} {raw : List String} {approver : Approver} {approvalMutex : Bool}
  {s₀ s s' : Daemon} {ps : Pool (sig P) Tid (Except IoError Unit)} {tr : Trace (sig P) Daemon Tid Env}
  {c t : Conn} {own : History (sig P)} {stream : List UInt8}

/-- The two sides encode and decode alike, and an empty text is no response. -/
structure ClientJson.Lawful (J : ClientJson) (D : SerdeJson) : Prop where
  hello : LawfulCodec J.helloToString D.helloFromStr
  response : LawfulCodec D.responseToString J.responseFromStr
  empty : ∀ resp, J.responseFromStr "" ≠ .ok resp

section Cut

variable {α : Type} {encode : α → Except String String} {decode : String → Except String α} {v v' : α}
  {line answer : String} {bytes : List UInt8}

/-- What is decoded from the beginning of a line is what was encoded in it. -/
theorem LawfulCodec.decode_prefix (hlaw : LawfulCodec encode decode)
    (hline : (encode v).map (· ++ "\n") = .ok line) (hbegins : bytes <+: utf8 line)
    (htext : fromUtf8 bytes = some answer) (hdecode : decode (trimEnd answer) = .ok v') : v' = v := by
  obtain ⟨text, hencode, hbytes, -⟩ := hlaw.utf8_line hline
  have htake := List.prefix_iff_eq_take.mp hbegins
  rcases Nat.lt_trichotomy bytes.length (utf8 text).length with hlt | heq | hgt
  · -- a proper beginning of the text decodes to nothing
    rw [hbytes, List.take_append_of_le_length (Nat.le_of_lt hlt)] at htake
    rw [htake] at htext
    exact absurd hdecode (hlaw.truncated v text _ answer v' hencode hlt htext)
  · rw [hbytes, List.take_append_of_le_length (Nat.le_of_eq heq), heq, List.take_length] at htake
    rw [htake, fromUtf8_utf8] at htext
    rw [← Option.some.inj htext, hlaw.trimmed v text hencode, hlaw.roundTrip v text hencode] at hdecode
    exact (Except.ok.inj hdecode).symm
  · rw [List.take_of_length_le (by rw [hbytes, List.length_append]; exact hgt)] at htake
    rw [htake, fromUtf8_utf8] at htext
    rw [← Option.some.inj htext, hlaw.decode_line hline] at hdecode
    exact (Except.ok.inj hdecode).symm

end Cut

theorem lineBytes_within (limit : Nat) (stream : List UInt8) : lineBytes limit stream <+: stream := by
  have htake : stream.take limit <+: stream := List.take_prefix limit stream
  unfold lineBytes
  split
  · rename_i hmem
    obtain ⟨front, rest, hcut, hfront⟩ := List.eq_append_cons_of_mem hmem
    rw [hcut] at htake ⊢
    rw [Separators.takeWhile_cut hfront]
    refine List.IsPrefix.trans ⟨rest, ?_⟩ htake
    rw [List.append_assoc, List.singleton_append]
  · exact htake

section World

variable {α : Type} {p₀ qs : Pool (sig P) Tid α} {before after : Trace (sig P) Daemon Tid Env}
  {st : Step (sig P) Daemon Tid Env}

theorem sentBy_append (tr tr' : Trace (sig P) Daemon Tid Env) :
    sentBy c (tr ++ tr') = sentBy c tr ++ sentBy c tr' :=
  List.flatMap_append

/-- Who is no client sends no request. -/
theorem sentBy_of_left (hrun : Run (world P) s₀ p₀ (before ++ st :: after) s qs)
    (hleft : (st.post.channel c).peer ≠ .client) : sentBy c after = [] := by
  refine (hrun.invariant_after (I := fun after s => (s.channel c).peer ≠ .client ∧ sentBy c after = [])
    ⟨hleft, rfl⟩ ?_).2
  rintro after ⟨pre, label, post⟩ ⟨hpre, hnone⟩ hlegal
  refine ⟨fun hpost => hpre ((legal_peer hlegal c).2 hpost), ?_⟩
  cases label with
  | thread u event => rw [sentBy_thread, hnone]
  | env event =>
      rw [sentBy_env, hnone]
      rintro bytes rfl
      have henv : env P pre (.peerSend c bytes) = some post := hlegal
      simp only [env, if_neg hpre] at henv
      cases henv

/-- The peer sends what it has sent in the end, and closes only after all of it. -/
theorem sends_all (hrun : Run (world P) s₀ p₀ tr s qs) : Every (Sends c (sentBy c tr)) tr := by
  rintro before ⟨pre, label, post⟩ after rfl
  refine ⟨fun bytes hlabel => ?_, fun hlabel => ?_⟩
  · obtain rfl : label = _ := hlabel
    rw [List.append_cons, sentBy_append, sentBy_peerSend]
    exact List.prefix_append _ _
  · obtain rfl : label = _ := hlabel
    obtain ⟨-, hlegal⟩ := hrun.before
    have hleft : (post.channel c).peer ≠ .client := by
      have henv : env P pre (.peerClose c) = some post := hlegal
      simp only [env] at henv
      split at henv
      · cases henv
        simp
      · cases henv
    rw [List.append_cons, sentBy_append, sentBy_of_left hrun hleft, List.append_nil, sentBy_env (by simp)]

/-- The bytes the peer of connection `c` has taken off its queue. -/
def takenBy (c : Conn) (tr : Trace (sig P) Daemon Tid Env) : List UInt8 :=
  tr.flatMap fun st =>
    match st.label with
    | .env (.peerReceive c' n) => if c' = c then ((st.pre.channel c).toPeer.take n).map Prod.fst else []
    | _ => []

/-- The bytes a step of a thread queues for the peer of connection `c`. -/
def queued (c : Conn) (st : Step (sig P) Daemon Tid Env) : List UInt8 :=
  match st.label with
  | .thread _ _ => ((st.post.channel c).toPeer.drop (st.pre.channel c).toPeer.length).map Prod.fst
  | .env _ => []

def queuedFor (c : Conn) (tr : Trace (sig P) Daemon Tid Env) : List UInt8 := tr.flatMap (queued c)

theorem legal_toPeer {u : Tid} {event : Event (sig P)} (h : Step.Legal (world P) ⟨s, .thread u event, s'⟩) :
    (s'.channel c).toPeer.map Prod.fst =
      (s.channel c).toPeer.map Prod.fst ++ queued c ⟨s, .thread u event, s'⟩ ∧
    (queued c ⟨s, .thread u event, s'⟩ = [] ∨
      ∃ bytes, event.op = .writeAll c bytes ∧ queued c ⟨s, .thread u event, s'⟩ <+: bytes) := by
  obtain ⟨op, answer⟩ := event
  by_cases hstream : op.stream = some c
  · cases op with
    | recv c' n =>
        cases hstream
        have hsame := (legal_recv_channel h).1
        simp [queued, hsame]
    | writeAll c' bytes =>
        cases hstream
        obtain ⟨n, hsend⟩ := legal_writeAll_channel h
        have hqueued : queued c ⟨s, .thread u ⟨.writeAll c bytes, answer⟩, s'⟩ = bytes.take n := by
          simp [queued, hsend, Channel.send, Function.comp_def]
        rw [hqueued, hsend]
        refine ⟨?_, .inr ⟨bytes, rfl, List.take_prefix n bytes⟩⟩
        simp [Channel.send, Function.comp_def]
    | _ => cases hstream
  · simp [queued, legal_channel h hstream]

theorem takenBy_env {event : Env} (h : ∀ n, event ≠ .peerReceive c n) :
    takenBy c (tr ++ [⟨s, .env event, s'⟩]) = takenBy c tr := by
  cases event with
  | peerReceive c' n =>
      have hne : c' ≠ c := by
        rintro rfl
        exact h n rfl
      simp [takenBy, hne]
  | _ => simp [takenBy]

/-- What is queued for a peer that is no agent is taken in its order. -/
theorem taken_then_queued (hrun : Run (world P) s₀ p₀ tr s qs) (hnone : (s₀.channel c).toPeer = [])
    (hpeer : (s₀.channel c).peer.isAgent = false) :
    takenBy c tr ++ (s.channel c).toPeer.map Prod.fst = queuedFor c tr := by
  refine (hrun.world_invariant (I := fun tr s => (s.channel c).peer.isAgent = false ∧
    takenBy c tr ++ (s.channel c).toPeer.map Prod.fst = queuedFor c tr) ⟨hpeer, ?_⟩ ?_).2
  · simp [takenBy, queuedFor, hnone]
  · rintro tr ⟨pre, label, post⟩ ⟨hpre, ih⟩ hlegal
    refine ⟨(legal_peer hlegal c).1 hpre, ?_⟩
    have hlast : queuedFor c (tr ++ [⟨pre, label, post⟩]) = queuedFor c tr ++ queued c ⟨pre, label, post⟩ := by
      simp [queuedFor]
    rw [hlast, ← ih]
    cases label with
    | thread u event =>
        have htaken : takenBy c (tr ++ [⟨pre, .thread u event, post⟩]) = takenBy c tr := by simp [takenBy]
        rw [htaken, (legal_toPeer hlegal).1, List.append_assoc]
    | env event =>
        have henv : env P pre event = some post := hlegal
        show _ = _ ++ []
        rw [List.append_nil]
        by_cases hstream : event.stream = some c
        · cases event with
          | peerReceive c' n =>
              cases hstream
              simp only [env] at henv
              split at henv
              · cases henv
                simp [takenBy]
              · cases henv
          | peerSend c' bytes | peerClose c' =>
              cases hstream
              simp only [env] at henv
              split at henv
              · cases henv
                rw [takenBy_env (by simp), setChannel_self]
              · cases henv
          | agentRead c' | agentAnswer c' v | agentWrite c' n | agentExit c' =>
              cases hstream
              simp only [env] at henv
              repeat' split at henv
              all_goals first
                | cases henv
                  done
                | simp_all [Peer.isAgent]
          | _ => cases hstream
        · rw [takenBy_env, env_channel henv hstream]
          rintro n rfl
          exact hstream rfl

end World

section Stages

variable {ctx : RequestCtx} {req : Request} {bytes : List UInt8} {result : Except IoError Unit}

/-- A worker writes on its own connection, or on one the registry gave it. -/
theorem WorkerStage.writeAll_lookup (h : WorkerStage t approver approvalMutex own (.writeAll c bytes)) :
    t = c ∨ ∃ u, ⟨.lookupAgent u, some c⟩ ∈ own := by
  cases h with
  | connection hconnection =>
      cases hconnection with
      | reload hreload => cases hreload
      | read _ _ hread => cases hread
      | request _ hrequest =>
          obtain ⟨u, hlookup⟩ := hrequest.writeAll_lookup
          exact .inr ⟨u, by simp [hlookup]⟩
      | register _ hregister => cases hregister
      | respond _ hwrite =>
          cases hwrite with
          | write _ => exact .inl rfl

theorem Ready.writeAll_lookup {cwd : String} {outcome : Int32 → Outcome}
    (h : Ready ctx approver approvalMutex req own cwd outcome) (hmem : ⟨.writeAll c bytes, result⟩ ∈ own) :
    ∃ u, ⟨.lookupAgent u, some c⟩ ∈ own := by
  obtain ⟨u, hlookup⟩ := (Decided.executeError (e := "") h).writeAll_lookup (List.mem_append_left _ hmem)
  exact ⟨u, by simpa using hlookup⟩

theorem Answered.writeAll_lookup {resp : Response} (h : Answered t approver approvalMutex own resp)
    (hmem : ⟨.writeAll c bytes, result⟩ ∈ own) : ∃ u, ⟨.lookupAgent u, some c⟩ ∈ own := by
  rcases h.cases with hrefused |
      ⟨own₁, loaded, callerUid, req, own₂, outcome, unixSecs, logged, hadmitted, hdecided, rfl⟩
  · exact absurd hmem (hrefused.only.not_mem rfl)
  · have hopening := hadmitted.only.not_mem (e := ⟨.writeAll c bytes, result⟩) rfl
    obtain ⟨u, hlookup⟩ := hdecided.writeAll_lookup (by simpa [hopening] using hmem)
    exact ⟨u, by simp [hlookup]⟩

end Stages

section Run

variable (hrun : Run (world P) s₀ (workers P approver approvalMutex) tr s ps)
  (hempty : s₀.registry = fun _ => none)

include hrun hempty

/-- An admitted hello was decoded from a beginning of what the peer has sent. -/
theorem admitted_sent (hqueue : (s₀.channel c).toDaemon = [])
    (hclient : (s₀.channel c).peer = .client) {own₁ rest : History (sig P)} {loaded : Loaded} {callerUid : Uid}
    {hello : Hello} (hadmitted : Admitted c own₁ loaded callerUid hello)
    (hhistory : history c tr = ⟨.acquireSlot, ()⟩ :: own₁ ++ rest) :
    ∃ bytes line, bytes <+: sentBy c tr ∧ fromUtf8 bytes = some line ∧ line ≠ "" ∧
      Hello.fromLine P.json line = .ok hello := by
  obtain ⟨before, after, s₁, ps₁, rfl, hbefore, hown⟩ := hrun.at_history hhistory
  cases hadmitted with
  | intro hgreeted hne _ hdecode =>
      cases hgreeted with
      | intro hid hauth hline =>
          cases hid with
          | @intro own loaded callerUid hreload =>
              cases hline with
              | ok hread htext =>
                  obtain ⟨rfl, -⟩ := served_of_run hbefore hempty hqueue hclient (sends_all hbefore) hreload hauth
                    hread (by rw [hown]; simp only [opened, List.append_assoc, List.cons_append, List.nil_append])
                  refine ⟨_, _, ?_, htext, hne, hdecode⟩
                  rw [sentBy_append]
                  exact (lineBytes_within _ _).trans (List.prefix_append _ _)

section Unregistered

variable (hunregistered : ∀ u, ⟨.insertAgent u c, ()⟩ ∉ history c tr)
  {before after : Trace (sig P) Daemon Tid Env} {st : Step (sig P) Daemon Tid Env} (htr : tr = before ++ st :: after)

include hunregistered

theorem not_looked_up {u : Uid} {t : Tid} : ⟨.lookupAgent u, some c⟩ ∉ history t tr :=
  fun hlookup => hunregistered u (insertAgent_of_lookup hrun hempty hlookup)

include htr

theorem not_looked_up_before {u : Uid} {t : Tid} : ⟨.lookupAgent u, some c⟩ ∉ history t before := by
  intro hlookup
  refine not_looked_up hrun hempty hunregistered (u := u) (t := t) ?_
  rw [htr, history_append]
  exact List.mem_append_left _ hlookup

/-- A command is executed once, before the response, as the admitted request has it. -/
theorem spawn_step {program : String} {args : List String} {dir : String} {result : Except IoError ProcessOutput}
    (hlabel : st.label = .thread c ⟨.spawn program args dir, result⟩) :
    executedBy c before = [] ∧ (∀ bytes written, ⟨.writeAll c bytes, written⟩ ∉ history c before) ∧
      ∃ own₁ loaded callerUid req rest, Admitted c own₁ loaded callerUid (.command req) ∧
        history c tr = ⟨.acquireSlot, ()⟩ :: own₁ ++ rest ∧ program :: args = req.argv ∧
        ⟨.canonicalize req.cwd, .ok dir⟩ ∈ history c tr := by
  have hlookup := fun u => not_looked_up_before hrun hempty hunregistered htr (u := u) (t := c)
  subst htr
  obtain ⟨own₁, loaded, callerUid, req, own₂, hadmitted, hrequest, hown⟩ :=
    (hrun.every_pre workers_meets before st after rfl c _ hlabel).request_inv rfl
  obtain ⟨rfl, rfl, outcome, hready⟩ := hrequest.spawn_inv
  obtain ⟨hargv, hdir⟩ := hready.command
  have hhistory : history c (before ++ st :: after) = ⟨.acquireSlot, ()⟩ :: own₁ ++
      (own₂ ++ ⟨.spawn (req.argv.headD "") req.argv.tail dir, result⟩ :: history c after) := by
    rw [history_split hlabel, hown, List.append_assoc]
  refine ⟨?_, fun bytes written hmem => ?_, own₁, loaded, callerUid, req, _, hadmitted, hhistory, hargv, ?_⟩
  · rw [executedBy, hown, List.filterMap_append, List.filterMap_cons_none rfl,
      unexecuted hadmitted.only fun _ _ _ => rfl, hready.unexecuted]
    rfl
  · have hopening := hadmitted.only.not_mem (e := ⟨.writeAll c bytes, written⟩) rfl
    obtain ⟨u, hmem'⟩ := hready.writeAll_lookup (by simpa [hown, hopening] using hmem)
    exact hlookup u (by simp [hown, hmem'])
  · rw [hhistory]
    simp [hdir]

/-- What is written on the connection is the response of its own worker, and it is written once. -/
theorem write_step {t : Tid} {bytes : List UInt8} {written : Except IoError Unit}
    (hlabel : st.label = .thread t ⟨.writeAll c bytes, written⟩) :
    t = c ∧ (∀ bytes' written', ⟨.writeAll c bytes', written'⟩ ∉ history c before) ∧
      ∃ resp line, resp.toLine P.json = .ok line ∧ bytes = utf8 line ∧ Reflects (executedBy c before) resp := by
  have hlookup := fun u t => not_looked_up_before hrun hempty hunregistered htr (u := u) (t := t)
  subst htr
  have hstage := hrun.every_pre workers_meets before st after rfl t _ hlabel
  obtain rfl : t = c := hstage.writeAll_lookup.resolve_right fun h => h.elim fun u hmem => hlookup u t hmem
  refine ⟨rfl, ?_⟩
  rcases hstage.writeAll_inv with ⟨own, resp, line, hanswered, hline, hbytes, hown⟩ |
      ⟨own₁, loaded, callerUid, req, own₂, -, hrequest, hown⟩
  · refine ⟨fun bytes' written' hmem => ?_, resp, line, hline, hbytes, ?_⟩
    · obtain ⟨u, hmem'⟩ := hanswered.writeAll_lookup (by simpa [hown] using hmem)
      exact hlookup u t (by simp [hown, hmem'])
    · rw [executedBy, hown, List.filterMap_cons_none rfl]
      exact hanswered.reflects
  · obtain ⟨u, hmem⟩ := hrequest.writeAll_lookup
    exact absurd (by simp [hown, hmem]) (hlookup u t)

omit htr

/-- After the response nothing is executed. -/
theorem executedBy_of_write {bytes : List UInt8} {written : Except IoError Unit} (htr : tr = before ++ st :: after)
    (hlabel : st.label = .thread c ⟨.writeAll c bytes, written⟩) : executedBy c tr = executedBy c before := by
  have hnone : executedBy c after = [] := by
    rw [executedBy, List.filterMap_eq_nil_iff]
    rintro ⟨op, answer⟩ hmem
    cases op with
    | spawn program args dir =>
        obtain ⟨a, st', a', rfl, hspawn⟩ := once_of_mem_history hmem
        have hsplit : tr = (before ++ st :: a) ++ st' :: a' := by rw [htr, List.append_assoc, List.cons_append]
        have hunwritten := (spawn_step hrun hempty hunregistered hsplit hspawn).2.1 bytes written
        exact absurd (mem_history.mpr ⟨st, by simp, hlabel⟩) hunwritten
    | _ => rfl
  rw [htr, executedBy, history_split hlabel, List.filterMap_append, List.filterMap_cons_none rfl]
  show executedBy c before ++ executedBy c after = _
  rw [hnone, List.append_nil]

/-- Who queues bytes for the peer is its own worker. -/
theorem write_of_queued (htr : tr = before ++ st :: after) (hqueued : queued c st ≠ []) :
    ∃ bytes written, st.label = .thread c ⟨.writeAll c bytes, written⟩ ∧ queued c st <+: bytes := by
  have hlegal : st.Legal (world P) := hrun.every_legal before st after htr
  obtain ⟨pre, label, post⟩ := st
  cases label with
  | env event => exact absurd rfl hqueued
  | thread u event =>
      obtain ⟨op, answer⟩ := event
      obtain ⟨bytes, hop, hbegins⟩ := (legal_toPeer (c := c) hlegal).2.resolve_left hqueued
      obtain rfl : op = _ := hop
      obtain ⟨rfl, -, -⟩ := write_step hrun hempty hunregistered htr rfl
      exact ⟨bytes, answer, rfl, hbegins⟩

/-- All that is queued for the peer is of one write. -/
theorem queuedFor_eq (htr : tr = before ++ st :: after) (hqueued : queued c st ≠ []) :
    queuedFor c tr = queued c st := by
  obtain ⟨bytes, written, hlabel, -⟩ := write_of_queued hrun hempty hunregistered htr hqueued
  have hbefore : queuedFor c before = [] := by
    rw [queuedFor, List.flatMap_eq_nil_iff]
    intro st' hst'
    by_contra hne
    obtain ⟨a, a', rfl⟩ := List.append_of_mem hst'
    have hsplit : tr = a ++ st' :: (a' ++ st :: after) := by rw [htr, List.append_assoc, List.cons_append]
    obtain ⟨bytes', written', hlabel', -⟩ := write_of_queued hrun hempty hunregistered hsplit hne
    have hunwritten := (write_step hrun hempty hunregistered htr hlabel).2.1 bytes' written'
    exact hunwritten (mem_history.mpr ⟨st', by simp, hlabel'⟩)
  have hafter : queuedFor c after = [] := by
    rw [queuedFor, List.flatMap_eq_nil_iff]
    intro st' hst'
    by_contra hne
    obtain ⟨a, a', rfl⟩ := List.append_of_mem hst'
    have hsplit : tr = (before ++ st :: a) ++ st' :: a' := by rw [htr, List.append_assoc, List.cons_append]
    obtain ⟨bytes', written', hlabel', -⟩ := write_of_queued hrun hempty hunregistered hsplit hne
    have hunwritten := (write_step hrun hempty hunregistered hsplit hlabel').2.1 bytes written
    exact hunwritten (mem_history.mpr ⟨st, by simp, hlabel⟩)
  rw [queuedFor] at hbefore hafter ⊢
  rw [htr, List.flatMap_append, List.flatMap_cons, hbefore, hafter, List.nil_append, List.append_nil]

/-- What the peer takes is a beginning of a response that tells what has been executed. -/
theorem taken_reflects (hnone : (s₀.channel c).toPeer = []) (hclient : (s₀.channel c).peer = .client) :
    takenBy c tr = [] ∨ ∃ resp line, resp.toLine P.json = .ok line ∧ takenBy c tr <+: utf8 line ∧
      Reflects (executedBy c tr) resp := by
  have htaken : takenBy c tr <+: queuedFor c tr :=
    ⟨_, taken_then_queued hrun hnone (by rw [hclient]; rfl)⟩
  by_cases hall : ∀ st ∈ tr, queued c st = []
  · rw [queuedFor, List.flatMap_eq_nil_iff.mpr hall] at htaken
    exact .inl (List.prefix_nil.mp htaken)
  · push Not at hall
    obtain ⟨st, hst, hqueued⟩ := hall
    obtain ⟨before, after, htr⟩ := List.append_of_mem hst
    obtain ⟨bytes, written, hlabel, hbegins⟩ := write_of_queued hrun hempty hunregistered htr hqueued
    obtain ⟨-, -, resp, line, hline, rfl, hreflects⟩ := write_step hrun hempty hunregistered htr hlabel
    rw [queuedFor_eq hrun hempty hunregistered htr hqueued] at htaken
    refine .inr ⟨resp, line, hline, htaken.trans hbegins, ?_⟩
    rw [executedBy_of_write hrun hempty hunregistered htr hlabel]
    exact hreflects

/-- At most one command is executed, in one step. -/
theorem executedBy_cases :
    executedBy c tr = [] ∨ ∃ before st after program args dir result, tr = before ++ st :: after ∧
      st.label = .thread c ⟨.spawn program args dir, result⟩ ∧
      executedBy c tr = [⟨program :: args, dir, result⟩] := by
  have hspawn : ∀ (tr' : Trace (sig P) Daemon Tid Env), executedBy c tr' ≠ [] →
      ∃ before st after program args dir result, tr' = before ++ st :: after ∧
        st.label = .thread c ⟨.spawn program args dir, result⟩ := by
    intro tr' hne
    obtain ⟨e, he⟩ := List.exists_mem_of_ne_nil _ hne
    obtain ⟨⟨op, answer⟩, hmem, hexecution⟩ := List.mem_filterMap.mp he
    cases op with
    | spawn program args dir =>
        obtain ⟨before, st, after, htr', hlabel⟩ := once_of_mem_history hmem
        exact ⟨before, st, after, program, args, dir, answer, htr', hlabel⟩
    | _ => cases hexecution
  by_cases hne : executedBy c tr = []
  · exact .inl hne
  · obtain ⟨before, st, after, program, args, dir, result, htr, hlabel⟩ := hspawn tr hne
    refine .inr ⟨before, st, after, program, args, dir, result, htr, hlabel, ?_⟩
    have hsplit : ∀ rest, executedBy c (before ++ st :: rest) =
        executedBy c before ++ ⟨program :: args, dir, result⟩ :: executedBy c rest := by
      intro rest
      rw [executedBy, history_split hlabel, List.filterMap_append]
      rfl
    have hbefore := (spawn_step hrun hempty hunregistered htr hlabel).1
    have hafter : executedBy c after = [] := by
      by_contra hmore
      obtain ⟨a, st', a', program', args', dir', result', rfl, hlabel'⟩ := hspawn after hmore
      have htr' : tr = (before ++ st :: a) ++ st' :: a' := by rw [htr, List.append_assoc, List.cons_append]
      have hearlier := (spawn_step hrun hempty hunregistered htr' hlabel').1
      rw [hsplit] at hearlier
      simp at hearlier
    rw [htr, hsplit, hbefore, hafter, List.nil_append]

end Unregistered

/-- The peer of connection `c` is a client with the history `own`: what it has sent is of what the client has
written, and what the client has read is of what it has taken. -/
structure Converses (c : Conn) (own : History clientSig) (tr : Trace (sig P) Daemon Tid Env) : Prop where
  sent : sentBy c tr <+: Client.written own
  read : ∀ bytes, ⟨.readLine, .ok bytes⟩ ∈ own → bytes <+: takenBy c tr

/-- The command and the directory are those of the client's call. -/
def AsTyped (raw : List String) (own : History clientSig) (c : Conn) (tr : Trace (sig P) Daemon Tid Env)
    (e : Execution) : Prop :=
  ∃ args dir, parseArgs raw = .ok (some args) ∧ ⟨.currentDir, dir⟩ ∈ own ∧ e.argv = args.argv ∧
    ⟨.canonicalize (dir.getD "."), .ok e.dir⟩ ∈ history c tr

section Exchange

variable {q : ClientProg UInt8} {own : History clientSig} (hjson : J.Lawful P.json)
  (hclient : (Client.main J raw).Follows own q) (hchannel : s₀.channel c = ⟨[], [], .client⟩)
  (hconverses : Converses c own tr)

include hjson hclient hchannel hconverses

/-- The hello that is admitted is the request that was typed. -/
theorem admitted_typed {own₁ rest : History (sig P)} {loaded : Loaded} {callerUid : Uid} {hello : Hello}
    (hadmitted : Admitted c own₁ loaded callerUid hello)
    (hhistory : history c tr = ⟨.acquireSlot, ()⟩ :: own₁ ++ rest) :
    ∃ args dir, parseArgs raw = .ok (some args) ∧ ⟨.currentDir, dir⟩ ∈ own ∧
      hello = .command (Client.request args dir) := by
  obtain ⟨bytes, line, hbytes, htext, hne, hdecode⟩ :=
    admitted_sent hrun hempty (by rw [hchannel]) (by rw [hchannel]) hadmitted hhistory
  have hwritten := hbytes.trans hconverses.sent
  rcases Client.sent_of_follows hclient with hnone | ⟨args, dir, line', hcomposed, hdir, hline⟩
  · rw [hnone, List.prefix_nil] at hwritten
    subst hwritten
    exact absurd (Option.some.inj htext).symm hne
  · rw [hline] at hwritten
    exact ⟨args, dir, hcomposed.parsed, hdir, hjson.hello.decode_prefix hcomposed.encoded hwritten htext hdecode⟩

theorem unregistered_of_client (u : Uid) : ⟨.insertAgent u c, ()⟩ ∉ history c tr := by
  intro hinsert
  obtain ⟨before, st, after, rfl, hlabel⟩ := once_of_mem_history hinsert
  obtain ⟨-, own₁, loaded, hadmitted, hown⟩ :=
    (hrun.every_pre workers_meets before st after rfl c _ hlabel).insertAgent_inv
  have hhistory : history c (before ++ st :: after) = ⟨.acquireSlot, ()⟩ :: own₁ ++
      ([⟨.tryClone, .ok ()⟩] ++ ⟨.insertAgent u c, ()⟩ :: history c after) := by
    rw [history_split hlabel, hown, List.append_assoc]
  obtain ⟨args, dir, -, -, hhello⟩ :=
    admitted_typed hrun hempty hjson hclient hchannel hconverses hadmitted hhistory
  cases hhello

/-- **The client tells what was done.** In every run of the daemon, what is executed for a client's connection is
at most one command: the one on its command line, in its directory. The response it decodes tells whether it was
executed and what came of it; the client prints that and exits with the command's exit code, cut to a byte, or with
one of its own. A client that ends without a response has printed its help, or complains and exits with 125. -/
theorem client_tells_execution :
    (executedBy c tr).length ≤ 1 ∧ (∀ e ∈ executedBy c tr, AsTyped raw own c tr e) ∧
      (∀ resp, Client.Heard J own resp → Reflects (executedBy c tr) resp ∧
        ∀ status, q = .ret status → (∃ own', own = own' ++ Client.shown resp) ∧
          (status.toNat : Int) = (Client.code resp).toInt % 256) ∧
      ∀ status, q = .ret status → (∀ resp, ¬ Client.Heard J own resp) →
        (parseArgs raw = .ok none ∧ own = [⟨.print Client.help, ()⟩] ∧ status = 0) ∨
          ∃ own' why, Client.Failed J raw own' why ∧
            own = own' ++ [⟨.eprint ("sudix: " ++ why ++ "\n"), ()⟩] ∧ status = 125 := by
  have hunregistered := unregistered_of_client hrun hempty hjson hclient hchannel hconverses
  refine ⟨?_, ?_, fun resp hheard => ⟨?_, ?_⟩, ?_⟩
  · rcases executedBy_cases hrun hempty hunregistered with hnone | ⟨_, _, _, _, _, _, _, -, -, hone⟩
    · simp [hnone]
    · simp [hone]
  · intro e he
    rcases executedBy_cases hrun hempty hunregistered with
        hnone | ⟨before, st, after, program, args, dir, result, htr, hlabel, hone⟩
    · rw [hnone] at he
      cases he
    · rw [hone, List.mem_singleton] at he
      subst he
      obtain ⟨-, -, own₁, loaded, callerUid, req, rest, hadmitted, hhistory, hargv, hdir⟩ :=
        spawn_step hrun hempty hunregistered htr hlabel
      obtain ⟨typed, cwd, hparsed, hcwd, hhello⟩ :=
        admitted_typed hrun hempty hjson hclient hchannel hconverses hadmitted hhistory
      obtain rfl := Hello.command.inj hhello
      exact ⟨typed, cwd, hparsed, hcwd, hargv, hdir⟩
  · obtain ⟨bytes, answer, hmem, htext, hdecode⟩ := hheard
    have hread := hconverses.read bytes hmem
    rcases taken_reflects hrun hempty hunregistered (by rw [hchannel]) (by rw [hchannel]) with
        hnone | ⟨resp', line, hline, hbegins, hreflects⟩
    · -- nothing was taken, and an empty text is no response
      rw [hnone, List.prefix_nil] at hread
      subst hread
      obtain rfl : "" = answer := Option.some.inj htext
      exact absurd hdecode (hjson.empty resp)
    · rw [hjson.response.decode_prefix hline (hread.trans hbegins) htext hdecode]
      exact hreflects
  · rintro status rfl
    obtain ⟨htold, hstatus⟩ := ((Client.main_meets J raw).follows hclient).heard hheard
    rw [hstatus]
    exact ⟨htold, Client.exitCode_toNat _⟩
  · rintro status rfl hunheard
    exact ((Client.main_meets J raw).follows hclient).unheard hunheard

end Exchange

end Run

def idClientJson : ClientJson := ⟨tableEncode helloTexts, tableDecode responseTexts⟩

theorem idClientJson_lawful : idClientJson.Lawful strangerPlatform.json where
  hello := LawfulTable.codec (by decide +kernel)
  response := LawfulTable.codec (by decide +kernel)
  empty resp h := by
    have herror : idClientJson.responseFromStr "" = .error "unknown text" := by decide +kernel
    rw [herror] at h
    cases h

/-- Nothing has been sent to the daemon yet. -/
def quietDaemon : Daemon := { strangerDaemon with channel := fun _ => ⟨[], [], .client⟩ }

def approvedLine : List UInt8 :=
  utf8 "\x7b\"decision\":\"approved\",\"exit_code\":0,\"stdout\":\"\",\"stderr\":\"\"\x7d\n"

def idArgs : List String := ["--reason", "", "--", "id"]

/-- What the client of the command does. -/
def idClient : History clientSig :=
  Client.submitted none (some "/") (idLine ++ "\n") ++ [⟨.readLine, .ok approvedLine⟩] ++
    Client.shown (.approved 0 "" "")

/-- Connection 1 brings the client's line, has its command approved and executed, and its peer takes the response. -/
def exchangeRun : Option (Point (sig strangerPlatform) Daemon Tid Env (Except IoError Unit)) :=
  replay (world strangerPlatform) ⟨[], quietDaemon, strangerWorkers⟩
    (.env (.peerSend 1 (utf8 (idLine ++ "\n"))) :: List.replicate 19 (.thread 1 (smooth 55 .allowed)) ++
      [.env (.peerReceive 1 100)])

theorem exchangeRun_steps :
    ∃ c, exchangeRun = some c ∧
      Run (world strangerPlatform) quietDaemon strangerWorkers c.trace c.state c.pool ∧
      sentBy 1 c.trace = utf8 (idLine ++ "\n") ∧ takenBy 1 c.trace = approvedLine := by
  obtain ⟨c, hc⟩ : ∃ c, exchangeRun = some c := ⟨_, rfl⟩
  refine ⟨c, hc, run_of_replay .start hc, ?_⟩
  obtain rfl := Option.some.inj hc
  exact ⟨by decide +kernel, by decide +kernel⟩

theorem idClient_told :
    Client.Told idClientJson idArgs (Client.submitted none (some "/") (idLine ++ "\n") ++
      [⟨.readLine, .ok approvedLine⟩]) (.approved 0 "" "") := by
  have hparsed : parseArgs idArgs = .ok (some ⟨"", none, ["id"]⟩) := by
    simp [parseArgs, parseArgsFrom, flagValue, commandGiven, idArgs]
  refine .intro ⟨hparsed, ?_⟩ (fromUtf8_utf8 _) ?_
  · decide +kernel
  · decide +kernel

/-- The client of that run is told that its command was executed, and exits with its exit code. -/
theorem exchangeRun_told :
    ∃ c, exchangeRun = some c ∧ (∀ e ∈ executedBy 1 c.trace, AsTyped idArgs idClient 1 c.trace e) ∧
      Reflects (executedBy 1 c.trace) (.approved 0 "" "") ∧
      ((Client.exitCode (Client.code (.approved 0 "" ""))).toNat : Int) = 0 := by
  obtain ⟨c, hc, hrun, hsent, htaken⟩ := exchangeRun_steps
  have hconverses : Converses 1 idClient c.trace := by
    constructor
    · have hwritten : sentBy 1 c.trace = Client.written idClient := hsent.trans (by decide +kernel)
      exact hwritten ▸ List.prefix_rfl
    · intro bytes hmem
      obtain rfl : bytes = approvedLine := by
        simpa [idClient, Client.submitted, Client.dialed, Client.shown] using hmem
      exact htaken ▸ List.prefix_rfl
  obtain ⟨-, htyped, htold, -⟩ :=
    client_tells_execution hrun rfl idClientJson_lawful idClient_told.follows rfl hconverses
  have hheard : Client.Heard idClientJson idClient (.approved 0 "" "") :=
    ⟨approvedLine, _, by simp [idClient], fromUtf8_utf8 _, by decide +kernel⟩
  obtain ⟨hreflects, hends⟩ := htold _ hheard
  exact ⟨c, hc, htyped, hreflects, (hends _ rfl).2⟩

end Sudix
