import Sudix.DialogGate

/-! Dialogs under the approval gate. A prompt is sent only while the gate is held, so that of all the
agents at most one has a dialog open, as long as the gate is not released while the agent prompted
under it still has its dialog. After a timeout it is, and then two dialogs can be open. -/

namespace Sudix

open Concurrent

variable {P : Platform} {registerWait rounds : Nat} {approvalMutex : Bool} {s₀ s s' : Daemon}
  {ps : Pool (sig P) Tid (Except IoError Unit)} {tr : Trace (sig P) Daemon Tid Env} {c t : Conn}
  {own : History (sig P)} {ch : Channel}

/-- A dialog is open, or its verdict is being written. -/
def Peer.inDialog : Peer → Bool
  | .agent (.dialog _ _) | .agent (.writing _ _) => true
  | _ => false

def AtMostOneDialog (s : Daemon) : Prop :=
  ∀ c c', (s.channel c).peer.inDialog = true → (s.channel c').peer.inDialog = true → c = c'

/-- The agent at the other end of connection `c`, if there is one, has no dialog open and no prompt to
read: what is on its way to it was written by its own worker. -/
def Channel.quiet (c : Conn) (ch : Channel) : Bool :=
  match ch.peer with
  | .agent .reading => ch.toPeer.all fun b => b.2 == c
  | .agent _ => false
  | _ => true

/-- The gate is released only when the agent prompted under it is done with the prompt: it has been
answered, or the agent is gone. -/
def ReleasesQuiet (before : Trace (sig P) Daemon Tid Env) (st : Step (sig P) Daemon Tid Env) : Prop :=
  ∀ t c bytes written, st.label = .thread t ⟨.unlock .approvalGate, ()⟩ →
    ⟨.writeAll c bytes, written⟩ ∈ history t before → (st.pre.channel c).quiet c = true

/-- What serde_json does with responses: their texts are one line, and no prompt is read from one, as it
would lack the fields of a prompt. -/
structure SerdeJson.ResponsesApart (J : SerdeJson) : Prop where
  oneLine : ∀ resp text, J.responseToString resp = .ok text → newline ∉ utf8 text
  notPrompt : ∀ resp text p, J.responseToString resp = .ok text → Prompt.fromLine J (text ++ "\n") ≠ .ok p

theorem not_inDialog_of_quiet {ch : Channel} (h : ch.quiet c = true) : ch.peer.inDialog = false := by
  obtain ⟨toPeer, toDaemon, peer⟩ := ch
  cases peer with
  | client | gone => rfl
  | agent state =>
      cases state with
      | reading => rfl
      | dialog p asker | writing rest asker => cases h

theorem Channel.quiet_iff : ch.quiet c = true ↔
    ∀ state, ch.peer = .agent state → state = .reading ∧ ∀ b ∈ ch.toPeer, b.2 = c := by
  obtain ⟨toPeer, toDaemon, peer⟩ := ch
  cases peer with
  | client | gone => simp [Channel.quiet]
  | agent state => cases state <;> simp [Channel.quiet]

/-- The bytes queued towards the peer of connection `c` by its own worker are part of a response, and
those by others have been queued because `c` has registered. -/
structure Spoken (c : Conn) (own : History (sig P)) (ch : Channel) : Prop where
  prompted : ∀ b ∈ ch.toPeer, b.2 ≠ c → ∃ u, ⟨.insertAgent u c, ()⟩ ∈ own
  answered : ∀ b ∈ ch.toPeer, b.2 = c → ∃ bytes written, ⟨.writeAll c bytes, written⟩ ∈ own
  response : ∀ state, ch.peer = .agent state → (∃ bytes written, ⟨.writeAll c bytes, written⟩ ∈ own) →
    ∃ (resp : Response) (line : String), resp.toLine P.json = .ok line ∧ ch.toPeer.map Prod.fst <+: utf8 line

/-- An agent that reads a response as a line skips it, and has read all of it. -/
theorem agentReads_response (hresp : P.json.ResponsesApart) {resp : Response} {line : String}
    (hline : resp.toLine P.json = .ok line) {queue : List (UInt8 × Tid)}
    (hstart : queue.map Prod.fst <+: utf8 line) {last : UInt8 × Tid} {rest : List (UInt8 × Tid)}
    (hcut : queue.dropWhile (fun b => b.1 != newline) = last :: rest) (asker : Tid) :
    agentReads P ((queue.takeWhile fun b => b.1 != newline).map Prod.fst ++ [newline]) asker = .agent .reading ∧
      rest = [] := by
  obtain ⟨text, htext, rfl⟩ := line_eq hline
  have hnl : newline ∉ utf8 text := hresp.oneLine resp text htext
  have hlast : last.1 = newline := by
    have hhead := List.head?_dropWhile_not (fun b : UInt8 × Tid => b.1 != newline) queue
    rw [hcut] at hhead
    simpa using hhead
  have hqueue : queue.map Prod.fst =
      (queue.takeWhile fun b => b.1 != newline).map Prod.fst ++ newline :: rest.map Prod.fst := by
    conv => lhs; rw [← List.takeWhile_append_dropWhile (p := fun b : UInt8 × Tid => b.1 != newline) (l := queue),
      hcut, List.map_append, List.map_cons, hlast]
  rw [hqueue, utf8_append, utf8_newline] at hstart
  obtain ⟨after, hafter⟩ := hstart
  have hfront : newline ∉ (queue.takeWhile fun b => b.1 != newline).map Prod.fst := by
    intro hmem
    obtain ⟨b, hb, hbnl⟩ := List.mem_map.mp hmem
    have hne := List.mem_takeWhile_imp hb
    simp [hbnl] at hne
  rw [List.append_assoc, List.cons_append] at hafter
  have hbytes := eq_of_append_cons_eq_concat hafter hnl
  rw [hbytes] at hafter ⊢
  have hrest : rest = [] ∧ after = [] := by simpa using List.append_cancel_left hafter
  refine ⟨?_, hrest.1⟩
  have hread : utf8 text ++ [newline] = utf8 (text ++ "\n") := by rw [utf8_append, utf8_newline]
  rw [agentReads, hread, fromUtf8_utf8]
  cases hprompt : Prompt.fromLine P.json (text ++ "\n") with
  | ok p => exact absurd hprompt (hresp.notPrompt resp text p htext)
  | error e => simp only [hprompt]

section Env

variable {event : Env}

/-- Events around the daemon keep what is queued towards a peer a part of what was written to it. -/
theorem Spoken.env (hresp : P.json.ResponsesApart) (hstep : Sudix.env P s event = some s')
    (h : Spoken c own (s.channel c)) : Spoken c own (s'.channel c) := by
  by_cases hc : event.stream = some c
  · generalize hch : s.channel c = ch at h
    obtain ⟨toPeer, toDaemon, peer⟩ := ch
    cases event with
    | peerSend c' bytes =>
        cases hc
        simp only [Sudix.env, hch] at hstep
        split at hstep <;> cases hstep
        rw [setChannel_self]
        exact ⟨h.prompted, h.answered, h.response⟩
    | peerReceive c' n =>
        cases hc
        simp only [Sudix.env, hch] at hstep
        split at hstep <;> cases hstep
        rename_i hclient
        rw [setChannel_self]
        exact ⟨fun b hb => h.prompted b (List.mem_of_mem_drop hb),
          fun b hb => h.answered b (List.mem_of_mem_drop hb), fun state hstate => by cases hclient.symm.trans hstate⟩
    | peerClose c' =>
        cases hc
        simp only [Sudix.env, hch] at hstep
        split at hstep <;> cases hstep
        rw [setChannel_self]
        exact ⟨h.prompted, h.answered, by simp⟩
    | agentRead c' =>
        cases hc
        simp only [Sudix.env, hch] at hstep
        split at hstep
        · rename_i last rest hcut
          cases hstep
          rw [setChannel_self]
          have hsub : ∀ b ∈ rest, b ∈ toPeer := by
            intro b hb
            have hdrop : b ∈ toPeer.dropWhile fun b => b.1 != newline := by
              rw [hcut]
              exact List.mem_cons_of_mem _ hb
            exact (List.dropWhile_suffix _).subset hdrop
          refine ⟨fun b hb => h.prompted b (hsub b hb), fun b hb => h.answered b (hsub b hb), ?_⟩
          intro state _ hwrote
          obtain ⟨resp, line, hline, hstart⟩ := h.response _ rfl hwrote
          refine ⟨resp, line, hline, ?_⟩
          rw [(agentReads_response hresp hline hstart hcut 0).2]
          exact List.nil_prefix
        · cases hstep
    | agentAnswer c' v =>
        cases hc
        simp only [Sudix.env, hch] at hstep
        split at hstep
        · split at hstep <;> cases hstep <;> rw [setChannel_self] <;>
            exact ⟨h.prompted, h.answered, fun _ _ => h.response _ rfl⟩
        · cases hstep
    | agentWrite c' n =>
        cases hc
        simp only [Sudix.env, hch] at hstep
        split at hstep
        · cases hstep
          rw [setChannel_self]
          exact ⟨h.prompted, h.answered, fun _ _ => h.response _ rfl⟩
        · cases hstep
    | agentExit c' =>
        cases hc
        simp only [Sudix.env, hch] at hstep
        split at hstep <;> cases hstep
        rw [setChannel_self]
        exact ⟨h.prompted, h.answered, by simp⟩
    | _ => cases hc
  · rw [env_channel hstep hc]
    exact h

/-- A quiet agent stays quiet: it has nothing to read but responses. -/
theorem quiet_env (hresp : P.json.ResponsesApart) (hstep : Sudix.env P s event = some s')
    (h : Spoken c own (s.channel c)) (hquiet : (s.channel c).quiet c = true) :
    (s'.channel c).quiet c = true := by
  by_cases hc : event.stream = some c
  · generalize hch : s.channel c = ch at h hquiet
    obtain ⟨toPeer, toDaemon, peer⟩ := ch
    cases event with
    | peerSend c' bytes | peerReceive c' n | peerClose c' =>
        cases hc
        simp only [Sudix.env, hch] at hstep
        split at hstep <;> cases hstep
        rename_i hclient
        rw [setChannel_self, Channel.quiet_iff]
        intro state hstate
        first
          | cases hclient.symm.trans hstate
          | cases hstate
    | agentRead c' =>
        cases hc
        simp only [Sudix.env, hch] at hstep
        split at hstep
        · rename_i last rest hcut
          cases hstep
          have hown : ∀ b ∈ toPeer, b.2 = c := (Channel.quiet_iff.mp hquiet _ rfl).2
          have hlast : last ∈ toPeer := by
            have hdrop : last ∈ toPeer.dropWhile fun b => b.1 != newline := by
              rw [hcut]
              exact List.mem_cons_self
            exact (List.dropWhile_suffix _).subset hdrop
          obtain ⟨resp, line, hline, hstart⟩ := h.response _ rfl (h.answered last hlast (hown last hlast))
          obtain ⟨hreads, rfl⟩ := agentReads_response hresp hline hstart hcut last.2
          rw [setChannel_self, hreads]
          rfl
        · cases hstep
    | agentAnswer c' v | agentWrite c' v =>
        cases hc
        simp only [Sudix.env, hch] at hstep
        split at hstep
        · cases hquiet
        · cases hstep
    | agentExit c' =>
        cases hc
        simp only [Sudix.env, hch] at hstep
        split at hstep <;> cases hstep
        rw [setChannel_self]
        rfl
    | _ => cases hc
  · rw [env_channel hstep hc]
    exact hquiet

end Env

theorem Spoken.keep {ch' : Channel} (h : Spoken c own ch) (hto : ch'.toPeer = ch.toPeer)
    (hpeer : ch'.peer = ch.peer) : Spoken c own ch' where
  prompted := by
    rw [hto]
    exact h.prompted
  answered := by
    rw [hto]
    exact h.answered
  response := by
    rw [hto, hpeer]
    exact h.response

theorem Spoken.snoc {event : Event (sig P)} (h : Spoken c own ch) (hop : ∀ bytes, event.op ≠ .writeAll c bytes) :
    Spoken c (own ++ [event]) ch where
  prompted b hb hne := by
    obtain ⟨u, hmem⟩ := h.prompted b hb hne
    exact ⟨u, List.mem_append_left _ hmem⟩
  answered b hb hc := by
    obtain ⟨bytes, written, hmem⟩ := h.answered b hb hc
    exact ⟨bytes, written, List.mem_append_left _ hmem⟩
  response state hstate := by
    rintro ⟨bytes, written, hmem⟩
    rcases List.mem_append.mp hmem with hmem | hmem
    · exact h.response state hstate ⟨bytes, written, hmem⟩
    · obtain rfl := List.mem_singleton.mp hmem
      exact absurd rfl (hop bytes)

/-- A step of any thread that is no write to `c`. -/
theorem Spoken.thread {event : Event (sig P)} (h : Spoken c (history c tr) ch)
    (hop : ∀ bytes, event.op ≠ .writeAll c bytes) (u : Tid) :
    Spoken c (history c (tr ++ [⟨s, .thread u event, s'⟩])) ch := by
  by_cases hu : u = c
  · subst hu
    rw [history_append, history_thread_self]
    exact h.snoc hop
  · rw [history_append, history_thread_other hu, List.append_nil]
    exact h

/-- While its worker has neither registered nor answered nothing is on its way to a peer. -/
theorem Spoken.toPeer_eq_nil (h : Spoken c own ch) (hfirst : own.countP (speaks c) = 0) : ch.toPeer = [] := by
  rw [List.countP_eq_zero] at hfirst
  by_contra hne
  obtain ⟨b, hb⟩ := List.exists_mem_of_ne_nil _ hne
  by_cases hbc : b.2 = c
  · obtain ⟨bytes, written, hmem⟩ := h.answered b hb hbc
    exact hfirst _ hmem (by simp [speaks])
  · obtain ⟨u, hmem⟩ := h.prompted b hb hbc
    exact hfirst _ hmem rfl

/-- The worker of the connection answers: the first thing ever written to this peer. -/
theorem Spoken.answer {resp : Response} {line : String} (h : Spoken c own ch)
    (hfirst : own.countP (speaks c) = 0) (hline : resp.toLine P.json = .ok line) (written : Except IoError Unit)
    (n : Nat) : Spoken c (own ++ [⟨.writeAll c (utf8 line), written⟩]) (ch.send c ((utf8 line).take n)) := by
  have hto : (ch.send c ((utf8 line).take n)).toPeer = ((utf8 line).take n).map fun b => (b, c) := by
    simp [Channel.send, h.toPeer_eq_nil hfirst]
  refine ⟨fun b hb hne => ?_, fun b hb _ => ?_, fun _ _ _ => ⟨resp, line, hline, ?_⟩⟩
  · rw [hto] at hb
    obtain ⟨byte, -, rfl⟩ := List.mem_map.mp hb
    exact absurd rfl hne
  · exact ⟨_, _, List.mem_append_right _ List.mem_cons_self⟩
  · rw [hto, List.map_map]
    simpa [Function.comp_def] using List.take_prefix n (utf8 line)

/-- Another worker prompts the agent, which has registered and so is not answered. -/
theorem Spoken.prompt {u : Tid} {callerUid : Uid} (h : Spoken c own ch) (hinsert : ⟨.insertAgent callerUid c, ()⟩ ∈ own)
    (hunanswered : ∀ bytes written, ⟨.writeAll c bytes, written⟩ ∉ own) (hu : u ≠ c) (bytes : List UInt8) :
    Spoken c own (ch.send u bytes) := by
  refine ⟨fun b hb hne => ⟨callerUid, hinsert⟩, fun b hb hbc => ?_, fun _ _ => ?_⟩
  · rcases List.mem_append.mp hb with hb | hb
    · exact h.answered b hb hbc
    · obtain ⟨byte, -, rfl⟩ := List.mem_map.mp hb
      exact absurd hbc hu
  · rintro ⟨bytes', written, hmem⟩
    exact absurd hmem (hunanswered bytes' written)

/-- A step of a thread that writes no foreign bytes to an agent leaves it quiet. -/
theorem quiet_thread {op : Op} {answer : Answer P op}
    (hlegal : Step.Legal (world P) ⟨s, .thread t ⟨op, answer⟩, s'⟩)
    (hop : ∀ bytes, op = .writeAll c bytes → t = c) (hquiet : (s.channel c).quiet c = true) :
    (s'.channel c).quiet c = true := by
  by_cases hc : op.stream = some c
  · cases op with
    | recv c' n =>
        cases hc
        obtain ⟨hto, hpeer⟩ := legal_recv_channel hlegal
        rw [Channel.quiet_iff] at hquiet ⊢
        rwa [hto, hpeer]
    | writeAll c' bytes =>
        cases hc
        obtain rfl := hop bytes rfl
        obtain ⟨n, hsend⟩ := legal_writeAll_channel hlegal
        rw [hsend, Channel.quiet_iff]
        rw [Channel.quiet_iff] at hquiet
        intro state hstate
        obtain ⟨hreading, hown⟩ := hquiet state hstate
        refine ⟨hreading, fun b hb => ?_⟩
        rcases List.mem_append.mp hb with hb | hb
        · exact hown b hb
        · obtain ⟨byte, -, rfl⟩ := List.mem_map.mp hb
          rfl
    | _ => cases hc
  · rwa [legal_channel hlegal hc]

section Run

variable (hrun : Run (world P) s₀ (workers P (.agent registerWait rounds) approvalMutex) tr s ps)

include hrun

theorem spoken_of_run (hresp : P.json.ResponsesApart) (hempty : s₀.registry = fun _ => none)
    (hqueues : ∀ c, (s₀.channel c).toPeer = []) (c : Conn) : Spoken c (history c tr) (s.channel c) := by
  induction hrun with
  | start =>
      have hnil := hqueues c
      exact ⟨by simp [hnil], by simp [hnil], by simp⟩
  | env event hbefore henv ih =>
      rw [history_append, history_env, List.append_nil]
      exact ih.env hresp henv
  | @thread tr s ps u op next choice answer s' hbefore hnext hact ih =>
      have hlegal : Step.Legal (world P) ⟨s, .thread u ⟨op, answer⟩, s'⟩ := ⟨choice, hact⟩
      have hall : Run _ _ _ _ _ _ := .thread u choice hbefore hnext hact
      by_cases hc : op.stream = some c
      · cases op with
        | recv c' n =>
            cases hc
            obtain ⟨hto, hpeer⟩ := legal_recv_channel hlegal
            exact (ih.keep hto hpeer).thread (by simp) u
        | writeAll c' bytes =>
            cases hc
            have hfirst := speaks_first hall hempty c tr _ [] rfl u _ rfl (by simp [speaks])
            have hstage := hall.every_pre workers_meets tr _ [] rfl u _ rfl
            obtain ⟨n, hsend⟩ := legal_writeAll_channel hlegal
            rw [hsend]
            rcases hstage.gating_inv rfl with ⟨own₁, resp, line, -, hline, hop, -⟩ |
                ⟨before, own', callerUid, req, hown, -, hagent⟩
            · obtain ⟨rfl, rfl⟩ := Op.writeAll.inj hop
              rw [history_append, history_thread_self]
              exact ih.answer hfirst hline answer n
            · obtain ⟨own₁, poisoned, rfl, -, hlookup⟩ := hagent.writeAll_inv
              have hinsert : (⟨.insertAgent callerUid c, ()⟩ : Event (sig P)) ∈ history c tr :=
                insertAgent_of_lookup hbefore hempty (t := u) (by rw [hown]; simp [hlookup])
              have hu : u ≠ c := by
                intro hself
                subst hself
                rw [List.countP_eq_zero] at hfirst
                exact hfirst _ hinsert rfl
              rw [history_append, history_thread_other hu, List.append_nil]
              exact ih.prompt hinsert (fun _ _ => registered_unanswered hbefore hempty hinsert) hu _
        | _ => cases hc
      · rw [legal_channel hlegal hc]
        refine ih.thread (fun bytes hop => hc ?_) u
        rw [show op = .writeAll c bytes from hop]
        rfl

end Run

/-- While the gate is free every agent is quiet. While it is held every agent is but one, and that one
only once the holder has written its prompt to it. -/
structure TakeTurns (tr : Trace (sig P) Daemon Tid Env) (s : Daemon) : Prop where
  free : s.holder .approvalGate = none → ∀ c, (s.channel c).quiet c = true
  held : ∀ t, s.holder .approvalGate = some t → ∃ c, (∀ c', c' ≠ c → (s.channel c').quiet c' = true) ∧
    ((∃ bytes written, ⟨.writeAll c bytes, written⟩ ∈ history t tr) ∨ (s.channel c).quiet c = true)

theorem TakeTurns.atMostOneDialog (h : TakeTurns tr s) : AtMostOneDialog s := by
  intro c c' hc hc'
  have hbusy : ∀ {d}, (s.channel d).peer.inDialog = true → (s.channel d).quiet d ≠ true := by
    intro d hd hquiet
    rw [not_inDialog_of_quiet hquiet] at hd
    cases hd
  cases hholder : s.holder .approvalGate with
  | none => exact absurd (h.free hholder c) (hbusy hc)
  | some t =>
      obtain ⟨d, hothers, -⟩ := h.held t hholder
      have hd : ∀ {e}, (s.channel e).peer.inDialog = true → e = d := fun he =>
        by_contra fun hne => hbusy he (hothers _ hne)
      rw [hd hc, hd hc']

/-- A step that leaves the gate and keeps every quiet agent quiet lets the turns go on. -/
theorem TakeTurns.keep {st : Step (sig P) Daemon Tid Env} (h : TakeTurns tr st.pre)
    (hholder : st.post.holder .approvalGate = st.pre.holder .approvalGate)
    (hquiet : ∀ c, (st.pre.channel c).quiet c = true → (st.post.channel c).quiet c = true) :
    TakeTurns (tr ++ [st]) st.post where
  free hfree c := hquiet c (h.free (hholder ▸ hfree) c)
  held t ht := by
    obtain ⟨c, hothers, hc⟩ := h.held t (hholder ▸ ht)
    refine ⟨c, fun c' hne => hquiet c' (hothers c' hne), ?_⟩
    rcases hc with ⟨bytes, written, hmem⟩ | hc
    · refine .inl ⟨bytes, written, ?_⟩
      rw [history_append]
      exact List.mem_append_left _ hmem
    · exact .inr (hquiet c hc)

/-- When the agents the holder of the gate has written to are quiet, all are. -/
theorem TakeTurns.all_quiet (h : TakeTurns tr s) (hheld : s.holder .approvalGate = some t)
    (hdone : ∀ c bytes written, ⟨.writeAll c bytes, written⟩ ∈ history t tr → (s.channel c).quiet c = true)
    (c : Conn) : (s.channel c).quiet c = true := by
  obtain ⟨d, hothers, hd⟩ := h.held t hheld
  by_cases hne : c = d
  · subst hne
    rcases hd with ⟨bytes, written, hmem⟩ | hd
    · exact hdone c bytes written hmem
    · exact hd
  · exact hothers c hne

/-- The holder of the gate has just written to an agent, all others being quiet. -/
theorem TakeTurns.prompted {bytes : List UInt8} {written : Except IoError Unit}
    (hheld : s'.holder .approvalGate = some t) (hothers : ∀ c', c' ≠ c → (s'.channel c').quiet c' = true) :
    TakeTurns (tr ++ [(⟨s, .thread t ⟨.writeAll c bytes, written⟩, s'⟩ : Step (sig P) Daemon Tid Env)]) s' where
  free hfree := by
    rw [hheld] at hfree
    cases hfree
  held u hu := by
    rw [hheld] at hu
    obtain rfl := Option.some.inj hu
    refine ⟨c, hothers, .inl ⟨bytes, written, ?_⟩⟩
    rw [history_append, history_thread_self]
    exact List.mem_append_right _ List.mem_cons_self

section Run

variable (hrun : Run (world P) s₀ (workers P (.agent registerWait rounds) approvalMutex) tr s ps)

include hrun

theorem takeTurns_of_run (hresp : P.json.ResponsesApart) (hempty : s₀.registry = fun _ => none)
    (hqueues : ∀ c, (s₀.channel c).toPeer = []) (hidle : ∀ c, (s₀.channel c).peer.inDialog = false)
    (hfree : s₀.holder .approvalGate = none) (hreleases : Every ReleasesQuiet tr) : TakeTurns tr s := by
  induction hrun with
  | start =>
      refine ⟨fun _ c => ?_, fun t ht => by simp [hfree] at ht⟩
      rw [Channel.quiet_iff]
      intro state hstate
      have hnot := hidle c
      rw [hstate] at hnot
      cases state with
      | reading => exact ⟨rfl, by simp [hqueues c]⟩
      | dialog p asker | writing rest asker => cases hnot
  | @env tr s ps event s' hbefore henv ih =>
      obtain ⟨hold, -⟩ := every_snoc.mp hreleases
      refine (ih hold).keep (congrFun (env_frame henv).holder _) fun c hquiet => ?_
      exact quiet_env hresp henv (spoken_of_run hbefore hresp hempty hqueues c) hquiet
  | @thread tr s ps u op next choice answer s' hbefore hnext hact ih =>
      obtain ⟨hold, hnew⟩ := every_snoc.mp hreleases
      have hturns := ih hold
      have hlegal : Step.Legal (world P) ⟨s, .thread u ⟨op, answer⟩, s'⟩ := ⟨choice, hact⟩
      have hstage : WorkerStage u (.agent registerWait rounds) approvalMutex (history u tr) op :=
        hbefore.pre_next workers_meets hnext
      by_cases hop : op.gating = true
      · cases op with
        | lock l =>
            obtain rfl := of_decide_eq_true hop
            obtain ⟨hnone, rfl⟩ := legal_lock hlegal
            refine ⟨fun h => ?_, fun t _ => ⟨0, fun c' _ => hturns.free hnone c', .inr (hturns.free hnone 0)⟩⟩
            simp at h
        | unlock l =>
            obtain rfl := of_decide_eq_true hop
            obtain ⟨hheld, rfl⟩ := legal_unlock hlegal
            refine ⟨fun _ => hturns.all_quiet hheld fun c' bytes written hmem => ?_, fun t ht => by simp at ht⟩
            exact hnew u c' bytes written rfl hmem
        | writeAll c bytes =>
            have hkeep : s'.holder .approvalGate = s.holder .approvalGate :=
              legal_holder hlegal (fun _ _ => nofun) fun _ _ => nofun
            rcases hstage.gating_inv rfl with ⟨own₁, resp, line, -, -, hresponse, -⟩ |
                ⟨before, own', callerUid, req, hown, houtside, hagent⟩
            · obtain ⟨rfl, -⟩ := Op.writeAll.inj hresponse
              refine hturns.keep hkeep fun c' hquiet => ?_
              exact quiet_thread hlegal (fun bytes' heq => (Op.writeAll.inj heq).1) hquiet
            · obtain ⟨hholds, hsilent⟩ := hagent.writes_under_gate houtside
              rw [← hown] at hholds hsilent
              have hheld := (holder_eq_some_iff hbefore workers_meets worker_lockedOnce hfree u).mpr hholds
              -- nothing has been written under the gate, so every agent is still quiet
              have hquiet : ∀ c', (s.channel c').quiet c' = true :=
                hturns.all_quiet hheld fun d bytes written hmem => absurd hmem (hsilent d bytes written)
              refine .prompted (hkeep.trans hheld) fun c' hne => ?_
              rw [legal_channel hlegal fun h => hne (Option.some.inj h).symm]
              exact hquiet c'
        | _ => cases hop
      · have hother : op ≠ .lock .approvalGate ∧ op ≠ .unlock .approvalGate :=
          ⟨fun h => hop (by rw [h]; rfl), fun h => hop (by rw [h]; rfl)⟩
        refine hturns.keep ?_ fun c hquiet => ?_
        · exact legal_holder hlegal (fun _ _ h => hother.1 (by cases h; rfl)) fun _ _ h => hother.2 (by cases h; rfl)
        · exact quiet_thread hlegal (fun bytes h => absurd (by rw [h]; rfl) hop) hquiet

/-- **One dialog at a time.** As long as the gate is released only when the agent prompted under it is
done with the prompt, at most one dialog is outstanding over all agents, in every state reached. -/
theorem dialogs_take_turns (hresp : P.json.ResponsesApart) (hempty : s₀.registry = fun _ => none)
    (hqueues : ∀ c, (s₀.channel c).toPeer = []) (hidle : ∀ c, (s₀.channel c).peer.inDialog = false)
    (hfree : s₀.holder .approvalGate = none) (hreleases : Every ReleasesQuiet tr) : AtMostOneDialog s :=
  (takeTurns_of_run hrun hresp hempty hqueues hidle hfree hreleases).atMostOneDialog

end Run

/-- Whether a step releases the gate while an agent prompted under it is not quiet. -/
def leavesDialog (before : Trace (sig P) Daemon Tid Env) (st : Step (sig P) Daemon Tid Env) : Bool :=
  match st.label with
  | .thread t ⟨.unlock .approvalGate, _⟩ => (history t before).any fun e =>
      match e.op with
      | .writeAll c _ => !(st.pre.channel c).quiet c
      | _ => false
  | _ => false

theorem releasesQuiet_of_forall (h : ∀ i : Fin tr.length, leavesDialog (tr.take i) tr[i] = false) :
    Every ReleasesQuiet tr := by
  intro before st after heq t c bytes written hlabel hmem
  subst heq
  have hstep := h ⟨before.length, by simp⟩
  simp only [List.take_left, Fin.getElem_fin, List.getElem_append_right (Nat.le_refl _), Nat.sub_self,
    List.getElem_cons_zero, leavesDialog, hlabel, List.any_eq_false] at hstep
  simpa using hstep _ hmem

def dialogPlatform : Platform :=
  { Platform.bare with
    json := SerdeJson.ofTables helloTexts [(promptOf idRequest, idPromptLine)] [(.allow, allowLine)] [] }

theorem dialogPlatform_responsesApart : dialogPlatform.json.ResponsesApart where
  oneLine _ _ h := by cases h
  notPrompt _ _ _ h := by cases h

/-- Connections 0 and 1 are the agents of uids 1000 and 1001; the others bring commands of either. -/
def dialogDaemon : Daemon :=
  { reconnectDaemon with
    current := ⟨⟨reconnectDaemon.current.bundle.policy, [⟨0, 0⟩], [1000, 1001]⟩, 0⟩
    uidOf := fun c => if c % 2 = 0 then 1000 else 1001
    channel := fun c => if c < 2 then { arrived registerLine with peer := .agent .reading } else arrived idLine }

theorem dialogDaemon_quiet (c : Conn) :
    (dialogDaemon.channel c).toPeer = [] ∧ (dialogDaemon.channel c).peer.inDialog = false := by
  simp only [dialogDaemon]
  split <;> exact ⟨rfl, rfl⟩

def dialogWorkers : Pool (sig dialogPlatform) Tid (Except IoError Unit) :=
  workers dialogPlatform (.agent 0 0) false

/-- The agent of connection `c` registers. -/
def registers (c : Conn) : List (Move (world dialogPlatform)) := List.replicate 11 (.thread c (smooth 26 .denied))

/-- The command of connection `t` is prompted, and the agent of connection `c` opens its dialog. -/
def opensDialog (t c : Conn) : List (Move (world dialogPlatform)) :=
  List.replicate 20 (.thread t (smooth 55 .denied)) ++ [.env (.agentRead c)]

/-- The prompt of connection 2 times out while its dialog is open, and the next one is shown. -/
def overlapRun : Option (Point (sig dialogPlatform) Daemon Tid Env (Except IoError Unit)) :=
  replay (world dialogPlatform) ⟨[], dialogDaemon, dialogWorkers⟩
    (registers 0 ++ registers 1 ++ opensDialog 2 0 ++ [.thread 2 timingOut] ++
      List.replicate 3 (.thread 2 (smooth 0 .denied)) ++ opensDialog 3 1)

/-- The prompt of connection 2 is answered before the next one is shown. -/
def turnsRun : Option (Point (sig dialogPlatform) Daemon Tid Env (Except IoError Unit)) :=
  replay (world dialogPlatform) ⟨[], dialogDaemon, dialogWorkers⟩
    (registers 0 ++ registers 1 ++ opensDialog 2 0 ++ [.env (.agentAnswer 0 .allow), .env (.agentWrite 0 20)] ++
      List.replicate 3 (.thread 2 (smooth 20 .denied)) ++ opensDialog 3 1)

theorem overlapRun_steps :
    ∃ c, overlapRun = some c ∧ Run (world dialogPlatform) dialogDaemon dialogWorkers c.trace c.state c.pool ∧
      (c.state.channel 0).peer.inDialog = true ∧ (c.state.channel 1).peer.inDialog = true := by
  obtain ⟨c, hc⟩ : ∃ c, overlapRun = some c := ⟨_, rfl⟩
  refine ⟨c, hc, run_of_replay .start hc, ?_⟩
  obtain rfl := Option.some.inj hc
  exact ⟨by decide +kernel, by decide +kernel⟩

/-- Then two dialogs are outstanding at once. -/
theorem two_dialogs_outstanding :
    ∃ c, overlapRun = some c ∧ Run (world dialogPlatform) dialogDaemon dialogWorkers c.trace c.state c.pool ∧
      ¬ AtMostOneDialog c.state := by
  obtain ⟨c, hc, hrun, hfirst, hsecond⟩ := overlapRun_steps
  refine ⟨c, hc, hrun, fun hone => ?_⟩
  cases hone 0 1 hfirst hsecond

theorem turnsRun_steps :
    ∃ c, turnsRun = some c ∧ Run (world dialogPlatform) dialogDaemon dialogWorkers c.trace c.state c.pool ∧
      (c.state.channel 1).peer.inDialog = true ∧
      ∀ i : Fin c.trace.length, leavesDialog (c.trace.take i) c.trace[i] = false := by
  obtain ⟨c, hc⟩ : ∃ c, turnsRun = some c := ⟨_, rfl⟩
  refine ⟨c, hc, run_of_replay .start hc, ?_⟩
  obtain rfl := Option.some.inj hc
  exact ⟨by decide +kernel, by decide +kernel⟩

theorem turnsRun_atMostOneDialog :
    ∃ c, turnsRun = some c ∧ (c.state.channel 1).peer.inDialog = true ∧ AtMostOneDialog c.state := by
  obtain ⟨c, hc, hrun, hopen, hleaves⟩ := turnsRun_steps
  refine ⟨c, hc, hopen, ?_⟩
  exact dialogs_take_turns hrun dialogPlatform_responsesApart rfl (fun c => (dialogDaemon_quiet c).1)
    (fun c => (dialogDaemon_quiet c).2) rfl (releasesQuiet_of_forall hleaves)

end Sudix
