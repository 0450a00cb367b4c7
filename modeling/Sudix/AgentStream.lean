import Sudix.AgentAuthority
import Sudix.Wire

/-! The stream between the daemon and an agent. A prompt and its verdict carry no number, so a verdict
belongs to the prompt it is read for only as long as the two sides are in step: when a prompt takes
the stream, nothing of an earlier one is under way. Then the bytes it reads are those of the answer
to its own dialog, and it is allowed only by an `Allow` there. -/

namespace Sudix

open Concurrent

variable {P : Platform} {c : Conn} {p : Tid → Prompt} {s₀ s s' : Daemon} {ps : Pool (sig P) Tid Approval}
  {tr : Trace (sig P) Daemon Tid Env} {own : History (sig P)} {t : Tid}

/-- The prompts of any number of requests that hold the handle of connection `c`. -/
def prompts (P : Platform) (c : Conn) (p : Tid → Prompt) : Pool (sig P) Tid Approval :=
  fun t => AgentHandle.prompt P c (p t)

theorem prompts_meets (t : Tid) :
    (prompts P c p t).Meets (PromptStage c (p t)) (PromptDone c (p t)) [] :=
  AgentHandle.prompt_meets c (p t)

/-- Nothing is under way on a stream: no byte towards the daemon, and an agent that is still there has
no prompt to read or to answer. -/
def Idle (ch : Channel) : Prop :=
  ch.toDaemon = [] ∧ (ch.peer = .gone ∨ ch.peer = .agent .reading ∧ ch.toPeer = [])

instance (ch : Channel) : Decidable (Idle ch) := inferInstanceAs (Decidable (_ ∧ _))

/-- Whoever takes the stream finds it idle. -/
def IdleWhenTaken (c : Conn) (_before : Trace (sig P) Daemon Tid Env) (st : Step (sig P) Daemon Tid Env) : Prop :=
  ∀ t poisoned, st.label = .thread t ⟨.lock (.stream c), poisoned⟩ → Idle (st.pre.channel c)

/-- The bytes a prompt reads answer its own dialog. -/
def ReadsOwnAnswer (c : Conn) (_before : Trace (sig P) Daemon Tid Env) (st : Step (sig P) Daemon Tid Env) :
    Prop :=
  ∀ t n bytes, st.label = .thread t ⟨.recv c n, .ok bytes⟩ →
    ∀ b ∈ (st.pre.channel c).toDaemon.take bytes.length, b.2 = some t

/-- The user answers the dialog that shows `p` for thread `t` with the verdict `v`. -/
def Answers (c : Conn) (p : Prompt) (t : Tid) (v : Verdict) (st : Step (sig P) Daemon Tid Env) : Prop :=
  st.label = .env (.agentAnswer c v) ∧ (st.pre.channel c).peer = .agent (.dialog p t)

/-- Who is allowed has been allowed in the dialog of its own prompt. -/
def AllowedByOwnDialog (c : Conn) (p : Tid → Prompt) (tr : Trace (sig P) Daemon Tid Env)
    (ps : Pool (sig P) Tid Approval) : Prop :=
  ∀ t, ps t = .ret .allowed → Once (fun _ st => Answers c (p t) t .allow st) tr

/-- The bytes a thread has read. -/
def received (own : History (sig P)) : List UInt8 :=
  own.flatMap fun event =>
    match event with
    | ⟨.recv _ _, .ok bytes⟩ => bytes
    | _ => []

theorem received_append (own own' : History (sig P)) : received (own ++ own') = received own ++ received own' :=
  List.flatMap_append

/-- The bytes up to here are a part of the verdict the dialog of `t` was answered with. -/
def PartOfAnswer (c : Conn) (p : Prompt) (t : Tid) (tr : Trace (sig P) Daemon Tid Env)
    (bytes rest : List UInt8) : Prop :=
  ∃ v line, v.toLine P.json = .ok line ∧ bytes ++ rest = utf8 line ∧ Once (fun _ st => Answers c p t v st) tr

/-- The stream while thread `t` waits for the answer to its prompt `p`, of which it has read a part. -/
inductive Exchange (c : Conn) (p : Prompt) (t : Tid) (tr : Trace (sig P) Daemon Tid Env) :
    List UInt8 → Channel → Prop
  | unread {line} : p.toLine P.json = .ok line →
      Exchange c p t tr [] ⟨(utf8 line).map fun b => (b, t), [], .agent .reading⟩
  | asked : Exchange c p t tr [] ⟨[], [], .agent (.dialog p t)⟩
  | unanswered : Exchange c p t tr [] ⟨[], [], .agent .reading⟩
  | answering {read queue rest} : PartOfAnswer c p t tr (read ++ queue) rest →
      Exchange c p t tr read ⟨[], queue.map fun b => (b, some t), .agent (.writing rest t)⟩
  | answered {read queue} : PartOfAnswer c p t tr (read ++ queue) [] →
      Exchange c p t tr read ⟨[], queue.map fun b => (b, some t), .agent .reading⟩
  | leftUnanswered {toPeer} : Exchange c p t tr [] ⟨toPeer, [], .gone⟩
  | left {read queue rest toPeer} : PartOfAnswer c p t tr (read ++ queue) rest →
      Exchange c p t tr read ⟨toPeer, queue.map fun b => (b, some t), .gone⟩

section Exchange

variable {q : Prompt} {read : List UInt8} {ch : Channel}

theorem PartOfAnswer.append {bytes rest : List UInt8} (h : PartOfAnswer c q t tr bytes rest)
    (tr' : Trace (sig P) Daemon Tid Env) : PartOfAnswer c q t (tr ++ tr') bytes rest := by
  obtain ⟨v, line, hline, hbytes, honce⟩ := h
  exact ⟨v, line, hline, hbytes, honce.append tr'⟩

/-- Writing moves bytes from what is left to the queue. -/
theorem PartOfAnswer.write {queue rest : List UInt8} (h : PartOfAnswer c q t tr (read ++ queue) rest) (n : Nat) :
    PartOfAnswer c q t tr (read ++ (queue ++ rest.take n)) (rest.drop n) := by
  obtain ⟨v, line, hline, hbytes, honce⟩ := h
  refine ⟨v, line, hline, ?_, honce⟩
  rw [← hbytes]
  simp only [List.append_assoc, List.take_append_drop]

theorem Exchange.append (h : Exchange c q t tr read ch) (tr' : Trace (sig P) Daemon Tid Env) :
    Exchange c q t (tr ++ tr') read ch := by
  cases h with
  | unread hline => exact .unread hline
  | asked => exact .asked
  | unanswered => exact .unanswered
  | answering hpart => exact .answering (hpart.append tr')
  | answered hpart => exact .answered (hpart.append tr')
  | leftUnanswered => exact .leftUnanswered
  | left hpart => exact .left (hpart.append tr')

theorem Exchange.justAnswered {v : Verdict} {line : String} (hline : v.toLine P.json = .ok line)
    (honce : Once (fun _ st => Answers c q t v st) tr) :
    Exchange c q t tr [] ⟨[], [], .agent (.writing (utf8 line) t)⟩ := by
  have hpart : PartOfAnswer c q t tr ([] ++ []) (utf8 line) := ⟨v, line, hline, rfl, honce⟩
  exact .answering hpart

/-- Everything towards the daemon answers the dialog of `t`. -/
theorem Exchange.tags (h : Exchange c q t tr read ch) : ∀ b ∈ ch.toDaemon, b.2 = some t := by
  cases h with
  | answering _ | answered _ | left _ =>
      intro b hb
      obtain ⟨byte, -, rfl⟩ := List.mem_map.mp hb
      rfl
  | _ =>
      intro b hb
      cases hb

/-- Reading moves bytes from the queue to what has been read. -/
theorem Exchange.recv (h : Exchange c q t tr read ch) (n : Nat) :
    Exchange c q t tr (read ++ (ch.toDaemon.take n).map Prod.fst) { ch with toDaemon := ch.toDaemon.drop n } := by
  have hmove : ∀ {queue rest : List UInt8}, PartOfAnswer c q t tr (read ++ queue) rest →
      PartOfAnswer c q t tr
        (read ++ ((queue.map fun b => (b, some t)).take n).map Prod.fst ++ queue.drop n) rest := by
    intro queue rest hpart
    rw [← List.map_take, List.map_map, List.append_assoc]
    simpa [Function.comp_def] using hpart
  cases h with
  | unread hline => simpa using Exchange.unread hline
  | asked => simpa using Exchange.asked
  | unanswered => simpa using Exchange.unanswered
  | answering hpart => simpa only [List.map_drop] using Exchange.answering (hmove hpart)
  | answered hpart => simpa only [List.map_drop] using Exchange.answered (hmove hpart)
  | leftUnanswered => simpa using Exchange.leftUnanswered
  | left hpart => simpa only [List.map_drop] using Exchange.left (hmove hpart)

/-- Writing the prompt's line on an idle stream begins an exchange. -/
theorem Idle.send {line : String} (h : Idle ch) (hline : q.toLine P.json = .ok line) :
    Exchange c q t tr [] (ch.send t (utf8 line)) := by
  obtain ⟨toPeer, toDaemon, peer⟩ := ch
  obtain ⟨hqueue, hpeer⟩ := h
  obtain rfl : toDaemon = [] := hqueue
  rcases hpeer with hgone | ⟨hreading, hnone⟩
  · obtain rfl : peer = .gone := hgone
    exact .leftUnanswered
  · obtain rfl : peer = .agent .reading := hreading
    obtain rfl : toPeer = [] := hnone
    exact .unread hline

theorem Exchange.peer_ne_client (h : Exchange c q t tr read ch) : ch.peer ≠ .client := by
  cases h <;> exact fun hclient => by cases hclient

end Exchange

@[simp] theorem setChannel_self (ch : Channel) : (s.setChannel c ch).channel c = ch :=
  Function.update_self _ _ _

theorem legal_recv_channel {n : Nat} {result : Except IoError (List UInt8)}
    (h : Step.Legal (world P) ⟨s, .thread t ⟨.recv c n, result⟩, s'⟩) :
    (s'.channel c).toPeer = (s.channel c).toPeer ∧ (s'.channel c).peer = (s.channel c).peer := by
  obtain ⟨choice, hact⟩ := legal_act h
  simp only [act] at hact
  repeat' split at hact
  all_goals first
    | cases hact
      done
    | cases hact
      first
        | exact ⟨rfl, rfl⟩
        | (rw [setChannel_self]; exact ⟨rfl, rfl⟩)

/-- A write queues the bytes, or the first of them when it fails. -/
theorem legal_writeAll_channel {bytes : List UInt8} {result : Except IoError Unit}
    (h : Step.Legal (world P) ⟨s, .thread t ⟨.writeAll c bytes, result⟩, s'⟩) :
    ∃ n, s'.channel c = (s.channel c).send t (bytes.take n) := by
  obtain ⟨choice, hact⟩ := legal_act h
  simp only [act] at hact
  split at hact
  · cases hact
    exact ⟨bytes.length, by rw [setChannel_self, List.take_length]⟩
  · cases hact
    exact ⟨_, setChannel_self _⟩

theorem legal_channel {op : Op} {answer : Answer P op}
    (h : Step.Legal (world P) ⟨s, .thread t ⟨op, answer⟩, s'⟩) (hc : op.stream ≠ some c) :
    s'.channel c = s.channel c := by
  obtain ⟨choice, hact⟩ := legal_act h
  exact (act_frame hact).channel c hc

/-- The connection whose byte queues or peer an event around the daemon changes. -/
def Env.stream : Env → Option Conn
  | .peerSend c _ | .peerReceive c _ | .peerClose c | .agentRead c | .agentAnswer c _ | .agentWrite c _
  | .agentExit c => some c
  | _ => none

theorem env_channel {event : Env} (h : env P s event = some s') (hc : event.stream ≠ some c) :
    s'.channel c = s.channel c := by
  cases event
  all_goals
    simp only [env] at h
    repeat' split at h
    all_goals first
      | cases h
        done
      | cases h
        first | rfl | exact setChannel_of_ne hc

/-- An agent that reads the line of a prompt asks the user about that prompt. -/
theorem agentReads_line (hlaw : P.json.Lawful) {q : Prompt} {line : String} (hline : q.toLine P.json = .ok line) :
    agentReads P (utf8 line) t = .agent (.dialog q t) := by
  simp [agentReads, fromUtf8_utf8, Prompt.fromLine_toLine hlaw hline]

theorem takeWhile_line (hlaw : P.json.Lawful) {q : Prompt} {line : String} (hline : q.toLine P.json = .ok line) :
    ((utf8 line).map fun b => (b, t)).dropWhile (fun b => b.1 != newline) = [(newline, t)] ∧
      (((utf8 line).map fun b => (b, t)).takeWhile fun b => b.1 != newline).map Prod.fst ++ [newline] =
        utf8 line := by
  obtain ⟨text, -, hbytes, hnl⟩ := hlaw.prompt.utf8_line hline
  have hall : ∀ b ∈ (utf8 text).map fun b => (b, t), (b.1 != newline) = true := by
    intro b hb
    obtain ⟨byte, hbyte, rfl⟩ := List.mem_map.mp hb
    exact bne_iff_ne.mpr fun heq => hnl (heq ▸ hbyte)
  rw [hbytes, List.map_append, List.dropWhile_append_of_pos hall, List.takeWhile_append_of_pos hall]
  simp [Function.comp_def]

section Env

variable {q : Prompt} {read : List UInt8}

/-- An agent that finds the prompt's line shows its dialog; otherwise it finds no line. -/
theorem Exchange.agentRead (hlaw : P.json.Lawful) (hstep : Sudix.env P s (.agentRead c) = some s')
    (h : Exchange c q t tr read (s.channel c)) : Exchange c q t tr read (s'.channel c) := by
  generalize hch : s.channel c = ch at h
  cases h with
  | @unread line hline =>
      obtain ⟨hdrop, htake⟩ := takeWhile_line (t := t) hlaw hline
      simp only [Sudix.env, hch, hdrop, htake, agentReads_line hlaw hline] at hstep
      cases hstep
      rw [setChannel_self]
      exact .asked
  | _ =>
      simp only [Sudix.env, hch, List.dropWhile_nil] at hstep
      cases hstep

/-- The user answers the dialog of this prompt, or the verdict has no encoding and nothing is sent. -/
theorem Exchange.agentAnswer {v : Verdict} (hstep : Sudix.env P s (.agentAnswer c v) = some s')
    (h : Exchange c q t tr read (s.channel c)) :
    Exchange c q t (tr ++ [⟨s, .env (.agentAnswer c v), s'⟩]) read (s'.channel c) := by
  generalize hch : s.channel c = ch at h
  cases h with
  | asked =>
      simp only [Sudix.env, hch] at hstep
      split at hstep
      · rename_i line hline
        cases hstep
        rw [setChannel_self]
        exact .justAnswered hline ⟨tr, _, [], rfl, rfl, by rw [hch]⟩
      · cases hstep
        rw [setChannel_self]
        exact .unanswered
  | _ =>
      simp only [Sudix.env, hch] at hstep
      cases hstep

theorem Exchange.agentWrite {n : Nat} (hstep : Sudix.env P s (.agentWrite c n) = some s')
    (h : Exchange c q t tr read (s.channel c)) : Exchange c q t tr read (s'.channel c) := by
  generalize hch : s.channel c = ch at h
  cases h with
  | @answering read queue rest hpart =>
      simp only [Sudix.env, hch] at hstep
      cases hstep
      have hpart' := hpart.write n
      rw [setChannel_self, ← List.map_append]
      split
      · rename_i hall
        rw [hall] at hpart'
        exact .answered hpart'
      · exact .answering hpart'
  | _ =>
      simp only [Sudix.env, hch] at hstep
      cases hstep

theorem Exchange.agentExit (hstep : Sudix.env P s (.agentExit c) = some s')
    (h : Exchange c q t tr read (s.channel c)) : Exchange c q t tr read (s'.channel c) := by
  generalize hch : s.channel c = ch at h
  simp only [Sudix.env, hch] at hstep
  cases h with
  | unread _ | asked | unanswered =>
      cases hstep
      rw [setChannel_self]
      exact .leftUnanswered
  | answering hpart | answered hpart =>
      cases hstep
      rw [setChannel_self]
      exact .left hpart
  | leftUnanswered | left _ => cases hstep

theorem Exchange.env (hlaw : P.json.Lawful) {event : Env} (hstep : env P s event = some s')
    (h : Exchange c q t tr read (s.channel c)) :
    Exchange c q t (tr ++ [⟨s, .env event, s'⟩]) read (s'.channel c) := by
  by_cases hc : event.stream = some c
  · have hclient := h.peer_ne_client
    cases event with
    | tick _ | tickUnix _ | editConfig _ | editFiles _ => cases hc
    | peerSend c' _ | peerReceive c' _ | peerClose c' =>
        cases hc
        simp only [Sudix.env, if_neg hclient] at hstep
        cases hstep
    | agentRead c' =>
        cases hc
        exact (h.agentRead hlaw hstep).append _
    | agentAnswer c' v =>
        cases hc
        exact h.agentAnswer hstep
    | agentWrite c' n =>
        cases hc
        exact (h.agentWrite hstep).append _
    | agentExit c' =>
        cases hc
        exact (h.agentExit hstep).append _
  · rw [env_channel hstep hc]
    exact h.append _

end Env

theorem Idle.env {event : Env} (hstep : env P s event = some s') (h : Idle (s.channel c)) :
    Idle (s'.channel c) := by
  by_cases hc : event.stream = some c
  · generalize hch : s.channel c = ch at h
    obtain ⟨toPeer, toDaemon, peer⟩ := ch
    obtain ⟨hqueue, hpeer⟩ := h
    obtain rfl : toDaemon = [] := hqueue
    rcases hpeer with hgone | ⟨hreading, hnone⟩
    · obtain rfl : peer = .gone := hgone
      cases event <;> cases hc <;> simp [Sudix.env, hch] at hstep
    · obtain rfl : peer = .agent .reading := hreading
      obtain rfl : toPeer = [] := hnone
      cases event with
      | agentExit c' =>
          cases hc
          simp only [Sudix.env, hch] at hstep
          cases hstep
          rw [setChannel_self]
          exact ⟨rfl, .inl rfl⟩
      | _ => cases hc <;> simp [Sudix.env, hch] at hstep
  · rw [env_channel hstep hc]
    exact h

end Sudix
