import Sudix.AgentCalls
import Sudix.AgentVerdict
import Sudix.PromptsShown

/-! Errors of the approver and the dialogs behind them. A round-trip can fail at every operation on the
stream, and all its failures end in the same error. A failure leaves the user unasked where a part of the prompt
has not been written, where the agent has gone without reading it, and where the other end shows no dialogs. A
read that fails while the agent shows the dialog does not. -/

namespace Sudix

open Concurrent

variable {P : Platform} {registerWait rounds : Nat} {role : Tid → Party} {s₀ s : Daemon}
  {ps : Pool (sig P) Tid (Option Approval)} {before after tr : Trace (sig P) Daemon Tid Env}
  {st : Step (sig P) Daemon Tid Env} {own : History (sig P)} {c : Conn} {q : Prompt} {t : Tid}

/-- No agent has shown a dialog for thread `t`. -/
def NeverShown (t : Tid) (tr : Trace (sig P) Daemon Tid Env) : Prop := ∀ c, tr.countP (shows c t) = 0

/-- The agent answers the dialog that shows `q` for thread `t` with an `Error` verdict. -/
def AnswersError (q : Prompt) (t : Tid) (_before : Trace (sig P) Daemon Tid Env)
    (st : Step (sig P) Daemon Tid Env) : Prop :=
  ∃ c why, Answers c q t (.error why) st

/-- A call that ends in an error has not been shown to the user, unless the agent has answered it so. -/
def ErrorsUnasked (role : Tid → Party) (tr : Trace (sig P) Daemon Tid Env)
    (ps : Pool (sig P) Tid (Option Approval)) : Prop :=
  ∀ t why, ps t = .ret (some (.error why)) → NeverShown t tr ∨ Once (AnswersError (role t).prompt t) tr

/-- The connection on whose stream an operation fails or a read finds the end. -/
def failure : Event (sig P) → Option Conn
  | ⟨.writeAll c _, .error _⟩ => some c
  | ⟨.flush c, .error _⟩ => some c
  | ⟨.setReadTimeout c, .error _⟩ => some c
  | ⟨.recv c _, .error _⟩ => some c
  | ⟨.recv c _, .ok []⟩ => some c
  | _ => none

/-- A write of thread `t` fails with more than the newline of its line missing. Were only the newline missing, an
agent that finds the end of the stream there would still read the prompt. -/
def FallsShort (t : Tid) (c : Conn) (st : Step (sig P) Daemon Tid Env) : Prop :=
  ∃ bytes e, st.label = .thread t ⟨.writeAll c bytes, .error e⟩ ∧
    (st.post.channel c).toPeer.length + 1 < (st.pre.channel c).toPeer.length + bytes.length

/-- At a step of thread `t`, nobody is left who could show its prompt: the other end is no agent, or it is
an agent that has exited with the prompt's line unread, or a part of the prompt itself has not been written. -/
def LeftUnread (t : Tid) (c : Conn) (st : Step (sig P) Daemon Tid Env) : Prop :=
  (st.pre.channel c).peer = .client ∨
    ((st.pre.channel c).peer = .gone ∧ (newline, t) ∈ (st.post.channel c).toPeer) ∨ FallsShort t c st

/-- An operation fails only where it leaves the prompt unread, or the agent has answered it with an `Error`. -/
def FailsUnasked (role : Tid → Party) (before : Trace (sig P) Daemon Tid Env)
    (st : Step (sig P) Daemon Tid Env) : Prop :=
  ∀ t c event, st.label = .thread t event → failure event = some c →
    LeftUnread t c st ∨ Once (AnswersError (role t).prompt t) before

/-- A call that takes the stream of an agent finds it idle. -/
def FoundIdle (_before : Trace (sig P) Daemon Tid Env) (st : Step (sig P) Daemon Tid Env) : Prop :=
  ∀ t c, st.label = .thread t ⟨.lock (.stream c), false⟩ → (st.pre.channel c).peer.isAgent = true →
    Idle (st.pre.channel c)

/-- The lines of `Allow` and `Deny` fit into the limit of a verdict. -/
def BriefVerdicts (P : Platform) : Prop :=
  ∀ (v : Verdict) line, v.toLine P.json = .ok line → (∀ why, v ≠ .error why) →
    (utf8 line).length ≤ maxVerdictBytes

theorem shows_thread {event : Event (sig P)} {u : Tid} (hlabel : st.label = .thread u event) :
    shows c t st = false := by
  unfold shows
  rw [hlabel]

theorem countP_shows_split {event : Event (sig P)} {u : Tid} (hlabel : st.label = .thread u event) :
    (before ++ st :: after).countP (shows c t) = before.countP (shows c t) + after.countP (shows c t) := by
  rw [List.countP_append, List.countP_cons_of_neg (by simp [shows_thread hlabel])]

section World

variable {α : Type} {p₀ qs : Pool (sig P) Tid α}

/-- Who has written no line to a connection is not shown there. -/
theorem unshown_of_unwritten (hrun : Run (world P) s₀ p₀ tr s qs) (hempty : (s₀.channel c).toPeer = [])
    (hnone : linesTo c (history t tr) = 0) : tr.countP (shows c t) = 0 := by
  have htotal := unread_total (t := t) hrun hempty
  omega

/-- What a failing write of a line delivers is no line where more than the newline is missing. -/
theorem unread_of_short {text : List UInt8} {e : IoError} {s' : Daemon}
    (hlegal : Step.Legal (world P) ⟨s, .thread t ⟨.writeAll c (text ++ [newline]), .error e⟩, s'⟩)
    (htext : newline ∉ text)
    (hshort : (s'.channel c).toPeer.length + 1 < (s.channel c).toPeer.length + (text ++ [newline]).length) :
    unread c t s' = unread c t s := by
  obtain ⟨n, hpost⟩ := legal_writeAll_channel hlegal
  rw [hpost, Channel.send, List.length_append, List.length_map, List.length_take, List.length_append,
    List.length_singleton] at hshort
  have hsent : (text ++ [newline]).take n = text.take n := List.take_append_of_le_length (by omega)
  have hnone : (newline, t) ∉ (text.take n).map fun b => (b, t) := by
    intro hmem
    obtain ⟨b, hb, heq⟩ := List.mem_map.mp hmem
    obtain ⟨rfl, -⟩ := Prod.mk.inj heq
    exact htext (List.mem_of_mem_take hb)
  rw [unread, unread, hpost, Channel.send, List.count_append, hsent, List.count_eq_zero.mpr hnone, Nat.add_zero]

/-- **The criterion.** A thread that has written one line, and fails with it unread, is not shown. -/
theorem unshown_of_leftUnread {event : Event (sig P)} (hrun : Run (world P) s₀ p₀ (before ++ st :: after) s qs)
    (hempty : (s₀.channel c).toPeer = []) (hlabel : st.label = .thread t event)
    (hlines : linesTo c (history t (before ++ st :: after)) ≤ 1)
    (hwrite : ∀ bytes e, event = ⟨.writeAll c bytes, .error e⟩ →
      ∃ text, bytes = text ++ [newline] ∧ newline ∉ text) (h : LeftUnread t c st) :
    (before ++ st :: after).countP (shows c t) = 0 := by
  obtain ⟨⟨ps', hbefore⟩, hlegal⟩ := hrun.before
  have hpeer : (st.post.channel c).peer = (st.pre.channel c).peer := by
    obtain ⟨pre, label, post⟩ := st
    obtain rfl : label = _ := hlabel
    exact legal_thread_peer hlegal c
  have hsplit : linesTo c (history t (before ++ st :: after)) =
      linesTo c (history t before) + (linesTo c [event] + linesTo c (history t after)) := by
    rw [history_split hlabel, linesTo_append, ← List.singleton_append, linesTo_append]
  have htotal := unread_total (t := t) hbefore hempty
  rw [countP_shows_split hlabel]
  rcases h with hclient | ⟨hgone, hunread⟩ | ⟨bytes, e, hfailed, hshort⟩
  · rw [not_shown_client hbefore hclient, not_shown_after hrun (by rw [hpeer, hclient]; rfl)]
  · -- the one line it has written is still there
    have hstep := unread_step (c := c) (t := t) hlegal
    have hown : history t [st] = [event] := by
      obtain ⟨pre, label, post⟩ := st
      obtain rfl : label = _ := hlabel
      exact history_thread_self t pre post event
    have hone : 0 < unread c t st.post := List.count_pos_iff.mpr hunread
    rw [hown] at hstep
    rw [not_shown_after hrun (by rw [hpeer, hgone]; rfl)]
    omega
  · -- this write is the only one, and what it delivers is no whole line
    obtain rfl : event = _ := (Label.thread.inj (hlabel.symm.trans hfailed)).2
    obtain ⟨text, rfl, htext⟩ := hwrite bytes e rfl
    have hone : 0 < linesTo c [(⟨.writeAll c (text ++ [newline]), .error e⟩ : Event (sig P))] := by
      simp [linesTo]
    have hsame : unread c t st.post = unread c t st.pre := by
      obtain ⟨pre, label, post⟩ := st
      obtain rfl : label = _ := hlabel
      exact unread_of_short hlegal htext hshort
    have hlater := unread_after (c := c) (t := t) hrun
    omega

end World

theorem ReadDone.ends {chunk : Nat → Nat} {limit : Nat} {result : Except IoError (List UInt8)}
    (h : ReadDone c chunk limit own result) :
    (∃ e ∈ own, failure e = some c) ∨
      ∃ bytes, result = .ok bytes ∧ (Sudix.newline ∈ bytes ∨ limit ≤ bytes.length) := by
  cases h with
  | full _ hfull => exact .inr ⟨_, rfl, .inr hfull⟩
  | newline _ _ _ => exact .inr ⟨_, rfl, .inl (by simp)⟩
  | @eof _ _ bytes _ hlt hnil =>
      refine .inl ⟨_, List.mem_append_right _ List.mem_cons_self, ?_⟩
      rcases List.take_eq_nil_iff.mp hnil with hroom | hnone
      · omega
      · rw [hnone]
        rfl
  | error _ _ => exact .inl ⟨_, List.mem_append_right _ List.mem_cons_self, rfl⟩

/-- A round-trip writes one line, first. -/
theorem LockedDone.write_first {approval : Approval} (h : LockedDone c q own approval) :
    own = [] ∨ ∃ line result rest, q.toLine P.json = .ok line ∧ own = ⟨.writeAll c (utf8 line), result⟩ :: rest ∧
      ∀ e ∈ rest, ∀ bytes, e.op ≠ .writeAll c bytes := by
  have hsent : ∀ {read later : History (sig P)}, (∀ e ∈ read, ∃ n, e.op = .recv c n) →
      (∀ e ∈ later, e.op = .signalDisconnected c) →
      ∀ e ∈ ⟨.flush c, .ok ()⟩ :: ⟨.setReadTimeout c, .ok ()⟩ :: (read ++ later), ∀ bytes,
        e.op ≠ .writeAll c bytes := by
    intro read later hread hlater e he bytes
    simp only [List.mem_cons, List.mem_append] at he
    rcases he with rfl | rfl | he | he
    · simp
    · simp
    · obtain ⟨n, hop⟩ := hread e he
      simp [hop]
    · simp [hlater e he]
  cases h with
  | unserializable _ => exact .inl rfl
  | noTimeout hline => exact .inr ⟨_, _, _, hline, rfl, by simp⟩
  | broken hbroken =>
      right
      cases hbroken with
      | write hline => exact ⟨_, _, _, hline, rfl, by simp⟩
      | flush hline => exact ⟨_, _, _, hline, rfl, by simp⟩
      | read hline hread | eof hline hread =>
          exact ⟨_, _, _, hline, rfl, hsent hread.ops (by simp)⟩
  | answered hline hread _ =>
      have hnothing : ∀ e ∈ ([] : History (sig P)), e.op = .signalDisconnected c := by simp
      exact .inr ⟨_, _, _, hline, rfl, by simpa using hsent hread.ops hnothing⟩

theorem prompt_text (hlaw : P.json.Lawful) {line : String} (hline : q.toLine P.json = .ok line) :
    ∃ text, utf8 line = text ++ [newline] ∧ newline ∉ text := by
  obtain ⟨text, -, hutf8, hnl⟩ := hlaw.prompt.utf8_line hline
  exact ⟨utf8 text, hutf8, hnl⟩

theorem LockedDone.linesTo_le {approval : Approval} (hlaw : P.json.Lawful) (h : LockedDone c q own approval) :
    linesTo c own ≤ 1 := by
  rcases h.write_first with rfl | ⟨line, result, rest, hline, rfl, hrest⟩
  · simp [linesTo]
  · obtain ⟨text, hutf8, hnl⟩ := prompt_text hlaw hline
    rw [← List.singleton_append, linesTo_append, linesTo_eq_zero hrest]
    simp [linesTo, hutf8, List.count_eq_zero.mpr hnl]

/-- What a round-trip writes is a line. -/
theorem LockedDone.line_of_write {approval : Approval} {bytes : List UInt8} {result : Except IoError Unit}
    (hlaw : P.json.Lawful) (h : LockedDone c q own approval) (hmem : ⟨.writeAll c bytes, result⟩ ∈ own) :
    ∃ text, bytes = text ++ [newline] ∧ newline ∉ text := by
  rcases h.write_first with rfl | ⟨line, result', rest, hline, rfl, hrest⟩
  · cases hmem
  · rcases List.mem_cons.mp hmem with heq | hmem
    · cases heq
      exact prompt_text hlaw hline
    · exact absurd rfl (hrest _ hmem bytes)

/-- A read has ended with a newline or at the limit, and the text of its bytes, if they are one, makes
`approval`. -/
structure ReadsWhole (c : Conn) (approval : Approval) (read : History (sig P)) (bytes : List UInt8) : Prop where
  done : ReadDone c (min bufCapacity) maxVerdictBytes read (.ok bytes)
  ends : newline ∈ bytes ∨ maxVerdictBytes ≤ bytes.length
  approval : ∀ answer, fromUtf8 bytes = some answer → approvalOf P answer = approval

theorem ReadsWhole.ne_nil {approval : Approval} {bytes : List UInt8} (h : ReadsWhole c approval own bytes) :
    bytes ≠ [] := by
  rintro rfl
  simpa [maxVerdictBytes] using h.ends

/-- The read of a verdict has failed, or it has brought a whole line. -/
theorem LineDone.failed_or_whole {result : Except IoError String} {approval : Approval}
    (h : LineDone c (min bufCapacity) maxVerdictBytes own result)
    (happroval : ∀ answer, answer ≠ "" → result = .ok answer → approvalOf P answer = approval) :
    (∃ e ∈ own, failure e = some c) ∨ ∃ bytes, ReadsWhole c approval own bytes := by
  cases h with
  | @ok bytes line hdone htext =>
      rcases hdone.ends (c := c) with hfails | ⟨_, hok, hends⟩
      · exact .inl hfails
      · cases hok
        refine .inr ⟨bytes, hdone, hends, fun answer hanswer => ?_⟩
        obtain rfl : line = answer := Option.some.inj (htext.symm.trans hanswer)
        refine happroval line ?_ rfl
        rintro rfl
        rw [← utf8_of_fromUtf8 htext] at hends
        simp [utf8, maxVerdictBytes] at hends
  | error hdone =>
      rcases hdone.ends (c := c) with hfails | ⟨_, hok, -⟩
      · exact .inl hfails
      · cases hok
  | @invalid bytes hdone hnone =>
      rcases hdone.ends (c := c) with hfails | ⟨_, hok, hends⟩
      · exact .inl hfails
      · cases hok
        exact .inr ⟨bytes, hdone, hends, by simp [hnone]⟩

/-- **How a round-trip ends in an error**: with no line written, with an operation that failed, or with a
line that has been read whole and is an error. -/
theorem LockedDone.error_cases {why : String} (h : LockedDone c q own (.error why)) :
    own = [] ∨ (∃ e ∈ own, failure e = some c) ∨ ∃ line read later bytes, own = sent c line ++ (read ++ later) ∧
      received later = [] ∧ ReadsWhole c (.error why) read bytes := by
  generalize herror : Approval.error why = approval at h
  have hread : ∀ {line : String} {read later : History (sig P)} {result : Except IoError String},
      LineDone c (min bufCapacity) maxVerdictBytes read result → received later = [] →
      (∀ answer, answer ≠ "" → result = .ok answer → approvalOf P answer = approval) →
      (∃ e ∈ sent c line ++ (read ++ later), failure e = some c) ∨ ∃ line' read' later' bytes,
        sent c line ++ (read ++ later) = sent c line' ++ (read' ++ later') ∧ received later' = [] ∧
          ReadsWhole c approval read' bytes := by
    intro line read later result hread hlater happroval
    rcases hread.failed_or_whole happroval with ⟨e, he, hfails⟩ | ⟨bytes, hwhole⟩
    · exact .inl ⟨e, List.mem_append_right _ (List.mem_append_left _ he), hfails⟩
    · exact .inr ⟨line, read, later, bytes, rfl, hlater, hwhole⟩
  cases h with
  | unserializable _ => exact .inl rfl
  | @noTimeout _ e _ => exact .inr (.inl ⟨⟨.setReadTimeout c, .error e⟩, by simp, rfl⟩)
  | broken hbroken =>
      right
      cases hbroken with
      | @write line e _ => exact .inl ⟨⟨.writeAll c (utf8 line), .error e⟩, by simp, rfl⟩
      | @flush _ e _ => exact .inl ⟨⟨.flush c, .error e⟩, by simp, rfl⟩
      | read _ hdone =>
          rw [List.append_assoc]
          refine hread hdone rfl fun answer _ hok => ?_
          cases hok
      | eof _ hdone =>
          rw [List.append_assoc]
          refine hread hdone rfl fun answer hne hok => ?_
          cases hok
          exact absurd rfl hne
  | @answered line read _ _ hdone _ =>
      right
      rw [← List.append_nil read]
      refine hread hdone rfl fun answer _ hok => ?_
      cases hok
      rfl

/-- A whole line that is read in step and is an error has been given as one. -/
theorem Exchange.answered_error {ch : Channel} {bytes : List UInt8} {why : String} (hlaw : P.json.Lawful)
    (hbrief : BriefVerdicts P) (h : Exchange c q t tr (received own) ch)
    (hlen : ∀ n bytes, ⟨.recv c n, .ok bytes⟩ ∈ own → bytes.length ≤ n)
    (hwhole : ReadsWhole c (.error why) own bytes) : Once (AnswersError q t) tr := by
  have hchunk : ∀ r, min bufCapacity r ≤ r := fun r => Nat.min_le_right _ _
  have hpart : ∃ queue rest, PartOfAnswer c q t tr (received own ++ queue) rest := by
    have hsome : received own ≠ [] := by
      rcases bytes_of_readDone hchunk hlen hwhole.done with ⟨hall, -⟩ | ⟨line, later, -, hread, -⟩
      · rw [hall]
        exact hwhole.ne_nil
      · simp [hread]
    generalize received own = read at h hsome
    cases h with
    | unread _ | asked | unanswered | leftUnanswered => exact absurd rfl hsome
    | answering hpart | answered hpart | left hpart => exact ⟨_, _, hpart⟩
  obtain ⟨queue, rest, v, line, hline, hbytes, honce⟩ := hpart
  by_cases herror : ∃ why, v = .error why
  · obtain ⟨why', rfl⟩ := herror
    exact honce.mono fun _ _ hanswers => ⟨c, why', hanswers⟩
  · exfalso
    obtain ⟨text, -, hutf8, hnl⟩ := hlaw.verdict.utf8_line hline
    have hshort := hbrief v line hline fun why hv => herror ⟨why, hv⟩
    rw [hutf8, List.append_assoc] at hbytes
    rcases line_of_bytes hchunk hlen hwhole.done hbytes hnl with hall | ⟨n, htake⟩
    · have hanswer := hwhole.approval line (by rw [hall, ← hutf8, fromUtf8_utf8])
      rw [approvalOf, Verdict.fromLine_toLine hlaw hline] at hanswer
      cases v with
      | allow | deny => cases hanswer
      | error why' => exact herror ⟨why', rfl⟩
    · -- a beginning of the text has no newline and is within the limit
      rcases hwhole.ends with hmem | hfull
      · rw [htake] at hmem
        exact hnl (List.mem_of_mem_take hmem)
      · have hle : bytes.length ≤ (utf8 text).length := by
          rw [htake]
          exact List.length_take_le' _ _
        rw [hutf8, List.length_append, List.length_singleton] at hshort
        omega

/-- What a call that has got to its round-trip has performed: `before` it, while the stream of `c` was
`locked`, and in all. -/
structure RoundTrip (c : Conn) (q : Prompt) (before locked : History (sig P)) (approval : Approval)
    (own : History (sig P)) : Prop where
  split : own = before ++ ⟨.lock (.stream c), false⟩ :: locked ++
    [⟨.unlock (.stream c), ()⟩, ⟨.unlock .approvalGate, ()⟩]
  quiet : ∀ e ∈ before, e.op.stream = none ∧ e.op.prompting c = false
  done : LockedDone c q locked approval

/-- A call that ends in an error has touched no stream, or its round-trip has ended so. -/
theorem AgentDone.error_inv {callerUid : Uid} {req : Request} {why : String}
    (h : AgentDone callerUid req own (.error why)) :
    (∀ e ∈ own, e.op.stream = none) ∨
      ∃ c before locked, RoundTrip c (promptOf req) before locked (.error why) own := by
  cases h with
  | noAgent hdone =>
      left
      intro e he
      rcases List.mem_cons.mp he with rfl | he
      · rfl
      · exact (Op.awaiting.not_prompting (c := 0) (hdone.only e he)).1
  | @prompted now awaited c poisoned own' _ hdone hprompt =>
      generalize herror : Approval.error why = approval at hprompt
      cases hprompt with
      | poisoned =>
          left
          intro e he
          simp only [List.append_assoc, List.cons_append, List.mem_cons, List.mem_append, List.not_mem_nil,
            or_false, List.nil_append] at he
          rcases he with rfl | he | rfl | rfl | rfl | rfl
          · rfl
          · exact (Op.awaiting.not_prompting (c := c) (hdone.only e he)).1
          all_goals rfl
      | released hlocked =>
          subst herror
          exact .inr ⟨c, ⟨.instantNow, now⟩ :: awaited ++ [⟨.lock .approvalGate, poisoned⟩], _, by simp,
            hdone.not_prompting, hlocked⟩

section RoundTrip

variable {earlier locked : History (sig P)} {approval : Approval} (h : RoundTrip c q earlier locked approval own)

include h

theorem RoundTrip.mem {e : Event (sig P)} (he : e ∈ locked) : e ∈ own := by
  rw [h.split]
  simp [he]

/-- The stream is taken once, and not poisoned. -/
theorem RoundTrip.not_poisoned {poisoned : Bool} (hlock : ⟨.lock (.stream c), poisoned⟩ ∈ own) :
    poisoned = false := by
  rw [h.split] at hlock
  simp only [List.append_assoc, List.cons_append, List.mem_append, List.mem_cons, List.not_mem_nil,
    or_false] at hlock
  rcases hlock with hlock | hlock | hlock | hlock | hlock
  · have hnone := (h.quiet _ hlock).2
    simp [Op.prompting] at hnone
  · cases hlock
    rfl
  · exact absurd rfl ((h.done.ops _ hlock).ne_lock _).1
  all_goals cases hlock

/-- The lines of a call are those of its round-trip. -/
theorem RoundTrip.linesTo_eq (c' : Conn) : linesTo c' own = linesTo c' locked := by
  have hbefore : linesTo c' (earlier ++ [⟨.lock (.stream c), false⟩]) = 0 := by
    rw [linesTo_append, linesTo_quiet fun e he => (h.quiet e he).1]
    rfl
  rw [h.split, ← List.singleton_append, ← List.append_assoc, linesTo_append, linesTo_append, hbefore,
    Nat.zero_add]
  rfl

theorem RoundTrip.linesTo_other {c' : Conn} (hc : c' ≠ c) : linesTo c' own = 0 := by
  rw [h.linesTo_eq]
  refine linesTo_eq_zero fun e he bytes hop => hc ?_
  have honly := (h.done.ops e he).prompting
  rw [hop] at honly
  exact of_decide_eq_true honly

end RoundTrip

section Run

variable (hrun : Run (world P) s₀ (parties P registerWait rounds role) tr s ps)

include hrun

/-- A call has written no line before it takes a stream. -/
theorem unwritten_before_lock (htr : tr = before ++ st :: after) {poisoned : Bool}
    (hlabel : st.label = .thread t ⟨.lock (.stream c), poisoned⟩) : linesTo c (history t before) = 0 := by
  have hpre := hrun.every_pre parties_meets before st after htr t _ hlabel
  obtain ⟨quiet, own', hown, hquiet, hstage⟩ :=
    (party_promptsOn c t (role t)).prompt _ _ hpre (decide_eq_true rfl)
  have hnil : own' = [] := by
    rcases hstage.holding with ⟨hnil, -⟩ | ⟨-, hunlock | ⟨own'', -, hlocked⟩⟩
    · exact hnil
    · cases hunlock
    · exact absurd rfl (hlocked.ops.1.ne_lock _).1
  rw [hown, hnil, List.append_nil]
  exact linesTo_quiet fun e he => (hquiet e he).1

/-- Who takes a stream that leads to no agent is not shown there. -/
theorem unshown_of_taken {poisoned : Bool} (hempty : (s₀.channel c).toPeer = []) (htr : tr = before ++ st :: after)
    (hlabel : st.label = .thread t ⟨.lock (.stream c), poisoned⟩)
    (hpeer : (st.pre.channel c).peer.isAgent = false) : tr.countP (shows c t) = 0 := by
  have hnone := unwritten_before_lock hrun htr hlabel
  subst htr
  obtain ⟨⟨ps', hbefore⟩, hlegal⟩ := hrun.before
  have hpost : (st.post.channel c).peer.isAgent = false := by
    rw [← hpeer]
    obtain ⟨pre, label, post⟩ := st
    obtain rfl : label = _ := hlabel
    rw [legal_thread_peer hlegal c]
  rw [countP_shows_split hlabel, unshown_of_unwritten hbefore hempty hnone, not_shown_after hrun hpost]

section RoundTrip

variable {earlier locked : History (sig P)} {why : String}
  (htrip : RoundTrip c (role t).prompt earlier locked (.error why) (history t tr))

include htrip

/-- A round-trip finds the stream idle, or is not shown on it. -/
theorem findsIdle_or_unshown (hempty : (s₀.channel c).toPeer = []) (hidle : Every FoundIdle tr) :
    Every (FindsIdle c t) tr ∨ tr.countP (shows c t) = 0 := by
  by_cases hagent : Every (fun _ (st : Step (sig P) Daemon Tid Env) => ∀ poisoned,
      st.label = .thread t ⟨.lock (.stream c), poisoned⟩ → (st.pre.channel c).peer.isAgent = true) tr
  · left
    intro before st after htr poisoned hlabel
    have hmem : (⟨.lock (.stream c), poisoned⟩ : Event (sig P)) ∈ history t tr :=
      mem_history.mpr ⟨st, by simp [htr], hlabel⟩
    obtain rfl := htrip.not_poisoned hmem
    exact hidle before st after htr t c hlabel (hagent before st after htr false hlabel)
  · right
    unfold Every at hagent
    push Not at hagent
    obtain ⟨before, st, after, htr, poisoned, hlabel, hpeer⟩ := hagent
    exact unshown_of_taken hrun hempty htr hlabel (Bool.eq_false_iff.mpr hpeer)

/-- At its end, a round-trip that has found the stream idle is still in step. -/
theorem roundTrip_inStep (hlaw : P.json.Lawful) (hfree : s₀.holder (.stream c) = none)
    (hidle : Every (FindsIdle c t) tr) :
    ∃ before after ch, tr = before ++ after ∧ history t before = earlier ++ ⟨.lock (.stream c), false⟩ :: locked ∧
      InStep c (role t).prompt t before (history t before) ch := by
  have hunlock : (⟨.unlock (.stream c), ()⟩ : Event (sig P)) ∈ history t tr := by
    rw [htrip.split]
    simp
  obtain ⟨before, pre, post, after, ps', rfl, hbefore, hlegal⟩ := hrun.split_event hunlock
  have hspeaks := fun t => party_promptsOn (P := P) c t (role t)
  have hheld := (legal_unlock hlegal).1
  have hholding := (holder_iff hbefore parties_meets hspeaks hfree t).mp hheld
  refine ⟨before, _, _, rfl, ?_, holder_inStep hbefore parties_meets hspeaks hlaw hfree t hidle.of_append hheld⟩
  -- the round-trip ends with its only unlock
  have hsplit := htrip.split
  rw [history_split rfl] at hsplit
  refine (Separators.cut_first (fun hmem => hholding.2 _ hmem rfl) (fun hmem => ?_) hsplit).1
  exact (holding_append (fun e he => (htrip.quiet e he).2) (holding_locked htrip.done.ops)).2 _ hmem rfl

/-- A round-trip in which an operation fails is not shown, or has been answered with an error. -/
theorem unasked_of_failed (hlaw : P.json.Lawful) (hempty : (s₀.channel c).toPeer = [])
    (hfails : Every (FailsUnasked role) tr) (hfailed : ∃ e ∈ locked, failure e = some c) :
    tr.countP (shows c t) = 0 ∨ Once (AnswersError (role t).prompt t) tr := by
  obtain ⟨e, he, hfailed⟩ := hfailed
  obtain ⟨before, st, after, rfl, hlabel⟩ := once_of_mem_history (htrip.mem he)
  rcases hfails before st after rfl t c e hlabel hfailed with hunread | hanswered
  · refine .inl (unshown_of_leftUnread hrun hempty hlabel ?_ ?_ hunread)
    · rw [htrip.linesTo_eq c]
      exact htrip.done.linesTo_le hlaw
    · rintro bytes why' rfl
      exact htrip.done.line_of_write hlaw he
  · exact .inr (hanswered.append _)

/-- A round-trip that has read a whole line, and one that is an error, has been answered with an error if it
found the stream idle. -/
theorem answered_of_whole {read later : History (sig P)} {line : String} {bytes : List UInt8}
    (hlaw : P.json.Lawful) (hbrief : BriefVerdicts P) (hfree : s₀.holder (.stream c) = none)
    (hidle : Every (FindsIdle c t) tr)
    (hlocked : locked = sent c line ++ (read ++ later)) (hlater : received later = [])
    (hwhole : ReadsWhole c (.error why) read bytes) :
    Once (AnswersError (role t).prompt t) tr := by
  have hlen := recv_length (c := c) (t := t) hrun
  obtain ⟨before, after, ch, rfl, hsection, hstep⟩ := roundTrip_inStep hrun htrip hlaw hfree hidle
  rw [hsection, hlocked] at hstep
  have hexchange := hstep.exchange (utf8 line) (by simp [sent])
  rw [received_prompted (fun e he => (htrip.quiet e he).1), received_append, hlater, List.append_nil] at hexchange
  have hread : ∀ n bytes, ⟨.recv c n, .ok bytes⟩ ∈ read → bytes.length ≤ n := by
    intro n bytes hmem
    exact hlen n bytes (htrip.mem (by simp [hlocked, hmem]))
  exact (hexchange.answered_error hlaw hbrief hread hwhole).append _

theorem roundTrip_unasked (hlaw : P.json.Lawful) (hbrief : BriefVerdicts P) (hfree : s₀.holder (.stream c) = none)
    (hempty : (s₀.channel c).toPeer = []) (hidle : Every FoundIdle tr) (hfails : Every (FailsUnasked role) tr) :
    tr.countP (shows c t) = 0 ∨ Once (AnswersError (role t).prompt t) tr := by
  rcases htrip.done.error_cases with hnone | hfailed |
    ⟨line, read, later, bytes, hlocked, hlater, hwhole⟩
  · refine .inl (unshown_of_unwritten hrun hempty ?_)
    rw [htrip.linesTo_eq, hnone]
    rfl
  · exact unasked_of_failed hrun htrip hlaw hempty hfails hfailed
  · rcases findsIdle_or_unshown hrun htrip hempty hidle with hfound | hunshown
    · exact .inr (answered_of_whole hrun htrip hlaw hbrief hfree hfound hlocked hlater hwhole)
    · exact .inl hunshown

end RoundTrip

/-- **Errors and the dialogs behind them.** In every interleaving of calls and registrations, with failures
and timeouts at any point: as long as a stream that leads to an agent is idle when it is taken and every
failure leaves its prompt unread, no dialog has been shown for a call that ends in an error, unless the
agent has answered it with one. -/
theorem errors_unasked (hlaw : P.json.Lawful) (hbrief : BriefVerdicts P)
    (hfree : ∀ c, s₀.holder (.stream c) = none) (hempty : ∀ c, (s₀.channel c).toPeer = [])
    (hidle : Every FoundIdle tr) (hfails : Every (FailsUnasked role) tr) : ErrorsUnasked role tr ps := by
  intro t why hret
  have hdone : PartyDone t (role t) (history t tr) (some (.error why)) := hrun.result parties_meets hret
  generalize hrole : role t = asked at hdone
  cases hdone with
  | asks hagent =>
      rcases hagent.error_inv with hnone | ⟨c, earlier, locked, htrip⟩
      · left
        intro c
        exact unshown_of_unwritten hrun (hempty c) (linesTo_quiet hnone)
      · have htrip' : RoundTrip c (role t).prompt earlier locked (.error why) (history t tr) := by rwa [hrole]
        have hhere := roundTrip_unasked hrun htrip' hlaw hbrief (hfree c) (hempty c) hidle hfails
        rw [hrole] at hhere
        refine hhere.imp_left fun hzero c' => ?_
        by_cases hc : c' = c
        · rw [hc, hzero]
        · exact unshown_of_unwritten hrun (hempty c') (htrip.linesTo_other hc)

end Run

/-- Whether the failure of a step leaves its prompt unread by an agent that has gone. -/
def failsUnread (st : Step (sig P) Daemon Tid Env) : Bool :=
  match st.label with
  | .thread t event =>
      match failure event with
      | some c => (st.pre.channel c).peer = .gone && (newline, t) ∈ (st.post.channel c).toPeer
      | none => true
  | .env _ => true

theorem failsUnasked_of_forall (h : ∀ st ∈ tr, failsUnread st = true) : Every (FailsUnasked role) tr := by
  intro before st after heq t c event hlabel hfailure
  have hunread := h st (by simp [heq])
  simp only [failsUnread, hlabel, hfailure, Bool.and_eq_true, decide_eq_true_eq] at hunread
  exact .inl (.inr (.inl hunread))

def takesIdle (st : Step (sig P) Daemon Tid Env) : Bool :=
  match st.label with
  | .thread _ ⟨.lock (.stream c), _⟩ => Idle (st.pre.channel c)
  | _ => true

theorem foundIdle_of_forall (h : ∀ st ∈ tr, takesIdle st = true) : Every FoundIdle tr := by
  intro before st after heq t c hlabel _
  have hidle := h st (by simp [heq])
  simpa only [takesIdle, hlabel, decide_eq_true_eq] using hidle

def answersDialog (st : Step (sig P) Daemon Tid Env) : Bool :=
  match st.label with
  | .env (.agentAnswer _ _) => true
  | _ => false

/-- Connection 0 registers for uid 1000, and call 1 asks for it. -/
def dialogRole (t : Tid) : Party := if t = 1 then .asks 1000 idRequest else .serves 1000

def dialogParties : Pool (sig latePlatform) Tid (Option Approval) := parties latePlatform 0 0 dialogRole

/-- The agent has registered, and the call has sent it the prompt. -/
def dialogSent : List (Move (world latePlatform)) :=
  List.replicate 2 (.thread 0 (smooth 0 .denied)) ++ List.replicate 7 (.thread 1 (smooth 0 .denied))

/-- The read times out while the dialog is open. -/
def dialogRun : Option (Point (sig latePlatform) Daemon Tid Env (Option Approval)) :=
  replay (world latePlatform) ⟨[], lateDaemon, dialogParties⟩
    (dialogSent ++ [.env (.agentRead 0), .thread 1 timingOut] ++ List.replicate 3 (.thread 1 (smooth 0 .denied)))

/-- The call ends in an error, and its dialog is still open. -/
theorem error_while_shown :
    ∃ c why, dialogRun = some c ∧ Run (world latePlatform) lateDaemon dialogParties c.trace c.state c.pool ∧
      c.pool 1 = .ret (some (.error why)) ∧ (c.state.channel 0).peer = .agent (.dialog (promptOf idRequest) 1) ∧
      ¬ ErrorsUnasked dialogRole c.trace c.pool := by
  obtain ⟨c, hc⟩ : ∃ c, dialogRun = some c := ⟨_, rfl⟩
  have hrun : Run (world latePlatform) lateDaemon dialogParties c.trace c.state c.pool := run_of_replay .start hc
  obtain ⟨why, hret⟩ : ∃ why, c.pool 1 = .ret (some (.error why)) := by
    obtain rfl := Option.some.inj hc
    exact ⟨_, rfl⟩
  refine ⟨c, why, hc, hrun, hret, ?_, fun h => ?_⟩
  · obtain rfl := Option.some.inj hc
    rfl
  · rcases h 1 why hret with hnever | ⟨before, st, after, htr, c', why', hanswer, -⟩
    · obtain rfl := Option.some.inj hc
      exact absurd (hnever 0) (by decide +kernel)
    · have hnone : ∀ st ∈ c.trace, answersDialog st = false := by
        obtain rfl := Option.some.inj hc
        decide +kernel
      have hst := hnone st (by simp [htr])
      simp [answersDialog, hanswer] at hst

/-- The agent exits with the prompt unread. -/
def unreadRun : Option (Point (sig latePlatform) Daemon Tid Env (Option Approval)) :=
  replay (world latePlatform) ⟨[], lateDaemon, dialogParties⟩
    (dialogSent ++ [.env (.agentExit 0), .thread 1 timingOut] ++ List.replicate 3 (.thread 1 (smooth 0 .denied)))

theorem latePlatform_brief : BriefVerdicts latePlatform := by
  intro v line hline _
  obtain ⟨text, htext, rfl⟩ := line_eq hline
  obtain ⟨-, rfl⟩ := Prod.mk.inj (List.mem_singleton.mp (mem_of_tableEncode htext))
  decide +kernel

/-- In that run the call ends in an error, and nobody has been asked. -/
theorem unreadRun_unasked :
    ∃ c why, unreadRun = some c ∧ c.pool 1 = .ret (some (.error why)) ∧
      ErrorsUnasked dialogRole c.trace c.pool := by
  obtain ⟨c, hc⟩ : ∃ c, unreadRun = some c := ⟨_, rfl⟩
  have hrun : Run (world latePlatform) lateDaemon dialogParties c.trace c.state c.pool := run_of_replay .start hc
  have hidle : ∀ st ∈ c.trace, takesIdle st = true := by
    obtain rfl := Option.some.inj hc
    decide +kernel
  have hfails : ∀ st ∈ c.trace, failsUnread st = true := by
    obtain rfl := Option.some.inj hc
    decide +kernel
  obtain ⟨why, hret⟩ : ∃ why, c.pool 1 = .ret (some (.error why)) := by
    obtain rfl := Option.some.inj hc
    exact ⟨_, rfl⟩
  exact ⟨c, why, hc, hret, errors_unasked hrun latePlatform_lawful latePlatform_brief (fun _ => rfl)
    (fun _ => rfl) (foundIdle_of_forall hidle) (failsUnasked_of_forall hfails)⟩

end Sudix
