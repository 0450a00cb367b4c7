import Sudix.AgentConsent
import Sudix.Separators

/-! What an agent process does to its end of the connection. Whatever pieces it takes and writes, its dialogs are
those of the prompts in the lines it has taken, each once and in their order, and what it writes are the verdicts of
these dialogs, in the same order, of which at most the last one can be cut short. A text without a newline that an
agent would still take at the end of its stream is left out, here as in all that processes do. -/

namespace Sudix

open Concurrent

variable {P : Platform}

/-- The bytes a process has taken off the socket, the dialogs it has ended, and the bytes it has written. -/
structure AgentAccount where
  taken : List UInt8
  dialogs : List (List String × Verdict)
  written : List UInt8

/-- The bytes a move takes off the socket. -/
def ProcessMove.takes (ch : Channel) : ProcessMove → List UInt8
  | .fill n => (ch.toPeer.take n).map Prod.fst
  | _ => []

/-- The bytes a move writes. -/
def Process.puts (p : Process) (m : ProcessMove) : List UInt8 :=
  match p.program, m with
  | .call (.writeAll bytes) _, .send n => (bytes.drop p.sent).take n
  | _, _ => []

def AgentAccount.add (acc : AgentAccount) (p : Process) (ch : Channel) (m : ProcessMove) : AgentAccount :=
  ⟨acc.taken ++ m.takes ch, acc.dialogs ++ (p.dialog m).toList, acc.written ++ p.puts m⟩

/-- A step of the site on the account of the process of connection `c`. -/
def AgentAccount.step (c : Conn) (acc : AgentAccount) (st : Step (sig P) Site Tid SiteEvent) : AgentAccount :=
  match st.label with
  | .env (.move c' m) =>
      match st.pre.process c with
      | some p => if c' = c then acc.add p (st.pre.daemon.channel c) m else acc
      | none => acc
  | _ => acc

/-- The account of the process of connection `c` after a run. -/
def accountOf (c : Conn) (tr : Trace (sig P) Site Tid SiteEvent) : AgentAccount :=
  tr.foldl (AgentAccount.step c) ⟨[], [], []⟩

/-- The prompt in a line, if there is one. -/
def promptIn (J : SerdeJson) (line : List UInt8) : Option Prompt :=
  (fromUtf8 line).bind fun text => (Prompt.fromLine J text).toOption

/-- The calls of zenity that the lines ask for. -/
def callsFor (J : SerdeJson) (lines : List (List UInt8)) : List (List String) :=
  (lines.filterMap (promptIn J)).map fun q => "zenity" :: Agent.zenityArgs q

/-- A verdict on the wire; one that cannot be encoded is left out. -/
def verdictBytes (J : SerdeJson) (v : Verdict) : List UInt8 :=
  match v.toLine J with
  | .ok line => utf8 line
  | .error _ => []

def answersTo (J : SerdeJson) (dialogs : List (List String × Verdict)) : List UInt8 :=
  dialogs.flatMap fun d => verdictBytes J d.2

/-- The dialogs are those of the prompts in the lines, in order and as far as they have got. What has been written are
their verdicts, and of the last one perhaps not all. -/
structure Answering (J : SerdeJson) (lines : List (List UInt8)) (acc : AgentAccount) : Prop where
  calls : acc.dialogs.map Prod.fst <+: callsFor J lines
  begun : acc.written <+: answersTo J acc.dialogs
  finished : answersTo J acc.dialogs.dropLast <+: acc.written

/-- Every prompt in the lines has had its dialog, and every verdict has been written. -/
structure AllAnswered (J : SerdeJson) (lines : List (List UInt8)) (acc : AgentAccount) : Prop where
  calls : acc.dialogs.map Prod.fst = callsFor J lines
  paid : acc.written = answersTo J acc.dialogs

variable {J : SerdeJson} {lines : List (List UInt8)} {line : List UInt8} {acc : AgentAccount}

theorem callsFor_append {lines' : List (List UInt8)} :
    callsFor J (lines ++ lines') = callsFor J lines ++ callsFor J lines' := by
  rw [callsFor, List.filterMap_append, List.map_append]
  rfl

theorem answersTo_dropLast_prefix (dialogs : List (List String × Verdict)) :
    answersTo J dialogs.dropLast <+: answersTo J dialogs := by
  rcases List.eq_nil_or_concat dialogs with rfl | ⟨earlier, last, rfl⟩
  · exact List.prefix_rfl
  · rw [List.concat_eq_append, List.dropLast_concat, answersTo, answersTo, List.flatMap_append]
    exact List.prefix_append _ _

theorem AllAnswered.answering (h : AllAnswered J lines acc) : Answering J lines acc where
  calls := h.calls ▸ List.prefix_rfl
  begun := h.paid ▸ List.prefix_rfl
  finished := by
    rw [h.paid]
    exact answersTo_dropLast_prefix _

theorem Answering.more {lines' : List (List UInt8)} (h : Answering J lines acc) :
    Answering J (lines ++ lines') acc where
  calls := by
    rw [callsFor_append]
    exact h.calls.trans (List.prefix_append _ _)
  begun := h.begun
  finished := h.finished

/-- A line without a prompt asks for nothing. -/
theorem AllAnswered.skip (h : AllAnswered J lines acc) (hline : promptIn J line = none) :
    AllAnswered J (lines ++ [line]) acc where
  calls := by
    rw [h.calls, callsFor_append]
    simp [callsFor, hline]
  paid := h.paid

/-- Each line ends at its only newline. -/
def WholeLines (lines : List (List UInt8)) : Prop :=
  ∀ line ∈ lines, ∃ front, newline ∉ front ∧ line = front ++ [newline]

/-- What the account is at each point of an agent's program. -/
inductive AgentCourse (J : SerdeJson) (lines : List (List UInt8)) (acc : AgentAccount) (sent : Nat) :
    AgentProg (Except String Unit) → Prop
  | between (rounds : Nat) : AllAnswered J lines acc → AgentCourse J lines acc sent (Agent.loop J rounds)
  | skipping (text : String) (rounds : Nat) : AllAnswered J lines acc →
      AgentCourse J lines acc sent (agentCall (.eprint text) >>= fun _ => Agent.loop J rounds)
  | asking {q : Prompt} (rounds : Nat) :
      acc.dialogs.map Prod.fst ++ ["zenity" :: Agent.zenityArgs q] = callsFor J lines →
      acc.written = answersTo J acc.dialogs →
      AgentCourse J lines acc sent (Agent.answerPrompt J q (Agent.loop J rounds))
  | sending {text : String} (rounds : Nat) : acc.dialogs.map Prod.fst = callsFor J lines →
      acc.written ++ (utf8 text).drop sent = answersTo J acc.dialogs →
      answersTo J acc.dialogs.dropLast <+: acc.written →
      AgentCourse J lines acc sent (Agent.sendVerdict text (Agent.loop J rounds))
  | flushing (rounds : Nat) : AllAnswered J lines acc →
      AgentCourse J lines acc sent (Agent.flushVerdict (Agent.loop J rounds))
  | ended (result : Except String Unit) : Answering J lines acc → AgentCourse J lines acc sent (.ret result)

theorem AgentCourse.answering {sent : Nat} {q : AgentProg (Except String Unit)} (h : AgentCourse J lines acc sent q) :
    Answering J lines acc := by
  cases h with
  | between _ h | skipping _ _ h | flushing _ h => exact h.answering
  | asking _ hcalls hpaid =>
      refine ⟨hcalls ▸ List.prefix_append _ _, hpaid ▸ List.prefix_rfl, ?_⟩
      rw [hpaid]
      exact answersTo_dropLast_prefix _
  | sending _ hcalls hrest hfinished => exact ⟨hcalls ▸ List.prefix_rfl, ⟨_, hrest⟩, hfinished⟩
  | ended _ h => exact h

/-- The lines a process has used and the bytes it keeps for the next one are what it has taken. -/
def InAccount (J : SerdeJson) (acc : AgentAccount) (p : Process) : Prop :=
  ∃ lines, WholeLines lines ∧ lines.flatten ++ p.pending.map Prod.fst = acc.taken ∧
    AgentCourse J lines acc p.sent p.program

theorem AgentAccount.add_quiet {p : Process} {ch : Channel} {m : ProcessMove} (htakes : m.takes ch = [])
    (hdialog : p.dialog m = none) (hputs : p.puts m = []) : acc.add p ch m = acc := by
  rw [AgentAccount.add, htakes, hdialog, hputs, List.append_nil, Option.toList_none, List.append_nil, List.append_nil]

/-- What follows a line that has been read. -/
theorem AllAnswered.takeLine (h : AllAnswered J lines acc) (hline : line ≠ []) (sent rounds : Nat) :
    AgentCourse J (lines ++ [line]) acc sent (Agent.takeLine J line (Agent.loop J rounds)) := by
  rw [Agent.takeLine, if_neg hline]
  cases htext : fromUtf8 line with
  | none => exact .ended _ (h.skip (by rw [promptIn, htext]; rfl)).answering
  | some text =>
      dsimp only
      cases hprompt : Prompt.fromLine J text with
      | error e => exact .skipping _ rounds (h.skip (by rw [promptIn, htext, Option.bind_some, hprompt]; rfl))
      | ok q =>
          refine .asking rounds ?_ h.paid
          have hq : promptIn J line = some q := by rw [promptIn, htext, Option.bind_some, hprompt]; rfl
          rw [h.calls, callsFor_append]
          simp [callsFor, hq]

section Moves

variable {pending : List (UInt8 × Tid)} {asker : Tid} {sent rounds : Nat} {ch ch' : Channel} {m : ProcessMove}
  {p' : Process}

theorem loop_account (hlines : WholeLines lines)
    (htaken : lines.flatten ++ pending.map Prod.fst = acc.taken) (h : AllAnswered J lines acc)
    (hmove : Process.move ⟨Agent.loop J rounds, pending, sent, asker⟩ ch m = some (p', ch')) :
    InAccount J (acc.add ⟨Agent.loop J rounds, pending, sent, asker⟩ ch m) p' := by
  cases rounds with
  | zero => cases hmove
  | succ rounds =>
      unfold Process.move at hmove
      dsimp only [Agent.loop, agentCall, Program.perform] at hmove
      simp only [Program.call_bind, Program.ret_bind] at hmove
      cases m with
      | fill n =>
          dsimp only at hmove
          split at hmove
          · cases hmove
          · cases hmove
            have hadd : acc.add ⟨Agent.loop J (rounds + 1), pending, sent, asker⟩ ch (.fill n) =
                ⟨acc.taken ++ (ch.toPeer.take n).map Prod.fst, acc.dialogs, acc.written⟩ := by
              show AgentAccount.mk _ (acc.dialogs ++ []) (acc.written ++ []) = _
              rw [List.append_nil, List.append_nil]
              rfl
            rw [hadd]
            refine ⟨lines, hlines, ?_, .between (rounds + 1) ⟨h.calls, h.paid⟩⟩
            rw [List.map_append, ← List.append_assoc, htaken]
      | readLine =>
          dsimp only at hmove
          split at hmove
          · cases hmove
          · rename_i last rest hcut
            cases hmove
            rw [AgentAccount.add_quiet rfl rfl rfl]
            refine ⟨lines ++ [_], ?_, ?_, h.takeLine (by simp) 0 rounds⟩
            · intro line hline
              rcases List.mem_append.mp hline with hline | hline
              · exact hlines line hline
              · refine ⟨_, ?_, List.mem_singleton.mp hline⟩
                intro hmem
                obtain ⟨b, hb, hbnl⟩ := List.mem_map.mp hmem
                have hne := List.mem_takeWhile_imp hb
                simp [hbnl] at hne
            · have hlast : last.1 = newline := by
                have hhead := List.head?_dropWhile_not (fun b : UInt8 × Tid => b.1 != newline) pending
                rw [hcut] at hhead
                simpa using hhead
              have hpending : pending.map Prod.fst =
                  (pending.takeWhile fun b => b.1 != newline).map Prod.fst ++ newline :: rest.map Prod.fst := by
                conv_lhs =>
                  rw [← List.takeWhile_append_dropWhile (p := fun b : UInt8 × Tid => b.1 != newline) (l := pending),
                    hcut, List.map_append, List.map_cons, hlast]
              rw [← htaken, hpending]
              simp
      | readEnd =>
          dsimp only at hmove
          split at hmove
          · cases hmove
            rw [AgentAccount.add_quiet rfl rfl rfl]
            exact ⟨lines, hlines, htaken, .ended _ h.answering⟩
          · cases hmove
      | readFail e =>
          cases hmove
          rw [AgentAccount.add_quiet rfl rfl rfl]
          exact ⟨lines, hlines, htaken, .ended _ h.answering⟩
      | _ => cases hmove

theorem eprint_account {text : String} (hlines : WholeLines lines)
    (htaken : lines.flatten ++ pending.map Prod.fst = acc.taken) (h : AllAnswered J lines acc)
    (hmove : Process.move ⟨agentCall (.eprint text) >>= fun _ => Agent.loop J rounds, pending, sent, asker⟩ ch m =
      some (p', ch')) :
    InAccount J (acc.add ⟨agentCall (.eprint text) >>= fun _ => Agent.loop J rounds, pending, sent, asker⟩ ch m)
      p' := by
  unfold Process.move at hmove
  cases m with
  | eprint =>
      cases hmove
      rw [AgentAccount.add_quiet rfl rfl rfl]
      exact ⟨lines, hlines, htaken, .between rounds h⟩
  | _ => cases hmove

/-- When zenity exits, its dialog is on the account, and its verdict still to be written. -/
theorem answerPrompt_account {q : Prompt}
    (hlines : WholeLines lines)
    (htaken : lines.flatten ++ pending.map Prod.fst = acc.taken)
    (hcalls : acc.dialogs.map Prod.fst ++ ["zenity" :: Agent.zenityArgs q] = callsFor J lines)
    (hpaid : acc.written = answersTo J acc.dialogs)
    (hmove : Process.move ⟨Agent.answerPrompt J q (Agent.loop J rounds), pending, sent, asker⟩ ch m =
      some (p', ch')) :
    InAccount J (acc.add ⟨Agent.answerPrompt J q (Agent.loop J rounds), pending, sent, asker⟩ ch m) p' := by
  unfold Process.move at hmove
  dsimp only [Agent.answerPrompt, Agent.spawnZenity, agentCall, Program.perform] at hmove
  simp only [Program.call_bind, Program.ret_bind, Program.pure_eq] at hmove
  cases m with
  | status result =>
      cases hmove
      have hadd : acc.add ⟨Agent.answerPrompt J q (Agent.loop J rounds), pending, sent, asker⟩ ch (.status result) =
          ⟨acc.taken, acc.dialogs ++ [("zenity" :: Agent.zenityArgs q, Agent.verdictFromStatus result)],
            acc.written⟩ := by
        show AgentAccount.mk (acc.taken ++ []) (acc.dialogs ++ [_]) (acc.written ++ []) = _
        rw [List.append_nil, List.append_nil]
      have hcalls' :
          (acc.dialogs ++ [("zenity" :: Agent.zenityArgs q, Agent.verdictFromStatus result)]).map Prod.fst =
            callsFor J lines := by
        rw [List.map_append, ← hcalls]
        rfl
      have hanswers :
          answersTo J (acc.dialogs ++ [("zenity" :: Agent.zenityArgs q, Agent.verdictFromStatus result)]) =
            acc.written ++ verdictBytes J (Agent.verdictFromStatus result) := by
        rw [hpaid, answersTo, answersTo, List.flatMap_append, List.flatMap_singleton]
      rw [hadd]
      refine ⟨lines, hlines, htaken, ?_⟩
      cases hline : (Agent.verdictFromStatus result).toLine J with
      | error e =>
          refine .skipping _ rounds ⟨hcalls', ?_⟩
          rw [hanswers, verdictBytes, hline, List.append_nil]
      | ok vLine =>
          refine .sending rounds hcalls' ?_ ?_
          · rw [hanswers, verdictBytes, hline, List.drop_zero]
          · show answersTo J (acc.dialogs ++ [_]).dropLast <+: acc.written
            exact ⟨[], by rw [List.append_nil, List.dropLast_concat, hpaid]⟩
  | _ => cases hmove

theorem sendVerdict_account {text : String}
    (hlines : WholeLines lines)
    (htaken : lines.flatten ++ pending.map Prod.fst = acc.taken)
    (hcalls : acc.dialogs.map Prod.fst = callsFor J lines)
    (hrest : acc.written ++ (utf8 text).drop sent = answersTo J acc.dialogs)
    (hfinished : answersTo J acc.dialogs.dropLast <+: acc.written)
    (hmove : Process.move ⟨Agent.sendVerdict text (Agent.loop J rounds), pending, sent, asker⟩ ch m =
      some (p', ch')) :
    InAccount J (acc.add ⟨Agent.sendVerdict text (Agent.loop J rounds), pending, sent, asker⟩ ch m) p' := by
  unfold Process.move at hmove
  dsimp only [Agent.sendVerdict, agentCall, Program.perform] at hmove
  simp only [Program.call_bind, Program.ret_bind] at hmove
  cases m with
  | send n =>
      cases hmove
      have hadd : acc.add ⟨Agent.sendVerdict text (Agent.loop J rounds), pending, sent, asker⟩ ch (.send n) =
          ⟨acc.taken, acc.dialogs, acc.written ++ ((utf8 text).drop sent).take n⟩ := by
        show AgentAccount.mk (acc.taken ++ []) (acc.dialogs ++ []) _ = _
        rw [List.append_nil, List.append_nil]
        rfl
      rw [hadd]
      refine ⟨lines, hlines, htaken, .sending rounds hcalls ?_ (hfinished.trans (List.prefix_append _ _))⟩
      rw [List.append_assoc, ← List.drop_drop, List.take_append_drop]
      exact hrest
  | sent =>
      dsimp only at hmove
      split at hmove
      · rename_i hall
        cases hmove
        rw [AgentAccount.add_quiet rfl rfl rfl]
        rw [hall, List.append_nil] at hrest
        exact ⟨lines, hlines, htaken, .flushing rounds ⟨hcalls, hrest⟩⟩
      · cases hmove
  | sendFail e =>
      cases hmove
      rw [AgentAccount.add_quiet rfl rfl rfl]
      exact ⟨lines, hlines, htaken, .ended _ (AgentCourse.sending rounds hcalls hrest hfinished).answering⟩
  | _ => cases hmove

theorem flushVerdict_account (hlines : WholeLines lines)
    (htaken : lines.flatten ++ pending.map Prod.fst = acc.taken) (h : AllAnswered J lines acc)
    (hmove : Process.move ⟨Agent.flushVerdict (Agent.loop J rounds), pending, sent, asker⟩ ch m = some (p', ch')) :
    InAccount J (acc.add ⟨Agent.flushVerdict (Agent.loop J rounds), pending, sent, asker⟩ ch m) p' := by
  unfold Process.move at hmove
  dsimp only [Agent.flushVerdict, agentCall, Program.perform] at hmove
  simp only [Program.call_bind, Program.ret_bind] at hmove
  cases m with
  | flush result =>
      cases result with
      | error e =>
          cases hmove
          rw [AgentAccount.add_quiet rfl rfl rfl]
          exact ⟨lines, hlines, htaken, .ended _ h.answering⟩
      | ok _ =>
          cases hmove
          rw [AgentAccount.add_quiet rfl rfl rfl]
          exact ⟨lines, hlines, htaken, .between rounds h⟩
  | _ => cases hmove

/-- Every move keeps a process in account. -/
theorem InAccount.move {p : Process} (h : InAccount J acc p) (hmove : p.move ch m = some (p', ch')) :
    InAccount J (acc.add p ch m) p' := by
  obtain ⟨program, pending, sent, asker⟩ := p
  obtain ⟨lines, hlines, htaken, hcourse⟩ := h
  dsimp only at hcourse htaken
  cases hcourse with
  | between rounds h => exact loop_account hlines htaken h hmove
  | skipping text rounds h => exact eprint_account hlines htaken h hmove
  | asking rounds hcalls hpaid => exact answerPrompt_account hlines htaken hcalls hpaid hmove
  | sending rounds hcalls hrest hfinished => exact sendVerdict_account hlines htaken hcalls hrest hfinished hmove
  | flushing rounds h => exact flushVerdict_account hlines htaken h hmove
  | ended _ _ => cases hmove

end Moves

theorem InAccount.answering {p : Process} (h : InAccount J acc p) :
    Answering J (Separators.parts newline acc.taken) acc := by
  obtain ⟨lines, hlines, htaken, hcourse⟩ := h
  rw [← htaken, Separators.parts_flatten hlines]
  exact hcourse.answering.more

/-- A process that waits for its next line has answered every prompt it has been sent. -/
theorem InAccount.settled {p : Process} (h : InAccount J acc p) (hwaits : p.waits = true) :
    AllAnswered J (Separators.parts newline acc.taken) acc := by
  obtain ⟨lines, hlines, htaken, hcourse⟩ := h
  obtain ⟨program, pending, sent, asker⟩ := p
  dsimp only at htaken hcourse
  cases hcourse with
  | between rounds h =>
      cases rounds with
      | zero => cases hwaits
      | succ rounds =>
          obtain rfl : pending = [] := List.isEmpty_iff.mp hwaits
          rw [← htaken, Separators.parts_flatten hlines]
          show AllAnswered J (lines ++ []) acc
          rw [List.append_nil]
          exact h
  | _ => cases hwaits

/-- The account is right, and the process, while it is there, stands where the account says, in the loop it has
started. -/
structure Accounted (J : SerdeJson) (rounds : Nat) (acc : AgentAccount) (p : Option Process) : Prop where
  answering : Answering J (Separators.parts newline acc.taken) acc
  standing : ∀ q, p = some q → InAccount J acc q
  follows : ∀ q, p = some q → ∃ own, (Agent.loop J rounds).Follows own q.program

theorem Accounted.move {rounds : Nat} {p p' : Process} {ch ch' : Channel} {m : ProcessMove}
    (h : Accounted J rounds acc (some p)) (hmove : p.move ch m = some (p', ch')) :
    Accounted J rounds (acc.add p ch m) (some p') := by
  have haccount := (h.standing p rfl).move hmove
  obtain ⟨own, hown⟩ := h.follows p rfl
  obtain ⟨own', hown'⟩ := Process.move_follows hmove
  refine ⟨haccount.answering, ?_, ?_⟩
  · rintro q ⟨⟩
    exact haccount
  · rintro q ⟨⟩
    exact ⟨_, hown.trans hown'⟩

theorem ofDaemon_accounted (d : Daemon) (rounds : Conn → Nat) (c : Conn) :
    Accounted P.json (rounds c) ⟨[], [], []⟩ ((Site.ofDaemon P d rounds).process c) := by
  have hstart : AllAnswered P.json [] ⟨[], [], []⟩ := ⟨rfl, rfl⟩
  have hloop : ∀ q, (Site.ofDaemon P d rounds).process c = some q → ⟨Agent.loop P.json (rounds c), [], 0, 0⟩ = q := by
    intro q hq
    obtain ⟨-, hq⟩ : (d.channel c).peer = .agent .reading ∧ ⟨Agent.loop P.json (rounds c), [], 0, 0⟩ = q := by
      simpa [Site.ofDaemon] using hq
    exact hq
  refine ⟨hstart.answering, fun q hq => ?_, fun q hq => ?_⟩
  · rw [← hloop q hq]
    exact ⟨[], fun line hline => absurd hline List.not_mem_nil, rfl, .between _ hstart⟩
  · rw [← hloop q hq]
    exact ⟨[], .refl⟩

theorem accountOf_snoc (c : Conn) (tr : Trace (sig P) Site Tid SiteEvent) (st : Step (sig P) Site Tid SiteEvent) :
    accountOf c (tr ++ [st]) = (accountOf c tr).step c st := by
  rw [accountOf, accountOf, List.foldl_append, List.foldl_cons, List.foldl_nil]

theorem AgentAccount.step_self {c : Conn} {m : ProcessMove} {s s' : Site} {p : Process} (hp : s.process c = some p) :
    acc.step c (⟨s, .env (.move c m), s'⟩ : Step (sig P) Site Tid SiteEvent) = acc.add p (s.daemon.channel c) m := by
  simp only [AgentAccount.step, hp, if_true]

theorem AgentAccount.step_other {c c' : Conn} {m : ProcessMove} {s s' : Site} (hc : c' ≠ c) :
    acc.step c (⟨s, .env (.move c' m), s'⟩ : Step (sig P) Site Tid SiteEvent) = acc := by
  simp only [AgentAccount.step, if_neg hc]
  split <;> rfl

section Run

variable {α : Type} {d : Daemon} {rounds : Conn → Nat} {p₀ ps : Pool (sig P) Tid α} {s : Site}
  {tr : Trace (sig P) Site Tid SiteEvent}

theorem run_accounted (hrun : Run (siteWorld P) (Site.ofDaemon P d rounds) p₀ tr s ps) (c : Conn) :
    Accounted P.json (rounds c) (accountOf c tr) (s.process c) := by
  induction hrun with
  | start => exact ofDaemon_accounted d rounds c
  | @thread tr s ps t op next choice answer s' hrun hnext hact ih =>
      obtain ⟨⟨answer', d'⟩, -, heq⟩ := Option.map_eq_some_iff.mp hact
      obtain ⟨rfl, rfl⟩ := Prod.mk.inj heq
      rw [accountOf_snoc]
      exact ih
  | @env tr s ps event s' hrun henv ih =>
      rw [accountOf_snoc]
      cases event with
      | outer event =>
          simp only [siteWorld, siteEnv] at henv
          split at henv
          · cases henv
          · obtain ⟨d', -, rfl⟩ := Option.map_eq_some_iff.mp henv
            exact ih
      | move c' m =>
          simp only [siteWorld, siteEnv] at henv
          split at henv
          · cases henv
          · rename_i p hp
            obtain ⟨⟨p', ch'⟩, hmove, rfl⟩ := Option.map_eq_some_iff.mp henv
            by_cases hc : c' = c
            · subst hc
              rw [AgentAccount.step_self hp]
              show Accounted P.json _ _ (Function.update s.process c' (some p') c')
              rw [Function.update_self]
              rw [hp] at ih
              exact ih.move hmove
            · rw [AgentAccount.step_other hc]
              show Accounted P.json _ _ (Function.update s.process c' (some p') c)
              rw [Function.update_of_ne (Ne.symm hc)]
              exact ih
      | leave c' =>
          simp only [siteWorld, siteEnv] at henv
          split at henv
          · cases henv
          · cases henv
            by_cases hc : c' = c
            · subst hc
              refine ⟨ih.answering, fun q hq => ?_, fun q hq => ?_⟩
              · simp at hq
              · simp at hq
            · show Accounted P.json _ _ (Function.update s.process c' none c)
              rw [Function.update_of_ne (Ne.symm hc)]
              exact ih

/-- **An agent answers its prompts, each once and in order.** Whatever the threads of the daemon do, in whatever
pieces the agent of connection `c` takes its bytes and writes, and wherever it fails or is ended: its dialogs are
those of the prompts in the lines it has taken, in their order; it has written their verdicts, in the same order, and
the one of the last dialog perhaps not to its end; when it waits for its next line, it has answered every prompt it
has taken; and it is where `run_agent`, once registered, has got to. -/
theorem agent_answers_in_order (hrun : Run (siteWorld P) (Site.ofDaemon P d rounds) p₀ tr s ps) (c : Conn) :
    Answering P.json (Separators.parts newline (accountOf c tr).taken) (accountOf c tr) ∧
      ((s.process c).any Process.waits = true →
        AllAnswered P.json (Separators.parts newline (accountOf c tr).taken) (accountOf c tr)) ∧
      ∀ p, s.process c = some p → ∀ (C : ClientJson) socketPath hello, helloToLine C .registerAgent = .ok hello →
        ∃ own, (Agent.runAgent P.json C socketPath (rounds c)).Follows (Agent.registered socketPath hello ++ own)
          p.program := by
  have haccount := run_accounted hrun c
  refine ⟨haccount.answering, fun hwaiting => ?_, fun p hp C socketPath hello hhello => ?_⟩
  · obtain ⟨p, hp, hwaits⟩ := (Option.any_eq_true _ _).mp hwaiting
    exact (haccount.standing p hp).settled hwaits
  · obtain ⟨own, hown⟩ := haccount.follows p hp
    exact ⟨own, (Agent.runAgent_registered P.json (rounds c) hhello).trans hown⟩

end Run

/-- At the end of the run with two clicks the agent waits, and its two dialogs are answered. -/
theorem clickRun_answered :
    ∃ c, clickRun = some c ∧
      (accountOf 7 c.trace).dialogs = [("zenity" :: Agent.zenityArgs (promptOf idRequest), .allow),
        ("zenity" :: Agent.zenityArgs wipePrompt, .allow)] ∧
      Answering latePlatform.json (Separators.parts newline (accountOf 7 c.trace).taken) (accountOf 7 c.trace) ∧
      AllAnswered latePlatform.json (Separators.parts newline (accountOf 7 c.trace).taken) (accountOf 7 c.trace) := by
  obtain ⟨c, hc, hrun, -⟩ := clickRun_steps
  obtain ⟨hanswering, hsettled, -⟩ := agent_answers_in_order hrun 7
  refine ⟨c, hc, ?_, hanswering, hsettled ?_⟩
  · obtain rfl := Option.some.inj hc
    decide +kernel
  · obtain rfl := Option.some.inj hc
    decide +kernel

end Sudix
