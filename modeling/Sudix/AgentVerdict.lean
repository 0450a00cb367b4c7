import Sudix.Separators
import Sudix.StreamHolder

/-! The verdict a prompt is answered with. What has been read of an answer decodes to the verdict of
that answer or to none, so a prompt in step is allowed only where the user has allowed it; and a
prompt out of step is not. -/

namespace Sudix

open Concurrent

variable {P : Platform} {c : Conn} {p : Tid → Prompt} {s₀ s : Daemon} {ps : Pool (sig P) Tid Approval}
  {tr : Trace (sig P) Daemon Tid Env} {own : History (sig P)} {t : Tid}

/-- No read brings more bytes than it asked for. -/
theorem recv_length {α : Type} {p₀ qs : Pool (sig P) Tid α} (hrun : Run (world P) s₀ p₀ tr s qs) :
    ∀ n bytes, ⟨.recv c n, .ok bytes⟩ ∈ history t tr → bytes.length ≤ n := by
  intro n bytes hmem
  obtain ⟨before, pre, post, after, _, rfl, -, hlegal⟩ := hrun.split_event hmem
  obtain ⟨choice, hact⟩ := legal_act hlegal
  cases choice with
  | data k =>
      simp only [act] at hact
      split at hact
      · rename_i hk
        cases hact
        rw [List.length_map]
        exact Nat.le_trans (List.length_take_le _ _) hk.2.1
      · cases hact
  | eof =>
      simp only [act] at hact
      split at hact
      · cases hact
        simp
      · cases hact
  | error e => cases hact

section Line

variable {chunk : Nat → Nat} {limit : Nat} (hchunk : ∀ r, chunk r ≤ r)
  (hlen : ∀ n bytes, ⟨.recv c n, .ok bytes⟩ ∈ own → bytes.length ≤ n)

include hchunk hlen

/-- What a read brings fits into what is left of the limit. -/
theorem take_room {room : Nat} {bytes : List UInt8} (hmem : ⟨.recv c (chunk room), .ok bytes⟩ ∈ own) :
    bytes.take room = bytes :=
  List.take_of_length_le (Nat.le_trans (hlen _ _ hmem) (hchunk room))

theorem bytes_of_reading {line : List UInt8} (h : Reading c chunk limit own line) :
    received own = line ∧ newline ∉ line := by
  induction h with
  | start => exact ⟨rfl, by simp⟩
  | @more own line bytes _ hlt hnl hne ih =>
      obtain ⟨hline, hnone⟩ := ih fun n bytes hmem => hlen n bytes (List.mem_append_left _ hmem)
      rw [take_room hchunk hlen (List.mem_append_right _ List.mem_cons_self)] at hnl ⊢
      refine ⟨?_, by simp [hnone, hnl]⟩
      rw [received_append, hline]
      simp [received]

/-- A line ends at the first newline among what has been read, or has none. -/
theorem bytes_of_readDone {result : List UInt8} (h : ReadDone c chunk limit own (.ok result)) :
    received own = result ∧ newline ∉ result ∨
      ∃ line rest, newline ∉ line ∧ received own = line ++ newline :: rest ∧ result = line ++ [newline] := by
  cases h with
  | full hreading _ => exact .inl (bytes_of_reading hchunk hlen hreading)
  | @newline own line bytes hreading hlt hnl =>
      obtain ⟨hline, hnone⟩ := bytes_of_reading hchunk
        (fun n bytes hmem => hlen n bytes (List.mem_append_left _ hmem)) hreading
      rw [take_room hchunk hlen (List.mem_append_right _ List.mem_cons_self)] at hnl ⊢
      obtain ⟨front, rest, rfl, hfront⟩ := List.eq_append_cons_of_mem hnl
      rw [Separators.takeWhile_cut hfront]
      refine .inr ⟨line ++ front, rest, by simp [hnone, hfront], ?_, rfl⟩
      rw [received_append, hline, List.append_assoc]
      simp [received]
  | @eof own _ bytes hreading hlt hnil =>
      obtain ⟨hline, hnone⟩ := bytes_of_reading hchunk
        (fun n bytes hmem => hlen n bytes (List.mem_append_left _ hmem)) hreading
      rw [take_room hchunk hlen (List.mem_append_right _ List.mem_cons_self)] at hnil
      subst hnil
      refine .inl ⟨?_, hnone⟩
      rw [received_append, hline]
      simp [received]

end Line

/-- Of a line's bytes, a reader gets the whole line or a beginning of its text. -/
theorem line_of_bytes {chunk : Nat → Nat} {limit : Nat} {result text rest : List UInt8}
    (hchunk : ∀ r, chunk r ≤ r) (hlen : ∀ n bytes, ⟨.recv c n, .ok bytes⟩ ∈ own → bytes.length ≤ n)
    (h : ReadDone c chunk limit own (.ok result)) (hbytes : received own ++ rest = text ++ [newline])
    (htext : newline ∉ text) : result = text ++ [newline] ∨ ∃ n, result = text.take n := by
  rcases bytes_of_readDone hchunk hlen h with ⟨hall, hnone⟩ | ⟨line, later, hnone, hread, rfl⟩
  · right
    rw [hall] at hbytes
    rcases List.prefix_concat_iff.mp ⟨rest, hbytes⟩ with heq | hprefix
    · exact absurd (heq ▸ List.mem_append_right _ List.mem_cons_self) hnone
    · exact ⟨_, List.prefix_iff_eq_take.mp hprefix⟩
  · left
    -- both sides are cut at their first newline
    rw [hread, List.append_assoc, List.cons_append] at hbytes
    rw [(Separators.cut_first hnone htext hbytes).1]

/-- **A verdict that is read is the one that was given.** -/
theorem LineDone.verdict (hlaw : P.json.Lawful) {answer line : String} {v v' : Verdict} {rest : List UInt8}
    (hlen : ∀ n bytes, ⟨.recv c n, .ok bytes⟩ ∈ own → bytes.length ≤ n)
    (h : LineDone c (min bufCapacity) maxVerdictBytes own (.ok answer)) (hline : v.toLine P.json = .ok line)
    (hbytes : received own ++ rest = utf8 line) (hdecode : Verdict.fromLine P.json answer = .ok v') :
    v' = v := by
  obtain ⟨text, htext, hutf8, hnl⟩ := hlaw.verdict.utf8_line hline
  rw [hutf8] at hbytes
  cases h with
  | @ok result _ hdone hanswer =>
      have hresult := utf8_of_fromUtf8 hanswer
      rcases line_of_bytes (fun r => Nat.min_le_right _ _) hlen hdone hbytes hnl with hwhole | ⟨n, htake⟩
      · obtain rfl : answer = line := utf8_injective (by rw [hresult, hwhole, hutf8])
        rw [Verdict.fromLine_toLine hlaw hline] at hdecode
        exact (Except.ok.inj hdecode).symm
      · by_cases hn : n < (utf8 text).length
        · rw [htake] at hanswer
          exact absurd hdecode (hlaw.verdict.truncated v text n answer v' htext hn hanswer)
        · rw [List.take_of_length_le (Nat.le_of_not_lt hn)] at htake
          obtain rfl : answer = text := utf8_injective (by rw [hresult, htake])
          rw [Verdict.fromLine, hlaw.verdict.trimmed v answer htext,
            hlaw.verdict.roundTrip v answer htext] at hdecode
          exact (Except.ok.inj hdecode).symm

theorem LineDone.eq_empty {answer : String} (hlen : ∀ n bytes, ⟨.recv c n, .ok bytes⟩ ∈ own → bytes.length ≤ n)
    (h : LineDone c (min bufCapacity) maxVerdictBytes own (.ok answer)) (hnothing : received own = []) :
    answer = "" := by
  cases h with
  | ok hdone hanswer =>
      have hresult := utf8_of_fromUtf8 hanswer
      rcases bytes_of_readDone (fun r => Nat.min_le_right _ _) hlen hdone with
        ⟨hall, -⟩ | ⟨line, later, -, hread, -⟩
      · refine utf8_injective ?_
        rw [hresult, ← hall, hnothing]
        rfl
      · rw [hnothing] at hread
        simp at hread

theorem received_sent (line : String) : received (sent c line : History (sig P)) = [] := rfl

/-- What a prompt in step has received before its stream is read is nothing. -/
theorem received_prompted {before : History (sig P)} {line : String} (hbefore : ∀ e ∈ before, e.op.stream = none) :
    received (before ++ ⟨.lock (.stream c), false⟩ :: (sent c line ++ own)) = received own := by
  rw [received_append, received_eq_nil hbefore, ← List.singleton_append, received_append, received_append,
    received_sent]
  rfl

/-- A prompt that has read a verdict has read the one its own dialog was answered with. -/
theorem InStep.answered_once {q : Prompt} {ch : Channel} (before : History (sig P)) {line answer : String}
    {v : Verdict} (hlaw : P.json.Lawful) (hbefore : ∀ e ∈ before, e.op.stream = none)
    (h : InStep c q t tr (before ++ ⟨.lock (.stream c), false⟩ :: (sent c line ++ own)) ch)
    (hlen : ∀ n bytes, ⟨.recv c n, .ok bytes⟩ ∈ own → bytes.length ≤ n)
    (hread : LineDone c (min bufCapacity) maxVerdictBytes own (.ok answer)) (hne : answer ≠ "")
    (hdecode : Verdict.fromLine P.json answer = .ok v) : Once (fun _ st => Answers c q t v st) tr := by
  have hexchange := h.exchange (utf8 line) (by simp [sent])
  rw [received_prompted hbefore] at hexchange
  generalize hbytes : received own = bytes at hexchange
  cases hexchange with
  | unread _ | asked | unanswered | leftUnanswered => exact absurd (hread.eq_empty hlen hbytes) hne
  | answering hpart | answered hpart | left hpart =>
      obtain ⟨v', line', hline', hwhole, honce⟩ := hpart
      rw [← hbytes, List.append_assoc] at hwhole
      rwa [hread.verdict hlaw hlen hline' hwhole hdecode]

section Run

variable (hrun : Run (world P) s₀ (prompts P c p) tr s ps)

include hrun

theorem prompts_holder (hfree : s₀.holder (.stream c) = none) (t : Tid) :
    s.holder (.stream c) = some t ↔ Holding c (history t tr) :=
  holder_iff hrun prompts_meets (fun t => promptStage_promptsOn c (p t)) hfree t

theorem prompts_inStep (hlaw : P.json.Lawful) (hfree : s₀.holder (.stream c) = none)
    (hidle : Every (IdleWhenTaken c) tr) (t : Tid) (hheld : s.holder (.stream c) = some t) :
    InStep c (p t) t tr (history t tr) (s.channel c) :=
  holder_inStep hrun prompts_meets (fun t => promptStage_promptsOn c (p t)) hlaw hfree t
    (hidle.mono fun _ _ h poisoned hlabel => h t poisoned hlabel) hheld

theorem readsOwnAnswer (hlaw : P.json.Lawful) (hfree : s₀.holder (.stream c) = none)
    (hidle : Every (IdleWhenTaken c) tr) : Every (ReadsOwnAnswer c) tr := by
  rintro before ⟨pre, label, post⟩ after rfl t n bytes hlabel b hb
  obtain rfl : label = _ := hlabel
  have hstage := hrun.every_pre prompts_meets before _ after rfl t _ rfl
  obtain ⟨⟨ps', hbefore⟩, -⟩ := hrun.before
  rcases hstage.holding with ⟨-, hlock⟩ | ⟨hholding, hunlock | ⟨own', hown, hlocked⟩⟩
  · cases hlock
  · cases hunlock
  · have hheld := (prompts_holder hbefore hfree t).mpr hholding
    have hstep := prompts_inStep hbefore hlaw hfree hidle.of_append t hheld
    cases hlocked with
    | @read line _ _ _ _ =>
        have hwritten : (⟨.writeAll c (utf8 line), .ok ()⟩ : Event (sig P)) ∈ history t before := by
          simp [hown, sent]
        exact (hstep.exchange _ hwritten).tags b (List.mem_of_mem_take hb)

theorem allowedByOwnDialog (hlaw : P.json.Lawful) (hfree : s₀.holder (.stream c) = none)
    (hidle : Every (IdleWhenTaken c) tr) : AllowedByOwnDialog c p tr ps := by
  intro t hallowed
  have hdone : PromptDone c (p t) (history t tr) .allowed := hrun.result prompts_meets hallowed
  generalize hown : history t tr = whole at hdone
  generalize happroval : Approval.allowed = approval at hdone
  cases hdone with
  | poisoned => cases happroval
  | @released own' _ hlocked =>
      subst happroval
      have hunlock : (⟨.unlock (.stream c), ()⟩ : Event (sig P)) ∈ history t tr := by
        rw [hown]
        simp
      obtain ⟨before, pre, post, after, ps', rfl, hbefore, hlegal⟩ := hrun.split_event hunlock
      -- the section ends with its only unlock
      rw [history_split rfl] at hown
      have hsection : history t before = ⟨.lock (.stream c), false⟩ :: own' :=
        eq_of_append_cons_eq_concat hown fun hmem => (holding_locked hlocked.ops).2 _ hmem rfl
      generalize hallowed : Approval.allowed = approval at hlocked
      cases hlocked with
      | answered hline hread hne =>
          have hstep := prompts_inStep hbefore hlaw hfree hidle.of_append t (legal_unlock hlegal).1
          have hlen := recv_length (c := c) (t := t) hbefore
          rw [hsection] at hstep hlen
          refine Once.append (InStep.answered_once [] hlaw (by simp) hstep (fun n bytes hmem => ?_)
            hread hne (approvalOf_allowed hallowed.symm)) _
          exact hlen n bytes (List.mem_cons_of_mem _ (List.mem_append_right _ hmem))
      | _ => cases hallowed

/-- **Verdict and prompt match.** Any number of prompts on one handle, with reads that time out and
writes that fail at any point: as long as the stream is idle whenever a prompt takes it, the bytes a
prompt reads answer its own dialog, and a prompt that is allowed has been allowed in its own dialog. -/
theorem verdict_matches_prompt (hlaw : P.json.Lawful) (hfree : s₀.holder (.stream c) = none)
    (hidle : Every (IdleWhenTaken c) tr) :
    Every (ReadsOwnAnswer c) tr ∧ AllowedByOwnDialog c p tr ps :=
  ⟨readsOwnAnswer hrun hlaw hfree hidle, allowedByOwnDialog hrun hlaw hfree hidle⟩

end Run

/-- Whether a step takes the stream. -/
def takesStream (c : Conn) (st : Step (sig P) Daemon Tid Env) : Bool :=
  match st.label with
  | .thread _ ⟨.lock l, _⟩ => l = .stream c
  | _ => false

theorem idleWhenTaken_of_forall (h : ∀ st ∈ tr, takesStream c st = true → Idle (st.pre.channel c)) :
    Every (IdleWhenTaken c) tr := by
  intro before st after heq t poisoned hlabel
  exact h st (by simp [heq]) (by simp [takesStream, hlabel])

def wipePrompt : Prompt := ⟨["rm", "-rf", "/srv"], "/", ""⟩

def wipePromptLine : String := "\x7b\"argv\":[\"rm\",\"-rf\",\"/srv\"],\"cwd\":\"/\",\"reason\":\"\"\x7d"

def latePrompts (t : Tid) : Prompt := if t = 0 then promptOf idRequest else wipePrompt

def lateTexts : List (Prompt × String) := [(promptOf idRequest, idPromptLine), (wipePrompt, wipePromptLine)]

def latePlatform : Platform :=
  { Platform.bare with json := SerdeJson.ofTables [] lateTexts [(.allow, allowLine)] [] }

theorem latePlatform_lawful : latePlatform.json.Lawful :=
  SerdeJson.ofTables_lawful (by decide +kernel) (by decide +kernel)

def lateDaemon : Daemon :=
  Daemon.start (.error "") ⟨.ok, fun _ => true⟩ ⟨⟨[], []⟩, [], []⟩ none (fun _ => 1000)
    (fun _ => ⟨[], [], .agent .reading⟩) 0 0

def lateCalls : Pool (sig latePlatform) Tid Approval := prompts latePlatform 7 latePrompts

/-- A prompt and its verdict, without a failure. -/
def roundTrip (t : Tid) : List (Move (world latePlatform)) :=
  List.replicate 4 (.thread t (smooth 0 .denied)) ++
    [.env (.agentRead 7), .env (.agentAnswer 7 .allow), .env (.agentWrite 7 20)] ++
    List.replicate 2 (.thread t (smooth 20 .denied))

/-- The first prompt times out while its dialog is open. The second one, which has waited for the
stream, reads the answer to that dialog. -/
def lateRun : Option (Point (sig latePlatform) Daemon Tid Env Approval) :=
  replay (world latePlatform) ⟨[], lateDaemon, lateCalls⟩
    (List.replicate 4 (.thread 0 (smooth 0 .denied)) ++ [.env (.agentRead 7), .thread 0 timingOut] ++
      List.replicate 2 (.thread 0 (smooth 0 .denied)) ++ List.replicate 4 (.thread 1 (smooth 0 .denied)) ++
      [.env (.agentAnswer 7 .allow), .env (.agentWrite 7 20)] ++
      List.replicate 2 (.thread 1 (smooth 20 .denied)))

theorem lateRun_steps :
    ∃ c, lateRun = some c ∧ Run (world latePlatform) lateDaemon lateCalls c.trace c.state c.pool ∧
      c.pool 1 = .ret .allowed ∧
      ∀ st ∈ c.trace, (st.pre.channel 7).peer ≠ .agent (.dialog (latePrompts 1) 1) := by
  obtain ⟨c, hc⟩ : ∃ c, lateRun = some c := ⟨_, rfl⟩
  refine ⟨c, hc, run_of_replay .start hc, ?_⟩
  obtain rfl := Option.some.inj hc
  exact ⟨rfl, by decide +kernel⟩

/-- The wipe is allowed, and no dialog has ever shown it. -/
theorem allowed_by_other_dialog :
    latePlatform.json.Lawful ∧
      ∃ c, lateRun = some c ∧ Run (world latePlatform) lateDaemon lateCalls c.trace c.state c.pool ∧
        c.pool 1 = .ret .allowed ∧ ¬ AllowedByOwnDialog 7 latePrompts c.trace c.pool := by
  obtain ⟨c, hc, hrun, hallowed, hnever⟩ := lateRun_steps
  refine ⟨latePlatform_lawful, c, hc, hrun, hallowed, fun hown => ?_⟩
  obtain ⟨before, st, after, heq, -, hdialog⟩ := hown 1 hallowed
  exact hnever st (by simp [heq]) hdialog

/-- Two prompts one after the other, both answered. -/
def timelyRun : Option (Point (sig latePlatform) Daemon Tid Env Approval) :=
  replay (world latePlatform) ⟨[], lateDaemon, lateCalls⟩ (roundTrip 0 ++ roundTrip 1)

theorem timelyRun_matches :
    ∃ c, timelyRun = some c ∧ c.pool 1 = .ret .allowed ∧ Every (ReadsOwnAnswer 7) c.trace ∧
      AllowedByOwnDialog 7 latePrompts c.trace c.pool := by
  obtain ⟨c, hc⟩ : ∃ c, timelyRun = some c := ⟨_, rfl⟩
  have hrun : Run (world latePlatform) lateDaemon lateCalls c.trace c.state c.pool := run_of_replay .start hc
  have hidle : Every (IdleWhenTaken 7) c.trace := by
    refine idleWhenTaken_of_forall ?_
    obtain rfl := Option.some.inj hc
    decide +kernel
  refine ⟨c, hc, ?_, verdict_matches_prompt hrun latePlatform_lawful rfl hidle⟩
  obtain rfl := Option.some.inj hc
  rfl

end Sudix
