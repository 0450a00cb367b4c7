import Sudix.AgentRefinement

/-! Allowed by a click. What is known of the abstract agent's dialogs is known of real agents: a prompt that finds
the stream at rest is allowed only by zenity, called with the text of that prompt and exited with 0. -/

namespace Sudix

open Concurrent

variable {P : Platform} {c : Conn} {p : Tid → Prompt} {d : Daemon} {rounds : Conn → Nat} {s : Site}
  {ps : Pool (sig P) Tid Approval} {tr : Trace (sig P) Site Tid SiteEvent}

/-- A process that waits for the next line, with nothing of it taken yet. -/
def Process.waits (p : Process) : Bool :=
  match p.program with
  | .call .readLine _ => p.pending.isEmpty
  | _ => false

/-- Nothing is under way on a stream: no byte in either direction, and an agent that is still there waits. -/
def Site.Idle (s : Site) (c : Conn) : Prop :=
  (s.daemon.channel c).toDaemon = [] ∧ ((s.daemon.channel c).peer = .gone ∨
    (s.daemon.channel c).toPeer = [] ∧ (s.process c).any Process.waits = true)

instance (s : Site) (c : Conn) : Decidable (s.Idle c) := inferInstanceAs (Decidable (_ ∧ _))

/-- Whether a step takes the stream. -/
def takesAtSite (c : Conn) (st : Step (sig P) Site Tid SiteEvent) : Bool :=
  match st.label with
  | .thread _ ⟨.lock l, _⟩ => l = .stream c
  | _ => false

/-- Zenity is asked on connection `c` about `q`, and exits with 0. -/
def Clicked (c : Conn) (q : Prompt) (st : Step (sig P) Site Tid SiteEvent) : Prop :=
  st.label = .env (.move c (.status (.ok (some 0)))) ∧
    ∃ p next, st.pre.process c = some p ∧ p.program = .call (.status "zenity" (Agent.zenityArgs q)) next

theorem Standing.reading {J : SerdeJson} {sent : Nat} {asker : Tid} {q : AgentProg (Except String Unit)} {peer : Peer}
    (h : Standing J sent asker q peer) {pending : List (UInt8 × Tid)}
    (hwaits : Process.waits ⟨q, pending, sent, asker⟩ = true) : peer = .agent .reading ∧ pending = [] := by
  cases h with
  | between rounds =>
      cases rounds with
      | zero => cases hwaits
      | succ rounds => exact ⟨rfl, List.isEmpty_iff.mp hwaits⟩
  | _ => cases hwaits

/-- A stream that is idle at the site is idle in the model. -/
theorem SiteLinked.idle {a : Daemon} (h : SiteLinked P s a) (hidle : s.Idle c) : Idle (a.channel c) := by
  have hlinked := h.channel c
  obtain ⟨hqueue, hpeer⟩ := hidle
  refine ⟨hlinked.toDaemon_eq.trans hqueue, hpeer.imp hlinked.gone fun hwaiting => ?_⟩
  obtain ⟨q, hq, hwaits⟩ := (Option.any_eq_true _ _).mp hwaiting.2
  rw [hq] at hlinked
  obtain ⟨peer, hstanding, -, ha⟩ := hlinked.held_inv
  obtain ⟨hreading, hpending⟩ := hstanding.reading hwaits
  rw [ha]
  exact ⟨hreading, by simp [hpending, hwaiting.1]⟩

theorem verdictFromStatus_allow {result : Except IoError (Option Int32)}
    (h : Agent.verdictFromStatus result = .allow) : result = .ok (some 0) := by
  cases result with
  | error e => cases h
  | ok code =>
      rw [Agent.verdictFromStatus] at h
      split at h
      · rename_i hzero
        rw [hzero]
      · cases h

theorem Process.dialog_inv {p : Process} {m : ProcessMove} {q : Prompt}
    (h : p.dialog m = some ("zenity" :: Agent.zenityArgs q, .allow)) :
    m = .status (.ok (some 0)) ∧ ∃ next, p.program = .call (.status "zenity" (Agent.zenityArgs q)) next := by
  unfold Process.dialog at h
  split at h
  · rename_i program args next result hprogram
    obtain ⟨hcommand, hverdict⟩ := Prod.mk.inj (Option.some.inj h)
    obtain ⟨rfl, rfl⟩ := List.cons.inj hcommand
    rw [verdictFromStatus_allow hverdict]
    exact ⟨rfl, next, hprogram⟩
  · cases h

theorem clicked_of_seen {q : Prompt} {st : Step (sig P) Site Tid SiteEvent}
    (h : seenAtSite st = some (.dialog c ("zenity" :: Agent.zenityArgs q) .allow)) : Clicked c q st := by
  obtain ⟨pre, label, post⟩ := st
  unfold seenAtSite at h
  cases label with
  | thread t event => cases h
  | env event =>
      cases event with
      | move c' m =>
          obtain ⟨⟨command, v⟩, hdialog, heq⟩ := Option.map_eq_some_iff.mp h
          obtain ⟨rfl, rfl, rfl⟩ := Seen.dialog.inj heq
          obtain ⟨p, hp, hends⟩ := Option.bind_eq_some_iff.mp hdialog
          obtain ⟨rfl, next, hprogram⟩ := Process.dialog_inv hends
          exact ⟨rfl, p, next, hp, hprogram⟩
      | _ => cases h

/-- Any number of prompts on the handle of one agent, with reads that time out and writes that fail at any point: as
long as the stream is idle whenever a prompt takes it, who is allowed has been allowed by a click in the dialog that
showed the text of its own prompt. -/
theorem allowed_by_click (hrun : Run (siteWorld P) (Site.ofDaemon P d rounds) (prompts P c p) tr s ps)
    (hlaw : P.json.Lawful) (hfree : d.holder (.stream c) = none)
    (hidle : ∀ st ∈ tr, takesAtSite c st = true → st.pre.Idle c) {t : Tid}
    (hallowed : ps t = .ret .allowed) : ∃ st ∈ tr, Clicked c (p t) st := by
  obtain ⟨tr', d', hrun', -, hseen, hoperations⟩ := site_simulates.run (ofDaemon_linked d rounds) hrun
  have hidle' : Every (IdleWhenTaken c) tr' := by
    intro before st' after heq t poisoned hlabel
    obtain ⟨st, hst, hlabel', hlinked⟩ := hoperations st' (by simp [heq]) t _ hlabel
    exact hlinked.idle (hidle st hst (by simp [takesAtSite, hlabel']))
  obtain ⟨before, st', after, rfl, hlabel, hdialog⟩ := allowedByOwnDialog hrun' hlaw hfree hidle' t hallowed
  have hshown : seenAtDaemon st' = some (.dialog c ("zenity" :: Agent.zenityArgs (p t)) .allow) := by
    simp only [seenAtDaemon, hlabel, hdialog]
  have hmem : Seen.dialog c ("zenity" :: Agent.zenityArgs (p t)) .allow ∈ tr.filterMap seenAtSite := by
    rw [← hseen]
    exact List.mem_filterMap.mpr ⟨st', by simp, hshown⟩
  obtain ⟨st, hst, hclick⟩ := List.mem_filterMap.mp hmem
  exact ⟨st, hst, clicked_of_seen hclick⟩

/-- In that run the stream is idle when it is taken. -/
theorem clickRun_idle :
    ∃ c, clickRun = some c ∧
      Run (siteWorld latePlatform) (Site.ofDaemon latePlatform lateDaemon fun _ => 3) lateCalls c.trace c.state c.pool ∧
      c.pool 0 = .ret .allowed ∧ c.pool 1 = .ret .allowed ∧
      ∀ st ∈ c.trace, takesAtSite 7 st = true → st.pre.Idle 7 := by
  obtain ⟨c, hc, hrun, hfirst, hsecond⟩ := clickRun_steps
  refine ⟨c, hc, hrun, hfirst, hsecond, ?_⟩
  obtain rfl := Option.some.inj hc
  decide +kernel

/-- Each of its two prompts is allowed by a click of its own. -/
theorem clickRun_clicked :
    ∃ c, clickRun = some c ∧ c.pool 0 = .ret .allowed ∧ c.pool 1 = .ret .allowed ∧
      (∃ st ∈ c.trace, Clicked 7 (latePrompts 0) st) ∧ ∃ st ∈ c.trace, Clicked 7 (latePrompts 1) st := by
  obtain ⟨c, hc, hrun, hfirst, hsecond, hidle⟩ := clickRun_idle
  exact ⟨c, hc, hfirst, hsecond, allowed_by_click hrun latePlatform_lawful rfl hidle hfirst,
    allowed_by_click hrun latePlatform_lawful rfl hidle hsecond⟩

end Sudix
