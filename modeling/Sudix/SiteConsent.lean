import Sudix.DaemonConsent
import Sudix.SingleDialog

/-! Nothing is executed without a click. What is known of the abstract agents' answers is known of real agents:
before a command is executed, zenity has been asked about that very command and has exited with 0. -/

namespace Sudix

open Concurrent

variable {P : Platform} {registerWait awaitRounds : Nat} {approvalMutex : Bool} {d : Daemon} {rounds : Conn → Nat}
  {s : Site} {ps : Pool (sig P) Tid (Except IoError Unit)} {tr : Trace (sig P) Site Tid SiteEvent}
  {tr' : Trace (sig P) Daemon Tid Env}

/-- The command `argv` of worker `u` is allowed by a click, on an agent with the uid of the worker's caller. -/
def ClickedFor (uidOf : Conn → Uid) (u : Tid) (argv : List String) (st : Step (sig P) Site Tid SiteEvent) : Prop :=
  ∃ c q, Clicked c q st ∧ q.argv = argv ∧ uidOf c = uidOf u

theorem label_of_seenAtDaemon {t : Tid} {event : Event (sig P)} {st : Step (sig P) Daemon Tid Env}
    (h : seenAtDaemon st = some (.operation t event)) : st.label = .thread t event := by
  obtain ⟨pre, label, post⟩ := st
  unfold seenAtDaemon at h
  split at h
  · rename_i hlabel
    obtain ⟨rfl, rfl⟩ := Seen.operation.inj (Option.some.inj h)
    exact hlabel
  · split at h <;> cases h
  · cases h

theorem label_of_seenAtSite {t : Tid} {event : Event (sig P)} {st : Step (sig P) Site Tid SiteEvent}
    (h : seenAtSite st = some (.operation t event)) : st.label = .thread t event := by
  obtain ⟨pre, label, post⟩ := st
  unfold seenAtSite at h
  split at h
  · rename_i hlabel
    obtain ⟨rfl, rfl⟩ := Seen.operation.inj (Option.some.inj h)
    exact hlabel
  · obtain ⟨r, -, heq⟩ := Option.map_eq_some_iff.mp h
    cases heq
  · cases h

theorem seenAtDaemon_of_label {t : Tid} {event : Event (sig P)} {st : Step (sig P) Daemon Tid Env}
    (h : st.label = .thread t event) : seenAtDaemon st = some (.operation t event) := by
  simp only [seenAtDaemon, h]

theorem seenAtSite_of_label {t : Tid} {event : Event (sig P)} {st : Step (sig P) Site Tid SiteEvent}
    (h : st.label = .thread t event) : seenAtSite st = some (.operation t event) := by
  simp only [seenAtSite, h]

theorem history_seen (h : tr'.filterMap seenAtDaemon = tr.filterMap seenAtSite) {t : Tid} {event : Event (sig P)}
    (hmem : event ∈ history t tr') : event ∈ history t tr := by
  obtain ⟨st', hst', hlabel⟩ := mem_history.mp hmem
  have hseen : Seen.operation t event ∈ tr.filterMap seenAtSite := by
    rw [← h]
    exact List.mem_filterMap.mpr ⟨st', hst', seenAtDaemon_of_label hlabel⟩
  obtain ⟨st, hst, hshown⟩ := List.mem_filterMap.mp hseen
  exact mem_history.mpr ⟨st, hst, label_of_seenAtSite hshown⟩

theorem records_of_seen (h : tr'.filterMap seenAtDaemon = tr.filterMap seenAtSite) {u : Tid} {argv : List String}
    {before' after' : Trace (sig P) Daemon Tid Env} {st' : Step (sig P) Daemon Tid Env}
    (hsplit : tr' = before' ++ st' :: after') (hrecords : Records u argv st') :
    ∃ before st after, tr = before ++ st :: after ∧ Records u argv st ∧
      before'.filterMap seenAtDaemon = before.filterMap seenAtSite := by
  obtain ⟨scopes, ruleIndex, hlabel⟩ := hrecords
  obtain ⟨before, st, after, rfl, hshown, hbefore⟩ := split_shown h hsplit (seenAtDaemon_of_label hlabel)
  exact ⟨before, st, after, rfl, ⟨scopes, ruleIndex, label_of_seenAtSite hshown⟩, hbefore⟩

theorem clickedFor_of_seen (h : tr'.filterMap seenAtDaemon = tr.filterMap seenAtSite) {uidOf : Conn → Uid} {u : Tid}
    {argv : List String} (hallowed : Once (fun _ st' => AllowedFor uidOf u argv st') tr') :
    Once (fun _ st => ClickedFor uidOf u argv st) tr := by
  obtain ⟨before', st', after', hsplit, c, q, ⟨hlabel, hdialog⟩, hargv, huid⟩ := hallowed
  have hshown : seenAtDaemon st' = some (.dialog c ("zenity" :: Agent.zenityArgs q) .allow) := by
    simp only [seenAtDaemon, hlabel, hdialog]
  obtain ⟨before, st, after, rfl, hclick, -⟩ := split_shown h hsplit hshown
  exact ⟨before, st, after, rfl, c, q, clicked_of_seen hclick, hargv, huid⟩

/-- **Nothing is executed without a click.** In every run of the daemon's workers among real agents in which the
stream of an agent is idle whenever it is taken: before a command is executed, a worker has recorded its approval, and
before that a user with the uid of that worker's caller has allowed exactly this command in a dialog of zenity. It is
the worker that executes the command, or else that one has found the approval in the cache. -/
theorem executed_by_click
    (hrun : Run (siteWorld P) (Site.ofDaemon P d rounds) (workers P (.agent registerWait awaitRounds) approvalMutex)
      tr s ps)
    (hlaw : P.json.Lawful) (hagents : d.registry = fun _ => none) (hempty : d.approvals = ApprovalState.new)
    (hfree : ∀ c, d.holder (.stream c) = none) (hidle : ∀ c, ∀ st ∈ tr, takesAtSite c st = true → st.pre.Idle c) :
    Every (fun before (st : Step (sig P) Site Tid SiteEvent) => ∀ t program args dir result,
      st.label = .thread t ⟨.spawn program args dir, result⟩ →
        ∃ u, Once (fun before' st' => Records u (program :: args) st' ∧
            Once (fun _ st'' => ClickedFor d.uidOf u (program :: args) st'') before') before ∧
          (u = t ∨ ∃ scopes ruleIndex,
            ⟨.checkCache scopes ruleIndex (program :: args), .hit⟩ ∈ history t before)) tr := by
  obtain ⟨tr', d', hrun', -, hseen, hoperations⟩ := site_simulates.run (ofDaemon_linked d rounds) hrun
  have hidle' : ∀ c, Every (IdleWhenTaken c) tr' := by
    intro c before st' after heq t poisoned hlabel
    obtain ⟨st, hst, hlabel', hlinked⟩ := hoperations st' (by simp [heq]) t _ hlabel
    exact hlinked.idle (hidle c st hst (by simp [takesAtSite, hlabel']))
  intro before st after heq t program args dir result hlabel
  obtain ⟨before', st', after', hsplit, hshown, hsame⟩ := split_shown hseen.symm heq (seenAtSite_of_label hlabel)
  obtain ⟨u, ⟨earlier', record', later', rfl, hrecords, hallowed⟩, hcached⟩ :=
    execution_answered hrun' hlaw hagents hfree hidle' hempty before' st' after' hsplit t program args dir result
      (label_of_seenAtDaemon hshown)
  refine ⟨u, ?_, ?_⟩
  · obtain ⟨earlier, record, later, rfl, hrecord, hearlier⟩ := records_of_seen hsame.symm rfl hrecords
    exact ⟨earlier, record, later, rfl, hrecord, clickedFor_of_seen hearlier hallowed⟩
  · rcases hcached with hown | ⟨scopes, ruleIndex, hmem⟩
    · exact .inl hown
    · exact .inr ⟨scopes, ruleIndex, history_seen hsame.symm hmem⟩

/-- A step that takes a stream takes an idle one. -/
def takesIdleAtSite (st : Step (sig P) Site Tid SiteEvent) : Bool :=
  match st.label with
  | .thread _ ⟨.lock (.stream c), _⟩ => st.pre.Idle c
  | _ => true

theorem idle_of_takesIdleAtSite {st : Step (sig P) Site Tid SiteEvent} (h : takesIdleAtSite st = true) {c : Conn}
    (htakes : takesAtSite c st = true) : st.pre.Idle c := by
  obtain ⟨pre, label, post⟩ := st
  cases label with
  | env event => cases htakes
  | thread t event =>
      obtain ⟨op, answer⟩ := event
      cases op with
      | lock l =>
          obtain rfl : l = .stream c := of_decide_eq_true htakes
          exact of_decide_eq_true h
      | _ => cases htakes

theorem dialogPlatform_lawful : dialogPlatform.json.Lawful :=
  SerdeJson.ofTables_lawful (by decide +kernel) (by decide +kernel)

/-- Connection 1 is the agent; the others bring commands, whose approvals are cached for a minute. -/
def consentDaemon : Daemon :=
  { reconnectDaemon with
    current := ⟨⟨reconnectDaemon.current.bundle.policy, [⟨60, 0⟩], [1000]⟩, 0⟩
    channel := fun c => if c = 1 then { arrived registerLine with peer := .agent .reading } else arrived idLine }

/-- The agent registers, the command of connection 0 is prompted and clicked on, and that of connection 2 is
cached. -/
def consentMoves : List (Move (siteWorld dialogPlatform)) :=
  List.replicate 11 (.thread 1 (smooth 26 .denied)) ++ List.replicate 20 (.thread 0 (smooth 55 .denied)) ++
    [.env (.move 1 (.fill 5)), .env (.move 1 (.fill 4096)), .env (.move 1 .readLine),
      .env (.move 1 (.status (.ok (some 0)))), .env (.move 1 (.send 100)), .env (.move 1 .sent),
      .env (.move 1 (.flush (.ok ())))] ++
    List.replicate 5 (.thread 0 (smooth 20 .denied)) ++ List.replicate 15 (.thread 2 (smooth 55 .denied))

def consentRun : Option (Point (sig dialogPlatform) Site Tid SiteEvent (Except IoError Unit)) :=
  replay (siteWorld dialogPlatform) ⟨[], Site.ofDaemon dialogPlatform consentDaemon fun _ => 1, dialogWorkers⟩
    consentMoves

/-- Whether a step executes `id` for thread `t`. -/
def executesId (t : Tid) (st : Step (sig P) Site Tid SiteEvent) : Bool :=
  match st.label with
  | .thread u ⟨.spawn program args _, _⟩ => u = t && program = "id" && args = []
  | _ => false

theorem consentRun_steps :
    ∃ c, consentRun = some c ∧
      Run (siteWorld dialogPlatform) (Site.ofDaemon dialogPlatform consentDaemon fun _ => 1) dialogWorkers c.trace
        c.state c.pool ∧ (∀ st ∈ c.trace, takesIdleAtSite st = true) ∧
      c.trace.any (executesId 0) = true ∧ c.trace.any (executesId 2) = true := by
  obtain ⟨c, hc⟩ : ∃ c, consentRun = some c := ⟨_, rfl⟩
  refine ⟨c, hc, run_of_replay .start hc, ?_⟩
  obtain rfl := Option.some.inj hc
  exact ⟨by decide +kernel, by decide +kernel, by decide +kernel⟩

/-- Both executions of that run are covered by the one click. -/
theorem consentRun_clicked :
    ∃ c, consentRun = some c ∧ c.trace.any (executesId 0) = true ∧ c.trace.any (executesId 2) = true ∧
      Every (fun before (st : Step (sig dialogPlatform) Site Tid SiteEvent) => ∀ t program args dir result,
        st.label = .thread t ⟨.spawn program args dir, result⟩ →
          ∃ u, Once (fun before' st' => Records u (program :: args) st' ∧
              Once (fun _ st'' => ClickedFor consentDaemon.uidOf u (program :: args) st'') before') before ∧
            (u = t ∨ ∃ scopes ruleIndex,
              ⟨.checkCache scopes ruleIndex (program :: args), .hit⟩ ∈ history t before)) c.trace := by
  obtain ⟨c, hc, hrun, hidle, hfirst, hsecond⟩ := consentRun_steps
  refine ⟨c, hc, hfirst, hsecond, ?_⟩
  exact executed_by_click hrun dialogPlatform_lawful rfl rfl (fun _ => rfl) fun _ st hst =>
    idle_of_takesIdleAtSite (hidle st hst)

end Sudix
