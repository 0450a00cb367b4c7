import Sudix.Wire
import Sudix.Workers

/-! The registry of live agents. An entry is the latest registration for its uid with no cleanup for
that uid since. A cleanup removes by uid, so it leaves the entries of the other connections alone as
long as no other connection has registered for the uid in the meantime. -/

namespace Sudix

open Concurrent

variable {P : Platform} {approver : Approver} {approvalMutex : Bool} {s₀ s : Daemon}
  {ps : Pool (sig P) Tid (Except IoError Unit)} {tr : Trace (sig P) Daemon Tid Env} {u : Uid} {c : Conn}

/-- Connection `c` becomes the live agent of uid `u`. -/
def Registers (u : Uid) (c : Conn) (st : Step (sig P) Daemon Tid Env) : Prop :=
  ∃ t, st.label = .thread t ⟨.insertAgent u c, ()⟩

/-- The entry of uid `u` is removed. -/
def Unregisters (u : Uid) (st : Step (sig P) Daemon Tid Env) : Prop :=
  ∃ t, st.label = .thread t ⟨.removeAgent u, ()⟩

/-- The entry of uid `u` is set or removed. -/
def ChangesEntry (u : Uid) (st : Step (sig P) Daemon Tid Env) : Prop :=
  (∃ c, Registers u c st) ∨ Unregisters u st

/-- A prompt on connection `c` signals that its agent is gone. -/
def Signals (c : Conn) (st : Step (sig P) Daemon Tid Env) : Prop :=
  ∃ t, st.label = .thread t ⟨.signalDisconnected c, ()⟩

section World

variable {α : Type} {p₀ qs : Pool (sig P) Tid α}

/-- What a step does to the entry of a uid. -/
theorem registry_cases {st : Step (sig P) Daemon Tid Env} (h : st.Legal (world P)) (u : Uid) :
    (∃ c, Registers u c st ∧ st.post.registry u = some c) ∨
      (Unregisters u st ∧ st.post.registry u = none) ∨
      ((∀ c, ¬ Registers u c st) ∧ ¬ Unregisters u st ∧ st.post.registry u = st.pre.registry u) := by
  obtain ⟨pre, label, post⟩ := st
  cases hw : writes Op.writesRegistry label with
  | false =>
      refine .inr (.inr ⟨?_, ?_, congrFun (legal_registry h hw) u⟩)
      · rintro c ⟨t, hlabel⟩
        obtain rfl : label = _ := hlabel
        cases hw
      · rintro ⟨t, hlabel⟩
        obtain rfl : label = _ := hlabel
        cases hw
  | true =>
      cases label with
      | env event => cases hw
      | thread t event =>
          obtain ⟨op, answer⟩ := event
          cases op with
          | insertAgent u' c =>
              have hpost : post.registry = _ := legal_insertAgent h
              by_cases hu : u = u'
              · subst hu
                exact .inl ⟨c, ⟨t, rfl⟩, by rw [hpost, Function.update_self]⟩
              · refine .inr (.inr ⟨?_, ?_, by rw [hpost, Function.update_of_ne hu]⟩)
                · rintro c' ⟨t', hlabel⟩
                  cases hlabel
                  exact hu rfl
                · rintro ⟨t', hlabel⟩
                  cases hlabel
          | removeAgent u' =>
              have hpost : post.registry = _ := legal_removeAgent h
              by_cases hu : u = u'
              · subst hu
                exact .inr (.inl ⟨⟨t, rfl⟩, by rw [hpost, Function.update_self]⟩)
              · refine .inr (.inr ⟨?_, ?_, by rw [hpost, Function.update_of_ne hu]⟩)
                · rintro c' ⟨t', hlabel⟩
                  cases hlabel
                · rintro ⟨t', hlabel⟩
                  cases hlabel
                  exact hu rfl
          | _ => cases hw

/-- **Registry entries are registrations.** In a run that starts with an empty registry, an entry is
the latest registration for its uid, and it has not been removed since. -/
theorem registry_kept (hrun : Run (world P) s₀ p₀ tr s qs) (hempty : s₀.registry = fun _ => none)
    (hentry : s.registry u = some c) :
    Since (fun st => ChangesEntry u st) (fun _ st => Registers u c st) tr := by
  revert hentry
  refine hrun.world_invariant (I := fun tr s => s.registry u = some c →
    Since (fun st => ChangesEntry u st) (fun _ st => Registers u c st) tr) ?_ ?_
  · intro hentry
    rw [hempty] at hentry
    cases hentry
  · intro tr st ih hlegal hentry
    rw [since_snoc]
    rcases registry_cases hlegal u with ⟨c', hreg, hpost⟩ | ⟨-, hpost⟩ | ⟨hreg, hremove, hpost⟩
    · rw [hpost] at hentry
      cases hentry
      exact .inl hreg
    · rw [hpost] at hentry
      cases hentry
    · rw [hpost] at hentry
      exact .inr ⟨ih hentry, fun h => h.elim (fun ⟨c', hc'⟩ => hreg c' hc') hremove⟩

theorem registry_since (hrun : Run (world P) s₀ p₀ tr s qs) (hempty : s₀.registry = fun _ => none)
    (hentry : s.registry u = some c) :
    Since (fun st => ∃ c', Registers u c' st) (fun _ st => Registers u c st) tr :=
  (registry_kept hrun hempty hentry).mono (fun _ _ => id) fun _ => .inl

/-- Once `c` has registered and no other connection since, the entry is that of `c` or gone. -/
theorem registry_of_since (hrun : Run (world P) s₀ p₀ tr s qs)
    (h : Since (fun st => ∃ c' ≠ c, Registers u c' st) (fun _ st => Registers u c st) tr) :
    s.registry u = none ∨ s.registry u = some c := by
  revert h
  refine hrun.world_invariant (I := fun tr s =>
    Since (fun st => ∃ c' ≠ c, Registers u c' st) (fun _ st => Registers u c st) tr →
      s.registry u = none ∨ s.registry u = some c) ?_ ?_
  · exact fun h => absurd h not_since_nil
  · intro tr st ih hlegal h
    rcases registry_cases hlegal u with ⟨c', hreg, hpost⟩ | ⟨-, hpost⟩ | ⟨hreg, -, hpost⟩
    · by_cases hc : c' = c
      · subst hc
        exact .inr hpost
      · rcases since_snoc.mp h with ⟨t, hlabel⟩ | ⟨-, hother⟩
        · obtain ⟨t', hlabel'⟩ := hreg
          rw [hlabel] at hlabel'
          cases hlabel'
          exact absurd rfl hc
        · exact absurd ⟨c', hc, hreg⟩ hother
    · exact .inl hpost
    · rw [hpost]
      rcases since_snoc.mp h with hnew | ⟨hold, -⟩
      · exact absurd hnew (hreg c)
      · exact ih hold

/-- A connection is marked disconnected by a signal only. -/
theorem once_signals (hrun : Run (world P) s₀ p₀ tr s qs) (hlive : s₀.disconnected = fun _ => false)
    (hgone : s.disconnected c = true) : Once (fun _ st => Signals c st) tr := by
  revert hgone
  refine hrun.world_invariant (I := fun tr s => s.disconnected c = true →
    Once (fun _ st => Signals c st) tr) ?_ ?_
  · intro hgone
    rw [hlive] at hgone
    cases hgone
  · rintro tr ⟨pre, label, post⟩ ih hlegal hgone
    cases hw : writes Op.writesDisconnected label with
    | false =>
        have hkeep : post.disconnected = pre.disconnected := legal_disconnected hlegal hw
        rw [hkeep] at hgone
        exact (ih hgone).append _
    | true =>
        cases label with
        | env event => cases hw
        | thread t event =>
            obtain ⟨op, answer⟩ := event
            cases op with
            | signalDisconnected c' =>
                by_cases hc : c = c'
                · subst hc
                  exact ⟨tr, _, [], rfl, t, rfl⟩
                · have hpost : post.disconnected = _ := legal_signalDisconnected hlegal
                  rw [hpost, Function.update_of_ne hc] at hgone
                  exact (ih hgone).append _
            | _ => cases hw

end World

/-- A cleanup comes before any other connection has registered for its uid, or finds no entry. -/
def OwnCleanup (before : Trace (sig P) Daemon Tid Env) (st : Step (sig P) Daemon Tid Env) : Prop :=
  ∀ t u, st.label = .thread t ⟨.removeAgent u, ()⟩ →
    st.pre.registry u = none ∨
      Since (fun st' => ∃ c ≠ t, Registers u c st') (fun _ st' => Registers u t st') before

/-- A cleanup keeps every entry of another connection. -/
def LeavesOthers (_before : Trace (sig P) Daemon Tid Env) (st : Step (sig P) Daemon Tid Env) : Prop :=
  ∀ t u, st.label = .thread t ⟨.removeAgent u, ()⟩ →
    ∀ v c, c ≠ t → st.pre.registry v = some c → st.post.registry v = some c

/-- The latest connection to register for a uid is its entry until its failure is signalled. -/
def StaysRegistered (tr : Trace (sig P) Daemon Tid Env) (s : Daemon) : Prop :=
  ∀ u c, Since (fun st => ∃ c', Registers u c' st) (fun _ st => Registers u c st) tr →
    ¬ Once (fun _ st => Signals c st) tr → s.registry u = some c

/-- A step that keeps the entries of others, and cleans up only after a signal, keeps live agents
registered. -/
theorem staysRegistered_step {st : Step (sig P) Daemon Tid Env} (hlegal : st.Legal (world P))
    (hstays : StaysRegistered tr st.pre) (hleaves : LeavesOthers tr st)
    (hsignalled : ∀ t u, st.label = .thread t ⟨.removeAgent u, ()⟩ → Once (fun _ st' => Signals t st') tr) :
    StaysRegistered (tr ++ [st]) st.post := by
  intro u c hsince hsignal
  have hold : Since (fun st => ∃ c', Registers u c' st) (fun _ st => Registers u c st) tr →
      st.pre.registry u = some c := fun h => hstays u c h fun hs => hsignal (hs.append _)
  rcases registry_cases hlegal u with ⟨c', ⟨t, hreg⟩, hpost⟩ | ⟨⟨t, hremove⟩, -⟩ | ⟨hreg, -, hpost⟩
  · rcases since_snoc.mp hsince with ⟨t', hlabel⟩ | ⟨-, hnone⟩
    · rw [hreg] at hlabel
      cases hlabel
      exact hpost
    · exact absurd ⟨c', t, hreg⟩ hnone
  · rcases since_snoc.mp hsince with ⟨t', hlabel⟩ | ⟨hbefore, -⟩
    · rw [hremove] at hlabel
      cases hlabel
    · by_cases hc : c = t
      · subst hc
        exact absurd ((hsignalled c u hremove).append _) hsignal
      · exact hleaves t u hremove u c hc (hold hbefore)
  · rw [hpost]
    rcases since_snoc.mp hsince with hnew | ⟨hbefore, -⟩
    · exact absurd hnew (hreg c)
    · exact hold hbefore

section Run

variable (hrun : Run (world P) s₀ (workers P approver approvalMutex) tr s ps)

include hrun

/-- A worker cleans up only after a signal on its own connection. -/
theorem unregisters_signalled (hlive : s₀.disconnected = fun _ => false) :
    Every (fun before (st : Step (sig P) Daemon Tid Env) => ∀ t u,
      st.label = .thread t ⟨.removeAgent u, ()⟩ → Once (fun _ st' => Signals t st') before) tr := by
  intro before st after heq t u hlabel
  have hstage := hrun.every_pre workers_meets before st after heq t _ hlabel
  obtain ⟨own₁, loaded, -, hown⟩ := hstage.removeAgent_inv
  have hwait : (⟨.waitDisconnected t, ()⟩ : Event (sig P)) ∈ history t before := by
    rw [hown]
    simp
  subst heq
  obtain ⟨⟨ps', hbefore⟩, -⟩ := hrun.before
  obtain ⟨before', pre, post, after', ps'', rfl, hbefore', hlegal⟩ := hbefore.split_event hwait
  exact (once_signals hbefore' hlive (legal_waitDisconnected hlegal)).append _

/-- Own cleanups leave the entries of the others. -/
theorem leavesOthers_of_own (hown : Every OwnCleanup tr) : Every LeavesOthers tr := by
  rintro before ⟨pre, label, post⟩ after rfl t u hlabel v c hc hentry
  obtain rfl : label = _ := hlabel
  obtain ⟨⟨ps', hbefore⟩, hlegal⟩ := hrun.before
  have hpost : post.registry = _ := legal_removeAgent hlegal
  by_cases hv : v = u
  · subst hv
    -- the entry would be the cleaner's own
    rcases hown before _ after rfl t v rfl with hnone | hsince
    · rw [hnone] at hentry
      cases hentry
    · rcases registry_of_since hbefore hsince with hnone | hmine
      · rw [hnone] at hentry
        cases hentry
      · rw [hmine] at hentry
        cases hentry
        exact absurd rfl hc
  · rw [hpost, Function.update_of_ne hv]
    exact hentry

theorem own_of_leavesOthers (hempty : s₀.registry = fun _ => none) (hleaves : Every LeavesOthers tr) :
    Every OwnCleanup tr := by
  rintro before ⟨pre, label, post⟩ after rfl t u hlabel
  obtain rfl : label = _ := hlabel
  obtain ⟨⟨ps', hbefore⟩, hlegal⟩ := hrun.before
  cases hentry : pre.registry u with
  | none => exact .inl rfl
  | some c =>
      right
      by_cases hc : c = t
      · subst hc
        exact (registry_since hbefore hempty hentry).mono (fun _ _ h => h) fun _ ⟨c', _, h⟩ => ⟨c', h⟩
      · have hkept : post.registry u = some c := hleaves before _ after rfl t u rfl u c hc hentry
        rw [legal_removeAgent hlegal, Function.update_self] at hkept
        cases hkept

theorem staysRegistered_of_leavesOthers (hlive : s₀.disconnected = fun _ => false)
    (hleaves : Every LeavesOthers tr) : StaysRegistered tr s := by
  have hboth := hleaves.and (unregisters_signalled hrun hlive)
  revert hboth
  refine hrun.world_invariant (I := fun tr s => Every (fun before st => LeavesOthers before st ∧
    ∀ t u, st.label = .thread t ⟨.removeAgent u, ()⟩ → Once (fun _ st' => Signals t st') before) tr →
      StaysRegistered tr s) ?_ ?_
  · exact fun _ u c hsince _ => absurd hsince not_since_nil
  · intro tr st ih hlegal hboth
    obtain ⟨hold, hnew, hsignalled⟩ := every_snoc.mp hboth
    exact staysRegistered_step hlegal (ih hold) hnew hsignalled

/-- **Cleanups, exactly.** In every run of the daemon's workers, cleanups keep the entries of other
connections, and a live agent stays registered, if and only if no cleanup comes after another
connection's registration for the same uid. -/
theorem cleanup_iff (hempty : s₀.registry = fun _ => none) (hlive : s₀.disconnected = fun _ => false) :
    Every LeavesOthers tr ∧ StaysRegistered tr s ↔ Every OwnCleanup tr := by
  constructor
  · rintro ⟨hleaves, -⟩
    exact own_of_leavesOthers hrun hempty hleaves
  · intro hown
    have hleaves := leavesOthers_of_own hrun hown
    exact ⟨hleaves, staysRegistered_of_leavesOthers hrun hlive hleaves⟩

end Run

def idPromptLine : String := "\x7b\"argv\":[\"id\"],\"cwd\":\"/\",\"reason\":\"\"\x7d"

def reconnectPlatform : Platform :=
  { Platform.bare with
    json := SerdeJson.ofTables helloTexts [(promptOf idRequest, idPromptLine)] [] [] }

/-- Connections 0 and 1 bring registrations and connection 2 a command, all of uid 1000. -/
def reconnectDaemon : Daemon :=
  Daemon.start (.ok ⟨0o600, 0, []⟩) ⟨.ok, fun _ => true⟩
    ⟨⟨[], [⟨[.literal "id"], literal_ne_nil _, restOnlyLast_literal _⟩]⟩, [⟨0, 0⟩], [1000]⟩ (some []) (fun _ => 1000)
    (fun c => arrived (if c = 2 then idLine else registerLine)) 0 0

def reconnectWorkers : Pool (sig reconnectPlatform) Tid (Except IoError Unit) :=
  workers reconnectPlatform (.agent 0 0) false

/-- A read that fails. -/
def timingOut : (op : Op) → Choice op
  | .recv _ _ => .error "timed out"
  | op => smooth 0 .denied op

/-- The command's prompt on connection 0 times out, and before that is signalled the agent has
registered again on connection 1. -/
def reconnectRun : Option (Point (sig reconnectPlatform) Daemon Tid Env (Except IoError Unit)) :=
  replay (world reconnectPlatform) ⟨[], reconnectDaemon, reconnectWorkers⟩
    (List.replicate 11 (.thread 0 (smooth 26 .denied)) ++ List.replicate 20 (.thread 2 (smooth 55 .denied)) ++
      [.thread 2 timingOut] ++ List.replicate 11 (.thread 1 (smooth 26 .denied)) ++
      [.thread 2 (smooth 0 .denied)] ++ List.replicate 2 (.thread 0 (smooth 0 .denied)))

/-- In that run the cleanup of connection 0 removes the entry of connection 1. -/
theorem reconnectRun_removes :
    ∃ c, reconnectRun = some c ∧
      Run (world reconnectPlatform) reconnectDaemon reconnectWorkers c.trace c.state c.pool ∧
      ¬ Every LeavesOthers c.trace := by
  obtain ⟨c, hc⟩ : ∃ c, reconnectRun = some c := ⟨_, rfl⟩
  refine ⟨c, hc, run_of_replay .start hc, fun hleaves => ?_⟩
  obtain rfl := Option.some.inj hc
  have hkept := hleaves.getElem 45 (by decide +kernel) 0 1000 rfl 1000 1 (by decide) rfl
  exact absurd hkept (by decide +kernel)

/-- The entry of connection 1 is lost, although nothing is wrong with it. -/
theorem cleanup_removes_other :
    ∃ c, reconnectRun = some c ∧
      Run (world reconnectPlatform) reconnectDaemon reconnectWorkers c.trace c.state c.pool ∧
      c.state.registry 1000 = none ∧ c.state.disconnected 1 = false ∧
      ¬ (Every LeavesOthers c.trace ∧ StaysRegistered c.trace c.state) := by
  obtain ⟨c, hc, hrun, hremoves⟩ := reconnectRun_removes
  refine ⟨c, hc, hrun, ?_, ?_, fun h => hremoves h.1⟩ <;>
    obtain rfl := Option.some.inj hc <;> rfl

theorem reconnectRun_not_own :
    ∃ c, reconnectRun = some c ∧ ¬ Every OwnCleanup c.trace := by
  obtain ⟨c, hc, hrun, hremoves⟩ := reconnectRun_removes
  exact ⟨c, hc, fun hown => hremoves ((cleanup_iff hrun rfl rfl).mpr hown).1⟩

end Sudix
