import Sudix.AgentAuthority

/-! Slots held by registrations. A registered worker waits until a prompt on its own connection fails,
and a prompt reaches the connection through the registry only. A worker whose entry was displaced by
another connection waits for a prompt that cannot come, and its slot is lost. -/

namespace Sudix

open Concurrent

variable {P : Platform} {approver : Approver} {approvalMutex : Bool} {s₀ s : Daemon}
  {ps : Pool (sig P) Tid (Except IoError Unit)} {tr : Trace (sig P) Daemon Tid Env} {u : Uid} {c : Conn}

/-- The worker of connection `c` is blocked in `wait_until_disconnected`. -/
def Waiting (ps : Pool (sig P) Tid (Except IoError Unit)) (c : Conn) : Prop :=
  ∃ next, ps c = .call (.waitDisconnected c) next

/-- A blocked worker whose disconnect is not signalled and whose handle is not the entry of its uid:
no prompt finds it any more. -/
def Stranded (ps : Pool (sig P) Tid (Except IoError Unit)) (s : Daemon) (c : Conn) : Prop :=
  Waiting ps c ∧ s.disconnected c = false ∧ s.registry (s.uidOf c) ≠ some c

/-- The connection whose entry a step takes away from it: the one that a registration replaces, or the
one that the cleanup of another connection removes. -/
def displaced (st : Step (sig P) Daemon Tid Env) : Option Conn :=
  match st.label with
  | .thread _ ⟨.insertAgent u c, _⟩ => (st.pre.registry u).filter (· != c)
  | .thread t ⟨.removeAgent u, _⟩ => (st.pre.registry u).filter (· != t)
  | _ => none

/-- A step displaces no connection but those whose disconnect is signalled. -/
def SparesLive (_before : Trace (sig P) Daemon Tid Env) (st : Step (sig P) Daemon Tid Env) : Prop :=
  ∀ c, displaced st = some c → st.pre.disconnected c = true

/-- A connection that has registered is the entry of its uid, or its disconnect is signalled. -/
def LiveRegistered (tr : Trace (sig P) Daemon Tid Env) (s : Daemon) : Prop :=
  ∀ u c, Once (fun _ st => Registers u c st) tr → s.disconnected c = false → s.registry u = some c

/-- A signal is never taken back. -/
theorem disconnected_mono {st : Step (sig P) Daemon Tid Env} (hlegal : st.Legal (world P))
    (h : st.post.disconnected c = false) : st.pre.disconnected c = false := by
  obtain ⟨pre, label, post⟩ := st
  cases hw : writes Op.writesDisconnected label with
  | false =>
      have hkeep : post.disconnected = pre.disconnected := legal_disconnected hlegal hw
      rwa [← hkeep]
  | true =>
      cases label with
      | env event => cases hw
      | thread t event =>
          obtain ⟨op, answer⟩ := event
          cases op with
          | signalDisconnected c' =>
              have hpost : post.disconnected = _ := legal_signalDisconnected hlegal
              rw [hpost] at h
              by_cases hc : c = c'
              · rw [hc, Function.update_self] at h
                cases h
              · rwa [Function.update_of_ne hc] at h
          | _ => cases hw

theorem disconnected_of_once {α : Type} {p₀ qs : Pool (sig P) Tid α} (hrun : Run (world P) s₀ p₀ tr s qs)
    (h : Once (fun _ st => Signals c st) tr) : s.disconnected c = true := by
  revert h
  refine hrun.world_invariant (I := fun tr s => Once (fun _ st => Signals c st) tr → s.disconnected c = true)
    (fun h => absurd h not_once_nil) ?_
  intro tr st ih hlegal h
  rcases once_snoc.mp h with hold | ⟨t, hlabel⟩
  · by_contra hpost
    rw [Bool.not_eq_true] at hpost
    have hpre := disconnected_mono hlegal hpost
    rw [ih hold] at hpre
    cases hpre
  · obtain ⟨pre, label, post⟩ := st
    obtain rfl : label = _ := hlabel
    have hpost : post.disconnected = _ := legal_signalDisconnected hlegal
    rw [hpost, Function.update_self]

/-- A step that displaces no live connection keeps the live ones registered; a worker cleans up only
after the signal of its own connection. -/
theorem liveRegistered_step {st : Step (sig P) Daemon Tid Env} (hlegal : st.Legal (world P))
    (hlive : LiveRegistered tr st.pre) (hspares : SparesLive tr st)
    (hcleanup : ∀ t u, st.label = .thread t ⟨.removeAgent u, ()⟩ → st.pre.disconnected t = true) :
    LiveRegistered (tr ++ [st]) st.post := by
  intro u c honce hconnected
  have hbefore := disconnected_mono hlegal hconnected
  have hold : Once (fun _ st => Registers u c st) tr → st.pre.registry u = some c :=
    fun h => hlive u c h hbefore
  have hlast := once_snoc.mp honce
  rcases registry_cases hlegal u with ⟨c', ⟨t, hreg⟩, hpost⟩ | ⟨⟨t, hremove⟩, -⟩ | ⟨hreg, -, hpost⟩
  · -- the uid registers: the entry before was that of `c` itself, or `c` is gone
    rw [hpost]
    rcases hlast with h | ⟨t', hlabel⟩
    · by_cases hc : c = c'
      · rw [hc]
      · have hdisplaced : displaced st = some c := by
          simp [displaced, hreg, hold h, hc]
        rw [hspares c hdisplaced] at hbefore
        cases hbefore
    · rw [hreg] at hlabel
      cases hlabel
      rfl
  · rcases hlast with h | ⟨t', hlabel⟩
    · by_cases hc : c = t
      · rw [hc, hcleanup t u hremove] at hbefore
        cases hbefore
      · have hdisplaced : displaced st = some c := by
          simp [displaced, hremove, hold h, hc]
        rw [hspares c hdisplaced] at hbefore
        cases hbefore
    · rw [hremove] at hlabel
      cases hlabel
  · rw [hpost]
    rcases hlast with h | h
    · exact hold h
    · exact absurd h (hreg c)

/-- A worker that waits for its disconnect has registered its connection for its peer's uid. -/
theorem WorkerStage.waitDisconnected_inv {own : History (sig P)} {c' : Conn}
    (h : WorkerStage c approver approvalMutex own (.waitDisconnected c')) :
    ∃ own₁ loaded callerUid, Admitted c own₁ loaded callerUid .registerAgent ∧
      own = ⟨.acquireSlot, ()⟩ :: own₁ ++ [⟨.tryClone, .ok ()⟩, ⟨.insertAgent callerUid c, ()⟩] := by
  cases h with
  | connection hconnection =>
      cases hconnection with
      | reload hreload => cases hreload
      | read _ _ hread => cases hread
      | request _ hrequest => cases hrequest.requesting
      | register hadmitted hregister =>
          cases hregister
          exact ⟨_, _, _, hadmitted, rfl⟩
      | respond _ hwrite => cases hwrite

section Run

variable (hrun : Run (world P) s₀ (workers P approver approvalMutex) tr s ps)

include hrun

/-- A blocked worker has registered for the uid of its connection. -/
theorem waiting_registers (hwaiting : Waiting ps c) : Once (fun _ st => Registers (s.uidOf c) c st) tr := by
  obtain ⟨next, hnext⟩ := hwaiting
  obtain ⟨own₁, loaded, callerUid, hadmitted, hown⟩ := (hrun.pre_next workers_meets hnext).waitDisconnected_inv
  have huid : callerUid = s₀.uidOf c := peerUid_eq hrun (by simp [hown, hadmitted.peerUid.1])
  have hreg : (⟨.insertAgent callerUid c, ()⟩ : Event (sig P)) ∈ history c tr := by simp [hown]
  rw [uidOf_eq hrun, ← huid]
  exact (once_of_mem_history hreg).mono fun _ _ hlabel => ⟨c, hlabel⟩

theorem liveRegistered (hlive : s₀.disconnected = fun _ => false) (hspares : Every SparesLive tr) :
    LiveRegistered tr s := by
  have hboth := hspares.and (unregisters_signalled hrun hlive)
  clear hspares
  induction hrun with
  | start => exact fun u c h => absurd h not_once_nil
  | thread t choice hbefore hnext hact ih =>
      obtain ⟨hold, hnew, hcleanup⟩ := every_snoc.mp hboth
      exact liveRegistered_step ⟨choice, hact⟩ (ih hold) hnew fun t u hlabel =>
        disconnected_of_once hbefore (hcleanup t u hlabel)
  | env event hbefore henv ih =>
      obtain ⟨hold, hnew, hcleanup⟩ := every_snoc.mp hboth
      exact liveRegistered_step henv (ih hold) hnew fun t u hlabel =>
        disconnected_of_once hbefore (hcleanup t u hlabel)

/-- **No slot is stranded.** As long as no registration replaces and no cleanup removes the entry of
another connection that is not signalled, every blocked worker is the entry of its uid or signalled. -/
theorem waiting_is_registered (hlive : s₀.disconnected = fun _ => false) (hspares : Every SparesLive tr) :
    (∀ c, Waiting ps c → s.disconnected c = false → s.registry (s.uidOf c) = some c) ∧
      ∀ cs : List Conn, cs.Nodup → (∀ c ∈ cs, Stranded ps s c) → cs.length < maxConcurrent := by
  have hregistered : ∀ c, Waiting ps c → s.disconnected c = false → s.registry (s.uidOf c) = some c :=
    fun c hwaiting => liveRegistered hrun hlive hspares _ c (waiting_registers hrun hwaiting)
  refine ⟨hregistered, fun cs _ hstranded => ?_⟩
  cases cs with
  | nil => decide
  | cons c cs =>
      obtain ⟨hwaiting, hconnected, hlost⟩ := hstranded c List.mem_cons_self
      exact absurd (hregistered c hwaiting hconnected) hlost

end Run

theorem sparesLive_of_forall (h : ∀ st ∈ tr, ∀ c, displaced st = some c → st.pre.disconnected c = true) :
    Every SparesLive tr := fun _ st _ heq => h st (by simp [heq])

/-- One worker registers. -/
def registerOnce (c : Conn) : List (Move (world reconnectPlatform)) :=
  List.replicate 11 (.thread c (smooth 26 .denied))

/-- Connection 0 registers, its agent disconnects unnoticed, and connection 1 registers for the uid. -/
def replacedRun : Option (Point (sig reconnectPlatform) Daemon Tid Env (Except IoError Unit)) :=
  replay (world reconnectPlatform) ⟨[], reconnectDaemon, reconnectWorkers⟩
    (registerOnce 0 ++ [.env (.peerClose 0)] ++ registerOnce 1)

theorem replacedRun_steps :
    ∃ c, replacedRun = some c ∧
      Run (world reconnectPlatform) reconnectDaemon reconnectWorkers c.trace c.state c.pool ∧
      Stranded c.pool c.state 0 ∧ c.state.slots = 2 := by
  obtain ⟨c, hc⟩ : ∃ c, replacedRun = some c := ⟨_, rfl⟩
  refine ⟨c, hc, run_of_replay .start hc, ?_⟩
  obtain rfl := Option.some.inj hc
  exact ⟨⟨⟨_, rfl⟩, rfl, by decide +kernel⟩, rfl⟩

/-- The worker of connection 0 keeps its slot, waiting for a prompt that goes to connection 1. -/
theorem replacedRun_strands :
    ∃ c, replacedRun = some c ∧
      Run (world reconnectPlatform) reconnectDaemon reconnectWorkers c.trace c.state c.pool ∧
      Stranded c.pool c.state 0 ∧ c.state.slots = 2 ∧
      ¬ ∀ d, Waiting c.pool d → c.state.disconnected d = false → c.state.registry (c.state.uidOf d) = some d := by
  obtain ⟨c, hc, hrun, hstranded, hslots⟩ := replacedRun_steps
  refine ⟨c, hc, hrun, hstranded, hslots, fun hall => ?_⟩
  exact hstranded.2.2 (hall 0 hstranded.1 hstranded.2.1)

/-- Connection 0 registers, a prompt on it fails and its disconnect is signalled, and connection 1 registers in its
place. -/
def registeredRun : Option (Point (sig reconnectPlatform) Daemon Tid Env (Except IoError Unit)) :=
  replay (world reconnectPlatform) ⟨[], reconnectDaemon, reconnectWorkers⟩
    (registerOnce 0 ++ List.replicate 20 (.thread 2 (smooth 55 .denied)) ++
      [.thread 2 timingOut, .thread 2 (smooth 0 .denied)] ++ registerOnce 1)

theorem registeredRun_steps :
    ∃ c, registeredRun = some c ∧
      Run (world reconnectPlatform) reconnectDaemon reconnectWorkers c.trace c.state c.pool ∧
      Waiting c.pool 1 ∧ c.state.disconnected 1 = false ∧ (∃ st ∈ c.trace, displaced st = some 0) ∧
      ∀ st ∈ c.trace, ∀ d, displaced st = some d → st.pre.disconnected d = true := by
  obtain ⟨c, hc⟩ : ∃ c, registeredRun = some c := ⟨_, rfl⟩
  refine ⟨c, hc, run_of_replay .start hc, ?_⟩
  obtain rfl := Option.some.inj hc
  exact ⟨⟨_, rfl⟩, rfl, by decide +kernel, by decide +kernel⟩

/-- Its worker waits as the entry of its uid. -/
theorem registeredRun_waits :
    ∃ c, registeredRun = some c ∧ Waiting c.pool 1 ∧ (∃ st ∈ c.trace, displaced st = some 0) ∧
      c.state.registry (c.state.uidOf 1) = some 1 := by
  obtain ⟨c, hc, hrun, hwaiting, hconnected, hdisplaced, hspares⟩ := registeredRun_steps
  refine ⟨c, hc, hwaiting, hdisplaced, ?_⟩
  exact (waiting_is_registered hrun rfl (sparesLive_of_forall hspares)).1 1 hwaiting hconnected

end Sudix
