import Sudix.AgentCalls

/-! The agent a prompt goes to. A call looks up the handle of its caller's agent before it waits for the
gate, and never again. So the handle is the one that the registry holds when the prompt is written
exactly if the entry has not changed in the meantime. -/

namespace Sudix

open Concurrent

variable {P : Platform} {registerWait rounds : Nat} {role : Tid → Party} {s₀ s : Daemon}
  {ps : Pool (sig P) Tid (Option Approval)} {tr : Trace (sig P) Daemon Tid Env} {u : Uid} {c : Conn} {t : Tid}

/-- Call `t` has found `c` as the agent of `u`, and the entry of `u` has not changed since. -/
def HandleKept (t : Tid) (u : Uid) (c : Conn) (tr : Trace (sig P) Daemon Tid Env) : Prop :=
  Since (fun st => ChangesEntry u st) (fun _ st => st.label = .thread t ⟨.lookupAgent u, some c⟩) tr

/-- A prompt is written to the agent that the registry holds for its caller. -/
def WrittenToRegistered (role : Tid → Party) (_before : Trace (sig P) Daemon Tid Env)
    (st : Step (sig P) Daemon Tid Env) : Prop :=
  ∀ t u req c bytes written, role t = .asks u req → st.label = .thread t ⟨.writeAll c bytes, written⟩ →
    st.pre.registry u = some c

/-- A prompt that fails on a dead connection does so while no other agent of its caller is registered and
live. -/
def FailsUnreplaced (role : Tid → Party) (_before : Trace (sig P) Daemon Tid Env)
    (st : Step (sig P) Daemon Tid Env) : Prop :=
  ∀ t u req c, role t = .asks u req → st.label = .thread t ⟨.signalDisconnected c, ()⟩ →
    ∀ c' ≠ c, st.pre.registry u = some c' → (st.pre.channel c').peer = .gone

/-- The entry of the caller has not changed between the lookup of the handle and the write. -/
def KeptUntilWritten (role : Tid → Party) (before : Trace (sig P) Daemon Tid Env)
    (st : Step (sig P) Daemon Tid Env) : Prop :=
  ∀ t u req c bytes written, role t = .asks u req → st.label = .thread t ⟨.writeAll c bytes, written⟩ →
    HandleKept t u c before

/-- No agent of the caller has registered between the lookup of the handle and the failure. -/
def UnreplacedUntilFailed (role : Tid → Party) (before : Trace (sig P) Daemon Tid Env)
    (st : Step (sig P) Daemon Tid Env) : Prop :=
  ∀ t u req c, role t = .asks u req → st.label = .thread t ⟨.signalDisconnected c, ()⟩ →
    Since (fun st' => ∃ c', Registers u c' st') (fun _ st' => st'.label = .thread t ⟨.lookupAgent u, some c⟩) before

/-- A handle whose entry has not changed is the entry. -/
theorem registry_of_kept {α : Type} {p₀ qs : Pool (sig P) Tid α} (hrun : Run (world P) s₀ p₀ tr s qs)
    (h : HandleKept t u c tr) : s.registry u = some c := by
  revert h
  refine hrun.world_invariant (I := fun tr s => HandleKept t u c tr → s.registry u = some c) ?_ ?_
  · exact fun h => absurd h not_since_nil
  · rintro tr ⟨pre, label, post⟩ ih hlegal h
    rcases since_snoc.mp h with hlookup | ⟨hold, hkeep⟩
    · obtain rfl : label = _ := hlookup
      obtain ⟨hfound, rfl⟩ := legal_lookupAgent hlegal
      exact hfound.symm
    · rcases registry_cases hlegal u with ⟨c', hreg, -⟩ | ⟨hremove, -⟩ | ⟨-, -, hpost⟩
      · exact absurd (.inl ⟨c', hreg⟩) hkeep
      · exact absurd (.inr hremove) hkeep
      · rw [hpost]
        exact ih hold

/-- A handle that no registration has replaced is the entry, or there is none any more. -/
theorem registry_of_unreplaced {α : Type} {p₀ qs : Pool (sig P) Tid α} (hrun : Run (world P) s₀ p₀ tr s qs)
    (h : Since (fun st => ∃ c', Registers u c' st) (fun _ st => st.label = .thread t ⟨.lookupAgent u, some c⟩) tr) :
    s.registry u = none ∨ s.registry u = some c := by
  revert h
  refine hrun.world_invariant (I := fun tr s => Since (fun st => ∃ c', Registers u c' st)
    (fun _ st => st.label = .thread t ⟨.lookupAgent u, some c⟩) tr →
      s.registry u = none ∨ s.registry u = some c) ?_ ?_
  · exact fun h => absurd h not_since_nil
  · rintro tr ⟨pre, label, post⟩ ih hlegal h
    rcases since_snoc.mp h with hlookup | ⟨hold, hkeep⟩
    · obtain rfl : label = _ := hlookup
      obtain ⟨hfound, rfl⟩ := legal_lookupAgent hlegal
      exact .inr hfound.symm
    · rcases registry_cases hlegal u with ⟨c', hreg, -⟩ | ⟨-, hpost⟩ | ⟨-, -, hpost⟩
      · exact absurd ⟨c', hreg⟩ hkeep
      · exact .inl hpost
      · rw [hpost]
        exact ih hold

section Run

variable (hrun : Run (world P) s₀ (parties P registerWait rounds role) tr s ps)

include hrun

/-- A connection registers at most once. -/
theorem registers_once {before after : Trace (sig P) Daemon Tid Env} {st : Step (sig P) Daemon Tid Env}
    (htr : tr = before ++ st :: after) (h : Registers u c st) : ∀ st' ∈ before, ¬ Registers u c st' := by
  have hown : ∀ b (st' : Step (sig P) Daemon Tid Env) a, tr = b ++ st' :: a → ∀ t',
      st'.label = .thread t' ⟨.insertAgent u c, ()⟩ → t' = c ∧ history t' b = [⟨.tryClone, .ok ()⟩] := by
    intro b st' a heq t' hlabel
    obtain ⟨rfl, hown⟩ := (hrun.every_pre parties_meets b st' a heq t' _ hlabel).insertAgent_inv
    exact ⟨rfl, hown⟩
  rintro st' hst' ⟨t', hlabel'⟩
  obtain ⟨t, hlabel⟩ := h
  obtain ⟨rfl, hfirst⟩ := hown before st after htr t hlabel
  obtain ⟨b, a, rfl⟩ := List.append_of_mem hst'
  obtain ⟨rfl, -⟩ := hown b st' (a ++ st :: after) (by simp [htr]) t' hlabel'
  rw [history_split hlabel'] at hfirst
  have hmem : (⟨.insertAgent u t', ()⟩ : Event (sig P)) ∈ ([⟨.tryClone, .ok ()⟩] : History (sig P)) := by
    rw [← hfirst]
    exact List.mem_append_right _ List.mem_cons_self
  cases List.mem_singleton.mp hmem

/-- If the entry is still the agent that a call has found, it has not changed since. -/
theorem kept_of_registered (hempty : s₀.registry = fun _ => none)
    (hlookup : ⟨.lookupAgent u, some c⟩ ∈ history t tr) (hentry : s.registry u = some c) : HandleKept t u c tr := by
  obtain ⟨b₁, ⟨pre, label, post⟩, a₁, htr, hlabel⟩ := once_of_mem_history hlookup
  obtain rfl : label = _ := hlabel
  obtain ⟨b₂, st₂, a₂, htr₂, hreg₂, hkeep⟩ := registry_kept hrun hempty hentry
  -- the registration that the call has found comes before its lookup
  have hfound : ∃ st ∈ b₁, Registers u c st := by
    subst htr
    obtain ⟨⟨ps', hbefore⟩, hlegal⟩ := hrun.before
    obtain ⟨b₃, st₃, a₃, rfl, hreg₃, -⟩ := registry_kept hbefore hempty (legal_lookupAgent hlegal).1.symm
    exact ⟨st₃, by simp, hreg₃⟩
  obtain ⟨st₃, hst₃, hreg₃⟩ := hfound
  have honce := registers_once hrun htr₂ hreg₂
  refine ⟨b₁, _, a₁, htr, rfl, ?_⟩
  rcases List.append_eq_append_iff.mp (htr.symm.trans htr₂) with ⟨w, rfl, -⟩ | ⟨w, rfl, hw⟩
  · exact absurd hreg₃ (honce st₃ (List.mem_append_left _ hst₃))
  · cases w with
    | nil => exact absurd hreg₃ (honce st₃ (by simpa using hst₃))
    | cons st w =>
        obtain ⟨-, rfl⟩ := List.cons.inj hw
        exact fun later hlater => hkeep later (List.mem_append_right _ (List.mem_cons_of_mem _ hlater))

/-- **Prompts and the registry, exactly.** In every interleaving of calls with registrations and
removals, prompts are written to the agents registered for their callers if and only if no caller's
entry changes between the lookup of a handle and the write of its prompt. If no agent of the caller
registers until a prompt fails, it does not fail while another one is registered and live. -/
theorem prompts_to_registered_iff (hempty : s₀.registry = fun _ => none) :
    (Every (WrittenToRegistered role) tr ↔ Every (KeptUntilWritten role) tr) ∧
      (Every (UnreplacedUntilFailed role) tr → Every (FailsUnreplaced role) tr) := by
  refine ⟨⟨fun h => ?_, fun h => ?_⟩, fun h => ?_⟩
  · intro before st after htr t u req c bytes written hrole hlabel
    have hentry := h before st after htr t u req c bytes written hrole hlabel
    have hstage := hrun.every_pre parties_meets before st after htr t _ hlabel
    rw [hrole] at hstage
    cases hstage with
    | asks hagent =>
        obtain ⟨b, own', hown, -, hlookup, -⟩ := hagent.prompt_inv (c := c) (decide_eq_true rfl)
        subst htr
        obtain ⟨⟨ps', hbefore⟩, -⟩ := hrun.before
        refine kept_of_registered hbefore hempty ?_ hentry
        rw [hown]
        exact List.mem_append_left _ hlookup
  · intro before st after htr t u req c bytes written hrole hlabel
    subst htr
    obtain ⟨⟨ps', hbefore⟩, -⟩ := hrun.before
    exact registry_of_kept hbefore (h before st after rfl t u req c bytes written hrole hlabel)
  · intro before st after htr t u req c hrole hlabel c' hne hentry
    subst htr
    obtain ⟨⟨ps', hbefore⟩, -⟩ := hrun.before
    rcases registry_of_unreplaced hbefore (h before st after rfl t u req c hrole hlabel) with hnone | hmine
    · cases hnone.symm.trans hentry
    · exact absurd (Option.some.inj (hmine.symm.trans hentry)).symm hne

end Run

/-- Connections 0 and 1 register for uid 1000, and call 2 asks for it. -/
def restartRole (t : Tid) : Party := if t = 2 then .asks 1000 idRequest else .serves 1000

def restartDaemon : Daemon :=
  Daemon.start (.error "") ⟨.ok, fun _ => true⟩ ⟨⟨[], []⟩, [], []⟩ none (fun _ => 1000)
    (fun _ => ⟨[], [], .agent .reading⟩) 0 0

def restartParties : Pool (sig reconnectPlatform) Tid (Option Approval) := parties reconnectPlatform 0 0 restartRole

/-- A write to a peer that has exited. -/
def brokenPipe : (op : Op) → Choice op
  | .writeAll _ _ => .error ("Broken pipe (os error 32)", 0)
  | op => smooth 0 .denied op

/-- After the call has looked its handle up, the agent exits and another one registers; then the call gets
the gate. -/
def restartRun : Option (Point (sig reconnectPlatform) Daemon Tid Env (Option Approval)) :=
  replay (world reconnectPlatform) ⟨[], restartDaemon, restartParties⟩
    (List.replicate 2 (.thread 0 (smooth 0 .denied)) ++ List.replicate 2 (.thread 2 (smooth 0 .denied)) ++
      [.env (.agentExit 0)] ++ List.replicate 2 (.thread 1 (smooth 0 .denied)) ++
      List.replicate 4 (.thread 2 brokenPipe))

theorem restartRun_misses :
    ∃ c, restartRun = some c ∧
      Run (world reconnectPlatform) restartDaemon restartParties c.trace c.state c.pool ∧
      ¬ Every (WrittenToRegistered restartRole) c.trace ∧ ¬ Every (FailsUnreplaced restartRole) c.trace := by
  obtain ⟨c, hc⟩ : ∃ c, restartRun = some c := ⟨_, rfl⟩
  refine ⟨c, hc, run_of_replay .start hc, fun hwritten => ?_, fun hfails => ?_⟩
  · obtain rfl := Option.some.inj hc
    have hentry := hwritten.getElem 9 (by decide +kernel) 2 1000 idRequest 0 _ _ rfl rfl
    exact absurd hentry (by decide +kernel)
  · obtain rfl := Option.some.inj hc
    have hgone := hfails.getElem 10 (by decide +kernel) 2 1000 idRequest 0 rfl rfl 1 (by decide) rfl
    exact absurd hgone (by decide +kernel)

/-- The prompt is written to connection 0 and fails there, while the agent on connection 1 is registered
and live. -/
theorem prompt_to_replaced_agent :
    ∃ c, restartRun = some c ∧
      Run (world reconnectPlatform) restartDaemon restartParties c.trace c.state c.pool ∧
      c.state.registry 1000 = some 1 ∧ (c.state.channel 1).peer = .agent .reading ∧
      ¬ (Every (WrittenToRegistered restartRole) c.trace ∧ Every (FailsUnreplaced restartRole) c.trace) := by
  obtain ⟨c, hc, hrun, hwritten, -⟩ := restartRun_misses
  refine ⟨c, hc, hrun, ?_, ?_, fun h => hwritten h.1⟩
  all_goals
    obtain rfl := Option.some.inj hc
    rfl

/-- In that run the entry has changed in the meantime. -/
theorem restartRun_not_kept :
    ∃ c, restartRun = some c ∧ ¬ Every (KeptUntilWritten restartRole) c.trace := by
  obtain ⟨c, hc, hrun, hwritten, -⟩ := restartRun_misses
  exact ⟨c, hc, fun hkept => hwritten ((prompts_to_registered_iff hrun rfl).1.mpr hkept)⟩

end Sudix
