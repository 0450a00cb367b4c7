import Mathlib.Order.Interval.Finset.Nat
import Sudix.TotpSingleUse
import Sudix.AgentRegistry

/-! What one-time codes let through. A fresh approval takes the counter of the time step it is decided in, whichever
code it presents, so that over any stretch of time there are no more fresh approvals than time steps. The wall clock
does not go back. -/

namespace Sudix

open Concurrent

variable {P : Platform} {approvalMutex : Bool} {s₀ s : Daemon} {ps : Pool (sig P) Tid (Except IoError Unit)}
  {tr before after : Trace (sig P) Daemon Tid Env} {st : Step (sig P) Daemon Tid Env} {t u : Tid}

/-- The worker of connection `t` has its command approved, and not from the cache. -/
def ApprovedFresh (t : Tid) (tr : Trace (sig P) Daemon Tid Env) : Prop :=
  ∃ scopes ruleIndex argv, ⟨.recordApproval scopes ruleIndex argv, ()⟩ ∈ history t tr

theorem legal_unixSecs (h : st.Legal (world P)) : st.pre.unixSecs ≤ st.post.unixSecs := by
  obtain ⟨pre, label, post⟩ := st
  cases label with
  | thread t event =>
      obtain ⟨choice, hlegal⟩ := h
      exact Nat.le_of_eq (act_frame hlegal).unixSecs.symm
  | env event =>
      have henv : env P pre event = some post := h
      rcases env_changes henv with ⟨nanos, rfl⟩ | ⟨secs, rfl⟩ | ⟨file, _, rfl⟩ | ⟨files, rfl⟩ | ⟨c, ch, rfl⟩
      · exact Nat.le_refl _
      · exact Nat.le_add_right _ _
      · exact Nat.le_refl _
      · exact Nat.le_refl _
      · exact Nat.le_refl _

theorem legal_systemTime {unixSecs : Nat} (h : st.Legal (world P))
    (hlabel : st.label = .thread t ⟨.systemTime, unixSecs⟩) : unixSecs = st.pre.unixSecs := by
  obtain ⟨pre, label, post⟩ := st
  obtain rfl : label = _ := hlabel
  obtain ⟨choice, hact⟩ := legal_act h
  cases hact
  rfl

section Clock

variable {α : Type} {p₀ qs : Pool (sig P) Tid α}

theorem unixSecs_le (hrun : Run (world P) s₀ p₀ tr s qs) : ∀ st ∈ tr, st.pre.unixSecs ≤ s.unixSecs := by
  refine hrun.world_invariant (I := fun tr s => ∀ st ∈ tr, st.pre.unixSecs ≤ s.unixSecs) ?_ ?_
  · intro st hst
    cases hst
  · intro tr st ih hlegal st' hst'
    rcases List.mem_append.mp hst' with hold | hnew
    · exact Nat.le_trans (ih st' hold) (legal_unixSecs hlegal)
    · obtain rfl := List.mem_singleton.mp hnew
      exact legal_unixSecs hlegal

theorem unixSecs_since (hrun : Run (world P) s₀ p₀ (before ++ st :: after) s qs) :
    ∀ st' ∈ st :: after, st.pre.unixSecs ≤ st'.pre.unixSecs := by
  intro st' hst'
  rcases List.mem_cons.mp hst' with rfl | hafter
  · exact Nat.le_refl _
  · obtain ⟨between, rest, rfl⟩ := List.append_of_mem hafter
    rw [← List.cons_append, ← List.append_assoc] at hrun
    obtain ⟨⟨ps', hbefore⟩, -⟩ := hrun.before
    exact unixSecs_le hbefore st (by simp)

/-- Nobody has taken a counter before the thread that takes it. -/
theorem untaken_before (hrun : Run (world P) s₀ p₀ (before ++ st :: after) s qs) {counter : Nat}
    (hlabel : st.label = .thread t ⟨.consumeCounter counter, true⟩) (u : Tid) :
    ⟨.consumeCounter counter, true⟩ ∉ history u before := by
  obtain ⟨⟨ps', hbefore⟩, hlegal⟩ := hrun.before
  obtain ⟨pre, label, post⟩ := st
  obtain rfl : label = _ := hlabel
  intro hmem
  exact (legal_consumeCounter hlegal).1.mp rfl (mem_usedCounters hbefore u counter hmem)

/-- A counter is taken by one thread. -/
theorem taken_once (hrun : Run (world P) s₀ p₀ tr s qs) {counter : Nat}
    (ht : ⟨.consumeCounter counter, true⟩ ∈ history t tr) (hu : ⟨.consumeCounter counter, true⟩ ∈ history u tr) :
    t = u := by
  obtain ⟨before, st, after, rfl, hlabel⟩ := once_of_mem_history ht
  obtain ⟨st', hst', hlabel'⟩ := mem_history.mp hu
  rcases List.mem_append.mp hst' with hbefore | hafter
  · exact absurd (mem_history.mpr ⟨st', hbefore, hlabel'⟩) (untaken_before hrun hlabel u)
  · rcases List.mem_cons.mp hafter with rfl | hafter
    · rw [hlabel] at hlabel'
      exact (Label.thread.inj hlabel').1
    · obtain ⟨between, rest, rfl⟩ := List.append_of_mem hafter
      rw [← List.cons_append, ← List.append_assoc] at hrun
      refine absurd (mem_history.mpr ⟨st, ?_, hlabel⟩) (untaken_before hrun hlabel' t)
      simp

end Clock

theorem GateDone.taken {callerUid : Uid} {req : Request} {own : History (sig P)}
    (h : GateDone .totp callerUid req approvalMutex own .allowed) :
    ∃ unixSecs, ⟨.systemTime, unixSecs⟩ ∈ own ∧ ⟨.consumeCounter (unixSecs / totpStep), true⟩ ∈ own := by
  have hdone : ∀ {own' : History (sig P)}, Approver.Done .totp callerUid req own' .allowed →
      ∃ unixSecs, ⟨.systemTime, unixSecs⟩ ∈ own' ∧ ⟨.consumeCounter (unixSecs / totpStep), true⟩ ∈ own' := by
    intro own' h
    cases h with
    | totp htotp =>
        cases htotp with
        | @fresh _ unixSecs _ => exact ⟨unixSecs, by simp, by simp⟩
  cases h with
  | ungated happroved => exact hdone happroved
  | released happroved =>
      obtain ⟨unixSecs, htime, htaken⟩ := hdone happroved
      exact ⟨unixSecs, by simp [htime], by simp [htaken]⟩

section Run

variable (hrun : Run (world P) s₀ (workers P .totp approvalMutex) tr s ps)

include hrun

/-- A fresh approval has read the clock and taken the counter of its time step. -/
theorem ApprovedFresh.taken (h : ApprovedFresh t tr) :
    ∃ unixSecs, ⟨.systemTime, unixSecs⟩ ∈ history t tr ∧
      ⟨.consumeCounter (unixSecs / totpStep), true⟩ ∈ history t tr := by
  obtain ⟨scopes, ruleIndex, argv, hmem⟩ := h
  obtain ⟨past, st, rest, rfl, hlabel⟩ := once_of_mem_history hmem
  have hstage := hrun.every_pre workers_meets past st rest rfl t _ hlabel
  obtain ⟨own₁, loaded, callerUid, req, own₂, -, hrequest, hown⟩ := hstage.request_inv rfl
  obtain ⟨-, -, -, cwd, own', hgate, rfl⟩ := hrequest.recordApproval_inv
  obtain ⟨unixSecs, htime, htaken⟩ := hgate.taken
  refine ⟨unixSecs, ?_, ?_⟩
  · rw [history_append, hown]
    simp [htime]
  · rw [history_append, hown]
    simp [htaken]

end Run

/-- **No more fresh approvals than time steps.** Over any stretch of a run, with any number of clients and any codes,
the connections that are accepted in it and have their commands approved afresh are at most as many as the time
steps that the stretch touches. -/
theorem totp_budget
    (hrun : Run (world P) s₀ (workers P .totp approvalMutex) (before ++ st :: after) s ps) (ts : Finset Tid)
    (hts : ∀ t ∈ ts, history t before = [] ∧ ApprovedFresh t (before ++ st :: after)) :
    ts.card ≤ s.unixSecs / totpStep + 1 - st.pre.unixSecs / totpStep := by
  have hstep : ∀ t ∈ ts, ∃ k ∈ Finset.Icc (st.pre.unixSecs / totpStep) (s.unixSecs / totpStep),
      ⟨.consumeCounter k, true⟩ ∈ history t (before ++ st :: after) := by
    intro t ht
    obtain ⟨hnone, hfresh⟩ := hts t ht
    obtain ⟨unixSecs, htime, htaken⟩ := hfresh.taken hrun
    rw [history_append, hnone, List.nil_append] at htime
    obtain ⟨st', hst', hlabel⟩ := mem_history.mp htime
    have hread : unixSecs = st'.pre.unixSecs := by
      obtain ⟨past, rest, hsplit⟩ := List.append_of_mem (List.mem_append_right before hst')
      exact legal_systemTime (hrun.every_legal past st' rest hsplit) hlabel
    refine ⟨_, Finset.mem_Icc.mpr ⟨?_, ?_⟩, htaken⟩
    · rw [hread]
      exact Nat.div_le_div_right (unixSecs_since hrun st' hst')
    · rw [hread]
      exact Nat.div_le_div_right (unixSecs_le hrun st' (List.mem_append_right _ hst'))
  choose! k hk htaken using hstep
  calc
    ts.card ≤ (Finset.Icc (st.pre.unixSecs / totpStep) (s.unixSecs / totpStep)).card := by
      refine Finset.card_le_card_of_injOn k hk fun t ht u hu heq => ?_
      exact taken_once hrun (htaken t ht) (heq ▸ htaken u hu)
    _ = s.unixSecs / totpStep + 1 - st.pre.unixSecs / totpStep := Nat.card_Icc _ _

def codeRequest : Request := { idRequest with otp := some "11" }

def codeLine : String := "\x7b\"kind\":\"command\",\"argv\":[\"id\"],\"cwd\":\"/\",\"otp\":\"11\"\x7d"

def codePlatform : Platform := { tally with json := SerdeJson.ofTables [(.command codeRequest, codeLine)] [] [] [] }

def codeDaemon : Daemon :=
  { reconnectDaemon with unixSecs := 59, channel := fun _ => arrived codeLine }

def codeWorkers : Pool (sig codePlatform) Tid (Except IoError Unit) := workers codePlatform .totp false

def redeemedRun : Option (Point (sig codePlatform) Daemon Tid Env (Except IoError Unit)) :=
  replay (world codePlatform) ⟨[], codeDaemon, codeWorkers⟩
    (List.replicate 21 (.thread 0 (smooth 54 .denied)) ++ [.env (.tickUnix 1)] ++
      List.replicate 21 (.thread 1 (smooth 54 .denied)))

/-- Whether a step records a fresh approval of thread `t`. -/
def approves (t : Tid) (st : Step (sig P) Daemon Tid Env) : Bool :=
  match st.label with
  | .thread u ⟨.recordApproval _ _ _, _⟩ => u = t
  | _ => false

theorem approvedFresh_of_any (h : tr.any (approves t) = true) : ApprovedFresh t tr := by
  obtain ⟨⟨pre, label, post⟩, hst, happroves⟩ := List.any_eq_true.mp h
  cases label with
  | env event => cases happroves
  | thread u event =>
      obtain ⟨op, answer⟩ := event
      cases op with
      | recordApproval scopes ruleIndex argv =>
          obtain rfl : u = t := of_decide_eq_true happroves
          exact ⟨scopes, ruleIndex, argv, mem_history.mpr ⟨_, hst, rfl⟩⟩
      | _ => cases happroves

theorem redeemedRun_steps :
    ∃ c st after, redeemedRun = some c ∧ c.trace = [] ++ st :: after ∧
      Run (world codePlatform) codeDaemon codeWorkers ([] ++ st :: after) c.state c.pool ∧
      st.pre.unixSecs = 59 ∧ c.state.unixSecs = 60 ∧
      ∀ t ∈ ({0, 1} : Finset Tid), ApprovedFresh t ([] ++ st :: after) := by
  obtain ⟨c, hc⟩ : ∃ c, redeemedRun = some c := ⟨_, rfl⟩
  have hrun : Run (world codePlatform) codeDaemon codeWorkers c.trace c.state c.pool := run_of_replay .start hc
  have happroved : ∀ t ∈ ({0, 1} : Finset Tid), c.trace.any (approves t) = true := by
    obtain rfl := Option.some.inj hc
    decide +kernel
  have hclock : c.state.unixSecs = 60 ∧ c.trace.head?.map (fun st => st.pre.unixSecs) = some 59 := by
    obtain rfl := Option.some.inj hc
    decide +kernel
  obtain ⟨st, hst, hfirst⟩ := Option.map_eq_some_iff.mp hclock.2
  obtain ⟨after, htrace⟩ := List.head?_eq_some_iff.mp hst
  rw [htrace] at hrun happroved
  exact ⟨c, st, after, hc, htrace, hrun, hfirst, hclock.1, fun t ht => approvedFresh_of_any (happroved t ht)⟩

/-- Two approvals in two seconds, on the two sides of a time step: no more are possible. -/
theorem redeemedRun_budget :
    ∃ c, redeemedRun = some c ∧ (∀ t ∈ ({0, 1} : Finset Tid), ApprovedFresh t c.trace) ∧
      ({0, 1} : Finset Tid).card ≤ 60 / totpStep + 1 - 59 / totpStep := by
  obtain ⟨c, st, after, hc, htrace, hrun, hfirst, hlast, happroved⟩ := redeemedRun_steps
  have hbudget := totp_budget hrun {0, 1} fun t ht => ⟨rfl, happroved t ht⟩
  rw [hfirst, hlast] at hbudget
  exact ⟨c, hc, htrace ▸ happroved, hbudget⟩

end Sudix
