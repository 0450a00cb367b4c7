import Sudix.ApprovalSpec
import Sudix.DaemonSteps

/-! Single use of one-time codes. A call consumes the counter of the time step it runs in, while the
code it presents is accepted in the neighbouring steps too. So the consumed counters stand for codes
only as long as a code comes back in the step of its first use, or in a step whose counter another
code has already taken. -/

namespace Sudix

open Concurrent

variable {P : Platform} {req : Tid → Request} {s₀ s : Daemon} {ps : Pool (sig P) Tid Approval}
  {tr : Trace (sig P) Daemon Tid Env}

/-- The calls of one approver and its clones, which share `used_counters`. -/
def totpCalls (P : Platform) (req : Tid → Request) : Pool (sig P) Tid Approval :=
  fun t => TotpApprover.approve P (req t)

theorem totpCalls_meets (t : Tid) :
    (totpCalls P req t).Meets (TotpStage (req t)) (TotpDone (req t)) [] :=
  TotpApprover.approve_meets (req t)

/-- Thread `t` presented `code` and took `counter` for it. -/
def Consumed (req : Tid → Request) (tr : Trace (sig P) Daemon Tid Env) (t : Tid) (code : String)
    (counter : Nat) : Prop :=
  (req t).otp = some code ∧ ⟨.consumeCounter counter, true⟩ ∈ history t tr

/-- No code is answered `Allowed` in two calls. -/
def SingleUse (req : Tid → Request) (ps : Pool (sig P) Tid Approval) : Prop :=
  ∀ t u code, (req t).otp = some code → (req u).otp = some code → ps t = .ret .allowed →
    ps u = .ret .allowed → t = u

/-- Where a call comes to consume its counter for a code that another call was allowed with, the
counter is the one consumed then, or it is consumed already. -/
def ReplayBlocked (req : Tid → Request) (before : Trace (sig P) Daemon Tid Env)
    (st : Step (sig P) Daemon Tid Env) : Prop :=
  ∀ t counter answer, st.label = .thread t ⟨.consumeCounter counter, answer⟩ →
    ∀ u code m, u ≠ t → (req t).otp = some code → Consumed req before u code m →
      counter = m ∨ counter ∈ st.pre.usedCounters

/-- A counter that was answered fresh is in the set from then on. -/
theorem mem_usedCounters {α : Type} {p₀ qs : Pool (sig P) Tid α} (hrun : Run (world P) s₀ p₀ tr s qs) :
    ∀ t counter, ⟨.consumeCounter counter, true⟩ ∈ history t tr → counter ∈ s.usedCounters := by
  refine hrun.world_invariant (I := fun tr s => ∀ t counter,
    (⟨.consumeCounter counter, true⟩ : Event (sig P)) ∈ history t tr → counter ∈ s.usedCounters) ?_ ?_
  · intro t counter h
    simp at h
  · rintro tr ⟨pre, label, post⟩ ih hlegal t counter hmem
    cases hw : writes Op.writesCounters label with
    | false =>
        rw [legal_usedCounters hlegal hw]
        rcases mem_history_snoc.mp hmem with hmem | hlabel
        · exact ih t counter hmem
        · subst hlabel
          simp [writes, Op.writesCounters] at hw
    | true =>
        cases label with
        | env event => simp [writes] at hw
        | thread u event =>
            obtain ⟨op, fresh⟩ := event
            cases op with
            | consumeCounter taken =>
                obtain ⟨-, hused⟩ := legal_consumeCounter hlegal
                refine (hused counter).mpr ?_
                rcases mem_history_snoc.mp hmem with hold | hlabel
                · exact .inr (ih t counter hold)
                · cases hlabel
                  exact .inl rfl
            | _ => simp [writes, Op.writesCounters] at hw

/-- A call is allowed exactly when it has taken a counter. -/
theorem totp_allowed_iff (hrun : Run (world P) s₀ (totpCalls P req) tr s ps) (t : Tid) :
    ps t = .ret .allowed ↔ ∃ counter, ⟨.consumeCounter counter, true⟩ ∈ history t tr := by
  constructor
  · intro hret
    have hdone : TotpDone (req t) (history t tr) .allowed := hrun.result totpCalls_meets hret
    generalize history t tr = own at hdone
    cases hdone with
    | @fresh _ unixSecs hotp => exact ⟨unixSecs / totpStep, by simp⟩
  · rintro ⟨counter, hmem⟩
    have hmeets := hrun.meets totpCalls_meets t
    generalize history t tr = own at hmem hmeets
    cases hps : ps t with
    | ret approval =>
        rw [hps] at hmeets
        have hdone : TotpDone (req t) own approval := hmeets
        cases hdone with
        | fresh hotp => rfl
        | _ => simp at hmem
    | call op next =>
        rw [hps] at hmeets
        have hstage : TotpStage (req t) own op := hmeets.1
        cases hstage <;> simp at hmem

/-- Two calls that consume for one code are one call, as long as replays are blocked. -/
theorem consumed_unique (hrun : Run (world P) s₀ (totpCalls P req) tr s ps)
    (hblocked : Every (ReplayBlocked req) tr) {t u : Tid} {code : String} {m n : Nat}
    (ht : Consumed req tr t code m) (hu : Consumed req tr u code n) : t = u := by
  induction hrun generalizing t u m n with
  | start => simp [Consumed] at ht
  | env event hrun henv ih =>
      obtain ⟨hblocked, -⟩ := every_snoc.mp hblocked
      simp only [Consumed, history_append, history_env, List.append_nil] at ht hu
      exact ih hblocked ht hu
  | @thread tr s ps v op next choice answer s' hrun hnext hact ih =>
      obtain ⟨hblocked, hstep⟩ := every_snoc.mp hblocked
      have hlegal : Step.Legal (world P) ⟨s, .thread v ⟨op, answer⟩, s'⟩ := ⟨choice, hact⟩
      -- the new consumption takes a counter that was free, which no earlier one of the code allows
      have hnew : ∀ {t u m n}, (⟨s, .thread v ⟨op, answer⟩, s'⟩ : Step (sig P) Daemon Tid Env).label =
          .thread t ⟨.consumeCounter m, true⟩ → (req t).otp = some code → Consumed req tr u code n → t = u := by
        intro t u m n hlabel hcode hold
        cases hlabel
        by_contra hne
        have hused : n ∈ s.usedCounters := mem_usedCounters hrun u n hold.2
        have hfree : m ∉ s.usedCounters := (legal_consumeCounter hlegal).1.mp rfl
        rcases hstep v m true rfl u code n (Ne.symm hne) hcode hold with rfl | hmem
        · exact hfree hused
        · exact hfree hmem
      rcases mem_history_snoc.mp ht.2 with hold | hlabel <;> rcases mem_history_snoc.mp hu.2 with hold' | hlabel'
      · exact ih hblocked ⟨ht.1, hold⟩ ⟨hu.1, hold'⟩
      · exact (hnew hlabel' hu.1 ⟨ht.1, hold⟩).symm
      · exact hnew hlabel ht.1 ⟨hu.1, hold'⟩
      · cases hlabel
        cases hlabel'
        rfl

/-- **Single use of codes, exactly.** In a run of TOTP calls no code is answered `Allowed` twice if
and only if every replay of an allowed code meets a counter that is already consumed. -/
theorem totp_singleUse_iff (hrun : Run (world P) s₀ (totpCalls P req) tr s ps) :
    SingleUse req ps ↔ Every (ReplayBlocked req) tr := by
  constructor
  · intro hsingle before st after heq t counter answer hlabel u code m hne hcode hu
    have hold : Consumed req tr u code m := by
      refine ⟨hu.1, ?_⟩
      rw [heq, history_append]
      exact List.mem_append_left _ hu.2
    have hallowed : ps u = .ret .allowed := (totp_allowed_iff hrun u).mpr ⟨m, hold.2⟩
    cases answer with
    | true =>
        have ht : ps t = .ret .allowed := by
          refine (totp_allowed_iff hrun t).mpr ⟨counter, mem_history.mpr ⟨st, ?_, hlabel⟩⟩
          simp [heq]
        exact absurd (hsingle t u code hcode hu.1 ht hallowed) (Ne.symm hne)
    | false =>
        obtain ⟨pre, label, post⟩ := st
        obtain rfl : label = _ := hlabel
        have hlegal := hrun.every_legal before _ after heq
        by_contra hnot
        exact Bool.false_ne_true ((legal_consumeCounter hlegal).1.mpr fun hmem => hnot (.inr hmem))
  · intro hblocked t u code ht hu hallowed hallowed'
    obtain ⟨m, hm⟩ := (totp_allowed_iff hrun t).mp hallowed
    obtain ⟨n, hn⟩ := (totp_allowed_iff hrun u).mp hallowed'
    exact consumed_unique hrun hblocked ⟨ht, hm⟩ ⟨hu, hn⟩

/-- Codes that count the steps up: different steps have different codes. -/
def tally : Platform := { Platform.bare with totpCode := fun step => String.ofList (List.replicate step '1') }

theorem tally_injective : Function.Injective tally.totpCode := by
  intro m n h
  have hlen := congrArg List.length (congrArg String.toList h)
  simpa [tally] using hlen

def codeOfStepTwo : Request := ⟨["id"], "/", "", some "11"⟩

/-- One second before the second time step. -/
def beforeStepTwo : Daemon :=
  Daemon.start (.error "") ⟨.ok, fun _ => true⟩ ⟨⟨[], []⟩, [], []⟩ none (fun _ => 0) (fun _ => ⟨[], [], .gone⟩) 0 59

/-- The call of thread `t`. -/
def presentCode (t : Tid) : List (Move (world tally)) := List.replicate 3 (.thread t (smooth 0 .allowed))

/-- The code is presented in the step before its own and again in its own. -/
def replayedCode : Option (Point (sig tally) Daemon Tid Env Approval) :=
  replay (world tally) ⟨[], beforeStepTwo, totpCalls tally fun _ => codeOfStepTwo⟩
    (presentCode 0 ++ [.env (.tickUnix 1)] ++ presentCode 1)

/-- The same code is answered `Allowed` in two calls, although all codes differ. -/
theorem totp_code_allowed_twice :
    Function.Injective tally.totpCode ∧
      ∃ c, replayedCode = some c ∧
        Run (world tally) beforeStepTwo (totpCalls tally fun _ => codeOfStepTwo) c.trace c.state c.pool ∧
        ¬ SingleUse (fun _ => codeOfStepTwo) c.pool := by
  obtain ⟨c, hc⟩ : ∃ c, replayedCode = some c := ⟨_, rfl⟩
  refine ⟨tally_injective, c, hc, run_of_replay .start hc, fun hsingle => ?_⟩
  obtain rfl := Option.some.inj hc
  exact absurd (hsingle 0 1 "11" rfl rfl rfl rfl) (by decide)

/-- In that run a replay meets a counter nobody has consumed. -/
theorem replayedCode_not_blocked :
    ∃ c, replayedCode = some c ∧ ¬ Every (ReplayBlocked fun _ => codeOfStepTwo) c.trace := by
  obtain ⟨c, hc⟩ : ∃ c, replayedCode = some c := ⟨_, rfl⟩
  refine ⟨c, hc, fun hblocked => ?_⟩
  have hsingle := (totp_singleUse_iff (run_of_replay .start hc)).mpr hblocked
  obtain rfl := Option.some.inj hc
  exact absurd (hsingle 0 1 "11" rfl rfl rfl rfl) (by decide)

end Sudix
