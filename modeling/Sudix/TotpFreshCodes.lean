import Sudix.ConcurrentPast
import Sudix.TotpSingleUse

/-! What becomes of a valid code that has not been used. A call is decided where it comes to consume the
counter of its time step, so a valid code that was never allowed is denied exactly when another code has
been allowed in that step. -/

namespace Sudix

open Concurrent

variable {P : Platform} {req : Tid → Request} {s₀ s : Daemon} {ps : Pool (sig P) Tid Approval}
  {tr : Trace (sig P) Daemon Tid Env}

/-- The call of `t` presents a code that is valid at that moment. -/
def PresentsValid (P : Platform) (req : Tid → Request) (tr : Trace (sig P) Daemon Tid Env) (t : Tid)
    (code : String) : Prop :=
  (req t).otp = some code ∧ ∃ st ∈ tr, ∃ accepted, st.label = .thread t ⟨.checkCurrent code, accepted⟩ ∧
    acceptsAt P (st.pre.unixSecs / totpStep) code = true

/-- No call was allowed with the code before. -/
def Unspent (req : Tid → Request) (before : Trace (sig P) Daemon Tid Env) (code : String) : Prop :=
  ∀ u m, ¬Consumed req before u code m

/-- A call that presents a valid code, unspent when the call is decided, is answered `Allowed`. -/
def ValidCodesAllowed (req : Tid → Request) (tr : Trace (sig P) Daemon Tid Env) (ps : Pool (sig P) Tid Approval) :
    Prop :=
  ∀ t code approval, ps t = .ret approval → PresentsValid P req tr t code →
    (∀ before st after counter fresh, tr = before ++ st :: after →
      st.label = .thread t ⟨.consumeCounter counter, fresh⟩ → Unspent req before code) →
    approval = .allowed

/-- Where a call comes to consume a counter for an unspent code, no earlier call was allowed in that time
step. -/
def StepUntaken (req : Tid → Request) (before : Trace (sig P) Daemon Tid Env)
    (st : Step (sig P) Daemon Tid Env) : Prop :=
  ∀ t code counter fresh, st.label = .thread t ⟨.consumeCounter counter, fresh⟩ → (req t).otp = some code →
    Unspent req before code → ∀ u, ⟨.consumeCounter counter, true⟩ ∉ history u before

/-- The set holds what calls have taken. -/
theorem usedCounters_iff {p₀ : Pool (sig P) Tid Approval} (hrun : Run (world P) s₀ p₀ tr s ps)
    (hempty : s₀.usedCounters = []) (counter : Nat) :
    counter ∈ s.usedCounters ↔ ∃ t, ⟨.consumeCounter counter, true⟩ ∈ history t tr := by
  refine ⟨?_, fun ⟨t, ht⟩ => mem_usedCounters hrun t counter ht⟩
  refine hrun.world_invariant (I := fun tr s => counter ∈ s.usedCounters →
    ∃ t, (⟨.consumeCounter counter, true⟩ : Event (sig P)) ∈ history t tr) ?_ ?_
  · rw [hempty]
    exact fun h => absurd h List.not_mem_nil
  · rintro tr ⟨pre, label, post⟩ ih hlegal hmem
    have hold : counter ∈ pre.usedCounters → ∃ t, (⟨.consumeCounter counter, true⟩ : Event (sig P)) ∈
        history t (tr ++ [⟨pre, label, post⟩]) := by
      intro h
      obtain ⟨t, ht⟩ := ih h
      exact ⟨t, mem_history_snoc.mpr (.inl ht)⟩
    cases hw : writes Op.writesCounters label with
    | false =>
        rw [legal_usedCounters hlegal hw] at hmem
        exact hold hmem
    | true =>
        cases label with
        | env event => simp [writes] at hw
        | thread u event =>
            obtain ⟨op, fresh⟩ := event
            cases op with
            | consumeCounter taken =>
                obtain ⟨hfresh, hused⟩ := legal_consumeCounter hlegal
                by_cases hpre : counter ∈ pre.usedCounters
                · exact hold hpre
                · obtain rfl : counter = taken := ((hused counter).mp hmem).resolve_right hpre
                  obtain rfl : fresh = true := hfresh.mpr hpre
                  exact ⟨u, mem_history_snoc.mpr (.inr rfl)⟩
            | _ => simp [writes, Op.writesCounters] at hw

/-- A counter is answered fresh when no earlier call has taken it. -/
theorem fresh_iff {before after : Trace (sig P) Daemon Tid Env} {st : Step (sig P) Daemon Tid Env} {t : Tid}
    {counter : Nat} {fresh : Bool} {p₀ : Pool (sig P) Tid Approval}
    (hrun : Run (world P) s₀ p₀ (before ++ st :: after) s ps) (hempty : s₀.usedCounters = [])
    (hlabel : st.label = .thread t ⟨.consumeCounter counter, fresh⟩) :
    fresh = true ↔ ∀ u, ⟨.consumeCounter counter, true⟩ ∉ history u before := by
  obtain ⟨⟨ps', hbefore⟩, hlegal⟩ := hrun.before
  obtain ⟨pre, label, post⟩ := st
  obtain rfl : label = _ := hlabel
  rw [(legal_consumeCounter hlegal).1, usedCounters_iff hbefore hempty, not_exists]

/-- A call is decided by the answer for its counter. -/
theorem decided_by_counter (hrun : Run (world P) s₀ (totpCalls P req) tr s ps) {t : Tid} {counter : Nat}
    {fresh : Bool} (h : ⟨.consumeCounter counter, fresh⟩ ∈ history t tr) :
    ps t = .ret (if fresh then .allowed else .denied) := by
  have hmeets := hrun.meets totpCalls_meets t
  generalize history t tr = own at h hmeets
  cases hps : ps t with
  | ret approval =>
      rw [hps] at hmeets
      have hdone : TotpDone (req t) own approval := hmeets
      cases hdone with
      | missing _ | wrong _ => simp at h
      | replayed _ =>
          obtain ⟨-, rfl⟩ : counter = _ ∧ fresh = false := by simpa using h
          rfl
      | fresh _ =>
          obtain ⟨-, rfl⟩ : counter = _ ∧ fresh = true := by simpa using h
          rfl
  | call op next =>
      rw [hps] at hmeets
      have hstage : TotpStage (req t) own op := hmeets.1
      cases hstage <;> simp at h

/-- A call comes to consume a counter once: after two operations of its own. -/
theorem before_consume (hrun : Run (world P) s₀ (totpCalls P req) tr s ps)
    {before after : Trace (sig P) Daemon Tid Env} {st : Step (sig P) Daemon Tid Env} {t : Tid} {counter : Nat}
    {fresh : Bool} (htr : tr = before ++ st :: after)
    (hlabel : st.label = .thread t ⟨.consumeCounter counter, fresh⟩) :
    ∃ code unixSecs, (req t).otp = some code ∧
      history t before = [⟨.checkCurrent code, true⟩, ⟨.systemTime, unixSecs⟩] := by
  have hstage : TotpStage (req t) (history t before) (.consumeCounter counter) :=
    hrun.every_pre totpCalls_meets before st after htr t _ hlabel
  generalize history t before = own at hstage
  cases hstage with
  | consume hotp => exact ⟨_, _, hotp, rfl⟩

/-- What came before the decision of a call does not depend on where in the trace one looks. -/
theorem before_consume_unique (hrun : Run (world P) s₀ (totpCalls P req) tr s ps)
    {before after before' after' : Trace (sig P) Daemon Tid Env} {st st' : Step (sig P) Daemon Tid Env} {t : Tid}
    {counter counter' : Nat} {fresh fresh' : Bool} (htr : tr = before ++ st :: after)
    (hlabel : st.label = .thread t ⟨.consumeCounter counter, fresh⟩) (htr' : tr = before' ++ st' :: after')
    (hlabel' : st'.label = .thread t ⟨.consumeCounter counter', fresh'⟩) : before <+: before' := by
  rcases Nat.lt_or_ge before'.length before.length with hlt | hge
  · obtain ⟨mid, rfl⟩ : before' ++ [st'] <+: before := by
      have hearlier : before' ++ [st'] <+: tr := ⟨after', by rw [htr']; simp⟩
      exact List.prefix_of_prefix_length_le hearlier ⟨st :: after, htr.symm⟩ (by simpa [Nat.succ_le_iff] using hlt)
    obtain ⟨_, _, -, hown⟩ := before_consume hrun htr hlabel
    obtain ⟨_, _, -, hown'⟩ := before_consume hrun htr' hlabel'
    rw [List.append_assoc, List.singleton_append, history_split hlabel', hown'] at hown
    simp at hown
  · exact List.prefix_of_prefix_length_le ⟨st :: after, htr.symm⟩ ⟨st' :: after', htr'.symm⟩ hge

theorem legal_checkCurrent {pre post : Daemon} {t : Tid} {code : String} {accepted : Bool}
    (h : Step.Legal (world P) ⟨pre, .thread t ⟨.checkCurrent code, accepted⟩, post⟩) :
    accepted = acceptsAt P (pre.unixSecs / totpStep) code := by
  obtain ⟨choice, hact⟩ := legal_act h
  exact (Prod.mk.inj (Option.some.inj hact)).1.symm

/-- A valid code passes the check of the call that presents it. -/
theorem PresentsValid.accepted {p₀ : Pool (sig P) Tid Approval} (hrun : Run (world P) s₀ p₀ tr s ps) {t : Tid}
    {code : String} (h : PresentsValid P req tr t code) : ⟨.checkCurrent code, true⟩ ∈ history t tr := by
  obtain ⟨-, st, hst, accepted, hlabel, hvalid⟩ := h
  refine mem_history.mpr ⟨st, hst, ?_⟩
  obtain ⟨before, after, htr⟩ := List.append_of_mem hst
  obtain ⟨pre, label, post⟩ := st
  obtain rfl : label = _ := hlabel
  rw [← hvalid, ← legal_checkCurrent (hrun.every_legal before _ after htr)]

/-- A code that passed the check was valid. -/
theorem presentsValid_of_accepted {p₀ : Pool (sig P) Tid Approval} (hrun : Run (world P) s₀ p₀ tr s ps) {t : Tid}
    {code : String} (hotp : (req t).otp = some code) (h : ⟨.checkCurrent code, true⟩ ∈ history t tr) :
    PresentsValid P req tr t code := by
  obtain ⟨st, hst, hlabel⟩ := mem_history.mp h
  refine ⟨hotp, st, hst, true, hlabel, ?_⟩
  obtain ⟨before, after, htr⟩ := List.append_of_mem hst
  obtain ⟨pre, label, post⟩ := st
  obtain rfl : label = _ := hlabel
  exact (legal_checkCurrent (hrun.every_legal before _ after htr)).symm

theorem Unspent.of_prefix {before before' : Trace (sig P) Daemon Tid Env} {code : String}
    (h : Unspent req before' code) (hearlier : before <+: before') : Unspent req before code := by
  obtain ⟨rest, rfl⟩ := hearlier
  rintro u m ⟨hotp, hmem⟩
  refine h u m ⟨hotp, ?_⟩
  rw [history_append]
  exact List.mem_append_left _ hmem

/-- **Unspent codes, exactly.** In a run of TOTP calls every call with a valid and unspent code is answered
`Allowed` if and only if none of them is decided in a time step in which an earlier call was allowed. -/
theorem totp_validCodesAllowed_iff (hrun : Run (world P) s₀ (totpCalls P req) tr s ps)
    (hempty : s₀.usedCounters = []) : ValidCodesAllowed req tr ps ↔ Every (StepUntaken req) tr := by
  constructor
  · intro hallowed before st after htr t code counter fresh hlabel hotp hunspent u htaken
    have hfresh : fresh = false := by
      rw [← Bool.not_eq_true, fresh_iff (htr ▸ hrun) hempty hlabel]
      exact fun h => h u htaken
    have hmem : ⟨.consumeCounter counter, fresh⟩ ∈ history t tr := by
      rw [htr, history_split hlabel]
      exact List.mem_append_right _ List.mem_cons_self
    have hdenied : ps t = .ret .denied := by
      rw [decided_by_counter hrun hmem, hfresh]
      rfl
    have hvalid : PresentsValid P req tr t code := by
      obtain ⟨code', unixSecs, hotp', hown⟩ := before_consume hrun htr hlabel
      obtain rfl : code = code' := Option.some.inj (hotp.symm.trans hotp')
      refine presentsValid_of_accepted hrun hotp ?_
      rw [htr, history_split hlabel, hown]
      exact List.mem_append_left _ List.mem_cons_self
    have happroval := hallowed t code .denied hdenied hvalid fun before' st' after' counter' fresh' htr' hlabel' =>
      hunspent.of_prefix (before_consume_unique hrun htr' hlabel' htr hlabel)
    cases happroval
  · intro huntaken t code approval hret hvalid hunspent
    have hdone : TotpDone (req t) (history t tr) approval := hrun.result totpCalls_meets hret
    have haccepted := hvalid.accepted hrun
    generalize hown : history t tr = own at hdone haccepted
    cases hdone with
    | missing hnone =>
        have hotp := hvalid.1
        rw [hnone] at hotp
        cases hotp
    | wrong _ => simp at haccepted
    | @replayed _ unixSecs _ =>
        have hmem : ⟨.consumeCounter (unixSecs / totpStep), false⟩ ∈ history t tr := by
          rw [hown]
          simp
        obtain ⟨st, hst, hlabel⟩ := mem_history.mp hmem
        obtain ⟨before, after, htr⟩ := List.append_of_mem hst
        have huntaken := huntaken before st after htr t code _ _ hlabel hvalid.1
          (hunspent before st after _ _ htr hlabel)
        exact absurd ((fresh_iff (htr ▸ hrun) hempty hlabel).mpr huntaken) Bool.false_ne_true
    | fresh _ => rfl

def codeOfStepOne : Request := ⟨["id"], "/", "", some "1"⟩

/-- Thread 1 presents the code of the second time step, the others that of the first. -/
def neighbours (t : Tid) : Request := if t = 1 then codeOfStepTwo else codeOfStepOne

/-- At the start of the second time step the code of the first is presented, and then its own. -/
def burnedCode : Option (Point (sig tally) Daemon Tid Env Approval) :=
  replay (world tally) ⟨[], beforeStepTwo, totpCalls tally neighbours⟩
    ([.env (.tickUnix 1)] ++ presentCode 0 ++ presentCode 1)

theorem burnedCode_run {c : Point (sig tally) Daemon Tid Env Approval} (hc : burnedCode = some c) :
    Run (world tally) beforeStepTwo (totpCalls tally neighbours) c.trace c.state c.pool := run_of_replay .start hc

theorem burnedCode_not_allowed {c : Point (sig tally) Daemon Tid Env Approval} (hc : burnedCode = some c) :
    ¬ValidCodesAllowed neighbours c.trace c.pool := by
  intro hallowed
  have hrun := burnedCode_run hc
  have hdenied : c.pool 1 = .ret .denied := by
    obtain rfl := Option.some.inj hc
    rfl
  have haccepted : ⟨.checkCurrent "11", true⟩ ∈ history 1 c.trace := by
    obtain rfl := Option.some.inj hc
    exact List.mem_cons_self
  have hvalid : PresentsValid tally neighbours c.trace 1 "11" := presentsValid_of_accepted hrun rfl haccepted
  have happroval := hallowed 1 "11" .denied hdenied hvalid ?_
  · cases happroval
  · intro before st after counter fresh htr hlabel u m hconsumed
    -- only thread 1 has this code, and it has taken no counter
    obtain rfl : u = 1 := by
      by_contra hne
      have hotp := hconsumed.1
      rw [neighbours, if_neg hne] at hotp
      exact absurd (Option.some.inj hotp) (by decide)
    have htaken : ⟨.consumeCounter m, true⟩ ∈ history 1 c.trace := by
      rw [htr, history_append]
      exact List.mem_append_left _ hconsumed.2
    have hret := decided_by_counter hrun htaken
    rw [hdenied] at hret
    cases hret

/-- Both codes are valid, and the second, which no call was ever allowed with, is denied. -/
theorem totp_valid_code_burned :
    Function.Injective tally.totpCode ∧ beforeStepTwo.usedCounters = [] ∧
      ∃ c, burnedCode = some c ∧
        Run (world tally) beforeStepTwo (totpCalls tally neighbours) c.trace c.state c.pool ∧
        ¬ValidCodesAllowed neighbours c.trace c.pool := by
  obtain ⟨c, hc⟩ : ∃ c, burnedCode = some c := ⟨_, rfl⟩
  exact ⟨tally_injective, rfl, c, hc, burnedCode_run hc, burnedCode_not_allowed hc⟩

/-- In that run the second code is decided in a step that the first has taken. -/
theorem burnedCode_step_taken :
    ∃ c, burnedCode = some c ∧ ¬Every (StepUntaken neighbours) c.trace := by
  obtain ⟨c, hc⟩ : ∃ c, burnedCode = some c := ⟨_, rfl⟩
  refine ⟨c, hc, fun huntaken => ?_⟩
  exact burnedCode_not_allowed hc ((totp_validCodesAllowed_iff (burnedCode_run hc) rfl).mpr huntaken)

end Sudix
