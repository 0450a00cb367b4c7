import Mathlib.Data.Finset.Card
import Sudix.ConcurrentRun

/-! Programs that work under a permit of a counting semaphore. A program takes a permit before it does anything
else and gives it back last of all, whatever its answers are; then in every run the counter of the semaphore is the
number of programs in mid-course. -/

namespace Concurrent

/-- What an operation does with the permits. -/
inductive PermitEffect where
  | pass
  | take
  | give
  deriving DecidableEq

variable {S : Signature} {σ τ ε α β : Type}

namespace Program

variable (effect : S.Op → PermitEffect)

/-- The program, which holds a permit or not, performs other operations under a permit only, and returns with one
or without. -/
def Permitted (kept : Bool) : Program S α → Bool → Prop
  | .ret _, holding => holding = kept
  | .call op next, holding =>
      match effect op with
      | .pass => holding = true ∧ ∀ answer, (next answer).Permitted kept true
      | .take => holding = false ∧ ∀ answer, (next answer).Permitted kept true
      | .give => holding = true ∧ ∀ answer, (next answer).Permitted kept false

variable {effect} {holding middle kept : Bool}

theorem permitted_take {op : S.Op} {next : S.Answer op → Program S α} (hop : effect op = .take) :
    (Program.call op next).Permitted effect kept holding ↔
      holding = false ∧ ∀ answer, (next answer).Permitted effect kept true := by
  simp only [Permitted, hop]

theorem permitted_give {op : S.Op} {next : S.Answer op → Program S α} (hop : effect op = .give) :
    (Program.call op next).Permitted effect kept holding ↔
      holding = true ∧ ∀ answer, (next answer).Permitted effect kept false := by
  simp only [Permitted, hop]

theorem permitted_pass {op : S.Op} {next : S.Answer op → Program S α} (hop : effect op = .pass) :
    (Program.call op next).Permitted effect kept holding ↔
      holding = true ∧ ∀ answer, (next answer).Permitted effect kept true := by
  simp only [Permitted, hop]

theorem Permitted.bind {p : Program S β} {f : β → Program S α} (hp : p.Permitted effect middle holding)
    (hf : ∀ value, (f value).Permitted effect kept middle) : (p >>= f).Permitted effect kept holding := by
  induction p generalizing holding with
  | ret value =>
      obtain rfl : holding = middle := hp
      exact hf value
  | call op next ih =>
      rw [call_bind]
      cases hop : effect op with
      | pass =>
          obtain ⟨hheld, hnext⟩ := (permitted_pass hop).mp hp
          exact (permitted_pass hop).mpr ⟨hheld, fun answer => ih answer (hnext answer)⟩
      | take =>
          obtain ⟨hheld, hnext⟩ := (permitted_take hop).mp hp
          exact (permitted_take hop).mpr ⟨hheld, fun answer => ih answer (hnext answer)⟩
      | give =>
          obtain ⟨hheld, hnext⟩ := (permitted_give hop).mp hp
          exact (permitted_give hop).mpr ⟨hheld, fun answer => ih answer (hnext answer)⟩

/-- A program that never touches the semaphore runs under the permit of its caller. -/
theorem permitted_of_meets {pre : History S → S.Op → Prop} {post : History S → α → Prop} {p : Program S α}
    {past : History S} (hp : p.Meets pre post past) (hpass : ∀ past op, pre past op → effect op = .pass) :
    p.Permitted effect true true := by
  induction p generalizing past with
  | ret value => exact rfl
  | call op next ih => exact (permitted_pass (hpass _ _ hp.1)).mpr ⟨rfl, fun answer => ih answer (hp.2 answer)⟩

variable (effect) in
/-- The program has begun and not come to its end: it is about to perform an operation under its permit. -/
def MidCourse (p : Program S α) : Prop := ∃ op next, p = .call op next ∧ effect op ≠ .take

theorem Permitted.midCourse_iff {p : Program S α} (hp : p.Permitted effect false holding) :
    p.MidCourse effect ↔ holding = true := by
  cases p with
  | ret value =>
      have hfalse : holding = false := hp
      simp [MidCourse, hfalse]
  | call op next =>
      have hiff : MidCourse effect (.call op next) ↔ effect op ≠ .take := by
        constructor
        · intro hmid
          obtain ⟨op', next', heq, hne⟩ := hmid
          cases heq
          exact hne
        · exact fun hne => ⟨op, next, rfl, hne⟩
      rw [hiff]
      cases hop : effect op with
      | pass => simp [((permitted_pass hop).mp hp).1]
      | take => simp [((permitted_take hop).mp hp).1]
      | give => simp [((permitted_give hop).mp hp).1]

end Program

/-- The shared state counts the permits that are taken, and lets no more be taken than there are. -/
structure PermitsCounted (effect : S.Op → PermitEffect) (W : World S σ τ ε) (count : σ → Nat) (permits : Nat) :
    Prop where
  take : ∀ {s t op choice answer s'}, effect op = .take → W.act s t op choice = some (answer, s') →
    count s < permits ∧ count s' = count s + 1
  give : ∀ {s t op choice answer s'}, effect op = .give → W.act s t op choice = some (answer, s') →
    count s' = count s - 1
  pass : ∀ {s t op choice answer s'}, effect op = .pass → W.act s t op choice = some (answer, s') →
    count s' = count s
  env : ∀ {s event s'}, W.env s event = some s' → count s' = count s

section

variable [DecidableEq τ] {effect : S.Op → PermitEffect} {W : World S σ τ ε} {count : σ → Nat} {permits : Nat}
  {s₀ s : σ} {p₀ ps : Pool S τ α} {tr : Trace S σ τ ε}

/-- The threads of `live` hold the permits that are taken. -/
structure PermitsOf (effect : S.Op → PermitEffect) (count : σ → Nat) (permits : Nat) (s : σ) (ps : Pool S τ α)
    (live : Finset τ) : Prop where
  permitted : ∀ t, (ps t).Permitted effect false (decide (t ∈ live))
  card : live.card = count s
  le : count s ≤ permits

theorem PermitsOf.midCourse_iff {live : Finset τ} (h : PermitsOf effect count permits s ps live) (t : τ) :
    t ∈ live ↔ (ps t).MidCourse effect := by
  rw [(h.permitted t).midCourse_iff, decide_eq_true_iff]

/-- A step of thread `t` that leaves the other threads among the holders or not as they were. -/
theorem PermitsOf.update {live live' : Finset τ} {t : τ} {p : Program S α} {s' : σ}
    (h : PermitsOf effect count permits s ps live) (hp : p.Permitted effect false (decide (t ∈ live')))
    (hothers : ∀ v, v ≠ t → (v ∈ live' ↔ v ∈ live)) (hcard : live'.card = count s') (hle : count s' ≤ permits) :
    PermitsOf effect count permits s' (Function.update ps t p) live' where
  permitted v := by
    by_cases hv : v = t
    · subst hv
      rwa [Function.update_self]
    · rw [Function.update_of_ne hv, decide_eq_decide.mpr (hothers v hv)]
      exact h.permitted v
  card := hcard
  le := hle

theorem PermitsOf.step {live : Finset τ} {t : τ} {op : S.Op} {next : S.Answer op → Program S α} {choice : W.Choice op}
    {answer : S.Answer op} {s' : σ} (hW : PermitsCounted effect W count permits)
    (h : PermitsOf effect count permits s ps live) (hnext : ps t = .call op next)
    (hact : W.act s t op choice = some (answer, s')) :
    ∃ live', PermitsOf effect count permits s' (Function.update ps t (next answer)) live' := by
  have hp := h.permitted t
  rw [hnext] at hp
  cases hop : effect op with
  | pass =>
      obtain ⟨hmem, hrest⟩ := (Program.permitted_pass hop).mp hp
      have hcount : count s' = count s := hW.pass hop hact
      exact ⟨live, h.update (by rw [hmem]; exact hrest answer) (fun _ _ => Iff.rfl) (by rw [h.card, hcount])
        (by rw [hcount]; exact h.le)⟩
  | take =>
      obtain ⟨hmem, hrest⟩ := (Program.permitted_take hop).mp hp
      obtain ⟨hlt, hcount⟩ := hW.take hop hact
      refine ⟨insert t live, h.update ?_ (fun v hv => by simp [hv]) ?_ (by omega)⟩
      · rw [decide_eq_true (Finset.mem_insert_self t live)]
        exact hrest answer
      · rw [Finset.card_insert_of_notMem (of_decide_eq_false hmem), h.card, hcount]
  | give =>
      obtain ⟨hmem, hrest⟩ := (Program.permitted_give hop).mp hp
      have hcount : count s' = count s - 1 := hW.give hop hact
      have hle := h.le
      refine ⟨live.erase t, h.update ?_ (fun v hv => by simp [hv]) ?_ (by omega)⟩
      · rw [decide_eq_false (Finset.notMem_erase t live)]
        exact hrest answer
      · rw [Finset.card_erase_of_mem (of_decide_eq_true hmem), h.card, hcount]

/-- **The counter is the number of threads in mid-course**, in every state a run reaches. -/
theorem Run.permitsOf (hW : PermitsCounted effect W count permits) (hrun : Run W s₀ p₀ tr s ps)
    (hprograms : ∀ t, (p₀ t).Permitted effect false false) (hstart : count s₀ = 0) :
    ∃ live, PermitsOf effect count permits s ps live := by
  induction hrun with
  | start =>
      refine ⟨∅, fun t => ?_, by simp [hstart], by simp [hstart]⟩
      rw [decide_eq_false (Finset.notMem_empty t)]
      exact hprograms t
  | thread t choice _ hnext hact ih =>
      obtain ⟨live, h⟩ := ih
      exact h.step hW hnext hact
  | env event _ henv ih =>
      obtain ⟨live, h⟩ := ih
      exact ⟨live, h.permitted, by rw [h.card, hW.env henv], by rw [hW.env henv]; exact h.le⟩

end

end Concurrent
