import Mathlib.Data.List.Nodup
import Mathlib.Logic.Relation
import Sudix.ConcurrentRun

/-! Programs that take locks in a fixed order. An operation takes a lock, releases one, may wait for something
other than a lock, or does none of these. When every thread takes a lock only above all it holds, and waits for
other things only with empty hands, no threads wait for each other in a circle, and every thread can be brought
to its end or to such a wait by steps of the threads alone. -/

namespace Concurrent

/-- What an operation does with locks. -/
inductive LockEffect (L : Type) where
  | pass
  | take (l : L)
  | release (l : L)
  | wait

/-- The locks of a family of programs, each with its place in the order. -/
structure LockOrder (S : Signature) (L : Type) where
  effect : S.Op → LockEffect L
  rank : L → Nat

variable {S : Signature} {L σ τ ε α β : Type}

/-- What a thread that holds some locks may do: a lock is taken above all that are held. -/
def LockOrder.Admits (D : LockOrder S L) (held : List L) : LockEffect L → Prop
  | .pass => True
  | .take l => ∀ l' ∈ held, D.rank l' < D.rank l
  | .release l => l ∈ held
  | .wait => held = []

def LockEffect.after [DecidableEq L] (held : List L) : LockEffect L → List L
  | .take l => l :: held
  | .release l => held.erase l
  | .pass | .wait => held

namespace Program

variable [DecidableEq L] (D : LockOrder S L)

/-- Started with the locks of `held` the program keeps to the order, and returns with those of `kept`. -/
def Orderly (kept : List L) : Program S α → List L → Prop
  | .ret _, held => held = kept
  | .call op next, held =>
      D.Admits held (D.effect op) ∧ ∀ answer, (next answer).Orderly kept ((D.effect op).after held)

variable {D} {held middle kept : List L}

theorem Orderly.bind {p : Program S β} {f : β → Program S α} (hp : p.Orderly D middle held)
    (hf : ∀ value, (f value).Orderly D kept middle) : (p >>= f).Orderly D kept held := by
  induction p generalizing held with
  | ret value =>
      obtain rfl : held = middle := hp
      exact hf value
  | call op next ih => exact ⟨hp.1, fun answer => ih answer (hp.2 answer)⟩

/-- An operation that has nothing to do with locks. -/
theorem orderly_pass {op : S.Op} {f : S.Answer op → Program S α} (hop : D.effect op = .pass)
    (hf : ∀ answer, (f answer).Orderly D kept held) : (perform op >>= f).Orderly D kept held := by
  refine ⟨?_, fun answer => ?_⟩
  · rw [hop]
    trivial
  · rw [hop]
    exact hf answer

theorem orderly_wait {op : S.Op} {f : S.Answer op → Program S α} (hop : D.effect op = .wait)
    (hf : ∀ answer, (f answer).Orderly D kept []) : (perform op >>= f).Orderly D kept [] := by
  refine ⟨?_, fun answer => ?_⟩
  · rw [hop]
    rfl
  · rw [hop]
    exact hf answer

theorem orderly_take {op : S.Op} {l : L} {f : S.Answer op → Program S α} (hop : D.effect op = .take l)
    (hbelow : ∀ l' ∈ held, D.rank l' < D.rank l) (hf : ∀ answer, (f answer).Orderly D kept (l :: held)) :
    (perform op >>= f).Orderly D kept held := by
  refine ⟨?_, fun answer => ?_⟩
  · rw [hop]
    exact hbelow
  · rw [hop]
    exact hf answer

/-- The lock taken last is released. -/
theorem orderly_release {op : S.Op} {l : L} {f : S.Answer op → Program S α} (hop : D.effect op = .release l)
    (hf : ∀ answer, (f answer).Orderly D kept held) : (perform op >>= f).Orderly D kept (l :: held) := by
  refine ⟨?_, fun answer => ?_⟩
  · rw [hop]
    exact List.mem_cons_self
  · rw [hop, LockEffect.after, List.erase_cons_head]
    exact hf answer

end Program

/-- The shared state keeps for each lock the thread that holds it, and blocks a thread only where the lock it
takes is held or where it waits for something else. -/
structure LockOrder.KeptBy [DecidableEq L] (D : LockOrder S L) (W : World S σ τ ε) (holder : σ → L → Option τ) :
    Prop where
  take : ∀ {s t op choice answer s' l}, D.effect op = .take l → W.act s t op choice = some (answer, s') →
    holder s l = none ∧ holder s' = Function.update (holder s) l (some t)
  release : ∀ {s t op choice answer s' l}, D.effect op = .release l → W.act s t op choice = some (answer, s') →
    holder s' = Function.update (holder s) l none
  pass : ∀ {s t op choice answer s'}, D.effect op = .pass ∨ D.effect op = .wait →
    W.act s t op choice = some (answer, s') → holder s' = holder s
  env : ∀ {s event s'}, W.env s event = some s' → holder s' = holder s
  takes : ∀ {s t op l}, D.effect op = .take l → holder s l = none →
    ∃ choice answer s', W.act s t op choice = some (answer, s')
  releases : ∀ {s t op l}, D.effect op = .release l → holder s l = some t →
    ∃ choice answer s', W.act s t op choice = some (answer, s')
  passes : ∀ {s t op}, D.effect op = .pass → ∃ choice answer s', W.act s t op choice = some (answer, s')

section

variable [DecidableEq L] {D : LockOrder S L} {W : World S σ τ ε} {holder : σ → L → Option τ} {s s' : σ}
  {ps ps' : Pool S τ α} {held : τ → List L} {t u : τ} {l : L}

/-- The locks each thread holds, all of them known to the shared state. -/
structure Disciplined (D : LockOrder S L) (holder : σ → L → Option τ) (s : σ) (ps : Pool S τ α)
    (held : τ → List L) : Prop where
  orderly : ∀ t, (ps t).Orderly D [] (held t)
  holds : ∀ t l, holder s l = some t ↔ l ∈ held t
  nodup : ∀ t, (held t).Nodup

namespace Disciplined

theorem start (hprograms : ∀ t, (ps t).Orderly D [] []) (hfree : ∀ l, holder s l = none) :
    Disciplined D holder s ps fun _ => [] where
  orderly := hprograms
  holds t l := by simp [hfree l]
  nodup _ := List.nodup_nil

theorem env {event : ε} (hW : D.KeptBy W holder) (h : Disciplined D holder s ps held)
    (hstep : W.env s event = some s') : Disciplined D holder s' ps held where
  orderly := h.orderly
  holds t l := by
    rw [hW.env hstep]
    exact h.holds t l
  nodup := h.nodup

theorem admits (h : Disciplined D holder s ps held) {op : S.Op} {next : S.Answer op → Program S α}
    (hnext : ps t = .call op next) :
    D.Admits (held t) (D.effect op) ∧ ∀ answer, (next answer).Orderly D [] ((D.effect op).after (held t)) := by
  have horderly := h.orderly t
  rw [hnext] at horderly
  exact horderly

variable [DecidableEq τ]

/-- A step of a thread changes what it holds and nothing else. -/
theorem thread (hW : D.KeptBy W holder) (h : Disciplined D holder s ps held) {op : S.Op}
    {next : S.Answer op → Program S α} {choice : W.Choice op} {answer : S.Answer op}
    (hnext : ps t = .call op next) (hact : W.act s t op choice = some (answer, s')) :
    Disciplined D holder s' (Function.update ps t (next answer))
      (Function.update held t ((D.effect op).after (held t))) := by
  obtain ⟨hadmits, horderly⟩ := h.admits hnext
  have hother : ∀ v, v ≠ t → Function.update held t ((D.effect op).after (held t)) v = held v :=
    fun v hv => Function.update_of_ne hv _ _
  refine ⟨fun v => ?_, fun v l => ?_, fun v => ?_⟩
  · by_cases hv : v = t
    · subst hv
      rw [Function.update_self, Function.update_self]
      exact horderly answer
    · rw [Function.update_of_ne hv, hother v hv]
      exact h.orderly v
  · cases heffect : D.effect op with
    | pass | wait =>
        rw [hW.pass (by simp [heffect]) hact, h.holds v l]
        by_cases hv : v = t
        · subst hv
          rw [Function.update_self]
          rfl
        · rw [Function.update_of_ne hv]
    | take l' =>
        obtain ⟨hfree, hholder⟩ := hW.take heffect hact
        rw [hholder]
        by_cases hl : l = l'
        · subst hl
          by_cases hv : v = t
          · subst hv
            simp [LockEffect.after]
          · have hnot : l ∉ held v := fun hmem => by simp [(h.holds v l).mpr hmem] at hfree
            simp [Function.update_of_ne hv, hnot, Ne.symm hv]
        · rw [Function.update_of_ne hl, h.holds v l]
          by_cases hv : v = t
          · subst hv
            simp [LockEffect.after, hl]
          · rw [Function.update_of_ne hv]
    | release l' =>
        rw [heffect] at hadmits
        rw [hW.release heffect hact]
        have hmine : holder s l' = some t := (h.holds t l').mpr hadmits
        by_cases hl : l = l'
        · subst hl
          by_cases hv : v = t
          · subst hv
            simp [LockEffect.after, (h.nodup v).not_mem_erase]
          · have hnot : l ∉ held v := by
              intro hmem
              rw [(h.holds v l).mpr hmem] at hmine
              exact hv (Option.some.inj hmine)
            simp [Function.update_of_ne hv, hnot]
        · rw [Function.update_of_ne hl, h.holds v l]
          by_cases hv : v = t
          · subst hv
            simp [LockEffect.after, List.mem_erase_of_ne hl]
          · rw [Function.update_of_ne hv]
  · by_cases hv : v = t
    · subst hv
      rw [Function.update_self]
      cases heffect : D.effect op with
      | pass | wait => exact h.nodup v
      | release l' => exact (h.nodup v).erase l'
      | take l' =>
          rw [heffect] at hadmits
          exact List.nodup_cons.mpr ⟨fun hmem => Nat.lt_irrefl _ (hadmits l' hmem), h.nodup v⟩
    · rw [hother v hv]
      exact h.nodup v

end Disciplined

/-- Thread `t` is about to take a lock that `u` holds. -/
def WaitsFor (D : LockOrder S L) (holder : σ → L → Option τ) (s : σ) (ps : Pool S τ α) (t u : τ) : Prop :=
  ∃ op next l, ps t = .call op next ∧ D.effect op = .take l ∧ holder s l = some u

/-- Along a chain of waiting threads the locks rise: its end holds a lock that is not below the one its start
waits for. -/
theorem Disciplined.rising (h : Disciplined D holder s ps held)
    (hwaits : Relation.TransGen (WaitsFor D holder s ps) t u) :
    ∃ op next l, ps t = .call op next ∧ D.effect op = .take l ∧ ∃ l' ∈ held u, D.rank l ≤ D.rank l' := by
  induction hwaits with
  | single hwait =>
      obtain ⟨op, next, l, hnext, htake, hheld⟩ := hwait
      exact ⟨op, next, l, hnext, htake, l, (h.holds _ l).mp hheld, Nat.le_refl _⟩
  | tail _ hwait ih =>
      obtain ⟨op, next, l, hnext, htake, l', hl', hle⟩ := ih
      obtain ⟨op', next', l'', hnext', htake', hheld⟩ := hwait
      obtain ⟨hadmits, -⟩ := h.admits hnext'
      rw [htake'] at hadmits
      have hlt : D.rank l < D.rank l'' := Nat.lt_of_le_of_lt hle (hadmits l' hl')
      exact ⟨op, next, l, hnext, htake, l'', (h.holds _ l'').mp hheld, Nat.le_of_lt hlt⟩

/-- **No circular wait.** -/
theorem Disciplined.not_circular (h : Disciplined D holder s ps held) :
    ¬ Relation.TransGen (WaitsFor D holder s ps) t t := by
  intro hwaits
  obtain ⟨op, next, l, hnext, htake, l', hl', hle⟩ := h.rising hwaits
  obtain ⟨hadmits, -⟩ := h.admits hnext
  rw [htake] at hadmits
  exact Nat.lt_irrefl _ (Nat.lt_of_le_of_lt hle (hadmits l' hl'))

/-- A program that has returned or waits for something other than a lock. -/
def AtRest (D : LockOrder S L) (p : Program S α) : Prop :=
  (∃ value, p = .ret value) ∨ ∃ op next, p = .call op next ∧ D.effect op = .wait

/-- A thread at rest holds no lock. -/
theorem Disciplined.held_eq_nil (h : Disciplined D holder s ps held) (hrest : AtRest D (ps t)) : held t = [] := by
  rcases hrest with ⟨value, hp⟩ | ⟨op, next, hp, hwait⟩
  · have horderly := h.orderly t
    rw [hp] at horderly
    exact horderly
  · obtain ⟨hadmits, -⟩ := h.admits hp
    rw [hwait] at hadmits
    exact hadmits

variable [DecidableEq τ]

/-- Steps of the threads alone, from one state to another. -/
inductive Unaided (W : World S σ τ ε) : σ → Pool S τ α → σ → Pool S τ α → Prop
  | refl (s : σ) (ps : Pool S τ α) : Unaided W s ps s ps
  | step {s s₁ s' : σ} {ps ps' : Pool S τ α} {t : τ} {op : S.Op} {next : S.Answer op → Program S α}
      {choice : W.Choice op} {answer : S.Answer op} :
      ps t = .call op next → W.act s t op choice = some (answer, s₁) →
      Unaided W s₁ (Function.update ps t (next answer)) s' ps' → Unaided W s ps s' ps'

theorem Unaided.trans {s₁ : σ} {ps₁ : Pool S τ α} (h : Unaided W s ps s₁ ps₁) (h' : Unaided W s₁ ps₁ s' ps') :
    Unaided W s ps s' ps' := by
  induction h with
  | refl _ _ => exact h'
  | step hnext hact _ ih => exact .step hnext hact (ih h')

/-- Such steps prolong a run. -/
theorem Run.unaided {s₀ : σ} {p₀ : Pool S τ α} {tr : Trace S σ τ ε} (hrun : Run W s₀ p₀ tr s ps)
    (h : Unaided W s ps s' ps') :
    ∃ tr', Run W s₀ p₀ (tr ++ tr') s' ps' ∧ ∀ st ∈ tr', ∃ t event, st.label = .thread t event := by
  induction h generalizing tr with
  | refl _ _ => exact ⟨[], by rwa [List.append_nil], by simp⟩
  | @step s s₁ s' ps ps' t op next choice answer hnext hact _ ih =>
      obtain ⟨tr', hrun', hthreads⟩ := ih (.thread t choice hrun hnext hact)
      refine ⟨⟨s, .thread t ⟨op, answer⟩, s₁⟩ :: tr', by rwa [List.append_cons], fun st hst => ?_⟩
      rcases List.mem_cons.mp hst with rfl | hst
      · exact ⟨t, _, rfl⟩
      · exact hthreads st hst

/-- A continuation that leaves alone every thread whose locks are all below some place in the order. -/
structure Continues (D : LockOrder S L) (W : World S σ τ ε) (holder : σ → L → Option τ) (place : Nat) (s : σ)
    (ps : Pool S τ α) (held : τ → List L) (s' : σ) (ps' : Pool S τ α) (held' : τ → List L) : Prop where
  steps : Unaided W s ps s' ps'
  disciplined : Disciplined D holder s' ps' held'
  alone : ∀ v, (∀ l ∈ held v, D.rank l < place) → ps' v = ps v ∧ held' v = held v

theorem Continues.refl (h : Disciplined D holder s ps held) (place : Nat) :
    Continues D W holder place s ps held s ps held := ⟨.refl s ps, h, fun _ _ => ⟨rfl, rfl⟩⟩

theorem Continues.trans {place place' : Nat} {s₁ : σ} {ps₁ : Pool S τ α} {held₁ held' : τ → List L}
    (h : Continues D W holder place' s ps held s₁ ps₁ held₁)
    (h' : Continues D W holder place s₁ ps₁ held₁ s' ps' held') (hle : place ≤ place') :
    Continues D W holder place s ps held s' ps' held' where
  steps := h.steps.trans h'.steps
  disciplined := h'.disciplined
  alone v hv := by
    obtain ⟨hps, hheld⟩ := h.alone v fun l hl => Nat.lt_of_lt_of_le (hv l hl) hle
    obtain ⟨hps', hheld'⟩ := h'.alone v (by rwa [hheld])
    exact ⟨hps'.trans hps, hheld'.trans hheld⟩

/-- One step of a thread that holds a lock at the place or above. -/
theorem Disciplined.continues (hW : D.KeptBy W holder) (h : Disciplined D holder s ps held) {op : S.Op}
    {next : S.Answer op → Program S α} {choice : W.Choice op} {answer : S.Answer op} (hnext : ps t = .call op next)
    (hact : W.act s t op choice = some (answer, s')) (hl : l ∈ held t) :
    Continues D W holder (D.rank l) s ps held s' (Function.update ps t (next answer))
      (Function.update held t ((D.effect op).after (held t))) where
  steps := .step hnext hact (.refl _ _)
  disciplined := h.thread hW hnext hact
  alone v hv := by
    have hne : v ≠ t := by
      intro hvt
      subst hvt
      exact Nat.lt_irrefl _ (hv l hl)
    exact ⟨Function.update_of_ne hne _ _, Function.update_of_ne hne _ _⟩

variable (D W holder α) in
/-- Wherever the lock is held it can be freed by steps of threads that hold locks at its place or above. -/
def Freeable (l : L) : Prop :=
  ∀ (s : σ) (ps : Pool S τ α) (held : τ → List L) (u : τ), Disciplined D holder s ps held → l ∈ held u →
    ∃ s' ps' held', Continues D W holder (D.rank l) s ps held s' ps' held' ∧ holder s' l = none

/-- The holder of a lock proceeds when the locks above are freed for it; the induction is on what remains of its
program. -/
theorem freeable_of_above (hW : D.KeptBy W holder)
    (habove : ∀ l', D.rank l < D.rank l' → Freeable α D W holder l') : Freeable α D W holder l := by
  intro s ps held u h hheld
  generalize hp : ps u = p
  induction p generalizing s ps held with
  | ret value =>
      have horderly := h.orderly u
      rw [hp] at horderly
      have hnone : held u = [] := horderly
      rw [hnone] at hheld
      cases hheld
  | call op next ih =>
      -- a step of the holder after which it still holds the lock
      have hstep : ∀ {s₁ : σ} {ps₁ : Pool S τ α} {held₁ : τ → List L} {choice answer s₂},
          Continues D W holder (D.rank l) s ps held s₁ ps₁ held₁ → ps₁ u = .call op next → l ∈ held₁ u →
          W.act s₁ u op choice = some (answer, s₂) → l ∈ (D.effect op).after (held₁ u) →
          ∃ s' ps' held', Continues D W holder (D.rank l) s ps held s' ps' held' ∧ holder s' l = none := by
        intro s₁ ps₁ held₁ choice answer s₂ hcont hnext hmem hact hafter
        have hmove := hcont.disciplined.continues hW hnext hact hmem
        obtain ⟨s', ps', held', hrest, hfree⟩ := ih answer s₂ _ _ hmove.disciplined
          (by rwa [Function.update_self]) (Function.update_self ..)
        exact ⟨s', ps', held', (hcont.trans hmove (Nat.le_refl _)).trans hrest (Nat.le_refl _), hfree⟩
      obtain ⟨hadmits, -⟩ := h.admits hp
      cases heffect : D.effect op with
      | wait =>
          rw [heffect] at hadmits
          have hnone : held u = [] := hadmits
          rw [hnone] at hheld
          cases hheld
      | pass =>
          obtain ⟨choice, answer, s₂, hact⟩ := hW.passes (s := s) (t := u) heffect
          refine hstep (.refl h _) hp hheld hact ?_
          rw [heffect]
          exact hheld
      | release l' =>
          rw [heffect] at hadmits
          obtain ⟨choice, answer, s₂, hact⟩ := hW.releases heffect ((h.holds u l').mpr hadmits)
          by_cases hl : l = l'
          · subst hl
            refine ⟨_, _, _, h.continues hW hp hact hheld, ?_⟩
            rw [hW.release heffect hact, Function.update_self]
          · refine hstep (.refl h _) hp hheld hact ?_
            rw [heffect]
            exact (List.mem_erase_of_ne hl).mpr hheld
      | take l' =>
          rw [heffect] at hadmits
          have hlt : D.rank l < D.rank l' := hadmits l hheld
          have hkept : ∀ {held₁ : τ → List L}, l ∈ held₁ u → l ∈ (D.effect op).after (held₁ u) := by
            intro held₁ hmem
            rw [heffect]
            exact List.mem_cons_of_mem _ hmem
          cases hholder : holder s l' with
          | none =>
              obtain ⟨choice, answer, s₂, hact⟩ := hW.takes (t := u) heffect hholder
              exact hstep (.refl h _) hp hheld hact (hkept hheld)
          | some w =>
              obtain ⟨s₁, ps₁, held₁, hcont, hfree⟩ := habove l' hlt s ps held w h ((h.holds w l').mp hholder)
              obtain ⟨hps, hsame⟩ := hcont.alone u hadmits
              obtain ⟨choice, answer, s₂, hact⟩ := hW.takes (t := u) heffect hfree
              have hmem : l ∈ held₁ u := by rwa [hsame]
              exact hstep (hcont.trans (.refl hcont.disciplined _) (Nat.le_of_lt hlt)) (hps.trans hp) hmem hact
                (hkept hmem)

/-- **Every lock can be freed**, when the order is bounded. -/
theorem freeable (hW : D.KeptBy W holder) {top : Nat} (htop : ∀ l, D.rank l ≤ top) (l : L) :
    Freeable α D W holder l := by
  induction hroom : top - D.rank l using Nat.strongRecOn generalizing l with
  | ind room ih =>
      refine freeable_of_above hW fun l' hlt => ih (top - D.rank l') ?_ l' rfl
      have hle := htop l'
      omega

/-- **Every thread can be brought to rest** by steps of the threads alone. -/
theorem Disciplined.can_rest (hW : D.KeptBy W holder) {top : Nat} (htop : ∀ l, D.rank l ≤ top)
    (h : Disciplined D holder s ps held) (t : τ) :
    ∃ s' ps' held', Unaided W s ps s' ps' ∧ Disciplined D holder s' ps' held' ∧ AtRest D (ps' t) := by
  generalize hp : ps t = p
  induction p generalizing s ps held with
  | ret value => exact ⟨s, ps, held, .refl s ps, h, .inl ⟨value, hp⟩⟩
  | call op next ih =>
      have hstep : ∀ {s₁ : σ} {ps₁ : Pool S τ α} {held₁ : τ → List L} {choice answer s₂},
          Unaided W s ps s₁ ps₁ → Disciplined D holder s₁ ps₁ held₁ → ps₁ t = .call op next →
          W.act s₁ t op choice = some (answer, s₂) →
          ∃ s' ps' held', Unaided W s ps s' ps' ∧ Disciplined D holder s' ps' held' ∧ AtRest D (ps' t) := by
        intro s₁ ps₁ held₁ choice answer s₂ hsteps hdisciplined hnext hact
        obtain ⟨s', ps', held', hrest, hend⟩ :=
          ih answer (hdisciplined.thread hW hnext hact) (Function.update_self ..)
        exact ⟨s', ps', held', hsteps.trans (.step hnext hact hrest), hend⟩
      cases heffect : D.effect op with
      | wait => exact ⟨s, ps, held, .refl s ps, h, .inr ⟨op, next, hp, heffect⟩⟩
      | pass =>
          obtain ⟨choice, answer, s₂, hact⟩ := hW.passes (s := s) (t := t) heffect
          exact hstep (.refl s ps) h hp hact
      | release l =>
          obtain ⟨hadmits, -⟩ := h.admits hp
          rw [heffect] at hadmits
          obtain ⟨choice, answer, s₂, hact⟩ := hW.releases heffect ((h.holds t l).mpr hadmits)
          exact hstep (.refl s ps) h hp hact
      | take l =>
          obtain ⟨hadmits, -⟩ := h.admits hp
          rw [heffect] at hadmits
          cases hholder : holder s l with
          | none =>
              obtain ⟨choice, answer, s₂, hact⟩ := hW.takes (t := t) heffect hholder
              exact hstep (.refl s ps) h hp hact
          | some w =>
              obtain ⟨s₁, ps₁, held₁, hcont, hfree⟩ :=
                freeable hW htop l s ps held w h ((h.holds w l).mp hholder)
              obtain ⟨choice, answer, s₂, hact⟩ := hW.takes (t := t) heffect hfree
              exact hstep hcont.steps hcont.disciplined ((hcont.alone t hadmits).1.trans hp) hact

variable {s₀ : σ} {p₀ : Pool S τ α} {tr : Trace S σ τ ε}

/-- What each thread holds is known in every state a run of orderly programs reaches. -/
theorem Run.disciplined (hW : D.KeptBy W holder) (hrun : Run W s₀ p₀ tr s ps)
    (hprograms : ∀ t, (p₀ t).Orderly D [] []) (hfree : ∀ l, holder s₀ l = none) :
    ∃ held, Disciplined D holder s ps held := by
  induction hrun with
  | start => exact ⟨_, .start hprograms hfree⟩
  | thread t choice _ hnext hact ih =>
      obtain ⟨held, h⟩ := ih
      exact ⟨_, h.thread hW hnext hact⟩
  | env event _ hstep ih =>
      obtain ⟨held, h⟩ := ih
      exact ⟨held, h.env hW hstep⟩

end

end Concurrent
