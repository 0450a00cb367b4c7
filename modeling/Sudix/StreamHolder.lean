import Sudix.AgentStream
import Sudix.LockHolder

/-! The prompts that share a stream take turns on it, and the one that holds it is in step: the stream
was idle when it was taken, and since the prompt was written it is in the midst of that prompt's
exchange. -/

namespace Sudix

open Concurrent

variable {P : Platform} {c : Conn} {p : Tid → Prompt} {s₀ s s' : Daemon} {ps : Pool (sig P) Tid Approval}
  {tr : Trace (sig P) Daemon Tid Env} {own : History (sig P)} {t : Tid}

theorem Reading.ops {chunk : Nat → Nat} {limit : Nat} {line : List UInt8}
    (h : Reading c chunk limit own line) : ∀ e ∈ own, ∃ n, e.op = .recv c n := by
  induction h with
  | start => simp
  | more _ _ _ _ ih =>
      intro e he
      rcases List.mem_append.mp he with he | he
      · exact ih e he
      · obtain rfl := List.mem_singleton.mp he
        exact ⟨_, rfl⟩

theorem LineDone.ops {chunk : Nat → Nat} {limit : Nat} {result : Except IoError String}
    (h : LineDone c chunk limit own result) : ∀ e ∈ own, ∃ n, e.op = .recv c n := by
  have hdone : ∀ {result}, ReadDone c chunk limit own result → ∀ e ∈ own, ∃ n, e.op = .recv c n := by
    intro result hdone e he
    cases hdone with
    | full hreading _ => exact hreading.ops e he
    | newline hreading _ _ | eof hreading _ _ | error hreading _ =>
        rcases List.mem_append.mp he with he | he
        · exact hreading.ops e he
        · obtain rfl := List.mem_singleton.mp he
          exact ⟨_, rfl⟩
  cases h with
  | ok h _ | error h | invalid h _ => exact hdone h

/-- What is performed while the stream is held. -/
def Op.onStream (c : Conn) (op : Op) : Prop :=
  (∃ bytes, op = .writeAll c bytes) ∨ op = .flush c ∨ op = .setReadTimeout c ∨ (∃ n, op = .recv c n) ∨
    op = .signalDisconnected c

theorem sent_ops {line : String} : ∀ e ∈ (sent c line : History (sig P)), e.op.onStream c := by
  simp [sent, Op.onStream]

theorem Broken.ops {q : Prompt} {why : String} (h : Broken c q own why) : ∀ e ∈ own, e.op.onStream c := by
  cases h with
  | write _ | flush _ => simp [Op.onStream]
  | read _ hread | eof _ hread =>
      intro e he
      rcases List.mem_append.mp he with he | he
      · exact sent_ops e he
      · exact .inr (.inr (.inr (.inl (hread.ops e he))))

theorem LockedStage.ops {q : Prompt} {op : Op} (h : LockedStage c q own op) :
    op.onStream c ∧ ∀ e ∈ own, e.op.onStream c := by
  cases h with
  | write _ | flush _ | setReadTimeout _ => simp [Op.onStream]
  | read _ hread =>
      cases hread with
      | recv hreading _ =>
          refine ⟨by simp [Op.onStream], fun e he => ?_⟩
          rcases List.mem_append.mp he with he | he
          · exact sent_ops e he
          · exact .inr (.inr (.inr (.inl (hreading.ops e he))))
  | signal hbroken => exact ⟨by simp [Op.onStream], hbroken.ops⟩

theorem LockedDone.ops {q : Prompt} {approval : Approval} (h : LockedDone c q own approval) :
    ∀ e ∈ own, e.op.onStream c := by
  cases h with
  | unserializable _ => simp
  | noTimeout _ => simp [Op.onStream]
  | broken hbroken =>
      intro e he
      rcases List.mem_append.mp he with he | he
      · exact hbroken.ops e he
      · obtain rfl := List.mem_singleton.mp he
        simp [Op.onStream]
  | answered _ hread _ =>
      intro e he
      rcases List.mem_append.mp he with he | he
      · exact sent_ops e he
      · exact .inr (.inr (.inr (.inl (hread.ops e he))))

theorem Op.onStream.ne_lock {op : Op} (h : op.onStream c) (l : Lock) : op ≠ .lock l ∧ op ≠ .unlock l := by
  rcases h with ⟨_, rfl⟩ | rfl | rfl | ⟨_, rfl⟩ | rfl <;> simp

/-- What a prompt on connection `c` performs. -/
def Op.prompting (c : Conn) : Op → Bool
  | .lock l | .unlock l => l = .stream c
  | .writeAll c' _ | .flush c' | .setReadTimeout c' | .recv c' _ | .signalDisconnected c' => c' = c
  | _ => false

theorem Op.onStream.prompting {op : Op} (h : op.onStream c) : op.prompting c = true := by
  rcases h with ⟨_, rfl⟩ | rfl | rfl | ⟨_, rfl⟩ | rfl <;> exact decide_eq_true rfl

/-- A thread has taken the stream and not released it. -/
def Holding (c : Conn) (own : History (sig P)) : Prop :=
  (∃ e ∈ own, e.op = .lock (.stream c)) ∧ ∀ e ∈ own, e.op ≠ .unlock (.stream c)

theorem holding_locked {poisoned : Bool} (h : ∀ e ∈ own, e.op.onStream c) :
    Holding c (⟨.lock (.stream c), poisoned⟩ :: own) := by
  refine ⟨⟨_, List.mem_cons_self, rfl⟩, fun e he => ?_⟩
  rcases List.mem_cons.mp he with rfl | he
  · simp
  · exact ((h e he).ne_lock _).2

/-- A prompt takes the stream first; whatever else it does, it does holding it. -/
theorem PromptStage.holding {q : Prompt} {op : Op} (h : PromptStage c q own op) :
    own = [] ∧ op = .lock (.stream c) ∨ Holding c own ∧ (op = .unlock (.stream c) ∨
      ∃ own', own = ⟨.lock (.stream c), false⟩ :: own' ∧ LockedStage c q own' op) := by
  cases h with
  | lock => exact .inl ⟨rfl, rfl⟩
  | poisoned => exact .inr ⟨holding_locked (by simp), .inl rfl⟩
  | locked hlocked => exact .inr ⟨holding_locked hlocked.ops.2, .inr ⟨_, rfl, hlocked⟩⟩
  | unlock hdone => exact .inr ⟨holding_locked hdone.ops, .inl rfl⟩

theorem PromptStage.prompting {q : Prompt} {op : Op} (h : PromptStage c q own op) : op.prompting c = true := by
  rcases h.holding with ⟨-, rfl⟩ | ⟨-, rfl | ⟨own', -, hlocked⟩⟩
  · exact decide_eq_true rfl
  · exact decide_eq_true rfl
  · exact hlocked.ops.1.prompting

/-- A thread works on the stream by one prompt that shows `q`, and on no stream before it. -/
structure PromptsOn (c : Conn) (q : Prompt) (pre : History (sig P) → Op → Prop) : Prop where
  prompt : ∀ own op, pre own op → op.prompting c = true → ∃ before own', own = before ++ own' ∧
    (∀ e ∈ before, e.op.stream = none ∧ e.op.prompting c = false) ∧ PromptStage c q own' op
  held : ∀ own op, pre own op → Holding c own → op.prompting c = true

theorem promptStage_promptsOn (c : Conn) (q : Prompt) : PromptsOn (P := P) c q (PromptStage c q) where
  prompt own op hstage _ := ⟨[], own, rfl, by simp, hstage⟩
  held own op hstage _ := hstage.prompting

section PromptsOn

variable {q : Prompt} {pre : History (sig P) → Op → Prop}

theorem holding_append {before : History (sig P)} (h : ∀ e ∈ before, e.op.prompting c = false)
    (hholding : Holding c own) : Holding c (before ++ own) := by
  obtain ⟨⟨e, he, hop⟩, hnone⟩ := hholding
  refine ⟨⟨e, List.mem_append_right _ he, hop⟩, fun e he hop => ?_⟩
  rcases List.mem_append.mp he with he | he
  · have hquiet := h e he
    rw [hop] at hquiet
    simp [Op.prompting] at hquiet
  · exact hnone e he hop

/-- A prompt takes its stream once and releases it holding it. -/
theorem PromptsOn.lockedOnce (h : PromptsOn c q pre) : LockedOnce (.stream c) pre where
  lock own hpre := by
    obtain ⟨before, own', rfl, hbefore, hstage⟩ := h.prompt own _ hpre (decide_eq_true rfl)
    rcases hstage.holding with ⟨rfl, -⟩ | ⟨-, hunlock | ⟨own'', -, hlocked⟩⟩
    · rw [List.append_nil]
      intro e he
      have hquiet := (hbefore e he).2
      constructor
      all_goals
        intro hop
        rw [hop] at hquiet
        simp [Op.prompting] at hquiet
    · cases hunlock
    · exact absurd rfl (hlocked.ops.1.ne_lock _).1
  unlock own hpre := by
    obtain ⟨before, own', rfl, hbefore, hstage⟩ := h.prompt own _ hpre (decide_eq_true rfl)
    rcases hstage.holding with ⟨-, hlock⟩ | ⟨hholding, -⟩
    · cases hlock
    · exact holding_append (fun e he => (hbefore e he).2) hholding

end PromptsOn

/-- Before it writes its prompt the holder has an idle stream, and then one in the midst of its own
exchange. -/
structure InStep (c : Conn) (q : Prompt) (t : Tid) (tr : Trace (sig P) Daemon Tid Env)
    (own : History (sig P)) (ch : Channel) : Prop where
  idle : (∀ e ∈ own, ∀ bytes, e.op ≠ .writeAll c bytes) → Idle ch
  exchange : ∀ bytes, ⟨.writeAll c bytes, .ok ()⟩ ∈ own → Exchange c q t tr (received own) ch

variable {q : Prompt} {ch : Channel}

/-- Operations that neither write nor read keep the holder in step. -/
theorem InStep.quiet {op : Op} {answer : Answer P op} {st : Step (sig P) Daemon Tid Env}
    (h : InStep c q t tr own ch) (hstream : op.stream = none) :
    InStep c q t (tr ++ [st]) (own ++ [⟨op, answer⟩]) ch := by
  constructor
  · exact fun hnone => h.idle fun e he => hnone e (List.mem_append_left _ he)
  · intro bytes hmem
    rcases List.mem_append.mp hmem with hmem | hmem
    · have hnothing : received ([⟨op, answer⟩] : History (sig P)) = [] := by
        cases op <;> first | rfl | cases hstream
      rw [received_append, hnothing, List.append_nil]
      exact (h.exchange bytes hmem).append _
    · cases List.mem_singleton.mp hmem
      cases hstream

theorem InStep.env (hlaw : P.json.Lawful) {event : Env} (hstep : env P s event = some s')
    (h : InStep c q t tr own (s.channel c)) :
    InStep c q t (tr ++ [⟨s, .env event, s'⟩]) own (s'.channel c) :=
  ⟨fun hnone => (h.idle hnone).env hstep, fun bytes hmem => (h.exchange bytes hmem).env hlaw hstep⟩

theorem InStep.append (h : InStep c q t tr own ch) (tr' : Trace (sig P) Daemon Tid Env) :
    InStep c q t (tr ++ tr') own ch :=
  ⟨h.idle, fun bytes hmem => (h.exchange bytes hmem).append tr'⟩

theorem received_eq_nil (h : ∀ e ∈ own, e.op.stream = none) : received own = [] := by
  refine List.flatMap_eq_nil_iff.mpr ?_
  rintro ⟨op, answer⟩ he
  have hstream := h _ he
  cases op <;> first | rfl | cases hstream

/-- The write of the prompt begins the exchange. -/
theorem InStep.writeAll {line : String} {result : Except IoError Unit}
    (hlegal : Step.Legal (world P) ⟨s, .thread t ⟨.writeAll c (utf8 line), result⟩, s'⟩)
    (hline : q.toLine P.json = .ok line) (hown : ∀ e ∈ own, e.op.stream = none) (hidle : Idle (s.channel c)) :
    InStep c q t (tr ++ [⟨s, .thread t ⟨.writeAll c (utf8 line), result⟩, s'⟩])
      (own ++ [⟨.writeAll c (utf8 line), result⟩]) (s'.channel c) := by
  constructor
  · intro hnone
    exact absurd rfl (hnone _ (List.mem_append_right _ List.mem_cons_self) (utf8 line))
  · intro bytes hmem
    obtain ⟨choice, hact⟩ := legal_act hlegal
    rcases List.mem_append.mp hmem with hmem | hmem
    · cases hown _ hmem
    · cases List.mem_singleton.mp hmem
      cases choice with
      | error failed => cases hact
      | ok _ =>
          cases hact
          rw [setChannel_self, received_append, received_eq_nil hown]
          exact (hidle.send hline).append _

/-- A read moves bytes of the exchange. -/
theorem InStep.recv {n : Nat} {result : Except IoError (List UInt8)}
    (hlegal : Step.Legal (world P) ⟨s, .thread t ⟨.recv c n, result⟩, s'⟩)
    (h : InStep c q t tr own (s.channel c)) (hwritten : ∃ bytes, ⟨.writeAll c bytes, .ok ()⟩ ∈ own) :
    InStep c q t (tr ++ [⟨s, .thread t ⟨.recv c n, result⟩, s'⟩]) (own ++ [⟨.recv c n, result⟩])
      (s'.channel c) := by
  obtain ⟨written, hwritten⟩ := hwritten
  have hexchange := h.exchange written hwritten
  constructor
  · intro hnone
    exact absurd rfl (hnone _ (List.mem_append_left _ hwritten) written)
  · intro _ _
    refine Exchange.append ?_ _
    rw [received_append]
    obtain ⟨choice, hact⟩ := legal_act hlegal
    cases choice with
    | data k =>
        simp only [act] at hact
        split at hact
        · cases hact
          rw [setChannel_self]
          simpa [received] using hexchange.recv k
        · cases hact
    | eof =>
        simp only [act] at hact
        split at hact
        · cases hact
          simpa [received] using hexchange
        · cases hact
    | error e =>
        cases hact
        simpa [received] using hexchange

/-- Thread `t` finds the stream idle when it takes it. -/
def FindsIdle (c : Conn) (t : Tid) (_before : Trace (sig P) Daemon Tid Env) (st : Step (sig P) Daemon Tid Env) :
    Prop :=
  ∀ poisoned, st.label = .thread t ⟨.lock (.stream c), poisoned⟩ → Idle (st.pre.channel c)

/-- The holder's own steps keep it in step. -/
theorem InStep.locked {op : Op} {answer : Answer P op} {before own' : History (sig P)}
    (hlegal : Step.Legal (world P) ⟨s, .thread t ⟨op, answer⟩, s'⟩)
    (h : InStep c q t tr (before ++ ⟨.lock (.stream c), false⟩ :: own') (s.channel c))
    (hbefore : ∀ e ∈ before, e.op.stream = none) (hlocked : LockedStage c q own' op) :
    InStep c q t (tr ++ [⟨s, .thread t ⟨op, answer⟩, s'⟩])
      (before ++ ⟨.lock (.stream c), false⟩ :: own' ++ [⟨op, answer⟩]) (s'.channel c) := by
  have hquiet : op.stream = none → InStep c q t (tr ++ [⟨s, .thread t ⟨op, answer⟩, s'⟩])
      (before ++ ⟨.lock (.stream c), false⟩ :: own' ++ [⟨op, answer⟩]) (s'.channel c) := by
    intro hnone
    obtain ⟨choice, hact⟩ := hlegal
    rw [(act_frame hact).channel c (by simp [hnone])]
    exact h.quiet hnone
  cases hlocked with
  | write hline =>
      have hnone : ∀ e ∈ before ++ [⟨.lock (.stream c), false⟩], e.op.stream = none := by
        intro e he
        rcases List.mem_append.mp he with he | he
        · exact hbefore e he
        · obtain rfl := List.mem_singleton.mp he
          rfl
      refine InStep.writeAll hlegal hline hnone (h.idle fun e he bytes hop => ?_)
      have hstream := hnone e he
      rw [hop] at hstream
      cases hstream
  | flush _ => exact hquiet rfl
  | setReadTimeout _ => exact hquiet rfl
  | @read line _ _ _ hread =>
      cases hread
      exact h.recv hlegal ⟨utf8 line, by simp [sent]⟩
  | signal _ => exact hquiet rfl

section Run

variable {α : Type} {p₀ qs : Pool (sig P) Tid α} {q : Tid → Prompt} {pre : Tid → History (sig P) → Op → Prop}
  {post : Tid → History (sig P) → α → Prop} (hrun : Run (world P) s₀ p₀ tr s qs)
  (hp : ∀ t, (p₀ t).Meets (pre t) (post t) []) (hspeaks : ∀ t, PromptsOn c (q t) (pre t))

include hrun hp hspeaks

/-- The stream is held by the thread that has taken and not released it. -/
theorem holder_iff (hfree : s₀.holder (.stream c) = none) (t : Tid) :
    s.holder (.stream c) = some t ↔ Holding c (history t tr) :=
  holder_eq_some_iff hrun hp (fun t => (hspeaks t).lockedOnce) hfree t

/-- **The holder of the stream is in step**, if the stream was idle when it took it. -/
theorem holder_inStep (hlaw : P.json.Lawful) (hfree : s₀.holder (.stream c) = none) (t : Tid)
    (hidle : Every (FindsIdle c t) tr) (hheld : s.holder (.stream c) = some t) :
    InStep c (q t) t tr (history t tr) (s.channel c) := by
  induction hrun with
  | start =>
      rw [hfree] at hheld
      cases hheld
  | @env tr s ps event s' hprefix henv ih =>
      rw [(env_frame henv).holder] at hheld
      rw [history_append, history_env, List.append_nil]
      exact (ih (every_snoc.mp hidle).1 hheld).env hlaw henv
  | @thread tr s ps u op next choice answer s' hprefix hnext hact ih =>
      obtain ⟨hbefore, hnew⟩ := every_snoc.mp hidle
      have hlegal : Step.Legal (world P) ⟨s, .thread u ⟨op, answer⟩, s'⟩ := ⟨choice, hact⟩
      have hpre : pre u (history u tr) op := hprefix.pre_next hp hnext
      cases hop : op.prompting c with
      | false =>
          -- the stream and its holder stay as they are, and the holder is another thread
          have hchannel : s'.channel c = s.channel c := by
            refine (act_frame hact).channel c fun hstream => ?_
            cases op <;> cases hstream <;> simp [Op.prompting] at hop
          have hkeep : s'.holder (.stream c) = s.holder (.stream c) := by
            refine legal_holder hlegal (fun _ _ hlabel => ?_) fun _ _ hlabel => ?_
            all_goals
              cases hlabel
              simp [Op.prompting] at hop
          rw [hkeep] at hheld
          have hother : u ≠ t := by
            rintro rfl
            have hholding := (holder_iff hprefix hp hspeaks hfree u).mp hheld
            rw [(hspeaks u).held _ op hpre hholding] at hop
            cases hop
          rw [hchannel, history_append, history_thread_other hother, List.append_nil]
          exact (ih hbefore hheld).append _
      | true =>
          obtain ⟨before, own', hown, hquiet, hstage⟩ := (hspeaks u).prompt _ op hpre hop
          rcases hstage.holding with ⟨rfl, rfl⟩ | ⟨hholding, rfl | ⟨own'', rfl, hlocked⟩⟩
          · obtain ⟨-, rfl⟩ := legal_lock hlegal
            obtain rfl : u = t := by simpa using hheld
            rw [history_append, hown, history_thread_self]
            refine ⟨fun _ => hnew answer rfl, fun bytes hmem => ?_⟩
            rw [List.append_nil] at hmem
            rcases List.mem_append.mp hmem with hmem | hmem
            · cases (hquiet _ hmem).1
            · cases List.mem_singleton.mp hmem
          · obtain ⟨-, rfl⟩ := legal_unlock hlegal
            simp at hheld
          · have hu : s.holder (.stream c) = some u := by
              rw [holder_iff hprefix hp hspeaks hfree u, hown]
              exact holding_append (fun e he => (hquiet e he).2) hholding
            have hkeep : s'.holder = s.holder := by
              refine (act_frame hact).holder ?_
              rcases hlocked.ops.1 with ⟨_, rfl⟩ | rfl | rfl | ⟨_, rfl⟩ | rfl <;> rfl
            rw [hkeep, hu] at hheld
            obtain rfl := Option.some.inj hheld
            have hstep := ih hbefore hu
            rw [hown] at hstep
            rw [history_append, history_thread_self, hown]
            exact hstep.locked hlegal (fun e he => (hquiet e he).1) hlocked

end Run

end Sudix
