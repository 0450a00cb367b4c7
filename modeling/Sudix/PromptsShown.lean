import Mathlib.Data.List.Count
import Sudix.AgentStream

/-! Prompts on their way to an agent. Every line that an agent reads was written by some thread, and
once the agent is gone no further one is read. So a thread whose line is still unread when its agent
goes is never shown in a dialog. This holds whatever programs run. -/

namespace Sudix

open Concurrent

variable {P : Platform} {α : Type} {s₀ s : Daemon} {p₀ qs : Pool (sig P) Tid α}
  {before after tr : Trace (sig P) Daemon Tid Env} {st : Step (sig P) Daemon Tid Env}
  {own own' : History (sig P)} {c : Conn} {t : Tid}

/-- The agent on connection `c` reads a line of thread `t` and shows its dialog. -/
def shows (c : Conn) (t : Tid) (st : Step (sig P) Daemon Tid Env) : Bool :=
  match st.label, (st.post.channel c).peer with
  | .env (.agentRead c'), .agent (.dialog _ t') => c' = c && t' = t
  | _, _ => false

/-- The lines of thread `t` that the peer of connection `c` has not read. -/
def unread (c : Conn) (t : Tid) (s : Daemon) : Nat := (s.channel c).toPeer.count (newline, t)

/-- The lines a thread has written to connection `c`, as far as it knows. -/
def linesTo (c : Conn) (own : History (sig P)) : Nat :=
  (own.flatMap fun event =>
    match event.op with
    | .writeAll c' bytes => if c' = c then bytes else []
    | _ => []).count newline

theorem linesTo_append : linesTo c (own ++ own') = linesTo c own + linesTo c own' := by
  rw [linesTo, List.flatMap_append, List.count_append]
  rfl

theorem linesTo_eq_zero (h : ∀ e ∈ own, ∀ bytes, e.op ≠ .writeAll c bytes) : linesTo c own = 0 := by
  have hnil : (own.flatMap fun event =>
      match event.op with
      | .writeAll c' bytes => if c' = c then bytes else []
      | _ => []) = [] := by
    refine List.flatMap_eq_nil_iff.mpr fun e he => ?_
    split
    · rename_i c' bytes hop
      split
      · rename_i hc
        exact absurd (hc ▸ hop) (h e he bytes)
      · rfl
    · rfl
  rw [linesTo, hnil, List.count_nil]

theorem linesTo_quiet (h : ∀ e ∈ own, e.op.stream = none) : linesTo c own = 0 := by
  refine linesTo_eq_zero fun e he bytes hop => ?_
  have hstream := h e he
  rw [hop] at hstream
  cases hstream

/-- A dialog is for the thread whose line has been read. -/
theorem agentReads_asker {line : List UInt8} {asker asker' : Tid} {q : Prompt}
    (h : agentReads P line asker = .agent (.dialog q asker')) : asker' = asker := by
  unfold agentReads at h
  split at h
  · cases h
  · split at h
    · cases h
      rfl
    · cases h

/-- What is shown is a line that has been unread, and it is taken off the stream. -/
theorem unread_agentRead {s' : Daemon} (h : env P s (.agentRead c) = some s') :
    unread c t s' + [(⟨s, .env (.agentRead c), s'⟩ : Step (sig P) Daemon Tid Env)].countP (shows c t) ≤
      unread c t s := by
  simp only [env] at h
  split at h
  · rename_i last rest hpeer hdrop
    cases h
    have hmark : last.1 = newline := by
      have hhead := List.head_dropWhile_not (fun b : UInt8 × Tid => b.1 != newline)
        (l := (s.channel c).toPeer) (by rw [hdrop]; simp)
      simpa [hdrop] using hhead
    have hsuffix : (last :: rest).count (newline, t) ≤ unread c t s := by
      rw [← hdrop]
      exact (List.dropWhile_suffix _).sublist.count_le _
    refine Nat.le_trans ?_ hsuffix
    rw [unread, setChannel_self, List.count_cons, List.countP_cons, List.countP_nil, Nat.zero_add]
    refine Nat.add_le_add_left ?_ _
    split
    · rename_i hshows
      simp only [shows, setChannel_self] at hshows
      split at hshows
      · rename_i c' q asker hlabel hdialog
        rw [Bool.and_eq_true, decide_eq_true_eq, decide_eq_true_eq] at hshows
        have hlast : last = (newline, t) := Prod.ext hmark ((agentReads_asker hdialog).symm.trans hshows.2)
        simp [hlast]
      · cases hshows
    · exact Nat.zero_le _
  · cases h

theorem shows_stream {s s' : Daemon} {event : Env} (h : event.stream ≠ some c) :
    shows c t (⟨s, .env event, s'⟩ : Step (sig P) Daemon Tid Env) = false := by
  unfold shows
  split
  · rename_i c' _ asker hlabel _
    cases hlabel
    have hc : c' ≠ c := fun hc => h (congrArg some hc)
    simp [hc]
  · rfl

theorem unread_env {s' : Daemon} {event : Env} (h : env P s event = some s') :
    unread c t s' + [(⟨s, .env event, s'⟩ : Step (sig P) Daemon Tid Env)].countP (shows c t) ≤ unread c t s := by
  by_cases hstream : event.stream = some c
  · have hquiet : (∀ c', event ≠ .agentRead c') → (s'.channel c).toPeer.count (newline, t) ≤ unread c t s →
        unread c t s' + [(⟨s, .env event, s'⟩ : Step (sig P) Daemon Tid Env)].countP (shows c t) ≤
          unread c t s := by
      intro hother hle
      rw [List.countP_cons_of_neg]
      · exact hle
      · unfold shows
        split
        · rename_i c' _ _ hlabel _
          cases hlabel
          exact absurd rfl (hother c')
        · simp
    cases event with
    | agentRead c' =>
        cases hstream
        exact unread_agentRead h
    | tick _ | tickUnix _ | editConfig _ | editFiles _ => cases hstream
    | peerReceive c' n =>
        cases hstream
        refine hquiet (by simp) ?_
        simp only [env] at h
        split at h
        · cases h
          rw [setChannel_self]
          exact (List.drop_sublist _ _).count_le _
        · cases h
    | peerSend c' _ | peerClose c' | agentAnswer c' _ | agentWrite c' _ | agentExit c' =>
        cases hstream
        refine hquiet (by simp) ?_
        simp only [env] at h
        repeat' split at h
        all_goals first
          | cases h
            done
          | cases h
            rw [setChannel_self]
            exact Nat.le_refl _
  · rw [List.countP_cons_of_neg (by simp [shows_stream hstream]), List.countP_nil, Nat.add_zero, unread,
      env_channel h hstream]
    exact Nat.le_refl _

theorem unread_thread {s' : Daemon} {u : Tid} {op : Op} {answer : Answer P op}
    (h : Step.Legal (world P) ⟨s, .thread u ⟨op, answer⟩, s'⟩) :
    unread c t s' ≤ unread c t s +
      linesTo c (history t [(⟨s, .thread u ⟨op, answer⟩, s'⟩ : Step (sig P) Daemon Tid Env)]) := by
  by_cases hstream : op.stream = some c
  · cases op with
    | recv c' n =>
        cases hstream
        rw [unread, (legal_recv_channel h).1]
        exact Nat.le_add_right _ _
    | writeAll c' bytes =>
        cases hstream
        obtain ⟨n, hsend⟩ := legal_writeAll_channel h
        rw [unread, hsend, Channel.send, List.count_append]
        refine Nat.add_le_add_left ?_ _
        by_cases hu : u = t
        · subst hu
          rw [history_thread_self]
          calc ((bytes.take n).map fun b => (b, u)).count (newline, u)
            _ = (bytes.take n).count newline :=
                List.count_map_of_injective _ (fun b => (b, u)) (fun _ _ heq => (Prod.mk.inj heq).1) _
            _ ≤ bytes.count newline := (List.take_sublist _ _).count_le _
            _ = linesTo c [⟨.writeAll c bytes, answer⟩] := by simp [linesTo]
        · have hnone : ((bytes.take n).map fun b => (b, u)).count (newline, t) = 0 := by
            refine List.count_eq_zero.mpr fun hmem => hu ?_
            obtain ⟨b, -, heq⟩ := List.mem_map.mp hmem
            exact (Prod.mk.inj heq).2
          rw [hnone]
          exact Nat.zero_le _
    | _ => cases hstream
  · rw [unread, legal_channel h hstream]
    exact Nat.le_add_right _ _

/-- **One step.** What is shown has been unread before, and what is unread has been written. -/
theorem unread_step (hlegal : st.Legal (world P)) :
    unread c t st.post + [st].countP (shows c t) ≤ unread c t st.pre + linesTo c (history t [st]) := by
  obtain ⟨pre, label, post⟩ := st
  cases label with
  | thread u event => exact unread_thread hlegal
  | env event =>
      rw [history_env]
      exact unread_env hlegal

theorem unread_total (hrun : Run (world P) s₀ p₀ tr s qs) (hempty : (s₀.channel c).toPeer = []) :
    unread c t s + tr.countP (shows c t) ≤ linesTo c (history t tr) := by
  refine hrun.world_invariant (I := fun tr s =>
    unread c t s + tr.countP (shows c t) ≤ linesTo c (history t tr)) ?_ ?_
  · simp [unread, hempty]
  · intro tr st ih hlegal
    have hstep := unread_step (c := c) (t := t) hlegal
    rw [List.countP_append, history_append, linesTo_append]
    omega

/-- What is shown after some step was unread there or has been written since. -/
theorem unread_after (hrun : Run (world P) s₀ p₀ (before ++ st :: after) s qs) :
    unread c t s + after.countP (shows c t) ≤ unread c t st.post + linesTo c (history t after) := by
  refine hrun.invariant_after (I := fun after s =>
    unread c t s + after.countP (shows c t) ≤ unread c t st.post + linesTo c (history t after)) ?_ ?_
  · exact Nat.le_refl _
  · intro after last ih hlegal
    have hstep := unread_step (c := c) (t := t) hlegal
    rw [List.countP_append, history_append, linesTo_append]
    omega

def Peer.isAgent : Peer → Bool
  | .agent _ => true
  | _ => false

theorem legal_thread_peer {s' : Daemon} {u : Tid} {event : Event (sig P)}
    (h : Step.Legal (world P) ⟨s, .thread u event, s'⟩) (c : Conn) : (s'.channel c).peer = (s.channel c).peer := by
  obtain ⟨op, answer⟩ := event
  by_cases hstream : op.stream = some c
  · cases op with
    | recv c' n =>
        cases hstream
        exact (legal_recv_channel h).2
    | writeAll c' bytes =>
        cases hstream
        obtain ⟨n, hsend⟩ := legal_writeAll_channel h
        rw [hsend]
        rfl
    | _ => cases hstream
  · rw [legal_channel h hstream]

theorem agentReads_ne_client (line : List UInt8) (asker : Tid) : agentReads P line asker ≠ .client := by
  unfold agentReads
  repeat' split
  all_goals simp

/-- Who is no agent does not become one, and who is an agent does not become a client. -/
theorem legal_peer (hlegal : st.Legal (world P)) (c : Conn) :
    ((st.pre.channel c).peer.isAgent = false → (st.post.channel c).peer.isAgent = false) ∧
      ((st.post.channel c).peer = .client → (st.pre.channel c).peer = .client) := by
  obtain ⟨pre, label, post⟩ := st
  cases label with
  | thread u event =>
      rw [legal_thread_peer hlegal c]
      exact ⟨id, id⟩
  | env event =>
      have henv : env P pre event = some post := hlegal
      by_cases hstream : event.stream = some c
      · cases event
        all_goals first
          | cases hstream
            done
          | cases hstream
            simp only [env] at henv
            repeat' split at henv
            all_goals first
              | cases henv
                done
              | cases henv
                simp_all [Peer.isAgent, agentReads_ne_client]
      · rw [env_channel henv hstream]
        exact ⟨id, id⟩

/-- A dialog is shown by an agent. -/
theorem shows_isAgent (hlegal : st.Legal (world P)) (h : shows c t st = true) :
    (st.pre.channel c).peer.isAgent = true ∧ (st.post.channel c).peer.isAgent = true := by
  have hpost : (st.post.channel c).peer.isAgent = true := by
    unfold shows at h
    split at h
    · rename_i hdialog
      rw [hdialog]
      rfl
    · cases h
  refine ⟨?_, hpost⟩
  by_contra hpre
  rw [(legal_peer hlegal c).1 (Bool.eq_false_iff.mpr hpre)] at hpost
  cases hpost

/-- No dialog is shown where there is no agent any more. -/
theorem not_shown_after (hrun : Run (world P) s₀ p₀ (before ++ st :: after) s qs)
    (hgone : (st.post.channel c).peer.isAgent = false) : after.countP (shows c t) = 0 := by
  refine (hrun.invariant_after (I := fun after s =>
    (s.channel c).peer.isAgent = false ∧ after.countP (shows c t) = 0) ⟨hgone, rfl⟩ ?_).2
  rintro after last ⟨hpre, hnone⟩ hlegal
  refine ⟨(legal_peer hlegal c).1 hpre, ?_⟩
  rw [List.countP_append, hnone, List.countP_cons_of_neg fun hshows => ?_, List.countP_nil]
  rw [(shows_isAgent hlegal hshows).1] at hpre
  cases hpre

/-- No dialog has been shown by what is still a client. -/
theorem not_shown_client (hrun : Run (world P) s₀ p₀ tr s qs) (hclient : (s.channel c).peer = .client) :
    tr.countP (shows c t) = 0 := by
  revert hclient
  refine hrun.world_invariant (I := fun tr s => (s.channel c).peer = .client → tr.countP (shows c t) = 0) ?_ ?_
  · exact fun _ => rfl
  · intro tr last ih hlegal hclient
    rw [List.countP_append, ih ((legal_peer hlegal c).2 hclient), List.countP_cons_of_neg fun hshows => ?_,
      List.countP_nil]
    have hagent := (shows_isAgent hlegal hshows).2
    rw [hclient] at hagent
    cases hagent

end Sudix
