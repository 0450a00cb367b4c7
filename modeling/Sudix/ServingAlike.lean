import Sudix.ConcurrentSolo
import Sudix.DaemonSteps
import Sudix.Server

/-! Requests served one after the other, in surroundings that are given: a function of the state they
start in. Two daemons that differ in their logs, and in recordings so old that no rate check counts them
any more, serve every sequence of requests alike. -/

namespace Sudix

open Concurrent

variable {P : Platform} {s s' u u' : Daemon} {t : Tid}

/-- `u` with what requests write as it is in `s`. -/
def Daemon.restore (u s : Daemon) : Daemon :=
  { u with approvals := s.approvals, auditLog := s.auditLog, holder := s.holder }

/-- The operations that look at or write what requests write. -/
def Op.shares : Op → Bool
  | .lock _ | .unlock _ | .isRateLimited _ _ | .checkCache _ _ _ | .recordCacheHit _ _
  | .recordApproval _ _ _ | .resetApprovals | .appendAudit _ => true
  | _ => false

theorem env_restore (u s : Daemon) (event : Env) :
    env P (u.restore s) event = (env P u event).map fun u' => u'.restore s := by
  cases event
  all_goals
    simp only [env, Daemon.restore]
    repeat' split
    all_goals first
      | rfl
      | exact if_neg (by assumption)
      | exact if_pos (by assumption)

theorem act_restore {op : Op} (h : op.shares = false) (u s : Daemon) (choice : Choice op) :
    act P (u.restore s) t op choice = (act P u t op choice).map fun r => (r.1, r.2.restore s) := by
  cases op
  all_goals first
    | cases h
      done
    | simp only [act, Daemon.restore]
      repeat' split
      all_goals first
        | rfl
        | exact if_neg (by assumption)
        | exact if_pos (by assumption)

/-- The cutoff of a rate check. -/
def cutoff (now : Instant) : Instant := (checkedSub now rateWindow).getD now

theorem sub_le_checkedSub (now : Instant) (duration : Nat) :
    now - duration ≤ (checkedSub now duration).getD now := by
  unfold checkedSub
  split
  · exact Nat.le_refl _
  · exact Nat.sub_le _ _

theorem sub_le_cutoff (now : Instant) : now - rateWindow ≤ cutoff now := sub_le_checkedSub now rateWindow

theorem prune_append {k : Instant} {dropped : List Instant} (h : ∀ x ∈ dropped, x ≤ k) (window : List Instant) :
    prune k (dropped ++ window) = prune k window :=
  List.dropWhile_append_of_pos fun x hx => decide_eq_true (h x hx)

/-- `a` is `b` without some recordings at the front of its windows that no check from now on counts. -/
structure Trimmed (now : Instant) (a b : ApprovalState) : Prop where
  cache : a.cache = b.cache
  window : ∀ i, ∃ dropped, b.rate i = dropped ++ a.rate i ∧ ∀ x ∈ dropped, x ≤ now - rateWindow

namespace Trimmed

variable {a b : ApprovalState} {now now' : Instant} {scopes : List RuleScope} {ruleIndex : Nat}
  {argv : List String}

theorem refl (now : Instant) (a : ApprovalState) : Trimmed now a a := ⟨rfl, fun _ => ⟨[], rfl, by simp⟩⟩

theorem later (h : Trimmed now a b) (hnow : now ≤ now') : Trimmed now' a b where
  cache := h.cache
  window i := by
    obtain ⟨dropped, hrate, hold⟩ := h.window i
    exact ⟨dropped, hrate, fun x hx => Nat.le_trans (hold x hx) (Nat.sub_le_sub_right hnow _)⟩

theorem checkCache (h : Trimmed now a b) :
    Sudix.checkCache a scopes ruleIndex argv now = Sudix.checkCache b scopes ruleIndex argv now := by
  unfold Sudix.checkCache
  rw [h.cache]

/-- A rate check forgets what is left out and counts the rest. -/
theorem prune (h : Trimmed now a b) :
    Sudix.prune (cutoff now) (a.rate ruleIndex) = Sudix.prune (cutoff now) (b.rate ruleIndex) := by
  obtain ⟨dropped, hrate, hold⟩ := h.window ruleIndex
  rw [hrate, prune_append fun x hx => Nat.le_trans (hold x hx) (sub_le_cutoff now)]

theorem isRateLimited (h : Trimmed now a b) :
    (Sudix.isRateLimited a scopes ruleIndex now).1 = (Sudix.isRateLimited b scopes ruleIndex now).1 ∧
      Trimmed now (Sudix.isRateLimited a scopes ruleIndex now).2 (Sudix.isRateLimited b scopes ruleIndex now).2 := by
  refine ⟨?_, ⟨by simp [h.cache], fun i => ?_⟩⟩
  · by_cases hlimit : limitOf scopes ruleIndex = 0
    · simp only [Sudix.isRateLimited, if_pos hlimit]
    · simp only [Sudix.isRateLimited, if_neg hlimit]
      exact congrArg (fun window => decide (_ ≤ List.length window)) h.prune
  · rw [isRateLimited_rate, isRateLimited_rate]
    split
    · exact ⟨[], h.prune.symm, by simp⟩
    · exact h.window i

theorem note {a' b' : ApprovalState} (h : Trimmed now a b) (hcache : a'.cache = b'.cache)
    (ha : ∀ i, a'.rate i = if i = ruleIndex ∧ 0 < limitOf scopes ruleIndex then a.rate i ++ [now] else a.rate i)
    (hb : ∀ i, b'.rate i = if i = ruleIndex ∧ 0 < limitOf scopes ruleIndex then b.rate i ++ [now] else b.rate i) :
    Trimmed now a' b' where
  cache := hcache
  window i := by
    obtain ⟨dropped, hrate, hold⟩ := h.window i
    refine ⟨dropped, ?_, hold⟩
    rw [ha, hb, hrate]
    split
    · rw [List.append_assoc]
    · rfl

theorem recordCacheHit (h : Trimmed now a b) :
    Trimmed now (Sudix.recordCacheHit a scopes ruleIndex now) (Sudix.recordCacheHit b scopes ruleIndex now) :=
  h.note (by simp [h.cache]) recordCacheHit_rate recordCacheHit_rate

theorem recordApproval (h : Trimmed now a b) :
    Trimmed now (Sudix.recordApproval a scopes ruleIndex argv now)
      (Sudix.recordApproval b scopes ruleIndex argv now) :=
  h.note (by rw [recordApproval_cache, recordApproval_cache, h.cache]) recordApproval_rate recordApproval_rate

end Trimmed

/-- The daemons differ in their logs and in recordings that no check from now on counts. -/
structure Alike (s u : Daemon) : Prop where
  rest : s = u.restore s
  holder : s.holder = u.holder
  approvals : Trimmed u.now s.approvals u.approvals

namespace Alike

theorem now (h : Alike s u) : s.now = u.now := by
  rw [h.rest]
  rfl

theorem env (h : Alike s u) (event : Env) : Option.Rel Alike (Sudix.env P s event) (Sudix.env P u event) := by
  have hs : Sudix.env P s event = (Sudix.env P u event).map fun u' => u'.restore s := by
    conv_lhs => rw [h.rest]
    exact env_restore u s event
  rw [hs]
  cases hu : Sudix.env P u event with
  | none => exact .none
  | some u' =>
      have hframe := env_frame hu
      refine .some ⟨rfl, ?_, ?_⟩
      · rw [hframe.holder]
        exact h.holder
      · rw [hframe.approvals]
        exact h.approvals.later hframe.now

/-- Both write to their approvals. -/
theorem approve {a b : ApprovalState} (h : Alike s u) (hab : Trimmed u.now a b) :
    Alike { s with approvals := a } { u with approvals := b } where
  rest := congrArg (fun d => { d with approvals := a }) h.rest
  holder := h.holder
  approvals := hab

/-- Both take or release a mutex. -/
theorem hold (h : Alike s u) (holder : Lock → Option Tid) :
    Alike { s with holder := holder } { u with holder := holder } where
  rest := congrArg (fun d => { d with holder := holder }) h.rest
  holder := rfl
  approvals := h.approvals

theorem act (h : Alike s u) (op : Op) (choice : Choice op) :
    Option.Rel (fun a b => a.1 = b.1 ∧ Alike a.2 b.2) (Sudix.act P s t op choice) (Sudix.act P u t op choice) := by
  cases hshares : op.shares with
  | false =>
      have hs : Sudix.act P s t op choice = (Sudix.act P u t op choice).map fun r => (r.1, r.2.restore s) := by
        conv_lhs => rw [h.rest]
        exact act_restore hshares u s choice
      rw [hs]
      cases hu : Sudix.act P u t op choice with
      | none => exact .none
      | some r =>
          have hframe := act_frame hu
          refine .some ⟨rfl, rfl, ?_, ?_⟩
          · rw [hframe.holder (by cases op <;> first | rfl | cases hshares)]
            exact h.holder
          · rw [hframe.approvals (by cases op <;> first | rfl | cases hshares), hframe.now]
            exact h.approvals
  | true =>
      cases op with
      | lock l =>
          simp only [Sudix.act, h.holder]
          split
          · exact .some ⟨rfl, h.hold _⟩
          · exact .none
      | unlock l =>
          simp only [Sudix.act, h.holder]
          split
          · exact .some ⟨trivial, h.hold _⟩
          · exact .none
      | isRateLimited scopes ruleIndex =>
          obtain ⟨hanswer, htrimmed⟩ : (isRateLimited s.approvals scopes ruleIndex s.now).1 =
              (isRateLimited u.approvals scopes ruleIndex u.now).1 ∧
              Trimmed u.now (isRateLimited s.approvals scopes ruleIndex s.now).2
                (isRateLimited u.approvals scopes ruleIndex u.now).2 := by
            rw [h.now]
            exact h.approvals.isRateLimited
          exact .some ⟨hanswer, h.approve htrimmed⟩
      | checkCache scopes ruleIndex argv =>
          refine .some ⟨?_, h⟩
          rw [h.now]
          exact h.approvals.checkCache
      | recordCacheHit scopes ruleIndex =>
          refine .some ⟨rfl, h.approve ?_⟩
          rw [h.now]
          exact h.approvals.recordCacheHit
      | recordApproval scopes ruleIndex argv =>
          refine .some ⟨rfl, h.approve ?_⟩
          rw [h.now]
          exact h.approvals.recordApproval
      | resetApprovals => exact .some ⟨rfl, h.approve (.refl _ _)⟩
      | appendAudit entry =>
          cases choice with
          | error e => exact .some ⟨rfl, h⟩
          | ok _ =>
              refine .some ⟨rfl, ?_, h.holder, h.approvals⟩
              exact congrArg (fun d => { d with auditLog := s.auditLog ++ [entry] }) h.rest
      | _ => cases hshares

end Alike

/-- A request that is served alone: what happens around the daemon before each of its operations, and
what its operations meet, the answer of the approver among it. -/
structure Submission where
  ctx : RequestCtx
  req : Request
  thread : Tid
  around : Nat → List Env
  choice : (op : Op) → Choice op

def Op.spawns : Op → Bool
  | .spawn _ _ _ => true
  | _ => false

/-- What shows outside: a prompt, an execution, a record of the log. -/
def Op.visible : Op → Bool
  | .consult _ _ | .spawn _ _ _ | .appendAudit _ => true
  | _ => false

section Serve

variable (P) (approvalMutex : Bool)

def serve (sub : Submission) (s : Daemon) : Option (Solo (sig P) Daemon Env Response) :=
  (world P).solo sub.thread sub.around sub.choice 0
    (handleRequest P sub.ctx .external approvalMutex sub.req) s

/-- The responses to requests served one after the other, each with what it has shown. -/
def serveAll : List Submission → Daemon → Option (List (Response × History (sig P)))
  | [], _ => some []
  | sub :: later, s => (serve P approvalMutex sub s).bind fun r =>
      (serveAll later r.state).bind fun rest => some ((r.value, r.own.filter (·.op.visible)) :: rest)

end Serve

theorem serveAll_cons {approvalMutex : Bool} {sub : Submission} {later : List Submission}
    {r : Solo (sig P) Daemon Env Response} {out : List (Response × History (sig P))}
    (hserve : serve P approvalMutex sub s = some r) (hlater : serveAll P approvalMutex later r.state = some out) :
    serveAll P approvalMutex (sub :: later) s = some ((r.value, r.own.filter (·.op.visible)) :: out) := by
  rw [serveAll, hserve, Option.bind_some, hlater]
  rfl

/-- **Daemons that differ in nothing that counts serve alike.** -/
theorem Alike.serveAll_eq {approvalMutex : Bool} (h : Alike s u) (later : List Submission) :
    serveAll P approvalMutex later s = serveAll P approvalMutex later u := by
  induction later generalizing s u with
  | nil => rfl
  | cons sub later ih =>
      refine eq_of_rel (rel_bind (solo_rel (fun _ _ event hsu => hsu.env event)
        (fun _ _ op c hsu => hsu.act op c) h) ?_)
      rintro a b ⟨hown, hvalue, hstate⟩
      rw [ih hstate, hown, hvalue]
      cases serveAll P approvalMutex later b.state with
      | none => exact .none
      | some rest => exact .some rfl

end Sudix
