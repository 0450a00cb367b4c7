import Sudix.LockHolder
import Sudix.PipelineRate
import Sudix.ScopingTrace
import Sudix.ServerSpec
import Sudix.ServingAlike

/-! Requests that are refused before anything is executed. A refused request changes nothing that a
later one depends on, unless its rate check forgets a recording that still counts: that happens in the
first minute of the clock, where the cutoff of the window falls back to the current time. -/

namespace Sudix

open Concurrent

variable {P : Platform} {s s' u : Daemon} {t : Tid} {approvalMutex : Bool} {sub : Submission}

/-- The request gets as far as the rate check of a rule, which reads the clock at `now`. -/
def Checks (P : Platform) (sub : Submission) (s : Daemon) (ruleIndex : Nat) (now : Instant) : Prop :=
  ∃ s₁ s₂ s₃ cwd, Screened sub.ctx sub.req ruleIndex ∧ (world P).pass s (sub.around 0) = some s₁ ∧
    s₁.files.canonicalize sub.req.cwd = .ok cwd ∧ (world P).pass s₁ (sub.around 1) = some s₂ ∧
    s₂.files.isDir cwd = true ∧ (world P).pass s₂ (sub.around 2) = some s₃ ∧ s₃.now = now

/-- The operations that write at most what requests write. -/
def Op.confined : Op → Bool
  | .acquireSlot | .releaseSlot | .swapCurrent _ | .storeLastHash _ | .recv _ _ | .writeAll _ _
  | .insertAgent _ _ | .removeAgent _ | .signalDisconnected _ | .consumeCounter _ => false
  | _ => true

theorem legal_confined {op : Op} {answer : Answer P op} (hop : op.confined = true)
    (h : Step.Legal (world P) ⟨s, .thread t ⟨op, answer⟩, s'⟩) : s' = s.restore s' := by
  obtain ⟨choice, hact⟩ := legal_act h
  cases op
  all_goals first
    | cases hop
      done
    | simp only [act] at hact
      repeat' split at hact
      all_goals
        cases hact
        try rfl

theorem pass_restore (u s : Daemon) (events : List Env) :
    (world P).pass (u.restore s) events = ((world P).pass u events).map fun u' => u'.restore s := by
  induction events generalizing u with
  | nil => rfl
  | cons event events ih =>
      have henv : (world P).env (u.restore s) event = ((world P).env u event).map fun u' => u'.restore s :=
        env_restore u s event
      rw [World.pass, World.pass, henv]
      cases (world P).env u event with
      | none => rfl
      | some u' => exact ih u'

/-- Events around the daemon do not touch what requests write. -/
theorem restore_of_pass {events : List Env} (h : (world P).pass s events = some s') : s' = s'.restore s := by
  have hrestore := pass_restore (P := P) s s events
  rw [h] at hrestore
  exact Option.some.inj (h.symm.trans hrestore)

section Confined

variable {α : Type} {around : Nat → List Env} {choice : (op : Op) → Choice op} {k : Nat} {p : Prog P α}
  {r : Solo (sig P) Daemon Env α}

/-- Had a confined program not been run, the same events would have led to the same state but for
what requests write. -/
theorem pass_of_solo {post : History (sig P) → α → Prop} {past : History (sig P)}
    (hp : p.Meets (fun _ (op : Op) => op.confined = true) post past)
    (h : (world P).solo t around choice k p s = some r) :
    (world P).pass s r.passed = some (r.state.restore s) := by
  induction p generalizing past k s r with
  | ret value =>
      obtain rfl := solo_ret.mp h
      rfl
  | call op next ih =>
      obtain ⟨s₁, answer, s₂, rest, hpass, hlegal, hrest, rfl⟩ := solo_step h
      have hback : s₁ = s₂.restore s₁ := by
        rw [legal_confined hp.1 hlegal]
        rfl
      have hrest' := ih answer (hp.2 answer) hrest
      calc (world P).pass s (around k ++ rest.passed)
        _ = (world P).pass s₁ rest.passed := by rw [pass_append, hpass, Option.bind_some]
        _ = (world P).pass (s₂.restore s₁) rest.passed := by rw [← hback]
        _ = some ((rest.state.restore s₂).restore s₁) := by rw [pass_restore, hrest', Option.map_some]
        _ = some (rest.state.restore s) := by
            rw [restore_of_pass hpass]
            rfl

end Confined

theorem GateStage.confined {callerUid : Uid} {req : Request} {own : History (sig P)} {op : Op}
    (h : GateStage .external callerUid req approvalMutex own op) : op.confined = true := by
  cases h with
  | ungated happrove | held happrove =>
      cases happrove
      rfl
  | lock | unlock _ => rfl

theorem RequestStage.confined {ctx : RequestCtx} {req : Request} {own : History (sig P)} {op : Op}
    (h : RequestStage ctx .external approvalMutex req own op) : op.confined = true := by
  cases h with
  | approve _ hgate => exact hgate.confined
  | _ => rfl

theorem unmade_of_serve {r : Solo (sig P) Daemon Env Response} (h : serve P approvalMutex sub s = some r) :
    (world P).pass s r.passed = some (r.state.restore s) :=
  pass_of_solo ((handleRequest_meets sub.ctx .external approvalMutex sub.req).mono
    (fun _ _ => RequestStage.confined) fun _ _ _ => trivial) h

section Effect

variable {α : Type} {around : Nat → List Env}
  {choice : (op : Op) → Choice op} {k : Nat} {p : Prog P α}

theorem pass_frame {events : List Env} (h : (world P).pass s events = some s') :
    s'.approvals = s.approvals ∧ s'.holder = s.holder ∧ s.now ≤ s'.now := by
  induction events generalizing s with
  | nil =>
      obtain rfl := Option.some.inj h
      exact ⟨rfl, rfl, Nat.le_refl _⟩
  | cons event events ih =>
      obtain ⟨s₁, henv, hrest⟩ := Option.bind_eq_some_iff.mp h
      have hframe := env_frame henv
      obtain ⟨happrovals, hholder, hnow⟩ := ih hrest
      exact ⟨happrovals.trans hframe.approvals, hholder.trans hframe.holder, Nat.le_trans hframe.now hnow⟩

variable {r : Solo (sig P) Daemon Env α}

/-- A program that writes neither leaves the approvals and the mutexes as they are. -/
theorem solo_quiet {post : History (sig P) → α → Prop} {past : History (sig P)}
    (hp : p.Meets (fun _ (op : Op) => op.writesApprovals = false ∧ op.writesHolder = false) post past)
    (h : (world P).solo t around choice k p s = some r) :
    r.state.approvals = s.approvals ∧ r.state.holder = s.holder := by
  induction p generalizing past k s r with
  | ret value =>
      obtain rfl := solo_ret.mp h
      exact ⟨rfl, rfl⟩
  | call op next ih =>
      obtain ⟨s₁, answer, s₂, rest, hpass, hlegal, hrest, rfl⟩ := solo_step h
      obtain ⟨⟨hwrites, hlocks⟩, hnext⟩ := hp
      obtain ⟨happrovals, hholder, -⟩ := pass_frame hpass
      obtain ⟨happrovals', hholder'⟩ := ih answer (hnext answer) hrest
      exact ⟨(happrovals'.trans (legal_approvals hlegal hwrites)).trans happrovals,
        (hholder'.trans (legal_holders hlegal hlocks)).trans hholder⟩

theorem refuse_quiet (ctx : RequestCtx) (req : Request) (outcome : Outcome) (resp : Response) :
    (refuse P ctx req outcome resp).Meets
      (fun _ (op : Op) => op.writesApprovals = false ∧ op.writesHolder = false) (fun _ _ => True) [] :=
  meets_call_bind.mpr ⟨⟨rfl, rfl⟩, fun _ => meets_call_bind.mpr ⟨⟨rfl, rfl⟩, fun _ => trivial⟩⟩

/-- The clock does not go back while a program runs alone. -/
theorem solo_now (h : (world P).solo t around choice k p s = some r) : s.now ≤ r.state.now := by
  induction p generalizing k s r with
  | ret value =>
      obtain rfl := solo_ret.mp h
      exact Nat.le_refl _
  | call op next ih =>
      obtain ⟨s₁, answer, s₂, rest, hpass, hlegal, hrest, rfl⟩ := solo_step h
      calc s.now
        _ ≤ s₁.now := (pass_frame hpass).2.2
        _ ≤ s₂.now := legal_now hlegal
        _ ≤ rest.state.now := ih answer hrest

theorem solo_spawns {ctx : RequestCtx} {req : Request} {cwd : String} {outcome : Int32 → Outcome}
    {r : Solo (sig P) Daemon Env Response}
    (h : (world P).solo t around choice k (executeAndReport P ctx req cwd outcome) s = some r) :
    ∃ e ∈ r.own, e.op.spawns = true := by
  obtain ⟨s₁, answer, s₂, rest, -, -, -, rfl⟩ := solo_step h
  exact ⟨_, List.mem_cons_self, rfl⟩

/-- The approver is asked, under the gate or not; neither the approvals nor the mutexes are changed. -/
theorem solo_gated {approvalMutex : Bool} {callerUid : Uid} {req : Request} {f : Approval → Prog P α}
    (h : (world P).solo t around choice k
      (gated P approvalMutex (Approver.external.approve P callerUid req) >>= f) s = some r) :
    ∃ k' approval s' rest, (world P).solo t around choice k' (f approval) s' = some rest ∧
      s'.approvals = s.approvals ∧ s'.holder = s.holder ∧ rest.state = r.state ∧
      ∀ e ∈ rest.own, e ∈ r.own := by
  cases approvalMutex with
  | false =>
      obtain ⟨s₁, approval, s₂, rest, hpass, hask, hrest, rfl⟩ := solo_step h
      obtain ⟨happrovals, hholder, -⟩ := pass_frame hpass
      exact ⟨k + 1, approval, s₂, rest, hrest, (legal_approvals hask rfl).trans happrovals,
        (legal_holders hask rfl).trans hholder, rfl, fun e he => List.mem_cons_of_mem _ he⟩
  | true =>
      obtain ⟨s₁, _, s₂, _, hpass₁, hlock, hrest₁, rfl⟩ := solo_step h
      obtain ⟨s₃, approval, s₄, _, hpass₂, hask, hrest₂, rfl⟩ := solo_step hrest₁
      obtain ⟨s₅, _, s₆, rest, hpass₃, hunlock, hrest, rfl⟩ := solo_step hrest₂
      refine ⟨k + 1 + 1 + 1, approval, s₆, rest, hrest, ?_, ?_, rfl, fun e he => by simp [Solo.after, he]⟩
      · have h₂ : s₂.approvals = s.approvals := (legal_approvals hlock rfl).trans (pass_frame hpass₁).1
        have h₄ : s₄.approvals = s₂.approvals := (legal_approvals hask rfl).trans (pass_frame hpass₂).1
        have h₆ : s₆.approvals = s₄.approvals := (legal_approvals hunlock rfl).trans (pass_frame hpass₃).1
        exact (h₆.trans h₄).trans h₂
      · obtain ⟨hfree, hs₂⟩ := legal_lock hlock
        obtain ⟨-, hs₆⟩ := legal_unlock hunlock
        have hholder₄ : s₅.holder = Function.update s₁.holder .approvalMutex (some t) := by
          rw [(pass_frame hpass₃).2.1, legal_holders hask rfl, (pass_frame hpass₂).2.1, hs₂]
        rw [hs₆, ← (pass_frame hpass₁).2.1, ← Function.update_eq_self Lock.approvalMutex s₁.holder, hfree]
        show Function.update s₅.holder .approvalMutex none = _
        rw [hholder₄, Function.update_idem]

end Effect

/-- Either the request does not get as far as a rate check, or that check is all that has changed. -/
def Effect (P : Platform) (sub : Submission) (s s' : Daemon) : Prop :=
  s'.holder = s.holder ∧
    ((s'.approvals = s.approvals ∧ ∀ ruleIndex now, ¬ Checks P sub s ruleIndex now) ∨
      ∃ ruleIndex now, Checks P sub s ruleIndex now ∧ now ≤ s'.now ∧
        s'.approvals = (isRateLimited s.approvals sub.ctx.bundle.ruleScopes ruleIndex now).2)

section Effect

variable {r : Solo (sig P) Daemon Env Response}

theorem effect_of_unchecked (h : r.state.approvals = s.approvals ∧ r.state.holder = s.holder)
    (hnot : ∀ ruleIndex now, ¬ Checks P sub s ruleIndex now) : Effect P sub s r.state :=
  ⟨h.2, .inl ⟨h.1, hnot⟩⟩

theorem Checks.located {s₁ : Daemon} {ruleIndex : Nat} {now : Instant} (h : Checks P sub s ruleIndex now)
    (hpass : (world P).pass s (sub.around 0) = some s₁) :
    ∃ cwd s₂, s₁.files.canonicalize sub.req.cwd = .ok cwd ∧ (world P).pass s₁ (sub.around 1) = some s₂ ∧
      s₂.files.isDir cwd = true := by
  obtain ⟨_, s₂, _, cwd, -, hpass', hpath, hpass₂, hdir, -⟩ := h
  obtain rfl := Option.some.inj (hpass'.symm.trans hpass)
  exact ⟨cwd, s₂, hpath, hpass₂, hdir⟩

/-- What follows the rate check writes nothing unless it executes. -/
theorem decided_quiet {t : Tid} {around : Nat → List Env} {choice : (op : Op) → Choice op} {k ruleIndex : Nat}
    {f : CacheVerdict → Prog P Response} {g : Approval → Prog P Response} (ctx : RequestCtx) (req : Request)
    (cwd : String)
    (h : (world P).solo t around choice k
      (call P (.checkCache ctx.bundle.ruleScopes ruleIndex req.argv) >>= f) s = some r)
    (hhit : f .hit = call P (.recordCacheHit ctx.bundle.ruleScopes ruleIndex) >>= fun _ =>
      executeAndReport P ctx req cwd .approvedCached)
    (hmiss : f .miss = gated P approvalMutex (Approver.external.approve P ctx.callerUid req) >>= g)
    (hdenied : g .denied = refuse P ctx req .deniedUser (.denied "denied by user"))
    (herror : ∀ why, g (.error why) = refuse P ctx req .approverError (.error why))
    (hallowed : g .allowed = call P (.recordApproval ctx.bundle.ruleScopes ruleIndex req.argv) >>= fun _ =>
      executeAndReport P ctx req cwd .executed)
    (hrefused : ∀ e ∈ r.own, e.op.spawns = false) :
    r.state.approvals = s.approvals ∧ r.state.holder = s.holder := by
  obtain ⟨s₁, verdict, _, r₁, hpass, hcache, h₁, rfl⟩ := solo_step h
  obtain ⟨-, rfl⟩ := legal_checkCache hcache
  have hs₁ := pass_frame hpass
  cases verdict with
  | hit =>
      change (world P).solo t around choice (k + 1) (f .hit) _ = some r₁ at h₁
      rw [hhit] at h₁
      obtain ⟨_, _, _, r₂, -, -, h₂, rfl⟩ := solo_step h₁
      obtain ⟨e, he, hspawns⟩ := solo_spawns h₂
      cases hspawns.symm.trans (hrefused e (by simp [Solo.after, he]))
  | miss =>
      change (world P).solo t around choice (k + 1) (f .miss) _ = some r₁ at h₁
      rw [hmiss] at h₁
      obtain ⟨k', approval, s₂, r₂, h₂, happrovals, hholder, hstate, hown⟩ := solo_gated h₁
      have hrefusal : ∀ {outcome resp}, g approval = refuse P ctx req outcome resp →
          r₁.state.approvals = s.approvals ∧ r₁.state.holder = s.holder := by
        intro outcome resp hg
        rw [hg] at h₂
        have hquiet := solo_quiet (refuse_quiet ..) h₂
        rw [hstate] at hquiet
        exact ⟨(hquiet.1.trans happrovals).trans hs₁.1, (hquiet.2.trans hholder).trans hs₁.2.1⟩
      cases approval with
      | denied => exact hrefusal hdenied
      | error why => exact hrefusal (herror why)
      | allowed =>
          rw [hallowed] at h₂
          obtain ⟨_, _, _, r₃, -, -, h₃, rfl⟩ := solo_step h₂
          obtain ⟨e, he, hspawns⟩ := solo_spawns h₃
          have hmem := hown e (List.mem_cons_of_mem _ he)
          cases hspawns.symm.trans (hrefused e (by simp [Solo.after, hmem]))

/-- A refused request prunes at most the window of the rule whose rate check it has reached. -/
theorem serve_effect (h : serve P approvalMutex sub s = some r)
    (hrefused : ∀ e ∈ r.own, e.op.spawns = false) : Effect P sub s r.state := by
  unfold serve handleRequest at h
  split at h
  · rename_i hempty
    refine effect_of_unchecked (solo_quiet (refuse_quiet ..) h) ?_
    rintro ruleIndex now ⟨_, _, _, _, hscreened, -⟩
    exact hscreened.argv (List.isEmpty_iff.mp hempty)
  · rename_i hargv
    split at h
    · rename_i hlong
      refine effect_of_unchecked (solo_quiet (refuse_quiet ..) h) ?_
      rintro ruleIndex now ⟨_, _, _, _, hscreened, -⟩
      exact absurd hlong (Nat.not_lt_of_le hscreened.reason)
    · rename_i hshort
      split at h
      · rename_i why hdenied
        refine effect_of_unchecked (solo_quiet (refuse_quiet ..) h) ?_
        rintro ruleIndex now ⟨_, _, _, _, hscreened, -⟩
        cases hdenied.symm.trans hscreened.policy
      · rename_i ruleIndex hallowed
        have hscreened : Screened sub.ctx sub.req ruleIndex :=
          ⟨fun hempty => hargv (List.isEmpty_iff.mpr hempty), Nat.le_of_not_lt hshort, hallowed⟩
        obtain ⟨s₁, path, _, r₁, hpass₁, hpath, h₁, rfl⟩ := solo_step h
        obtain ⟨hanswer, rfl⟩ := legal_canonicalize hpath
        have hs₁ := pass_frame hpass₁
        cases path with
        | error e =>
            have hquiet := solo_quiet (refuse_quiet ..) h₁
            refine effect_of_unchecked ⟨hquiet.1.trans hs₁.1, hquiet.2.trans hs₁.2.1⟩ ?_
            intro _ _ hchecks
            obtain ⟨cwd, s₂, hcwd, -⟩ := hchecks.located hpass₁
            cases hanswer.trans hcwd
        | ok cwd =>
            obtain ⟨s₂, isDir, s₂', r₂, hpass₂, hdir, h₂, rfl⟩ := solo_step h₁
            obtain ⟨hisDir, rfl⟩ : isDir = s₂.files.isDir cwd ∧ s₂' = s₂ := by
              obtain ⟨choice, hact⟩ := legal_act hdir
              cases hact
              exact ⟨rfl, rfl⟩
            have hs₂ := pass_frame hpass₂
            cases isDir with
            | false =>
                have hquiet := solo_quiet (refuse_quiet ..) h₂
                refine effect_of_unchecked ⟨(hquiet.1.trans hs₂.1).trans hs₁.1,
                  (hquiet.2.trans hs₂.2.1).trans hs₁.2.1⟩ ?_
                intro _ _ hchecks
                obtain ⟨cwd', s₂', hcwd, hpass₂', hdir'⟩ := hchecks.located hpass₁
                obtain rfl := Option.some.inj (hpass₂'.symm.trans hpass₂)
                cases hanswer.trans hcwd
                cases hisDir.trans hdir'
            | true =>
                obtain ⟨s₃, limited, s₄, r₃, hpass₃, hrate, h₃, rfl⟩ := solo_step h₂
                have hs₃ := pass_frame hpass₃
                have hchecks : Checks P sub s ruleIndex s₃.now :=
                  ⟨_, _, s₃, cwd, hscreened, hpass₁, hanswer.symm, hpass₂, hisDir.symm, hpass₃, rfl⟩
                have happrovals : s₄.approvals =
                    (isRateLimited s.approvals sub.ctx.bundle.ruleScopes ruleIndex s₃.now).2 := by
                  rw [← hs₁.1, ← hs₂.1, ← hs₃.1, legal_isRateLimited hrate]
                have hnow : s₃.now ≤ r₃.state.now := Nat.le_trans (legal_now hrate) (solo_now h₃)
                have hquiet : r₃.state.approvals = s₄.approvals ∧ r₃.state.holder = s₄.holder := by
                  cases limited with
                  | true => exact solo_quiet (refuse_quiet ..) h₃
                  | false =>
                      refine decided_quiet sub.ctx sub.req cwd h₃ rfl rfl rfl (fun _ => rfl) rfl fun e he => ?_
                      exact hrefused e (by simp [Solo.after, he])
                refine ⟨?_, .inr ⟨ruleIndex, s₃.now, hchecks, hnow, hquiet.1.trans happrovals⟩⟩
                have hholder : r₃.state.holder = s₃.holder := hquiet.2.trans (legal_holders hrate rfl)
                exact ((hholder.trans hs₃.2.1).trans hs₂.2.1).trans hs₁.2.1

end Effect

/-- An empty request, before which time passes. -/
def pause (nanos : Nat) : Submission where
  ctx := ⟨⟨⟨[], []⟩, [], []⟩, 0⟩
  req := ⟨[], "", "", none⟩
  thread := 0
  around k := if k = 0 then [.tick nanos] else []
  choice := smooth 0 .allowed

/-- The same request again, with a directory that exists, and approved if the approver is asked. -/
def again (sub : Submission) : Submission where
  ctx := sub.ctx
  req := sub.req
  thread := sub.thread
  around k := if k = 0 then [.editFiles ⟨.ok, fun _ => true⟩] else []
  choice := smooth 0 .allowed

def rateExceeded : Response := .denied "rate limit exceeded"

/-- The request is answered, and response and state afterwards satisfy `Q`. -/
def ServedWith (P : Platform) (approvalMutex : Bool) (sub : Submission) (s : Daemon) (Q : Response → Daemon → Prop) :
    Prop :=
  (world P).Ends sub.thread sub.around sub.choice 0
    (handleRequest P sub.ctx .external approvalMutex sub.req) s Q

theorem pause_served (approvalMutex : Bool) (nanos : Nat) (s : Daemon) :
    ServedWith P approvalMutex (pause nanos) s fun resp s' => resp ≠ rateExceeded ∧ s'.now = s.now + nanos ∧
      s'.approvals = s.approvals ∧ s'.holder = s.holder :=
  ends_call (k := 0) (u := { s with now := s.now + nanos }) rfl rfl
    (ends_call rfl rfl (ends_ret ⟨by simp [rateExceeded], rfl, rfl, rfl⟩))

theorem prune_note {k now : Instant} (h : k < now) (window : List Instant) :
    prune k (prune k window ++ [now]) = prune k window ++ [now] := by
  induction window with
  | nil => exact List.dropWhile_cons_of_neg (by simpa using h)
  | cons x window ih =>
      by_cases hx : x ≤ k
      · have hdrop : prune k (x :: window) = prune k window := List.dropWhile_cons_of_pos (by simpa using hx)
        rw [hdrop, ih]
      · have hkeep : prune k (x :: window) = x :: window := List.dropWhile_cons_of_neg (by simpa using hx)
        rw [hkeep]
        exact List.dropWhile_cons_of_neg (by simpa using hx)

section Again

variable (approvalMutex : Bool) {ruleIndex : Nat}

/-- How the request ends the second time: for its rate, or approved with one more recording. -/
def Reply (sub : Submission) (ruleIndex : Nat) (now : Instant) (window : List Instant) (resp : Response)
    (s : Daemon) : Prop :=
  s.now = now ∧ s.holder .approvalMutex = none ∧
    if limitOf sub.ctx.bundle.ruleScopes ruleIndex ≤ window.length then resp = rateExceeded
    else resp ≠ rateExceeded ∧ s.approvals.rate ruleIndex = window ++ [now]

theorem again_executes (k : Nat) (sub : Submission) (cwd : String) (outcome : Int32 → Outcome)
    {Q : Response → Daemon → Prop} (hQ : ∀ log, Q (.approved 0 "" "") { s with auditLog := log }) :
    (world P).Ends t (again sub).around (again sub).choice (k + 1)
      (executeAndReport P sub.ctx sub.req cwd outcome) s Q :=
  ends_call (u := s) rfl rfl (ends_call rfl rfl (ends_call rfl rfl (ends_ret (hQ _))))

theorem again_served (hscreened : Screened sub.ctx sub.req ruleIndex)
    (hlimit : 0 < limitOf sub.ctx.bundle.ruleScopes ruleIndex) (hfree : s.holder .approvalMutex = none) :
    ServedWith P approvalMutex (again sub) s
      (Reply sub ruleIndex s.now (prune (cutoff s.now) (s.approvals.rate ruleIndex))) := by
  obtain ⟨hargv, hreason, hpolicy⟩ := hscreened
  unfold ServedWith handleRequest
  rw [if_neg (by simpa [again] using hargv), if_neg (by simpa [again] using hreason)]
  simp only [show (again sub).ctx.bundle.policy.evaluate (again sub).req.argv = .allowed ruleIndex from hpolicy]
  let s₁ : Daemon := { s with files := ⟨.ok, fun _ => true⟩ }
  let a := (isRateLimited s.approvals sub.ctx.bundle.ruleScopes ruleIndex s.now).2
  let s₂ : Daemon := { s₁ with approvals := a }
  have ha : a.rate ruleIndex = prune (cutoff s.now) (s.approvals.rate ruleIndex) :=
    (isRateLimited_rate ruleIndex).trans (if_pos ⟨rfl, hlimit⟩)
  refine ends_call (u := s₁) rfl rfl (ends_call rfl rfl ?_)
  have hanswer : (isRateLimited s.approvals sub.ctx.bundle.ruleScopes ruleIndex s.now).1 =
      decide (limitOf sub.ctx.bundle.ruleScopes ruleIndex ≤ (a.rate ruleIndex).length) := by
    rw [ha]
    simp only [isRateLimited, if_neg (Nat.ne_of_gt hlimit)]
    rfl
  have hrate : act P s₁ sub.thread (.isRateLimited sub.ctx.bundle.ruleScopes ruleIndex) () =
      some (decide (limitOf sub.ctx.bundle.ruleScopes ruleIndex ≤ (a.rate ruleIndex).length), s₂) :=
    congrArg (fun answer => some (answer, s₂)) hanswer
  refine ends_call rfl hrate ?_
  rw [← ha]
  by_cases hlen : limitOf sub.ctx.bundle.ruleScopes ruleIndex ≤ (a.rate ruleIndex).length
  · rw [decide_eq_true hlen]
    exact ends_call rfl rfl (ends_call rfl rfl (ends_ret ⟨rfl, hfree, (if_pos hlen).mpr rfl⟩))
  · rw [decide_eq_false hlen]
    have hpos : ruleIndex = ruleIndex ∧ 0 < limitOf sub.ctx.bundle.ruleScopes ruleIndex := ⟨rfl, hlimit⟩
    obtain ⟨verdict, hverdict⟩ : ∃ verdict, act P s₂ sub.thread
        (.checkCache sub.ctx.bundle.ruleScopes ruleIndex sub.req.argv) () = some (verdict, s₂) := ⟨_, rfl⟩
    refine ends_call rfl hverdict ?_
    cases verdict with
    | hit =>
        refine ends_call rfl rfl (again_executes _ sub _ _ fun log => ⟨rfl, hfree, ?_⟩)
        rw [if_neg hlen]
        exact ⟨by simp [rateExceeded], recordCacheHit_rate ruleIndex |>.trans (if_pos hpos)⟩
    | miss =>
        have hQ (holder : Lock → Option Tid) (hholder : holder .approvalMutex = none) (log : List Entry) :
            Reply sub ruleIndex s.now (a.rate ruleIndex) (.approved 0 "" "")
              { s₂ with
                approvals := recordApproval a sub.ctx.bundle.ruleScopes ruleIndex sub.req.argv s.now
                holder := holder
                auditLog := log } := by
          refine ⟨rfl, hholder, ?_⟩
          rw [if_neg hlen]
          exact ⟨by simp [rateExceeded], recordApproval_rate ruleIndex |>.trans (if_pos hpos)⟩
        cases approvalMutex with
        | false => exact ends_call rfl rfl (ends_call rfl rfl (again_executes _ sub _ _ (hQ _ hfree)))
        | true =>
            let s₃ : Daemon := { s₂ with holder := Function.update s.holder .approvalMutex (some sub.thread) }
            let s₄ : Daemon := { s₃ with holder := Function.update s₃.holder .approvalMutex none }
            have hheld : s₃.holder .approvalMutex = some sub.thread :=
              Function.update_self Lock.approvalMutex (some sub.thread) s.holder
            have hback : s₄.holder .approvalMutex = none := Function.update_self Lock.approvalMutex none s₃.holder
            have hlock : act P s₂ sub.thread (.lock .approvalMutex) false = some (false, s₃) := if_pos hfree
            have hunlock : act P s₃ sub.thread (.unlock .approvalMutex) () = some ((), s₄) := if_pos hheld
            refine ends_call rfl hlock (ends_call rfl rfl (ends_call rfl hunlock (ends_call rfl rfl ?_)))
            exact again_executes _ sub _ _ (hQ s₄.holder hback)

theorem cutoff_lt {now : Instant} (h : rateWindow ≤ now) : cutoff now < now := by
  have hwindow : 0 < rateWindow := by decide
  rw [cutoff, checkedSub, if_pos h, Option.getD_some]
  exact Nat.sub_lt (Nat.lt_of_lt_of_le hwindow h) hwindow

/-- Repeated at one time past the first minute, the request is refused for its rate exactly when the
window and the repetitions together go over the limit. -/
theorem repeated_served (n : Nat) (hscreened : Screened sub.ctx sub.req ruleIndex)
    (hlimit : 0 < limitOf sub.ctx.bundle.ruleScopes ruleIndex) (hfree : s.holder .approvalMutex = none)
    (hnow : rateWindow ≤ s.now) :
    ∃ out, serveAll P approvalMutex (List.replicate n (again sub)) s = some out ∧
      ((∃ o ∈ out, o.1 = rateExceeded) ↔ 0 < n ∧
        limitOf sub.ctx.bundle.ruleScopes ruleIndex <
          (prune (cutoff s.now) (s.approvals.rate ruleIndex)).length + n) := by
  induction n generalizing s with
  | zero => exact ⟨[], rfl, by simp⟩
  | succ n ih =>
      obtain ⟨r, hserve, hnow', hfree', hreply⟩ : ServedWith P approvalMutex (again sub) s _ :=
        again_served approvalMutex hscreened hlimit hfree
      obtain ⟨out, hout, hiff⟩ := ih hfree' (by rwa [hnow'])
      refine ⟨_, serveAll_cons hserve hout, ?_⟩
      · rw [List.exists_mem_cons_iff]
        by_cases hlen : limitOf sub.ctx.bundle.ruleScopes ruleIndex ≤
            (prune (cutoff s.now) (s.approvals.rate ruleIndex)).length
        · rw [if_pos hlen] at hreply
          exact ⟨fun _ => ⟨Nat.succ_pos n, by omega⟩, fun _ => .inl hreply⟩
        · rw [if_neg hlen] at hreply
          obtain ⟨hvalue, hrate⟩ := hreply
          rw [hiff, hnow', hrate, prune_note (cutoff_lt hnow), List.length_append, List.length_singleton]
          constructor
          · rintro (heq | ⟨-, hover⟩)
            · exact absurd heq hvalue
            · exact ⟨Nat.succ_pos n, by omega⟩
          · rintro ⟨-, hover⟩
            exact .inr ⟨by omega, by omega⟩

end Again

/-- The request's rate check runs in the first minute of the clock and forgets a recording that still
counts at `ended`, when the request is answered. -/
def ForgetsRecent (P : Platform) (sub : Submission) (s : Daemon) (ended : Instant) : Prop :=
  ∃ ruleIndex now, Checks P sub s ruleIndex now ∧ now < rateWindow ∧
    0 < limitOf sub.ctx.bundle.ruleScopes ruleIndex ∧ ∃ x ∈ s.approvals.rate ruleIndex, ended - rateWindow < x

/-- If nothing that counts is forgotten, only the log and old recordings are different. -/
theorem alike_of_not_forgets {r : Solo (sig P) Daemon Env Response} (heffect : Effect P sub s r.state)
    (h : ¬ ForgetsRecent P sub s r.state.now) : Alike r.state (r.state.restore s) := by
  obtain ⟨hholder, hstate⟩ := heffect
  refine ⟨rfl, hholder, ?_⟩
  show Trimmed r.state.now r.state.approvals s.approvals
  rcases hstate with ⟨happrovals, -⟩ | ⟨ruleIndex, now, hchecks, hnow, happrovals⟩
  · rw [happrovals]
    exact .refl _ _
  · rw [happrovals]
    refine ⟨isRateLimited_cache, fun i => ?_⟩
    rw [isRateLimited_rate]
    split
    · rename_i hi
      obtain ⟨rfl, hlimit⟩ := hi
      refine ⟨(s.approvals.rate i).takeWhile (· ≤ cutoff now), (List.takeWhile_append_dropWhile ..).symm, ?_⟩
      intro x hx
      by_cases hearly : now < rateWindow
      · refine Nat.le_of_not_lt fun hrecent => h ?_
        exact ⟨i, now, hchecks, hearly, hlimit, x, (List.takeWhile_sublist _).mem hx, hrecent⟩
      · have hold : x + rateWindow ≤ now := mem_of_prune (Nat.le_of_not_lt hearly) hx
        exact Nat.le_sub_of_add_le (Nat.le_trans hold hnow)
    · exact ⟨[], rfl, by simp⟩

theorem Checks.pass_le {ruleIndex : Nat} {now : Instant} {s₁ : Daemon} (h : Checks P sub s ruleIndex now)
    (hpass : (world P).pass s (sub.around 0) = some s₁) : s₁.now ≤ now := by
  obtain ⟨_, s₂, s₃, cwd, -, hpass₁, -, hpass₂, -, hpass₃, rfl⟩ := h
  obtain rfl := Option.some.inj (hpass₁.symm.trans hpass)
  exact Nat.le_trans (pass_frame hpass₂).2.2 (pass_frame hpass₃).2.2

theorem Checks.now_le {ruleIndex : Nat} {now : Instant} (h : Checks P sub s ruleIndex now) : s.now ≤ now := by
  obtain ⟨s₁, hpass⟩ : ∃ s₁, (world P).pass s (sub.around 0) = some s₁ := by
    obtain ⟨s₁, _, _, _, -, hpass, -⟩ := h
    exact ⟨s₁, hpass⟩
  exact Nat.le_trans (pass_frame hpass).2.2 (h.pass_le hpass)

theorem Checks.unique {i j : Nat} {now now' : Instant} (h : Checks P sub s i now) (h' : Checks P sub s j now') :
    i = j ∧ now = now' := by
  obtain ⟨s₁, s₂, s₃, _, hscreened, hpass₁, -, hpass₂, -, hpass₃, rfl⟩ := h
  obtain ⟨_, _, _, _, hscreened', hpass₁', -, hpass₂', -, hpass₃', rfl⟩ := h'
  obtain rfl := Option.some.inj (hpass₁.symm.trans hpass₁')
  obtain rfl := Option.some.inj (hpass₂.symm.trans hpass₂')
  obtain rfl := Option.some.inj (hpass₃.symm.trans hpass₃')
  cases hscreened.policy.symm.trans hscreened'.policy
  exact ⟨rfl, rfl⟩

theorem Checks.screened {ruleIndex : Nat} {now : Instant} (h : Checks P sub s ruleIndex now) :
    Screened sub.ctx sub.req ruleIndex := by
  obtain ⟨_, _, _, _, hscreened, -⟩ := h
  exact hscreened

theorem mem_prune {k x : Instant} {window : List Instant} (hx : x ∈ window) (hlt : k < x) : x ∈ prune k window := by
  rw [← List.takeWhile_append_dropWhile (p := (· ≤ k)) (l := window)] at hx
  rcases List.mem_append.mp hx with htake | hdrop
  · have hle := List.mem_takeWhile_imp htake
    exact absurd (of_decide_eq_true hle) (Nat.not_le_of_lt hlt)
  · exact hdrop

section Tell

variable (approvalMutex : Bool) {ruleIndex : Nat}

/-- The request repeated until the rate cap of its rule shows, at a time past the first minute. -/
def repeats (sub : Submission) (ruleIndex : Nat) (ended : Instant) : List Submission :=
  pause (rateWindow - ended) :: List.replicate (limitOf sub.ctx.bundle.ruleScopes ruleIndex) (again sub)

/-- Only what is left in the window makes a difference. -/
theorem repeats_served (hscreened : Screened sub.ctx sub.req ruleIndex)
    (hlimit : 0 < limitOf sub.ctx.bundle.ruleScopes ruleIndex) (hfree : s.holder .approvalMutex = none) :
    ∃ out, serveAll P approvalMutex (repeats sub ruleIndex s.now) s = some out ∧
      ((∃ o ∈ out, o.1 = rateExceeded) ↔ prune (s.now - rateWindow) (s.approvals.rate ruleIndex) ≠ []) := by
  obtain ⟨r, hpause, hvalue, hnow, happrovals, hholder⟩ := pause_served (P := P) approvalMutex (rateWindow - s.now) s
  have harith : ∀ a b : Nat, b ≤ a + (b - a) ∧ a + (b - a) - b = a - b := by omega
  have hlate : rateWindow ≤ r.state.now := by
    rw [hnow]
    exact (harith s.now rateWindow).1
  have hcutoff : cutoff r.state.now = s.now - rateWindow := by
    rw [cutoff, checkedSub, if_pos hlate, Option.getD_some, hnow]
    exact (harith s.now rateWindow).2
  obtain ⟨out, hout, hiff⟩ := repeated_served (P := P) approvalMutex
    (limitOf sub.ctx.bundle.ruleScopes ruleIndex) hscreened hlimit (by rwa [hholder]) hlate
  refine ⟨_, serveAll_cons hpause hout, ?_⟩
  rw [List.exists_mem_cons_iff, hiff, hcutoff, happrovals, ← List.length_pos_iff]
  constructor
  · rintro (heq | ⟨-, hover⟩)
    · exact absurd heq hvalue
    · omega
  · exact fun hpos => .inr ⟨hlimit, by omega⟩

/-- If a recording that still counts is forgotten, repeating the request tells. -/
theorem tell_of_forgets {r : Solo (sig P) Daemon Env Response} (heffect : Effect P sub s r.state)
    (hle : ∀ i, ∀ x ∈ s.approvals.rate i, x ≤ s.now) (hfree : s.holder .approvalMutex = none)
    (h : ForgetsRecent P sub s r.state.now) :
    ∃ later, serveAll P approvalMutex later r.state ≠ serveAll P approvalMutex later (r.state.restore s) := by
  obtain ⟨ruleIndex, now, hchecks, hearly, hlimit, x, hx, hrecent⟩ := h
  obtain ⟨hholder, ⟨-, hnone⟩ | ⟨i, now', hchecks', hnow, happrovals⟩⟩ := heffect
  · exact absurd hchecks (hnone ruleIndex now)
  · obtain ⟨rfl, rfl⟩ := hchecks.unique hchecks'
    have hempty : r.state.approvals.rate ruleIndex = [] := by
      rw [happrovals, isRateLimited_rate, if_pos ⟨rfl, hlimit⟩]
      refine prune_eq_nil fun y hy => ?_
      rw [checkedSub, if_neg (Nat.not_le_of_lt hearly), Option.getD_none]
      exact Nat.le_trans (hle ruleIndex y hy) hchecks.now_le
    obtain ⟨out, hout, hiff⟩ := repeats_served (P := P) approvalMutex (s := r.state)
      hchecks.screened hlimit (by rwa [hholder])
    obtain ⟨out', hout', hiff'⟩ := repeats_served (P := P) approvalMutex
      (s := r.state.restore s) hchecks.screened hlimit hfree
    refine ⟨repeats sub ruleIndex r.state.now, fun heq => ?_⟩
    obtain rfl : out = out' := Option.some.inj ((hout.symm.trans heq).trans hout')
    have hshown : ∃ o ∈ out, o.1 = rateExceeded :=
      hiff'.mpr (List.ne_nil_of_mem (mem_prune hx hrecent))
    exact hiff.mp hshown (by rw [hempty]; rfl)

end Tell

/-- **Refused requests leave no trace, exactly when they forget nothing that counts.** In any state
that can be reached, a request is refused before execution. Every later sequence of requests is served
as if it had never been made, if and only if its rate check did not forget a recording that still
counts when it is answered. -/
theorem refused_leaves_no_trace_iff {β : Type} {s₀ : Daemon} {p₀ ps : Pool (sig P) Tid β}
    {tr : Trace (sig P) Daemon Tid Env} {r : Solo (sig P) Daemon Env Response}
    (hempty : s₀.approvals = ApprovalState.new) (hrun : Run (world P) s₀ p₀ tr s ps)
    (hfree : s.holder .approvalMutex = none) (hserve : serve P approvalMutex sub s = some r)
    (hrefused : ∀ e ∈ r.own, e.op.spawns = false) :
    ∃ unmade, (world P).pass s r.passed = some unmade ∧ unmade.now = r.state.now ∧
      ((∀ later, serveAll P approvalMutex later r.state = serveAll P approvalMutex later unmade) ↔
        ¬ ForgetsRecent P sub s unmade.now) := by
  have heffect := serve_effect hserve hrefused
  refine ⟨r.state.restore s, unmade_of_serve hserve, rfl, fun hsame hforgets => ?_, fun h later => ?_⟩
  · obtain ⟨later, htell⟩ := tell_of_forgets approvalMutex heffect (rate_le hrun hempty) hfree hforgets
    exact htell (hsame later)
  · exact (alike_of_not_forgets heffect h).serveAll_eq later

def dawnDaemon : Daemon := { burstDaemon with now := nanosPerSec }

/-- `make` is requested after some time, with an approver who gives a fixed answer. -/
def makeAfter (nanos : Nat) (approval : Approval) : Submission where
  ctx := ⟨burstBundle, 1000⟩
  req := ⟨["make"], "/", "", none⟩
  thread := 0
  around k := if k = 0 then [.tick nanos] else []
  choice := smooth 0 approval

/-- The daemon after it has executed `make` in the second second of its clock. -/
def dawnRun : Option (Solo (sig Platform.bare) Daemon Env Response) :=
  serve Platform.bare false (makeAfter 0 .allowed) dawnDaemon

theorem dawnRun_reachable {r : Solo (sig Platform.bare) Daemon Env Response} (h : dawnRun = some r) :
    ∃ tr ps, Run (world Platform.bare) dawnDaemon burstCalls tr r.state ps := by
  have hstart : Run (world Platform.bare) dawnDaemon burstCalls [] dawnDaemon burstCalls := .start
  obtain ⟨tr, ps, hrun, -⟩ := run_of_solo hstart h
  exact ⟨_, ps, hrun⟩

/-- Denied once by the user and then requested again when a minute of the clock has passed, `make` is
executed a second time in that minute; without the denied request, it would not have been. -/
theorem dawnRun_leaves_trace :
    ∃ r₁, dawnRun = some r₁ ∧ (∃ tr ps, Run (world Platform.bare) dawnDaemon burstCalls tr r₁.state ps) ∧
      ∃ r unmade later, serve Platform.bare false (makeAfter nanosPerSec .denied) r₁.state = some r ∧
        (∀ e ∈ r.own, e.op.spawns = false) ∧ (world Platform.bare).pass r₁.state r.passed = some unmade ∧
        serveAll Platform.bare false later r.state ≠ serveAll Platform.bare false later unmade := by
  obtain ⟨r₁, hr₁⟩ : ∃ r₁, dawnRun = some r₁ := ⟨_, rfl⟩
  refine ⟨r₁, hr₁, dawnRun_reachable hr₁, ?_⟩
  obtain rfl := Option.some.inj hr₁
  refine ⟨_, _, [makeAfter (58 * nanosPerSec) .allowed], rfl, by decide, rfl, fun h => ?_⟩
  have hresponses := congrArg (Option.map (List.map Prod.fst)) h
  change some [Response.approved 0 "" ""] = some [rateExceeded] at hresponses
  cases hresponses

/-- Denied later than in the first minute, it leaves none. -/
theorem dawnRun_leaves_no_trace :
    ∃ r₁ r unmade, dawnRun = some r₁ ∧
      serve Platform.bare false (makeAfter rateWindow .denied) r₁.state = some r ∧
        (world Platform.bare).pass r₁.state r.passed = some unmade ∧
        ∀ later, serveAll Platform.bare false later r.state = serveAll Platform.bare false later unmade := by
  obtain ⟨r₁, hr₁⟩ : ∃ r₁, dawnRun = some r₁ := ⟨_, rfl⟩
  obtain ⟨tr, ps, hrun⟩ := dawnRun_reachable hr₁
  have hfree : r₁.state.holder .approvalMutex = none := by
    obtain rfl := Option.some.inj hr₁
    rfl
  obtain ⟨r, hr, hrefused⟩ : ∃ r, serve Platform.bare false (makeAfter rateWindow .denied) r₁.state = some r ∧
      ∀ e ∈ r.own, e.op.spawns = false := by
    obtain rfl := Option.some.inj hr₁
    exact ⟨_, rfl, by decide⟩
  obtain ⟨unmade, hunmade, -, hiff⟩ := refused_leaves_no_trace_iff rfl hrun hfree hr hrefused
  refine ⟨r₁, r, unmade, hr₁, hr, hunmade, hiff.mpr ?_⟩
  rintro ⟨ruleIndex, now, hchecks, hearly, -⟩
  have hnow : r₁.state.now + rateWindow ≤ now := hchecks.pass_le rfl
  exact absurd hearly (Nat.not_lt_of_le (Nat.le_trans (Nat.le_add_left _ _) hnow))

end Sudix
