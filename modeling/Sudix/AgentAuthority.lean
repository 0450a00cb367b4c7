import Sudix.AgentRegistry
import Sudix.ScopingTrace

/-! Whose verdict a command is executed on. The registry is keyed by the uid of the peer, a request
is prompted on the entry of its own caller's uid, and `approver_uids` is looked at by nobody. So the
verdict comes from a connection of the caller's own uid, and it has the authority of an approver if
and only if the caller is one. -/

namespace Sudix

open Concurrent

variable {P : Platform} {registerWait rounds : Nat} {approvalMutex : Bool} {s₀ s : Daemon}
  {ps : Pool (sig P) Tid (Except IoError Unit)} {tr : Trace (sig P) Daemon Tid Env} {own : History (sig P)}
  {u : Uid} {c : Conn}

section World

variable {α : Type} {p₀ qs : Pool (sig P) Tid α}

theorem uidOf_eq (hrun : Run (world P) s₀ p₀ tr s qs) : s.uidOf = s₀.uidOf := by
  refine hrun.world_invariant (I := fun _ s => s.uidOf = s₀.uidOf) rfl ?_
  intro tr st ih hlegal
  rw [legal_uidOf hlegal, ih]

theorem every_uidOf (hrun : Run (world P) s₀ p₀ tr s qs) :
    Every (fun _ st => st.pre.uidOf = s₀.uidOf) tr :=
  hrun.every_before fun _ _ _ hbefore => uidOf_eq hbefore

/-- The uid a thread learns of its peer is the one of its connection. -/
theorem peerUid_eq (hrun : Run (world P) s₀ p₀ tr s qs) (h : ⟨.peerUid, .ok u⟩ ∈ history c tr) :
    u = s₀.uidOf c := by
  obtain ⟨before, pre, post, after, ps', rfl, hbefore, hlegal⟩ := hrun.split_event h
  rw [(legal_peerUid hlegal).1]
  exact congrFun (uidOf_eq hbefore) c

end World

/-- An `Allow` verdict is among what has been read on connection `c`. -/
def AllowReceived (c : Conn) (own : History (sig P)) : Prop :=
  ∃ earlier read later line, own = earlier ++ read ++ later ∧
    LineDone c (min bufCapacity) maxVerdictBytes read (.ok line) ∧ Verdict.fromLine P.json line = .ok .allow

theorem AllowReceived.append_left (h : AllowReceived c own) (before : History (sig P)) :
    AllowReceived c (before ++ own) := by
  obtain ⟨earlier, read, later, line, rfl, hread, hline⟩ := h
  exact ⟨before ++ earlier, read, later, line, by simp only [List.append_assoc], hread, hline⟩

theorem AllowReceived.append_right (h : AllowReceived c own) (after : History (sig P)) :
    AllowReceived c (own ++ after) := by
  obtain ⟨earlier, read, later, line, rfl, hread, hline⟩ := h
  exact ⟨earlier, read, later ++ after, line, List.append_assoc _ _ _, hread, hline⟩

theorem approvalOf_allowed {line : String} (h : approvalOf P line = .allowed) :
    Verdict.fromLine P.json line = .ok .allow := by
  unfold approvalOf at h
  split at h
  · assumption
  all_goals cases h

theorem LockedDone.allowReceived {p : Prompt} (h : LockedDone c p own .allowed) : AllowReceived c own := by
  generalize hallowed : Approval.allowed = approval at h
  cases h with
  | @answered line read answer hline hread hne =>
      exact ⟨sent c line, read, [], answer, by simp, hread, approvalOf_allowed hallowed.symm⟩
  | _ => cases hallowed

theorem AwaitDone.mem_lookup (h : AwaitDone u own (some c)) : ⟨.lookupAgent u, some c⟩ ∈ own := by
  cases h with
  | found hawaiting => simp

/-- An approved request has read an `Allow` from the agent registered for its caller. -/
theorem AgentDone.allowReceived {req : Request} (h : AgentDone u req own .allowed) :
    ∃ c, AllowReceived c own ∧ ⟨.lookupAgent u, some c⟩ ∈ own := by
  cases h with
  | @prompted now awaited c poisoned own' _ hawait hprompt =>
      refine ⟨c, ?_, by simp [hawait.mem_lookup]⟩
      cases hprompt with
      | released hlocked =>
          have hprompted := (hlocked.allowReceived.append_left [⟨.lock (.stream c), false⟩]).append_right
            [⟨.unlock (.stream c), ()⟩]
          exact (hprompted.append_left _).append_right _

theorem GateDone.allowReceived {req : Request}
    (h : GateDone (.agent registerWait rounds) u req approvalMutex own .allowed) :
    ∃ c, AllowReceived c own ∧ ⟨.lookupAgent u, some c⟩ ∈ own := by
  cases h with
  | ungated hdone =>
      cases hdone with
      | agent hagent => exact hagent.allowReceived
  | @released poisoned own' _ hdone =>
      cases hdone with
      | agent hagent =>
          obtain ⟨c, hreceived, hlookup⟩ := hagent.allowReceived
          exact ⟨c, (hreceived.append_left [⟨.lock .approvalMutex, poisoned⟩]).append_right _, by simp [hlookup]⟩

theorem Reading.mem_recv {limit : Nat} {chunk : Nat → Nat} {line : List UInt8}
    (h : Reading c chunk limit own line) (hne : line ≠ []) :
    ∃ remaining answer, ⟨.recv c (chunk remaining), answer⟩ ∈ own ∧ remaining ≤ limit := by
  cases h with
  | start => exact absurd rfl hne
  | more hreading hlt hnl hbytes => exact ⟨_, _, List.mem_append_right _ List.mem_cons_self, Nat.sub_le _ _⟩

theorem ReadDone.mem_recv {limit : Nat} {chunk : Nat → Nat} {result : Except IoError (List UInt8)}
    (hpos : 0 < limit) (h : ReadDone c chunk limit own result) :
    ∃ remaining answer, ⟨.recv c (chunk remaining), answer⟩ ∈ own ∧ remaining ≤ limit := by
  cases h with
  | full hreading hfull =>
      exact hreading.mem_recv (List.ne_nil_of_length_pos (Nat.lt_of_lt_of_le hpos hfull))
  | _ => exact ⟨_, _, List.mem_append_right _ List.mem_cons_self, Nat.sub_le _ _⟩

/-- A verdict is read by reads that no hello line is read by. -/
theorem AllowReceived.mem_recv (h : AllowReceived c own) :
    ∃ n answer, ⟨.recv c n, answer⟩ ∈ own ∧ n < bufCapacity := by
  obtain ⟨earlier, read, later, line, rfl, hread, -⟩ := h
  cases hread with
  | ok hdone htext =>
      obtain ⟨remaining, answer, hmem, hle⟩ := hdone.mem_recv (by decide)
      refine ⟨_, answer, List.mem_append_left _ (List.mem_append_right _ hmem), ?_⟩
      exact Nat.lt_of_le_of_lt (Nat.le_trans (Nat.min_le_right _ _) hle) (by decide)

theorem AgentStage.recv_inv {req : Request} {n : Nat} (h : AgentStage u req own (.recv c n)) :
    ⟨.lookupAgent u, some c⟩ ∈ own := by
  cases h with
  | await hawait => cases hawait
  | prompt hawait hprompt =>
      cases hprompt with
      | locked hlocked =>
          cases hlocked with
          | read hline hread =>
              cases hread
              simp [hawait.mem_lookup]

theorem GateStage.recv_inv {approver : Approver} {req : Request} {n : Nat}
    (h : GateStage approver u req approvalMutex own (.recv c n)) : ⟨.lookupAgent u, some c⟩ ∈ own := by
  have happroved : ∀ {own : History (sig P)}, approver.Stage u req own (.recv c n) →
      ⟨.lookupAgent u, some c⟩ ∈ own := by
    intro own happrove
    cases happrove with
    | totp htotp => cases htotp
    | agent hagent => exact hagent.recv_inv
  cases h with
  | ungated hstage => exact happroved hstage
  | held hstage => exact List.mem_cons_of_mem _ (happroved hstage)

/-- A worker reads its hello, or the verdict of the agent registered for its caller. -/
theorem WorkerStage.recv_inv {approver : Approver} {t : Conn} {n : Nat}
    (h : WorkerStage t approver approvalMutex own (.recv c n)) :
    c = t ∧ n = bufCapacity ∨ ∃ u, ⟨.peerUid, .ok u⟩ ∈ own ∧ ⟨.lookupAgent u, some c⟩ ∈ own := by
  cases h with
  | connection hconnection =>
      cases hconnection with
      | reload hreload => cases hreload
      | read _ _ hread =>
          cases hread
          exact .inl ⟨rfl, rfl⟩
      | @request _ _ callerUid _ _ _ hadmitted hrequest =>
          cases hrequest with
          | approve _ hgate =>
              refine .inr ⟨callerUid, ?_, ?_⟩
              · exact List.mem_cons_of_mem _ (List.mem_append_left _ hadmitted.peerUid.1)
              · exact List.mem_cons_of_mem _ (List.mem_append_right _ (List.mem_append_right _ hgate.recv_inv))
      | register _ hregister => cases hregister
      | respond _ hwrite => cases hwrite

/-- Thread `t` records a fresh approval, or executes the command it has recorded one for. -/
def ExecutesFresh (t : Tid) (before : Trace (sig P) Daemon Tid Env) (st : Step (sig P) Daemon Tid Env) : Prop :=
  (∃ scopes ruleIndex argv, st.label = .thread t ⟨.recordApproval scopes ruleIndex argv, ()⟩) ∨
    (∃ program args dir result, st.label = .thread t ⟨.spawn program args dir, result⟩) ∧
      ∃ scopes ruleIndex argv, ⟨.recordApproval scopes ruleIndex argv, ()⟩ ∈ history t before

/-- A fresh execution has read an `Allow` on a connection of an approver. -/
def ApprovedByApprover (approvers : List Uid) (before : Trace (sig P) Daemon Tid Env)
    (st : Step (sig P) Daemon Tid Env) : Prop :=
  ∀ t, ExecutesFresh t before st → ∃ c, AllowReceived c (history t before) ∧ st.pre.uidOf c ∈ approvers

/-- A fresh execution is for a caller that is itself an approver. -/
def CallerIsApprover (approvers : List Uid) (before : Trace (sig P) Daemon Tid Env)
    (st : Step (sig P) Daemon Tid Env) : Prop :=
  ∀ t, ExecutesFresh t before st → st.pre.uidOf t ∈ approvers

/-- Only connections of uid `a` are served. -/
def OnlyFrom (a : Uid) (tr : Trace (sig P) Daemon Tid Env) : Prop :=
  ∀ st ∈ tr, ∀ t event, st.label = .thread t event → st.pre.uidOf t = a

def NothingExecuted (tr : Trace (sig P) Daemon Tid Env) : Prop :=
  ∀ st ∈ tr, ∀ t program args dir result, st.label ≠ .thread t ⟨.spawn program args dir, result⟩

section Run

variable (hrun : Run (world P) s₀ (workers P (.agent registerWait rounds) approvalMutex) tr s ps)

include hrun

/-- An agent is registered under the uid of its connection. -/
theorem registry_uidOf (hempty : s₀.registry = fun _ => none) (hentry : s.registry u = some c) :
    s₀.uidOf c = u := by
  obtain ⟨before, st, after, rfl, t, hlabel⟩ := (registry_since hrun hempty hentry).once
  have hstage := hrun.every_pre workers_meets before st after rfl t _ hlabel
  obtain ⟨rfl, own₁, loaded, hadmitted, hown⟩ := hstage.insertAgent_inv
  obtain ⟨⟨ps', hbefore⟩, -⟩ := hrun.before
  refine (peerUid_eq hbefore ?_).symm
  rw [hown]
  simp [hadmitted.peerUid.1]

theorem lookup_uidOf (hempty : s₀.registry = fun _ => none) {t : Tid}
    (h : ⟨.lookupAgent u, some c⟩ ∈ history t tr) : s₀.uidOf c = u := by
  obtain ⟨before, pre, post, after, ps', rfl, hbefore, hlegal⟩ := hrun.split_event h
  exact registry_uidOf hbefore hempty (legal_lookupAgent hlegal).1.symm

/-- **A verdict comes from the caller's own uid.** -/
theorem allowReceived_uidOf (hempty : s₀.registry = fun _ => none) {t : Tid}
    (h : AllowReceived c (history t tr)) : s₀.uidOf c = s₀.uidOf t := by
  obtain ⟨n, answer, hmem, hn⟩ := h.mem_recv
  obtain ⟨before, st, after, rfl, hlabel⟩ := once_of_mem_history hmem
  have hstage := hrun.every_pre workers_meets before st after rfl t _ hlabel
  obtain ⟨⟨ps', hbefore⟩, -⟩ := hrun.before
  rcases hstage.recv_inv with ⟨-, rfl⟩ | ⟨u, hpeer, hlookup⟩
  · exact absurd hn (Nat.lt_irrefl _)
  · rw [lookup_uidOf hbefore hempty hlookup, peerUid_eq hbefore hpeer]

/-- A fresh execution has read an `Allow`. -/
theorem executesFresh_received :
    Every (fun before (st : Step (sig P) Daemon Tid Env) => ∀ t, ExecutesFresh t before st →
      ∃ c, AllowReceived c (history t before)) tr := by
  have hrecord : ∀ before (st : Step (sig P) Daemon Tid Env) after, tr = before ++ st :: after →
      ∀ t scopes ruleIndex argv, st.label = .thread t ⟨.recordApproval scopes ruleIndex argv, ()⟩ →
        ∃ c, AllowReceived c (history t before) := by
    intro before st after heq t scopes ruleIndex argv hlabel
    have hstage := hrun.every_pre workers_meets before st after heq t _ hlabel
    obtain ⟨own₁, loaded, callerUid, req, own₂, -, hrequest, hown⟩ := hstage.request_inv rfl
    obtain ⟨-, -, -, cwd, own', hgate, rfl⟩ := hrequest.recordApproval_inv
    obtain ⟨c, hreceived, -⟩ := hgate.allowReceived
    refine ⟨c, ?_⟩
    rw [hown]
    exact (hreceived.append_left _).append_left _
  intro before st after heq t hfresh
  rcases hfresh with ⟨scopes, ruleIndex, argv, hlabel⟩ | ⟨-, scopes, ruleIndex, argv, hmem⟩
  · exact hrecord before st after heq t scopes ruleIndex argv hlabel
  · obtain ⟨before', st', after', rfl, hlabel⟩ := once_of_mem_history hmem
    obtain ⟨c, hreceived⟩ := hrecord before' st' (after' ++ st :: after) (by simp [heq]) t _ _ _ hlabel
    rw [history_append]
    exact ⟨c, hreceived.append_right _⟩

/-- Behind every execution there is a fresh approval, the command's own or a cached one. -/
theorem spawn_recorded (hempty : s₀.approvals = ApprovalState.new) :
    Every (fun before (st : Step (sig P) Daemon Tid Env) => ∀ t program args dir result,
      st.label = .thread t ⟨.spawn program args dir, result⟩ →
        Once (fun before' st' => ∃ u, ExecutesFresh u before' st') before) tr := by
  intro before st after heq t program args dir result hlabel
  have hstage := hrun.every_pre workers_meets before st after heq t _ hlabel
  obtain ⟨own₁, loaded, callerUid, req, own₂, -, hrequest, hown⟩ := hstage.request_inv rfl
  obtain ⟨-, -, outcome, hready⟩ := hrequest.spawn_inv
  cases hready with
  | @fresh ruleIndex cwd own' hs hgate =>
      have hmem : (⟨.recordApproval loaded.bundle.ruleScopes ruleIndex req.argv, ()⟩ : Event (sig P)) ∈
          history t before := by
        rw [hown]
        simp
      exact (once_of_mem_history hmem).mono fun _ _ h => ⟨t, .inl ⟨_, _, _, h⟩⟩
  | @cached ruleIndex cwd hs =>
      have hmem : (⟨.checkCache loaded.bundle.ruleScopes ruleIndex req.argv, .hit⟩ : Event (sig P)) ∈
          history t before := by
        rw [hown]
        simp [checked]
      obtain ⟨before', ⟨pre, label, post⟩, after', rfl, hhit⟩ := once_of_mem_history hmem
      obtain rfl : label = _ := hhit
      subst heq
      obtain ⟨⟨ps', hbefore⟩, -⟩ := hrun.before
      obtain ⟨⟨ps'', hbefore'⟩, hlegal⟩ := hbefore.before
      obtain ⟨last, hentry, -⟩ := checkCache_eq_hit_iff.mp (legal_checkCache hlegal).1
      refine ((cache_since hbefore' hempty _ _ _ hentry).once.mono fun _ st' h => ?_).append _
      obtain ⟨⟨u, scopes, hrecord, -⟩, -⟩ := h
      exact ⟨u, .inl ⟨_, _, _, hrecord⟩⟩

/-- **Approver authority, exactly.** Whichever config is meant: in every run, fresh executions are
approved on connections of approvers, and nothing is executed where only a uid that is no approver
takes part, if and only if every fresh execution is for a caller that is itself an approver. -/
theorem approver_authority_iff (hagents : s₀.registry = fun _ => none)
    (hempty : s₀.approvals = ApprovalState.new) (vc : ValidConfig P.regex) :
    (Every (ApprovedByApprover vc.config.approverUids) tr ∧
        ∀ a ∉ vc.config.approverUids, OnlyFrom a tr → NothingExecuted tr) ↔
      Every (CallerIsApprover vc.config.approverUids) tr := by
  constructor
  · rintro ⟨happroved, -⟩ before st after rfl t hfresh
    obtain ⟨c, hreceived, hc⟩ := happroved before st after rfl t hfresh
    obtain ⟨⟨ps', hbefore⟩, -⟩ := hrun.before
    rw [uidOf_eq hbefore, allowReceived_uidOf hbefore hagents hreceived] at hc
    rwa [uidOf_eq hbefore]
  · intro hcaller
    constructor
    · intro before st after heq t hfresh
      obtain ⟨c, hreceived⟩ := executesFresh_received hrun before st after heq t hfresh
      have ht := hcaller before st after heq t hfresh
      subst heq
      obtain ⟨⟨ps', hbefore⟩, -⟩ := hrun.before
      refine ⟨c, hreceived, ?_⟩
      rw [uidOf_eq hbefore] at ht ⊢
      rwa [allowReceived_uidOf hbefore hagents hreceived]
    · intro a ha honly st hst t program args dir result hlabel
      obtain ⟨before, after, rfl⟩ := List.append_of_mem hst
      have hrecorded := spawn_recorded hrun hempty before st after rfl t _ _ _ _ hlabel
      obtain ⟨before', st', after', rfl, u, hfresh⟩ := hrecorded
      -- the recording is a step of a connection of `a`
      have hu := hcaller before' st' (after' ++ st :: after) (by simp) u hfresh
      have hlabel' : ∃ event, st'.label = .thread u event := by
        rcases hfresh with ⟨_, _, _, h⟩ | ⟨⟨_, _, _, _, h⟩, -⟩ <;> exact ⟨_, h⟩
      obtain ⟨event, hevent⟩ := hlabel'
      rw [honly st' (by simp) u event hevent] at hu
      exact ha hu

end Run

def allowLine : String := "\x7b\"verdict\":\"allow\"\x7d"

def selfPlatform : Platform :=
  { Platform.bare with
    json := SerdeJson.ofTables helloTexts [(promptOf idRequest, idPromptLine)] [(.allow, allowLine)] [] }

/-- Uid 1001 may submit requests, and only uid 1000 is to approve them. -/
def selfConfig : ValidConfig selfPlatform.regex :=
  ⟨⟨[], [⟨[.literal "id"], 0, 0⟩], [1000, 1001], [1000], ⟨.agent, none⟩⟩, rfl⟩

/-- Connections 0 and 1 of uid 1001 bring a registration and a command. -/
def selfDaemon : Daemon :=
  Daemon.start (.ok ⟨0o600, 0, []⟩) ⟨.ok, fun _ => true⟩ (bundleFromFileCfg selfConfig) (some []) (fun _ => 1001)
    (fun c => arrived (if c = 0 then registerLine else idLine)) 0 0

def selfWorkers : Pool (sig selfPlatform) Tid (Except IoError Unit) := workers selfPlatform (.agent 0 0) false

def selfRun : Option (Point (sig selfPlatform) Daemon Tid Env (Except IoError Unit)) :=
  replay (world selfPlatform) ⟨[], selfDaemon, selfWorkers⟩
    (List.replicate 11 (.thread 0 (smooth 26 .denied)) ++ List.replicate 20 (.thread 1 (smooth 55 .denied)) ++
      [.env (.peerSend 0 (utf8 (allowLine ++ "\n")))] ++ List.replicate 5 (.thread 1 (smooth 20 .denied)))

/-- The approval that is recorded, and the execution it leads to. -/
theorem selfRun_steps :
    ∃ c, selfRun = some c ∧ Run (world selfPlatform) selfDaemon selfWorkers c.trace c.state c.pool ∧
      (∃ h : 35 < c.trace.length,
        c.trace[35].label = .thread 1 ⟨.recordApproval [⟨0, 0⟩] 0 ["id"], ()⟩) ∧ ¬ NothingExecuted c.trace := by
  obtain ⟨c, hc⟩ : ∃ c, selfRun = some c := ⟨_, rfl⟩
  refine ⟨c, hc, run_of_replay .start hc, ?_⟩
  obtain rfl := Option.some.inj hc
  exact ⟨⟨by decide +kernel, rfl⟩, fun h => h _ (List.mem_of_getElem? (i := 36) rfl) 1 _ _ _ _ rfl⟩

theorem onlyFrom_of_run {α : Type} {p₀ qs : Pool (sig P) Tid α} {a : Uid}
    (hrun : Run (world P) s₀ p₀ tr s qs) (huid : ∀ t, s₀.uidOf t = a) : OnlyFrom a tr := by
  intro st hst t event hlabel
  obtain ⟨before, after, heq⟩ := List.append_of_mem hst
  rw [every_uidOf hrun before st after heq]
  exact huid t

/-- The command of uid 1001 is executed on a verdict of uid 1001, with nobody else taking part. -/
theorem self_approval :
    ∃ c, selfRun = some c ∧ Run (world selfPlatform) selfDaemon selfWorkers c.trace c.state c.pool ∧
      ¬ Every (ApprovedByApprover selfConfig.config.approverUids) c.trace ∧
      1001 ∈ selfConfig.config.agentUids ∧ 1001 ∉ selfConfig.config.approverUids ∧
      OnlyFrom 1001 c.trace ∧ ¬ NothingExecuted c.trace := by
  obtain ⟨c, hc, hrun, ⟨hlen, hrecord⟩, hexecuted⟩ := selfRun_steps
  refine ⟨c, hc, hrun, fun happroved => ?_, by decide, by decide, onlyFrom_of_run hrun fun _ => rfl, hexecuted⟩
  obtain ⟨agent, -, happrover⟩ := happroved.getElem 35 hlen 1 (.inl ⟨_, _, _, hrecord⟩)
  rw [(every_uidOf hrun).getElem 35 hlen] at happrover
  have hnot : (1001 : Uid) ∉ selfConfig.config.approverUids := by decide
  exact hnot happrover

/-- So the caller of that run is no approver. -/
theorem selfRun_caller :
    ∃ c, selfRun = some c ∧ ¬ Every (CallerIsApprover selfConfig.config.approverUids) c.trace := by
  obtain ⟨c, hc, hrun, -, hexecuted⟩ := selfRun_steps
  refine ⟨c, hc, fun hcaller => hexecuted ?_⟩
  have hauthority := (approver_authority_iff hrun rfl rfl selfConfig).mpr hcaller
  exact hauthority.2 1001 (by decide) (onlyFrom_of_run hrun fun _ => rfl)

end Sudix
