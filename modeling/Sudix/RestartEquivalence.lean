import Sudix.PipelineReload
import Sudix.ReloadHash

/-! Reloads and restarts. A connection is decided by the bundle it has snapshotted and by the approver
the daemon was started with. A reload replaces the bundle, so it decides as a restart would that kept
the approval section; the approver itself is built once. -/

namespace Sudix

open Concurrent

section Served

variable (P : Platform)

/-- `handle_connection_threaded` from the snapshot on. -/
def serveBundle (c : Conn) (bundle : PolicyBundle) (approver : Approver) (approvalMutex : Bool) :
    Prog P (Except IoError Unit) := do
  match ← call P .peerUid with
  | .error e => return .error ("getsockopt(SO_PEERCRED): " ++ e)
  | .ok callerUid =>
      if !bundle.agentUids.contains callerUid then
        writeResponse P c (.denied "caller uid not authorized")
      else
        match ← call P .tryClone with
        | .error e => return .error e
        | .ok () =>
            match ← readLine P c (fun _ => bufCapacity) maxRequestBytes with
            | .error e => return .error e
            | .ok line =>
                if line = "" then return .ok ()
                else if maxRequestBytes ≤ line.utf8ByteSize ∧ line.toList.getLast? ≠ some '\n' then
                  writeResponse P c (.denied "request too large")
                else serveHello P c bundle callerUid approver approvalMutex line

/-- A worker from the snapshot on. -/
def finishWorker (c : Conn) (bundle : PolicyBundle) (approver : Approver) (approvalMutex : Bool) :
    Prog P (Except IoError Unit) := do
  let result ← serveBundle P c bundle approver approvalMutex
  call P .releaseSlot
  return result

end Served

variable {P : Platform} {approver : Approver} {approvalMutex : Bool} {own : History (sig P)}

theorem Reloaded.follows {result : Except ConfigError Unit} (h : Reloaded own result) :
    ∃ (h : Hash) (poisoned : Bool) (own' : History (sig P)),
      own = ⟨.configHash, .ok h⟩ :: ⟨.lock .lastHash, poisoned⟩ :: own' ∧
        (reloadLocked P h).Follows own' (.ret result) := by
  cases h with
  | @same h poisoned =>
      refine ⟨h, poisoned, _, rfl, .step ?_⟩
      show Program.Follows (if some h = some h then _ else _) _ _
      rw [if_pos rfl]
      exact .refl
  | @loaded h poisoned last fc hne =>
      refine ⟨h, poisoned, _, rfl, .step ?_⟩
      show Program.Follows (if last = some h then _ else _) _ _
      rw [if_neg hne]
      exact .step (.step (.step (.step .refl)))
  | @failed h poisoned last e hne =>
      refine ⟨h, poisoned, _, rfl, .step ?_⟩
      show Program.Follows (if last = some h then _ else _) _ _
      rw [if_neg hne]
      exact .step .refl

theorem ReloadDone.follows {result : Except ConfigError Unit} (h : ReloadDone own result) :
    (maybeReload P).Follows own (.ret result) := by
  cases h with
  | unreadable => exact .step .refl
  | unlocked hreloaded =>
      obtain ⟨h, poisoned, own', rfl, hfollows⟩ := hreloaded.follows
      exact .step (.step ((hfollows.bind _).trans (.step .refl)))

/-- After its snapshot a worker is what the bundle and the approver make it. -/
theorem worker_follows {c : Conn} {loaded : Loaded} (hreload : ReloadDone own (.ok ())) :
    (worker P approver approvalMutex c).Follows (⟨.acquireSlot, ()⟩ :: own ++ [⟨.snapshot, loaded⟩])
      (finishWorker P c loaded.bundle approver approvalMutex) := by
  have hconnection : (handleConnection P c approver approvalMutex).Follows (own ++ [⟨.snapshot, loaded⟩])
      (serveBundle P c loaded.bundle approver approvalMutex) :=
    (hreload.follows.bind _).trans (.step .refl)
  exact .step (hconnection.bind _)

theorem WorkerStage.snapshot_reload {c : Conn} (h : WorkerStage c approver approvalMutex own .snapshot) :
    ∃ own', own = ⟨.acquireSlot, ()⟩ :: own' ∧ ReloadDone own' (.ok ()) := by
  cases h with
  | connection hconnection =>
      cases hconnection with
      | reload hreload => cases hreload
      | snapshot hreload => exact ⟨_, rfl, hreload⟩
      | read _ _ hread => cases hread
      | request _ hrequest => cases hrequest.requesting
      | register _ hregister => cases hregister
      | respond _ hwrite => cases hwrite

/-- What `validate` looks at, check by check. -/
theorem validate_eq_ok {cfg : FileConfig} :
    cfg.validate P.regex = .ok () ↔
      validateRules P.regex "deny" 0 (cfg.deny.map DenyEntry.argv) = .ok () ∧
      validateRules P.regex "allow" 0 (cfg.allow.map AllowEntry.argv) = .ok () ∧
      cfg.agentUids.isEmpty = false ∧ cfg.approverUids.isEmpty = false ∧
      ¬ (cfg.approval.method = .totp ∧ cfg.approval.totpSecretPath.isNone) := by
  rw [FileConfig.validate]
  cases validateRules P.regex "deny" 0 (cfg.deny.map DenyEntry.argv) with
  | error e => simp
  | ok _ =>
      cases validateRules P.regex "allow" 0 (cfg.allow.map AllowEntry.argv) with
      | error e => simp
      | ok _ =>
          cases cfg.agentUids.isEmpty with
          | true => simp
          | false =>
              cases cfg.approverUids.isEmpty with
              | true => simp
              | false => simp

theorem validate_approval {cfg cfg' : FileConfig} (hvalid : cfg.validate P.regex = .ok ())
    (hvalid' : cfg'.validate P.regex = .ok ()) :
    ({ cfg with approval := cfg'.approval } : FileConfig).validate P.regex = .ok () := by
  obtain ⟨hdeny, hallow, hagents, happrovers, -⟩ := validate_eq_ok.mp hvalid
  obtain ⟨-, -, -, -, happroval⟩ := validate_eq_ok.mp hvalid'
  exact validate_eq_ok.mpr ⟨hdeny, hallow, hagents, happrovers, happroval⟩

/-- The config with the approval section of another one. -/
def ValidConfig.withApproval (vc vc' : ValidConfig P.regex) : ValidConfig P.regex :=
  ⟨{ vc.config with approval := vc'.config.approval }, validate_approval vc.valid vc'.valid⟩

variable (P) in
/-- `run_daemon` comes to serve after having loaded this config. -/
def StartedOn (secrets : SecretFiles) (rounds : Nat) (vc : ValidConfig P.regex) (d : Started) : Prop :=
  ∃ s₀ tr s ps main, Run (world P) s₀ (fun _ => runDaemon P secrets rounds) tr s ps ∧
    ps main = .ret (.ok d) ∧ ⟨.loadConfig, .ok vc⟩ ∈ history main tr

section Started

variable {secrets : SecretFiles} {rounds : Nat} {vc : ValidConfig P.regex} {d : Started}

theorem StartedOn.parts (h : StartedOn P secrets rounds vc d) :
    d.bundle = bundleFromFileCfg vc ∧ approvalSetup secrets rounds vc.config.approval = .ok d.setup := by
  obtain ⟨s₀, tr, s, ps, main, hrun, hd, hload⟩ := h
  have hdone : StartDone secrets rounds (history main tr) (.ok d) := hrun.result (fun _ => runDaemon_meets) hd
  generalize history main tr = own at hdone hload
  cases hdone with
  | started hsetup =>
      simp only [List.mem_cons, Event.mk.injEq, heq_eq_eq, Except.ok.injEq, List.not_mem_nil] at hload
      obtain ⟨-, rfl⟩ | hload | hload := hload
      · exact ⟨rfl, hsetup⟩
      · cases hload.1
      · cases hload

end Started

/-- The last reload of a run was one to this config. -/
def InForce (vc : ValidConfig P.regex) (tr : Trace (sig P) Daemon Tid Env) : Prop :=
  Since (fun st => writes Op.writesCurrent st.label = true)
    (fun _ st => ∃ u, st.label = .thread u ⟨.swapCurrent (bundleFromFileCfg vc), ()⟩) tr

theorem current_of_inForce {α : Type} {s₀ s : Daemon} {p₀ ps : Pool (sig P) Tid α}
    {tr : Trace (sig P) Daemon Tid Env} (hrun : Run (world P) s₀ p₀ tr s ps) {vc : ValidConfig P.regex}
    (h : InForce vc tr) : s.current.bundle = bundleFromFileCfg vc := by
  revert h
  refine hrun.world_invariant (I := fun tr s => InForce vc tr → s.current.bundle = bundleFromFileCfg vc)
    (fun h => absurd h not_since_nil) ?_
  intro tr st ih hlegal h
  rcases since_snoc.mp h with ⟨u, hlabel⟩ | ⟨hsince, hquiet⟩
  · obtain ⟨pre, label, post⟩ := st
    obtain rfl : label = _ := hlabel
    rw [legal_swapCurrent hlegal]
  · rw [legal_current hlegal (by simpa using hquiet)]
    exact ih hsince

theorem inForce_of_getElem {vc : ValidConfig P.regex} {tr : Trace (sig P) Daemon Tid Env} {u : Tid} (i : Nat)
    (hi : i < tr.length) (hlabel : tr[i].label = .thread u ⟨.swapCurrent (bundleFromFileCfg vc), ()⟩)
    (hafter : ∀ st ∈ tr.drop (i + 1), writes Op.writesCurrent st.label = false) : InForce vc tr := by
  refine ⟨tr.take i, tr[i], tr.drop (i + 1), ?_, ⟨u, hlabel⟩, fun st hst => ?_⟩
  · rw [List.getElem_cons_drop, List.take_append_drop]
  · simp [hafter st hst]

section Restart

variable {secrets : SecretFiles} {rounds : Nat} {vc₁ vc₂ : ValidConfig P.regex} {d₁ d₂ : Started}
  {s₀ s₀' s₁ s₂ : Daemon} {ps₁ ps₂ : Pool (sig P) Tid (Except IoError Unit)}
  {tr₁ tr₂ : Trace (sig P) Daemon Tid Env} {st₁ st₂ : Step (sig P) Daemon Tid Env} {c : Conn}
  {loaded loaded₁ loaded₂ : Loaded}

/-- After its snapshot a worker is what the bundle in force and the approver make it. -/
theorem snapshot_decides (hrun : Run (world P) s₀ (workers P approver approvalMutex) (tr₁ ++ [st₁]) s₁ ps₁)
    (hsnap : st₁.label = .thread c ⟨.snapshot, loaded⟩) :
    (∃ ps, Run (world P) s₀ (workers P approver approvalMutex) tr₁ st₁.pre ps) ∧ loaded = st₁.pre.current ∧
      ps₁ c = finishWorker P c loaded.bundle approver approvalMutex := by
  obtain ⟨hbefore, hlegal⟩ := hrun.before
  obtain ⟨own, hown, hreload⟩ := (hrun.every_pre workers_meets tr₁ st₁ [] rfl c _ hsnap).snapshot_reload
  have hfollows := hrun.follows c
  obtain ⟨pre, label, post⟩ := st₁
  obtain rfl : label = _ := hsnap
  refine ⟨hbefore, (legal_snapshot hlegal).1, ?_⟩
  rw [history_append, hown, history_thread_self] at hfollows
  exact hfollows.det (worker_follows hreload)

/-- **A reload decides as a restart.** A daemon started on the first config that has last reloaded the
second one serves a connection as a daemon does that is freshly started on the second config with the
approval section of the first one: with the same bundle, the same approver and codes, and from the
snapshot on with the same program. -/
theorem reload_decides_as_restart (hstarted₁ : StartedOn P secrets rounds vc₁ d₁)
    (hstarted₂ : StartedOn P secrets rounds (vc₂.withApproval vc₁) d₂)
    {file₁ file₂ files₁ files₂ uidOf₁ uidOf₂ channel₁ channel₂ now₁ now₂ unixSecs₁ unixSecs₂}
    (hrun₁ : Run (world P) (d₁.daemon file₁ files₁ uidOf₁ channel₁ now₁ unixSecs₁)
      (workers P d₁.setup.approver d₁.setup.approvalMutex) (tr₁ ++ [st₁]) s₁ ps₁)
    (hreloaded : InForce vc₂ tr₁) (hsnap₁ : st₁.label = .thread c ⟨.snapshot, loaded₁⟩)
    (hrun₂ : Run (world P) (d₂.daemon file₂ files₂ uidOf₂ channel₂ now₂ unixSecs₂)
      (workers P d₂.setup.approver d₂.setup.approvalMutex) (tr₂ ++ [st₂]) s₂ ps₂)
    (hfresh : Unreloaded tr₂) (hsnap₂ : st₂.label = .thread c ⟨.snapshot, loaded₂⟩) :
    d₁.setup = d₂.setup ∧ loaded₁.bundle = loaded₂.bundle ∧ ps₁ c = ps₂ c := by
  obtain ⟨-, hsetup₁⟩ := hstarted₁.parts
  obtain ⟨hbundle₂, hsetup₂⟩ := hstarted₂.parts
  have hsetup : d₁.setup = d₂.setup := Except.ok.inj (hsetup₁.symm.trans hsetup₂)
  obtain ⟨⟨_, hbefore₁⟩, rfl, hprogram₁⟩ := snapshot_decides hrun₁ hsnap₁
  obtain ⟨⟨_, hbefore₂⟩, rfl, hprogram₂⟩ := snapshot_decides hrun₂ hsnap₂
  have hbundle : st₁.pre.current.bundle = st₂.pre.current.bundle := by
    rw [current_of_inForce hbefore₁ hreloaded, current_of_unreloaded hbefore₂ hfresh]
    exact hbundle₂.symm
  refine ⟨hsetup, hbundle, ?_⟩
  rw [hprogram₁, hprogram₂, hbundle, hsetup]

end Restart

def totpToml : String :=
  "agent_uids=[1000]\napprover_uids=[1000]\nallow=[\x7bargv=[\x7brest=true\x7d],cache_ttl_secs=60\x7d]\n" ++
    "approval=\x7bmethod=\"totp\",totp_secret_path=\"/totp\"\x7d\n"

def totpConfig : FileConfig := { newConfig with approval := ⟨.totp, some "/totp"⟩ }

def otpRequest : Request := ⟨["id"], "/", "", some "123456"⟩

def otpLine : String :=
  "\x7b\"kind\":\"command\",\"argv\":[\"id\"],\"cwd\":\"/\",\"reason\":\"\",\"otp\":\"123456\"\x7d"

/-- A platform with the one-time codes of the second config's secret. -/
def totpPlatform : Platform :=
  { Platform.bare with
    json := SerdeJson.ofTables [(.command otpRequest, otpLine)] [] [] []
    parseToml := fun raw => if raw = totpToml then .ok totpConfig else editPlatform.parseToml raw
    sha256 := id
    totpCode := fun _ => "123456" }

def totpSecrets : SecretFiles := fun path =>
  if path = "/totp" then .ok totpPlatform.totpCode else .error "no secret"

/-- A daemon starts on a file. -/
def startOn (toml : String) : Option (Point (sig totpPlatform) Daemon Tid Env (Except String Started)) :=
  replay (world totpPlatform) ⟨[], emptyDaemon toml, fun _ => runDaemon totpPlatform totpSecrets 0⟩
    (List.replicate 2 (.thread 0 (smooth 0 .denied)))

def agentStarted (cfg : ValidConfig totpPlatform.regex) (toml : String) : Started :=
  ⟨bundleFromFileCfg cfg, some (utf8 toml), ⟨.agent registerWait 0, false, fun _ => ""⟩⟩

def totpStarted : Started :=
  ⟨bundleFromFileCfg (E := totpPlatform.regex) ⟨totpConfig, rfl⟩, some (utf8 totpToml),
    ⟨.totp, true, totpPlatform.totpCode⟩⟩

theorem startedOn_old :
    StartedOn totpPlatform totpSecrets 0 ⟨oldConfig, rfl⟩ (agentStarted ⟨oldConfig, rfl⟩ oldToml) := by
  obtain ⟨c, hc⟩ : ∃ c, startOn oldToml = some c := ⟨_, rfl⟩
  refine ⟨_, _, _, _, 0, run_of_replay .start hc, ?_⟩
  obtain rfl := Option.some.inj hc
  exact ⟨rfl, List.mem_cons_self⟩

theorem startedOn_new :
    StartedOn totpPlatform totpSecrets 0 ⟨newConfig, rfl⟩ (agentStarted ⟨newConfig, rfl⟩ newToml) := by
  obtain ⟨c, hc⟩ : ∃ c, startOn newToml = some c := ⟨_, rfl⟩
  refine ⟨_, _, _, _, 0, run_of_replay .start hc, ?_⟩
  obtain rfl := Option.some.inj hc
  exact ⟨rfl, List.mem_cons_self⟩

set_option maxRecDepth 2000 in
theorem startedOn_totp : StartedOn totpPlatform totpSecrets 0 ⟨totpConfig, rfl⟩ totpStarted := by
  obtain ⟨c, hc⟩ : ∃ c, startOn totpToml = some c := ⟨_, rfl⟩
  refine ⟨_, _, _, _, 0, run_of_replay .start hc, ?_⟩
  obtain rfl := Option.some.inj hc
  exact ⟨rfl, List.mem_cons_self⟩

/-- A daemon that has started serves the request with the one-time code. -/
def serving (d : Started) (toml : String) : Daemon :=
  d.daemon (onDisk toml) ⟨.ok, fun _ => true⟩ (fun _ => 1000) (fun _ => arrived otpLine) (100 * nanosPerSec) 0

def workersOf (setup : ApprovalSetup) : Pool (sig totpPlatform) Tid (Except IoError Unit) :=
  workers totpPlatform setup.approver setup.approvalMutex

/-- The daemon of the first config reloads the second one and serves the request. -/
def rereadRun (steps : Nat) : Option (Point (sig totpPlatform) Daemon Tid Env (Except IoError Unit)) :=
  let d := agentStarted ⟨oldConfig, rfl⟩ oldToml
  replay (world totpPlatform) ⟨[], serving d oldToml, workersOf d.setup⟩
    (.env (.editConfig (onDisk totpToml)) :: List.replicate steps (.thread 0 (smooth 70 .denied)))

/-- The daemon of the second config serves the request. -/
def freshRun (d : Started) (toml : String) (steps : Nat) :
    Option (Point (sig totpPlatform) Daemon Tid Env (Except IoError Unit)) :=
  replay (world totpPlatform) ⟨[], serving d toml, workersOf d.setup⟩
    (List.replicate steps (.thread 0 (smooth 70 .denied)))

set_option maxRecDepth 2000 in
theorem rereadRun_steps :
    ∃ c, rereadRun 21 = some c ∧
      Run (world totpPlatform) (serving (agentStarted ⟨oldConfig, rfl⟩ oldToml) oldToml)
        (workersOf (agentStarted ⟨oldConfig, rfl⟩ oldToml).setup) c.trace c.state c.pool ∧
      InForce ⟨totpConfig, rfl⟩ c.trace ∧ c.state.auditLog = [Entry.of 0 1000 otpRequest .approverError] := by
  obtain ⟨c, hc⟩ : ∃ c, rereadRun 21 = some c := ⟨_, rfl⟩
  refine ⟨c, hc, run_of_replay .start hc, ?_⟩
  obtain rfl := Option.some.inj hc
  exact ⟨inForce_of_getElem (u := 0) 6 (by decide +kernel) rfl (by decide +kernel), rfl⟩

set_option maxRecDepth 2000 in
theorem freshRun_steps :
    ∃ c, freshRun totpStarted totpToml 22 = some c ∧
      Run (world totpPlatform) (serving totpStarted totpToml) (workersOf totpStarted.setup) c.trace c.state c.pool ∧
      Unreloaded c.trace ∧ c.state.auditLog = [Entry.of 0 1000 otpRequest (.executed 0)] := by
  obtain ⟨c, hc⟩ : ∃ c, freshRun totpStarted totpToml 22 = some c := ⟨_, rfl⟩
  refine ⟨c, hc, run_of_replay .start hc, ?_⟩
  obtain rfl := Option.some.inj hc
  exact ⟨by decide +kernel, rfl⟩

/-- The daemon that has reloaded the config with one-time codes still waits for an agent, and refuses
the request that the restarted daemon executes. -/
theorem approver_not_reloaded :
    StartedOn totpPlatform totpSecrets 0 ⟨oldConfig, rfl⟩ (agentStarted ⟨oldConfig, rfl⟩ oldToml) ∧
    StartedOn totpPlatform totpSecrets 0 ⟨totpConfig, rfl⟩ totpStarted ∧
    ∃ c₁ c₂ : Point (sig totpPlatform) Daemon Tid Env (Except IoError Unit),
      Run (world totpPlatform) (serving (agentStarted ⟨oldConfig, rfl⟩ oldToml) oldToml)
        (workersOf (agentStarted ⟨oldConfig, rfl⟩ oldToml).setup) c₁.trace c₁.state c₁.pool ∧
      InForce ⟨totpConfig, rfl⟩ c₁.trace ∧
      Run (world totpPlatform) (serving totpStarted totpToml) (workersOf totpStarted.setup)
        c₂.trace c₂.state c₂.pool ∧
      Unreloaded c₂.trace ∧ c₁.state.auditLog = [Entry.of 0 1000 otpRequest .approverError] ∧
      c₂.state.auditLog = [Entry.of 0 1000 otpRequest (.executed 0)] := by
  obtain ⟨c₁, -, hrun₁, hforce, hlog₁⟩ := rereadRun_steps
  obtain ⟨c₂, -, hrun₂, hfresh, hlog₂⟩ := freshRun_steps
  exact ⟨startedOn_old, startedOn_totp, c₁, c₂, hrun₁, hforce, hrun₂, hfresh, hlog₁, hlog₂⟩

set_option maxRecDepth 2000 in
theorem rereadRun_snapshot :
    ∃ c, rereadRun 10 = some c ∧
      Run (world totpPlatform) (serving (agentStarted ⟨oldConfig, rfl⟩ oldToml) oldToml)
        (workersOf (agentStarted ⟨oldConfig, rfl⟩ oldToml).setup) c.trace c.state c.pool ∧
      ∃ tr st loaded, c.trace = tr ++ [st] ∧ InForce ⟨totpConfig, rfl⟩ tr ∧
        st.label = .thread 0 ⟨.snapshot, loaded⟩ := by
  obtain ⟨c, hc⟩ : ∃ c, rereadRun 10 = some c := ⟨_, rfl⟩
  refine ⟨c, hc, run_of_replay .start hc, ?_⟩
  obtain rfl := Option.some.inj hc
  exact ⟨_, _, _, rfl, inForce_of_getElem (u := 0) 6 (by decide +kernel) rfl (by decide +kernel), rfl⟩

theorem freshRun_snapshot :
    ∃ c, freshRun (agentStarted ⟨newConfig, rfl⟩ newToml) newToml 6 = some c ∧
      Run (world totpPlatform) (serving (agentStarted ⟨newConfig, rfl⟩ newToml) newToml)
        (workersOf (agentStarted ⟨newConfig, rfl⟩ newToml).setup) c.trace c.state c.pool ∧
      ∃ tr st loaded, c.trace = tr ++ [st] ∧ Unreloaded tr ∧ st.label = .thread 0 ⟨.snapshot, loaded⟩ := by
  obtain ⟨c, hc⟩ : ∃ c, freshRun (agentStarted ⟨newConfig, rfl⟩ newToml) newToml 6 = some c := ⟨_, rfl⟩
  refine ⟨c, hc, run_of_replay .start hc, ?_⟩
  obtain rfl := Option.some.inj hc
  exact ⟨_, _, _, rfl, by decide +kernel, rfl⟩

/-- The rules of the reloaded config and the agent of the first one are what a restart would serve. -/
theorem rereadRun_decides :
    ∃ c₁ c₂, rereadRun 10 = some c₁ ∧ freshRun (agentStarted ⟨newConfig, rfl⟩ newToml) newToml 6 = some c₂ ∧
      c₁.pool 0 = c₂.pool 0 := by
  obtain ⟨c₁, hc₁, hrun₁, tr₁, st₁, loaded₁, heq₁, hforce, hsnap₁⟩ := rereadRun_snapshot
  obtain ⟨c₂, hc₂, hrun₂, tr₂, st₂, loaded₂, heq₂, hfresh, hsnap₂⟩ := freshRun_snapshot
  rw [heq₁] at hrun₁
  rw [heq₂] at hrun₂
  have hstarted : StartedOn totpPlatform totpSecrets 0
      ((⟨totpConfig, rfl⟩ : ValidConfig totpPlatform.regex).withApproval ⟨oldConfig, rfl⟩)
      (agentStarted ⟨newConfig, rfl⟩ newToml) := startedOn_new
  refine ⟨c₁, c₂, hc₁, hc₂, ?_⟩
  exact (reload_decides_as_restart startedOn_old hstarted hrun₁ hforce hsnap₁ hrun₂ hfresh hsnap₂).2.2

end Sudix
