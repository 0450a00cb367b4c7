import Sudix.RequestOps

/-! The start of the daemon and what its reloads do to the hash of its config file. `run_daemon` reads
the file twice, for the config and for the hash, and a reload reads it twice the other way round. -/

namespace Sudix

open Concurrent

section Startup

variable (P : Platform)

/-- The codes of the secret in a file, by its path, or why the file is no TOTP secret. -/
abbrev SecretFiles := String → Except String (Nat → String)

/-- How long a request waits for an agent to register. -/
def registerWait : Nat := 10 * nanosPerSec

/-- `none` is the agent method: its approver shares the registry with the server. -/
def approverFor (secrets : SecretFiles) (cfg : ApprovalConfig) : Except String (Option (Nat → String)) :=
  match cfg.method with
  | .agent => .ok none
  | .totp =>
      match cfg.totpSecretPath with
      | none => .error "TOTP method requires totp_secret_path"
      | some path => (secrets path).map some

/-- The approver all connections share, whether the server gates it, and the codes it accepts. -/
structure ApprovalSetup where
  approver : Approver
  approvalMutex : Bool
  totpCode : Nat → String

/-- A static approver is served behind the server's gate, the agent approver has its own. -/
def approvalSetup (secrets : SecretFiles) (rounds : Nat) (cfg : ApprovalConfig) : Except String ApprovalSetup :=
  match approverFor secrets cfg with
  | .error e => .error e
  | .ok (some totpCode) => .ok ⟨.totp, true, totpCode⟩
  | .ok none => .ok ⟨.agent registerWait rounds, false, fun _ => ""⟩

variable {P} in
/-- The bundle as `run_daemon` builds it. -/
def startupBundle (fileCfg : ValidConfig P.regex) : PolicyBundle where
  policy := (fileCfg.config.buildPolicy P.regex).get (fileCfg.config.buildPolicy_isSome fileCfg.valid)
  ruleScopes := fileCfg.config.ruleScoping.map fun s => ⟨s.1, s.2⟩
  agentUids := fileCfg.config.agentUids

variable {P} in
/-- Both constructions of the bundle take the same fields of the config. -/
theorem startupBundle_eq (fileCfg : ValidConfig P.regex) : startupBundle fileCfg = bundleFromFileCfg fileCfg := rfl

/-- What the daemon serves with. -/
structure Started where
  bundle : PolicyBundle
  initialHash : Option Hash
  setup : ApprovalSetup

/-- `run_daemon` up to the first connection. A hash that cannot be read is left out. -/
def runDaemon (secrets : SecretFiles) (rounds : Nat) : Prog P (Except String Started) := do
  match ← call P .loadConfig with
  | .error e => return .error e.display
  | .ok fileCfg =>
      let initialHash ← call P .configHash
      match approvalSetup secrets rounds fileCfg.config.approval with
      | .error e => return .error ("approval setup failed: " ++ e)
      | .ok setup => return .ok ⟨startupBundle fileCfg, initialHash.toOption, setup⟩

/-- The daemon when it starts to accept connections. -/
def Started.daemon (d : Started) (file : ConfigOnDisk) (files : FileSystem) (uidOf : Conn → Uid)
    (channel : Conn → Channel) (now : Instant) (unixSecs : Nat) : Daemon :=
  Daemon.start file files d.bundle d.initialHash uidOf channel now unixSecs

end Startup

variable {P : Platform} {secrets : SecretFiles} {rounds : Nat}

inductive StartStage : History (sig P) → Op → Prop
  | load : StartStage [] .loadConfig
  | hash {fileCfg} : StartStage [⟨.loadConfig, .ok fileCfg⟩] .configHash

inductive StartDone (secrets : SecretFiles) (rounds : Nat) : History (sig P) → Except String Started → Prop
  | unloadable {e} : StartDone secrets rounds [⟨.loadConfig, .error e⟩] (.error e.display)
  | unapproved {fileCfg hash e} : approvalSetup secrets rounds fileCfg.config.approval = .error e →
      StartDone secrets rounds [⟨.loadConfig, .ok fileCfg⟩, ⟨.configHash, hash⟩]
        (.error ("approval setup failed: " ++ e))
  | started {fileCfg hash setup} : approvalSetup secrets rounds fileCfg.config.approval = .ok setup →
      StartDone secrets rounds [⟨.loadConfig, .ok fileCfg⟩, ⟨.configHash, hash⟩]
        (.ok ⟨bundleFromFileCfg fileCfg, hash.toOption, setup⟩)

theorem runDaemon_meets : (runDaemon P secrets rounds).Meets StartStage (StartDone secrets rounds) [] := by
  refine meets_call_bind.mpr ⟨.load, fun loaded => ?_⟩
  cases loaded with
  | error e => exact .unloadable
  | ok fileCfg =>
      refine meets_call_bind.mpr ⟨.hash, fun hash => ?_⟩
      cases hsetup : approvalSetup secrets rounds fileCfg.config.approval with
      | error e => exact .unapproved hsetup
      | ok setup => exact .started hsetup

def oldToml : String := "agent_uids=[1000]\napprover_uids=[1000]\nallow=[\x7bargv=[\"id\"],cache_ttl_secs=300\x7d]\n"

def newToml : String :=
  "agent_uids=[1000]\napprover_uids=[1000]\nallow=[\x7bargv=[\x7brest=true\x7d],cache_ttl_secs=60\x7d]\n"

def oldConfig : FileConfig := ⟨[], [⟨[.literal "id"], 300, 0⟩], [1000], [1000], ⟨.agent, none⟩⟩

def newConfig : FileConfig := ⟨[], [⟨[.table none (some true)], 60, 0⟩], [1000], [1000], ⟨.agent, none⟩⟩

def onDisk (toml : String) : ConfigOnDisk := .ok ⟨0o600, 0, utf8 toml⟩

/-- A platform that knows both config files. -/
def editPlatform : Platform :=
  { Platform.bare with
    json := SerdeJson.ofTables helloTexts [] [] []
    parseToml := fun raw =>
      if raw = oldToml then .ok oldConfig else if raw = newToml then .ok newConfig else .error "unknown"
    sha256 := id }

theorem oldConfig_valid : oldConfig.validate editPlatform.regex = .ok () := rfl

end Sudix
