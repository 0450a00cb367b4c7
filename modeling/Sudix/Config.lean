import Sudix.Policy
import Sudix.Scoping

/-! The config file: its schema, the checks of `load_with_checks`, and the policy bundle built from it.
TOML parsing and regex compilation are third-party code. A loaded config carries the proof that it
was validated, which is what makes building the policy total. -/

namespace Sudix

inductive ApprovalMethod where
  | agent
  | totp
  deriving DecidableEq

structure ApprovalConfig where
  method : ApprovalMethod
  totpSecretPath : Option String

inductive RawMatcher where
  | literal (s : String)
  | table (re : Option String) (rest : Option Bool)

structure DenyEntry where
  argv : List RawMatcher

structure AllowEntry where
  argv : List RawMatcher
  cacheTtlSecs : Nat
  ratePerMin : Nat

structure FileConfig where
  deny : List DenyEntry
  allow : List AllowEntry
  agentUids : List Uid
  approverUids : List Uid
  approval : ApprovalConfig

inductive ConfigError where
  | io (e : IoError)
  | parse (e : String)
  | invalid (msg : String)
  deriving DecidableEq

def ConfigError.display : ConfigError → String
  | .io e => "I/O error: " ++ e
  | .parse e => "parse error: " ++ e
  | .invalid msg => "invalid config: " ++ msg

variable (E : RegexEngine)

def rawToToken : RawMatcher → Except String TokenMatcher
  | .literal s => .ok (.literal s)
  | .table (some pattern) none => TokenMatcher.compile E pattern
  | .table none (some true) => .ok .rest
  | .table none (some false) => .error "`rest = false` is not meaningful"
  | .table (some _) (some _) => .error "matcher table needs exactly one of `re` or `rest`"
  | .table none none => .error "matcher table needs exactly one of `re` or `rest`"

def buildRule (raw : List RawMatcher) : Except String Rule :=
  match raw.mapM (rawToToken E) with
  | .error e => .error e
  | .ok matchers => Rule.new matchers

/-- One of the two loops of `validate`: every rule of a list builds; the first that does not is
reported with its index. -/
def validateRules (kind : String) : Nat → List (List RawMatcher) → Except ConfigError Unit
  | _, [] => .ok ()
  | i, argv :: rest =>
      match buildRule E argv with
      | .error e => .error (.invalid (kind ++ " rule " ++ toString i ++ ": " ++ e))
      | .ok _ => validateRules kind (i + 1) rest

def FileConfig.validate (cfg : FileConfig) : Except ConfigError Unit :=
  match validateRules E "deny" 0 (cfg.deny.map DenyEntry.argv) with
  | .error e => .error e
  | .ok () =>
      match validateRules E "allow" 0 (cfg.allow.map AllowEntry.argv) with
      | .error e => .error e
      | .ok () =>
          if cfg.agentUids.isEmpty then .error (.invalid "agent_uids must not be empty")
          else if cfg.approverUids.isEmpty then .error (.invalid "approver_uids must not be empty")
          else if cfg.approval.method = .totp ∧ cfg.approval.totpSecretPath.isNone then
            .error (.invalid "method=\"totp\" requires approval.totp_secret_path")
          else .ok ()

/-- A config that passed `validate`. -/
structure ValidConfig where
  config : FileConfig
  valid : config.validate E = .ok ()

/-- `none` is the panic of an `expect("already validated")`. -/
def FileConfig.buildPolicy (cfg : FileConfig) : Option Policy := do
  let deny ← cfg.deny.mapM fun e => (buildRule E e.argv).toOption
  let allow ← cfg.allow.mapM fun e => (buildRule E e.argv).toOption
  return ⟨deny, allow⟩

def FileConfig.ruleScoping (cfg : FileConfig) : List (Nat × Nat) :=
  cfg.allow.map fun e => (e.cacheTtlSecs, e.ratePerMin)

variable {E}

theorem validateRules_ok {kind : String} {i : Nat} {rules : List (List RawMatcher)}
    (h : validateRules E kind i rules = .ok ()) : ∀ argv ∈ rules, ∃ r, buildRule E argv = .ok r := by
  induction rules generalizing i with
  | nil => simp
  | cons argv rest ih =>
      rw [validateRules] at h
      split at h
      · cases h
      · rename_i r hr
        intro argv' hmem
        rcases List.mem_cons.mp hmem with rfl | hmem
        · exact ⟨r, hr⟩
        · exact ih h argv' hmem

theorem FileConfig.validate_rules {cfg : FileConfig} (h : cfg.validate E = .ok ()) :
    (∀ e ∈ cfg.deny, ∃ r, buildRule E e.argv = .ok r) ∧
      ∀ e ∈ cfg.allow, ∃ r, buildRule E e.argv = .ok r := by
  unfold FileConfig.validate at h
  split at h
  · cases h
  · rename_i hdeny
    split at h
    · cases h
    · rename_i hallow
      exact ⟨fun e he => validateRules_ok hdeny _ (List.mem_map_of_mem he),
        fun e he => validateRules_ok hallow _ (List.mem_map_of_mem he)⟩

theorem mapM_toOption_isSome {α : Type} {f : α → Except String Rule} {l : List α}
    (h : ∀ x ∈ l, ∃ r, f x = .ok r) : (l.mapM fun x => (f x).toOption).isSome = true := by
  induction l with
  | nil => rfl
  | cons x l ih =>
      obtain ⟨r, hr⟩ := h x List.mem_cons_self
      obtain ⟨rs, hrs⟩ := Option.isSome_iff_exists.mp (ih fun y hy => h y (List.mem_cons_of_mem x hy))
      rw [List.mapM_cons, hr, hrs]
      rfl

/-- The `expect`s of `build_policy` never panic on a validated config. -/
theorem FileConfig.buildPolicy_isSome {cfg : FileConfig} (h : cfg.validate E = .ok ()) :
    (cfg.buildPolicy E).isSome = true := by
  obtain ⟨hdeny, hallow⟩ := cfg.validate_rules h
  obtain ⟨deny, hd⟩ := Option.isSome_iff_exists.mp (mapM_toOption_isSome hdeny)
  obtain ⟨allow, ha⟩ := Option.isSome_iff_exists.mp (mapM_toOption_isSome hallow)
  simp [FileConfig.buildPolicy, hd, ha]

/-- The parts of the runtime config that a reload can change. -/
structure PolicyBundle where
  policy : Policy
  ruleScopes : List RuleScope
  agentUids : List Uid

def bundleFromFileCfg (vc : ValidConfig E) : PolicyBundle where
  policy := (vc.config.buildPolicy E).get (vc.config.buildPolicy_isSome vc.valid)
  ruleScopes := vc.config.ruleScoping.map fun s => ⟨s.1, s.2⟩
  agentUids := vc.config.agentUids

/-- The part of a file's metadata that permission checks look at. -/
structure Owner where
  mode : UInt32
  uid : Uid
  deriving DecidableEq

/-- A config file on disk, as far as loading looks at it. -/
structure ConfigFile where
  mode : UInt32
  uid : Uid
  contents : List UInt8

def ConfigFile.owner (file : ConfigFile) : Owner := ⟨file.mode, file.uid⟩

/-- The file at the config path, or the error any access to it gives. -/
abbrev ConfigOnDisk := Except IoError ConfigFile

def checkFilePermissions (path : String) (owner : Owner) : Except ConfigError Unit :=
  if owner.mode &&& 0o022 ≠ 0 then
    .error (.invalid (path ++ " is group- or world-writable; refusing to load (fix: chmod o-w,g-w)"))
  else if owner.uid ≠ 0 then
    .error (.invalid (path ++ " is not owned by root (uid " ++ toString owner.uid ++ "); refusing to load"))
  else .ok ()

/-- What a file's bytes are as a text. -/
def decodeText (contents : List UInt8) : Except IoError String :=
  match fromUtf8 contents with
  | none => .error "stream did not contain valid UTF-8"
  | some raw => .ok raw

/-- A config from the text of its file, with `parse` for the TOML decoder of the schema. -/
def FileConfig.ofText (E : RegexEngine) (parse : String → Except String FileConfig) (raw : String) :
    Except ConfigError (ValidConfig E) :=
  match parse raw with
  | .error e => .error (.parse e)
  | .ok cfg =>
      match h : cfg.validate E with
      | .error e => .error e
      | .ok () => .ok ⟨cfg, h⟩

/-- `FileConfig::load_with_checks`, of a file that is the same one at the check and at the read. -/
def loadWithChecks (E : RegexEngine) (parse : String → Except String FileConfig) (path : String)
    (enforcePerms : Bool) : ConfigOnDisk → Except ConfigError (ValidConfig E)
  | .error e => .error (.io e)
  | .ok file =>
      match if enforcePerms then checkFilePermissions path file.owner else .ok () with
      | .error e => .error e
      | .ok () =>
          match decodeText file.contents with
          | .error e => .error (.io e)
          | .ok raw => FileConfig.ofText E parse raw

theorem decodeText_ok {contents : List UInt8} {raw : String} :
    decodeText contents = .ok raw ↔ fromUtf8 contents = some raw := by
  unfold decodeText
  cases fromUtf8 contents with
  | none => simp
  | some text => simp

theorem FileConfig.ofText_config {parse : String → Except String FileConfig} {raw : String} {fc : ValidConfig E}
    (h : FileConfig.ofText E parse raw = .ok fc) : parse raw = .ok fc.config := by
  unfold FileConfig.ofText at h
  split at h
  · cases h
  · rename_i cfg hcfg
    split at h
    · cases h
    · cases h
      exact hcfg

/-- What was loaded is what the file says. -/
theorem loadWithChecks_config {parse : String → Except String FileConfig} {path : String} {enforcePerms : Bool}
    {file : ConfigFile} {fc : ValidConfig E}
    (h : loadWithChecks E parse path enforcePerms (.ok file) = .ok fc) :
    ∃ raw, fromUtf8 file.contents = some raw ∧ parse raw = .ok fc.config := by
  rw [loadWithChecks] at h
  split at h
  · cases h
  · split at h
    · cases h
    · rename_i raw hraw
      exact ⟨raw, decodeText_ok.mp hraw, FileConfig.ofText_config h⟩

end Sudix
