import Sudix.Startup
import Sudix.Volumes

/-! The broker's program from its arguments on: it prints a starter config, enrolls a TOTP secret, or starts to serve.
Enrollment and start share nothing but files. The programs below do each access to a file on its own, so that any
number of them can be interleaved; what `totp_rs` computes is third-party code. A start is followed up to its accept
loop, with the socket bound. -/

namespace Sudix

open Concurrent

/-- A TOTP generator, SHA-1 with six digits, a skew of one and steps of thirty seconds. -/
structure Totp where
  secret : List UInt8
  issuer : Option String
  accountName : String

/-- What the daemon takes from `totp_rs`, the errors as their debug texts. -/
structure TotpRs where
  toEncoded : List UInt8 → String
  toBytes : String → Except String (List UInt8)
  new : Totp → Except String Unit
  getUrl : Totp → String
  /-- The code of a time step. -/
  generate : Totp → Nat → String

inductive AdminOp where
  | configHash (path : String)
  | pathExists (path : String)
  | generateSecret
  | create (path : String)
  | write (file offset : Nat) (bytes : List UInt8)
  | metadata (path : String)
  | readToString (path : String)
  | systemdListener
  | createDirAll (path : String)
  | removeFile (path : String)
  | bind (path : String)
  | setPermissions (path : String) (mode : UInt32)
  | print (text : String)
  | eprint (text : String)

@[reducible] def AdminAnswer : AdminOp → Type
  | .configHash _ => Except IoError Hash
  | .pathExists _ => Bool
  | .generateSecret => List UInt8
  | .create _ => Except IoError Nat
  | .write _ _ _ => Except IoError Nat
  | .metadata _ => Except IoError Owner
  | .readToString _ => Except IoError String
  | .systemdListener => Bool
  | .createDirAll _ => Except IoError Unit
  | .removeFile _ => Except IoError Unit
  | .bind _ => Except IoError Unit
  | .setPermissions _ _ => Except IoError Unit
  | .print _ => Unit
  | .eprint _ => Unit

@[reducible] def adminSig : Signature := ⟨AdminOp, AdminAnswer⟩

abbrev AdminProg (α : Type) := Program adminSig α

def adminCall (op : AdminOp) : AdminProg (AdminAnswer op) := Program.perform (S := adminSig) op

theorem meets_adminCall_bind {α : Type} {op : AdminOp} {f : AdminAnswer op → AdminProg α}
    {pre : History adminSig → AdminOp → Prop} {post : History adminSig → α → Prop} {past : History adminSig} :
    (adminCall op >>= f).Meets pre post past ↔
      pre past op ∧ ∀ answer : AdminAnswer op, (f answer).Meets pre post (past ++ [⟨op, answer⟩]) := Iff.rfl

section Programs

variable (P : Platform) (R : TotpRs)

/-- How the program leaves `main`; `serving` is where the accept loop begins. -/
inductive Exit where
  | success
  | failure
  | panic (why : String)
  | serving (d : Started)

def trim (s : String) : String := trimEnd (String.ofList (s.toList.dropWhile isWhitespace))

namespace Sudixd

def defaultConfigPath : String := "/etc/sudix/policy.toml"

def defaultConfigToml : String :=
"# sudix policy -- generated by `sudix default-config`
#
# This file must be owned by root and not group- or world-writable.
#   sudo chown root:root /etc/sudix/policy.toml
#   sudo chmod 644 /etc/sudix/policy.toml   # or 640; not 666/664
#
# Each rule's `argv` is an ordered list of token-matchers:
#   \"token\"         bare string: exact match for one token (argv[0] by basename)
#   \x7b re = \"…\" \x7d    one token matched by an anchored regex (you write the inner
#                     pattern; sudix anchors it automatically: \\S+ matches one
#                     whitespace-free token)
#   \x7b rest = true \x7d zero or more trailing tokens; valid only as the last element
#
# allow-all:              argv = [\x7b rest = true \x7d]
# program with any args:  argv = [\"prog\", \x7b rest = true \x7d]
#
# deny is checked first and OVERRIDES allow.
# Arguments containing control characters (newline, tab, etc.) are always refused.

# Replace 1000 with the UID(s) of the agent and the human approver.
agent_uids    = [1000]
approver_uids = [1000]

# Deny rules. Overrides allow rules.
deny = [
  \x7b argv = [\x7b re = \"sh|bash|zsh|fish\" \x7d, \x7b rest = true \x7d] \x7d,
  \x7b argv = [\x7b re = \"dd|mkfs|fdisk|parted\" \x7d, \x7b rest = true \x7d] \x7d,
  \x7b argv = [\x7b re = \"tee|chmod|chown\" \x7d, \x7b rest = true \x7d] \x7d,
  \x7b argv = [\x7b re = \"visudo|su|sudo\" \x7d, \x7b rest = true \x7d] \x7d,
  \x7b argv = [\"env\", \x7b rest = true \x7d] \x7d,
  \x7b argv = [\x7b re = \"vi|vim|nano\" \x7d, \x7b rest = true \x7d] \x7d,
  \x7b argv = [\x7b re = \"python|perl\" \x7d, \x7b rest = true \x7d] \x7d,
]

# Allow rules. Optional per-rule scoping (both default to 0 = off):
#   cache_ttl_secs = 300   # auto-approve identical argv for N seconds after one approval
#   rate_per_min   = 10    # max executions/min; over limit → denied
allow = [
  # \x7b argv = [\"systemctl\", \"status\", \x7b re = \"\\\\S+\" \x7d] \x7d,
  # \x7b argv = [\"systemctl\", \"restart\", \x7b re = \"\\\\S+\" \x7d] \x7d,
  \x7b argv = [\"id\"] \x7d,
]

[approval]
# \"agent\" (per-user sudix-agent in the graphical session) or \"totp\" (headless).
method = \"agent\"
# totp_secret_path = \"/etc/sudix/totp.key\"   # required when method = \"totp\"
"

/-- `FileConfig::load`: the owner and the mode of the file that is found, then the text of the file that is opened. -/
def load (configPath : String) : AdminProg (Except ConfigError (ValidConfig P.regex)) := do
  match ← adminCall (.metadata configPath) with
  | .error e => return .error (.io e)
  | .ok owner =>
      match checkFilePermissions configPath owner with
      | .error e => return .error e
      | .ok () =>
          match ← adminCall (.readToString configPath) with
          | .error e => return .error (.io e)
          | .ok raw => return FileConfig.ofText P.regex P.parseToml raw

def getTotpSecretPath (configPath : String) : AdminProg (Option String) := do
  match ← load P configPath with
  | .error _ => return none
  | .ok cfg => return cfg.config.approval.totpSecretPath

/-- `write_all`. The fuel is at least the number of bytes, and each round writes one. -/
def writeAll (file : Nat) : Nat → Nat → List UInt8 → AdminProg (Except IoError Unit)
  | 0, _, _ => return .ok ()
  | fuel + 1, offset, bytes =>
      if bytes.isEmpty then return .ok ()
      else do
        match ← adminCall (.write file offset bytes) with
        | .error e => return .error e
        | .ok n =>
            if n = 0 then return .error "failed to write whole buffer"
            else writeAll file fuel (offset + n) (bytes.drop n)

/-- The generator whose provisioning URI is shown. -/
def provisioned (secret : List UInt8) : Totp := ⟨secret, some "sudix", "sudixd"⟩

/-- What is printed once a secret is in its file. -/
def enrolledLines (secretPath : String) (secret : List UInt8) : List String :=
  ["Secret written to: " ++ secretPath ++ "\n", "Provisioning URI (scan with your authenticator app):\n",
    R.getUrl (provisioned secret) ++ "\n"]

def printAll : List String → AdminProg Unit
  | [] => return ()
  | line :: lines => do
      adminCall (.print line)
      printAll lines

/-- A complaint and exit code 1. -/
def fail (complaint : String) : AdminProg Exit := do
  adminCall (.eprint complaint)
  return .failure

/-- The secret is generated and put into its file, whatever is in it. -/
def enrollAt (secretPath : String) : AdminProg Exit := do
  let secret ← adminCall .generateSecret
  let text := utf8 (R.toEncoded secret)
  match ← adminCall (.create secretPath) with
  | .error e => fail ("sudixd enroll: cannot create " ++ secretPath ++ ": " ++ e ++ "\n")
  | .ok file =>
      match ← writeAll file text.length 0 text with
      | .error e => fail ("sudixd enroll: write failed: " ++ e ++ "\n")
      | .ok () =>
          match R.new (provisioned secret) with
          | .error e => return .panic e
          | .ok () => do
              printAll (enrolledLines R secretPath secret)
              return .success

def cmdEnroll (force : Bool) (configPath : String) : AdminProg Exit := do
  match ← getTotpSecretPath P configPath with
  | none => fail "sudixd enroll: config must have approval.totp_secret_path set to a file path\n"
  | some secretPath =>
      if force then enrollAt R secretPath
      else do
        if ← adminCall (.pathExists secretPath) then
          fail ("sudixd enroll: " ++ secretPath ++ " already exists; use --force to overwrite\n")
        else enrollAt R secretPath

/-- The checks of a secret file: nobody but its owner has access, and the owner is root. -/
def checkOwner (path : String) (owner : Owner) : Except String Unit :=
  if owner.mode &&& 0o077 ≠ 0 then
    .error (path ++ " has group or world permissions; refusing to use as TOTP secret (chmod 0600 or 0400)")
  else if owner.uid ≠ 0 then .error (path ++ " is not owned by root; refusing to use as TOTP secret")
  else .ok ()

def checkSecretPermissions (path : String) : AdminProg (Except String Unit) := do
  match ← adminCall (.metadata path) with
  | .error e => return .error e
  | .ok owner => return checkOwner path owner

/-- The generator that checks codes. -/
def verifier (secret : List UInt8) : Totp := ⟨secret, none, "sudix"⟩

/-- The generator of the secret that a file's text spells. -/
def totpOfText (raw : String) : Except String Totp :=
  match R.toBytes (trim raw) with
  | .error e => .error ("bad TOTP secret: " ++ e)
  | .ok secret =>
      match R.new (verifier secret) with
      | .error e => .error ("TOTP init error: " ++ e)
      | .ok () => .ok (verifier secret)

def fromSecretFile (path : String) : AdminProg (Except String Totp) := do
  match ← checkSecretPermissions path with
  | .error e => return .error e
  | .ok () =>
      match ← adminCall (.readToString path) with
      | .error e => return .error e
      | .ok raw => return totpOfText R raw

def approverFor (cfg : ApprovalConfig) : AdminProg (Except String (Option Totp)) :=
  match cfg.method with
  | .agent => return .ok none
  | .totp =>
      match cfg.totpSecretPath with
      | none => return .error "TOTP method requires totp_secret_path"
      | some path => do return (← fromSecretFile R path).map some

/-- What the daemon serves with, for the approver it has. -/
def setupOf (rounds : Nat) : Option Totp → ApprovalSetup
  | none => ⟨.agent registerWait rounds, false, fun _ => ""⟩
  | some totp => ⟨.totp, true, R.generate totp⟩

/-- `PathBuf::join` of a relative path. -/
def joinPath (dir name : String) : String :=
  if dir.isEmpty then name else if dir.toList.getLast? = some '/' then dir ++ name else dir ++ "/" ++ name

/-- Where the socket of a runtime directory is. -/
def socketPathIn (runtimeDir : String) : String := joinPath runtimeDir "sudixd.sock"

def passedLine (agentUids : List Uid) : String :=
  "sudixd: using systemd-passed socket (agent uids: " ++ toString agentUids ++ ")\n"

def listeningLine (socketPath : String) (agentUids : List Uid) : String :=
  "sudixd: listening on " ++ socketPath ++ " (agent uids: " ++ toString agentUids ++ ")\n"

/-- A socket that is there is taken for a stale one, like anything else at its path. -/
def bindAndLog (socketPath : String) (agentUids : List Uid) : AdminProg (Except IoError Unit) := do
  let _stale ← adminCall (.removeFile socketPath)
  match ← adminCall (.bind socketPath) with
  | .error e => return .error e
  | .ok () =>
      match ← adminCall (.setPermissions socketPath 0o666) with
      | .error e => return .error e
      | .ok () => do
          adminCall (.eprint (listeningLine socketPath agentUids))
          return .ok ()

/-- The socket is the one that systemd passes, or it is bound in the runtime directory. -/
def listen (runtimeDir : String) (agentUids : List Uid) : AdminProg (Except IoError Unit) := do
  if ← adminCall .systemdListener then
    adminCall (.eprint (passedLine agentUids))
    return .ok ()
  else
    match ← adminCall (.createDirAll runtimeDir) with
    | .error e => return .error e
    | .ok () => bindAndLog (socketPathIn runtimeDir) agentUids

/-- The complaint of `main` about a daemon that does not start. -/
def fatal (e : String) : AdminProg Exit := fail ("sudixd: fatal: " ++ e ++ "\n")

variable (rounds : Nat)

def runDaemon (configPath runtimeDir : String) : AdminProg Exit := do
  match ← load P configPath with
  | .error e => fatal e.display
  | .ok fileCfg =>
      let initialHash ← adminCall (.configHash configPath)
      match ← approverFor R fileCfg.config.approval with
      | .error e => fatal ("approval setup failed: " ++ e)
      | .ok totp =>
          match ← listen runtimeDir (startupBundle fileCfg).agentUids with
          | .error e => fatal e
          | .ok () => return .serving ⟨startupBundle fileCfg, initialHash.toOption, setupOf R rounds totp⟩

/-- The arguments, and `$SUDIX_CONFIG` and `$SUDIX_RUNTIME_DIR` where they are set to strings. -/
structure Invocation where
  rawArgs : List String
  configVar : Option String
  runtimeVar : Option String

def Invocation.configPath (inv : Invocation) : String := inv.configVar.getD defaultConfigPath

def Invocation.runtimeDir (inv : Invocation) : String := inv.runtimeVar.getD "/run/sudix"

/-- Where a start binds its socket. -/
def Invocation.socketPath (inv : Invocation) : String := socketPathIn inv.runtimeDir

/-- An enrollment that may overwrite a secret. -/
def Invocation.forces (inv : Invocation) : Bool :=
  inv.rawArgs.head? == some "enroll" && inv.rawArgs.contains "--force"

def main (inv : Invocation) : AdminProg Exit :=
  match inv.rawArgs.head? with
  | none => runDaemon P R rounds inv.configPath inv.runtimeDir
  | some first =>
      if first = "default-config" then do
        adminCall (.print defaultConfigToml)
        return .success
      else if first = "enroll" then cmdEnroll P R (inv.rawArgs.contains "--force") inv.configPath
      else if first ≠ "--" then do
        adminCall (.eprint ("sudixd: unknown subcommand: " ++ first ++ "\n"))
        fail "usage: sudixd [default-config | enroll [--force]]\n"
      else runDaemon P R rounds inv.configPath inv.runtimeDir

end Sudixd

/-- The processes share the files. What is decided outside the program is which accesses fail, the secret that is
generated, how much of a write is taken and whether systemd passes a socket. Directories are not among the files, and
a socket is a file without contents. -/
structure Host where
  disk : Volumes.Volume Owner
  euid : Tid → Uid
  umask : Tid → UInt32

/-- Files are changed by others, which makes no file of what was open another one. -/
inductive HostEvent where
  | edit (disk : Volumes.Volume Owner)

@[reducible] def AdminChoice : AdminOp → Type
  | .configHash _ => Option IoError
  | .pathExists _ => Option IoError
  | .generateSecret => List UInt8
  | .create _ => Option IoError
  | .write _ _ _ => Except IoError Nat
  | .metadata _ => Option IoError
  | .readToString _ => Option IoError
  | .systemdListener => Bool
  | .createDirAll _ => Option IoError
  | .removeFile _ => Option IoError
  | .bind _ => Option IoError
  | .setPermissions _ _ => Option IoError
  | .print _ => Unit
  | .eprint _ => Unit

/-- The length of a generated secret. -/
def secretLength : Nat := 20

namespace Host

/-- What an access to a path finds. -/
def access (s : Host) (path : String) (failure : Option IoError) : Except IoError (Volumes.File Owner) :=
  match failure with
  | some e => .error e
  | none =>
      match s.disk.look path with
      | none => .error "No such file or directory (os error 2)"
      | some file => .ok file

def act (s : Host) (t : Tid) : (op : AdminOp) → AdminChoice op → Option (AdminAnswer op × Host)
  | .configHash path, failure => some ((s.access path failure).map fun file => P.sha256 file.contents, s)
  | .pathExists path, failure => some ((s.access path failure).toBool, s)
  | .generateSecret, secret => if secret.length = secretLength then some (secret, s) else none
  | .create path, failure =>
      match failure with
      | some e => some (.error e, s)
      | none =>
          let opened := s.disk.create path ⟨0o400 &&& ~~~s.umask t, s.euid t⟩
          some (.ok opened.1, { s with disk := opened.2 })
  | .write file offset bytes, result =>
      match result with
      | .error e => some (.error e, s)
      | .ok n =>
          if n ≤ bytes.length then some (.ok n, { s with disk := s.disk.write file offset (bytes.take n) })
          else none
  | .metadata path, failure => some ((s.access path failure).map Volumes.File.attr, s)
  | .readToString path, failure => some ((s.access path failure).bind fun file => decodeText file.contents, s)
  | .systemdListener, passed => some (passed, s)
  | .createDirAll _, failure => some (failure.elim (.ok ()) .error, s)
  | .removeFile path, failure =>
      match s.access path failure with
      | .error e => some (.error e, s)
      | .ok _ => some (.ok (), { s with disk := s.disk.remove path })
  | .bind path, failure =>
      match failure with
      | some e => some (.error e, s)
      | none =>
          if s.disk.names path = none then
            some (.ok (), { s with disk := (s.disk.create path ⟨0o777 &&& ~~~s.umask t, s.euid t⟩).2 })
          else some (.error "Address already in use (os error 98)", s)
  | .setPermissions path mode, failure =>
      match failure, s.disk.names path with
      | some e, _ => some (.error e, s)
      | none, none => some (.error "No such file or directory (os error 2)", s)
      | none, some i => some (.ok (), { s with disk := s.disk.setAttr i { (s.disk.file i).attr with mode } })
  | .print _, _ => some ((), s)
  | .eprint _, _ => some ((), s)

def env (s : Host) : HostEvent → Option Host
  | .edit disk => if s.disk.fresh ≤ disk.fresh then some { s with disk } else none

end Host

def hostWorld : World adminSig Host Tid HostEvent := ⟨AdminChoice, Host.act P, Host.env⟩

end Programs

end Sudix
