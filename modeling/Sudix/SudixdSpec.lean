import Sudix.Sudixd

/-! What the broker's program can have done at each point, until it serves. -/

namespace Sudix

open Concurrent

variable {P : Platform} {R : TotpRs} {rounds : Nat}

namespace Sudixd

/-- A text is being written to a file: so far up to `offset`, by writes that each took a part of what remained. -/
inductive Written (file : Nat) (text : List UInt8) : History adminSig → Nat → Prop
  | nothing : Written file text [] 0
  | part {own offset n} : Written file text own offset → offset < text.length → n ≠ 0 →
      Written file text (own ++ [⟨.write file offset (text.drop offset), .ok n⟩]) (offset + n)

inductive WriteStage (file : Nat) (text : List UInt8) : History adminSig → AdminOp → Prop
  | write {own offset} : Written file text own offset → offset < text.length →
      WriteStage file text own (.write file offset (text.drop offset))

inductive WriteDone (file : Nat) (text : List UInt8) : History adminSig → Except IoError Unit → Prop
  | whole {own offset} : Written file text own offset → text.length ≤ offset → WriteDone file text own (.ok ())
  | failed {own offset e} : Written file text own offset →
      WriteDone file text (own ++ [⟨.write file offset (text.drop offset), .error e⟩]) (.error e)
  | stuck {own offset} : Written file text own offset →
      WriteDone file text (own ++ [⟨.write file offset (text.drop offset), .ok 0⟩])
        (.error "failed to write whole buffer")

theorem writeAll_meets (file fuel : Nat) {offset : Nat} {text : List UInt8} {own : History adminSig}
    (hwritten : Written file text own offset) (hfuel : (text.drop offset).length ≤ fuel) :
    (writeAll file fuel offset (text.drop offset)).Meets (WriteStage file text) (WriteDone file text) own := by
  induction fuel generalizing offset own with
  | zero =>
      rw [List.length_drop] at hfuel
      exact .whole hwritten (by omega)
  | succ fuel ih =>
      rw [List.length_drop] at hfuel
      by_cases hrest : text.length ≤ offset
      · have hempty : (text.drop offset).isEmpty = true := by
          rw [List.isEmpty_iff]
          exact List.drop_of_length_le hrest
        rw [writeAll, if_pos hempty]
        exact .whole hwritten hrest
      · have hmore : ¬ (text.drop offset).isEmpty = true := by
          rw [List.isEmpty_iff, List.drop_eq_nil_iff]
          exact hrest
        rw [writeAll, if_neg hmore]
        refine meets_adminCall_bind.mpr ⟨.write hwritten (Nat.lt_of_not_le hrest), fun taken => ?_⟩
        cases taken with
        | error e => exact .failed hwritten
        | ok n =>
            dsimp only
            by_cases hn : n = 0
            · subst hn
              exact .stuck hwritten
            · rw [if_neg hn, List.drop_drop]
              refine ih (.part hwritten (Nat.lt_of_not_le hrest) hn) ?_
              rw [List.length_drop]
              omega

/-- A text of which a part remains has been written in parts, if at all. -/
theorem Written.inv {file offset : Nat} {text : List UInt8} {own : History adminSig}
    (h : Written file text own offset) (hmore : offset < text.length) :
    (own = [] ∧ offset = 0) ∨
      ∃ offset' bytes n, ⟨.write file offset' bytes, .ok n⟩ ∈ own ∧ n ≠ bytes.length := by
  cases h with
  | nothing => exact .inl ⟨rfl, rfl⟩
  | @part own offset n hwritten hlt hn =>
      refine .inr ⟨offset, text.drop offset, n, by simp, ?_⟩
      rw [List.length_drop]
      omega

section Load

variable (configPath : String)

inductive LoadStage : History adminSig → AdminOp → Prop
  | metadata : LoadStage [] (.metadata configPath)
  | readToString {owner} : checkFilePermissions configPath owner = .ok () →
      LoadStage [⟨.metadata configPath, .ok owner⟩] (.readToString configPath)

inductive LoadDone : History adminSig → Except ConfigError (ValidConfig P.regex) → Prop
  | unseen {e} : LoadDone [⟨.metadata configPath, .error e⟩] (.error (.io e))
  | loose {owner e} : checkFilePermissions configPath owner = .error e →
      LoadDone [⟨.metadata configPath, .ok owner⟩] (.error e)
  | unread {owner e} : checkFilePermissions configPath owner = .ok () →
      LoadDone [⟨.metadata configPath, .ok owner⟩, ⟨.readToString configPath, .error e⟩] (.error (.io e))
  | read {owner raw} : checkFilePermissions configPath owner = .ok () →
      LoadDone [⟨.metadata configPath, .ok owner⟩, ⟨.readToString configPath, .ok raw⟩]
        (FileConfig.ofText P.regex P.parseToml raw)

variable {configPath}

theorem load_meets : (load P configPath).Meets (LoadStage configPath) (LoadDone configPath) [] := by
  refine meets_adminCall_bind.mpr ⟨.metadata, fun found => ?_⟩
  cases found with
  | error e => exact .unseen
  | ok owner =>
      dsimp only
      cases hcheck : checkFilePermissions configPath owner with
      | error e => exact .loose hcheck
      | ok _ =>
          refine meets_adminCall_bind.mpr ⟨.readToString hcheck, fun read => ?_⟩
          cases read with
          | error e => exact .unread hcheck
          | ok raw => exact .read hcheck

/-- The files are looked at, and nothing else is done. -/
def looks : AdminOp → Bool
  | .configHash _ | .pathExists _ | .metadata _ | .readToString _ => true
  | _ => false

theorem LoadDone.looks {own : History adminSig} {result : Except ConfigError (ValidConfig P.regex)}
    (h : LoadDone configPath own result) : ∀ event ∈ own, Sudixd.looks event.op = true := by
  cases h with
  | unseen | loose _ | unread _ | read _ => simp [Sudixd.looks]

/-- What a load has made of the text it has read, it has made after it has seen the owner and the mode of a file. -/
theorem LoadDone.ok_inv {own : History adminSig} {cfg : ValidConfig P.regex}
    (h : LoadDone configPath own (.ok cfg)) :
    ∃ owner raw, checkFilePermissions configPath owner = .ok () ∧
      FileConfig.ofText P.regex P.parseToml raw = .ok cfg ∧
      own = [⟨.metadata configPath, .ok owner⟩, ⟨.readToString configPath, .ok raw⟩] := by
  generalize hresult : (Except.ok cfg : Except ConfigError (ValidConfig P.regex)) = result at h
  cases h with
  | unseen | loose _ | unread _ => cases hresult
  | @read owner raw hcheck => exact ⟨owner, raw, hcheck, rfl, rfl⟩

end Load

section Enroll

variable (P) (R) (force : Bool) (configPath : String)

/-- The config names a secret file, and it is all right to write it. -/
inductive Cleared (path : String) : History adminSig → Prop
  | forced {own} {cfg : ValidConfig P.regex} : LoadDone configPath own (.ok cfg) → force = true →
      cfg.config.approval.totpSecretPath = some path → Cleared path own
  | absent {own} {cfg : ValidConfig P.regex} : LoadDone configPath own (.ok cfg) → force = false →
      cfg.config.approval.totpSecretPath = some path → Cleared path (own ++ [⟨.pathExists path, false⟩])

/-- Whether an event generates a secret. -/
def generates (event : Event adminSig) : Bool :=
  match event.op with
  | .generateSecret => true
  | _ => false

/-- A secret has been generated and its file is open. -/
inductive Opened (path : String) (secret : List UInt8) (file : Nat) : History adminSig → Prop
  | intro {own} : Cleared P force configPath path own →
      Opened path secret file (own ++ [⟨.generateSecret, secret⟩, ⟨.create path, .ok file⟩])

/-- The secret has been written. -/
inductive Enrolled (path : String) (secret : List UInt8) : History adminSig → Prop
  | intro {own own' file} : Opened P force configPath path secret file own →
      WriteDone file (utf8 (R.toEncoded secret)) own' (.ok ()) → Enrolled path secret (own ++ own')

/-- The complaints an enrollment ends with. -/
inductive Complained : History adminSig → String → Prop
  | unloadable {own} {e : ConfigError} : LoadDone (P := P) configPath own (.error e) →
      Complained own "sudixd enroll: config must have approval.totp_secret_path set to a file path\n"
  | unset {own} {cfg : ValidConfig P.regex} : LoadDone configPath own (.ok cfg) →
      cfg.config.approval.totpSecretPath = none →
      Complained own "sudixd enroll: config must have approval.totp_secret_path set to a file path\n"
  | existing {own path} {cfg : ValidConfig P.regex} : LoadDone configPath own (.ok cfg) → force = false →
      cfg.config.approval.totpSecretPath = some path →
      Complained (own ++ [⟨.pathExists path, true⟩])
        ("sudixd enroll: " ++ path ++ " already exists; use --force to overwrite\n")
  | uncreatable {own path secret e} : Cleared P force configPath path own →
      Complained (own ++ [⟨.generateSecret, secret⟩, ⟨.create path, .error e⟩])
        ("sudixd enroll: cannot create " ++ path ++ ": " ++ e ++ "\n")
  | unwritten {own own' path secret file e} : Opened P force configPath path secret file own →
      WriteDone file (utf8 (R.toEncoded secret)) own' (.error e) →
      Complained (own ++ own') ("sudixd enroll: write failed: " ++ e ++ "\n")

def printed (lines : List String) : History adminSig := lines.map fun line => ⟨.print line, ()⟩

@[simp] theorem printed_nil : (printed [] : History adminSig) = [] := rfl

inductive EnrollStage : History adminSig → AdminOp → Prop
  | load {own op} : LoadStage configPath own op → EnrollStage own op
  | pathExists {own path} {cfg : ValidConfig P.regex} : LoadDone configPath own (.ok cfg) → force = false →
      cfg.config.approval.totpSecretPath = some path → EnrollStage own (.pathExists path)
  | generateSecret {path own} : Cleared P force configPath path own → EnrollStage own .generateSecret
  | create {path own secret} : Cleared P force configPath path own →
      EnrollStage (own ++ [⟨.generateSecret, secret⟩]) (.create path)
  | write {path own own' secret file op} : Opened P force configPath path secret file own →
      WriteStage file (utf8 (R.toEncoded secret)) own' op → EnrollStage (own ++ own') op
  | print {path own secret before line after} : Enrolled P R force configPath path secret own →
      enrolledLines R path secret = before ++ line :: after → EnrollStage (own ++ printed before) (.print line)
  | eprint {own complaint} : Complained P R force configPath own complaint → EnrollStage own (.eprint complaint)

inductive EnrollDone : History adminSig → Exit → Prop
  | success {path own secret} : Enrolled P R force configPath path secret own →
      EnrollDone (own ++ printed (enrolledLines R path secret)) .success
  | panic {path own secret e} : Enrolled P R force configPath path secret own →
      R.new (provisioned secret) = .error e → EnrollDone own (.panic e)
  | failure {own complaint} : Complained P R force configPath own complaint →
      EnrollDone (own ++ [⟨.eprint complaint, ()⟩]) .failure

variable {P R force configPath}

theorem Cleared.looks {path : String} {own : History adminSig} (h : Cleared P force configPath path own) :
    ∀ event ∈ own, looks event.op = true := by
  cases h with
  | forced hload _ _ => exact hload.looks
  | absent hload _ _ =>
      intro event hevent
      rcases List.mem_append.mp hevent with hloaded | hchecked
      · exact hload.looks event hloaded
      · rw [List.mem_singleton.mp hchecked]
        rfl

theorem Cleared.generates {path : String} {own : History adminSig} (h : Cleared P force configPath path own) :
    own.countP generates = 0 := by
  refine List.countP_eq_zero.mpr fun event hevent hgenerates => ?_
  have hlooks := h.looks event hevent
  obtain ⟨op, answer⟩ := event
  cases op with
  | generateSecret => cases hlooks
  | _ => cases hgenerates

/-- A secret that may be overwritten unasked was not there. -/
theorem Cleared.unforced {path : String} {own : History adminSig} (h : Cleared P force configPath path own)
    (hforce : force = false) : ⟨.pathExists path, false⟩ ∈ own := by
  cases h with
  | forced _ htrue _ =>
      rw [hforce] at htrue
      cases htrue
  | absent _ _ _ => simp

theorem Opened.mem {path : String} {secret : List UInt8} {file : Nat} {own : History adminSig}
    (h : Opened P force configPath path secret file own) :
    ⟨.generateSecret, secret⟩ ∈ own ∧ ⟨.create path, .ok file⟩ ∈ own := by
  cases h with
  | intro hcleared => simp

theorem EnrollStage.write_inv {own : History adminSig} {file offset : Nat} {bytes : List UInt8}
    (h : EnrollStage P R force configPath own (.write file offset bytes)) :
    ∃ path secret, ⟨.generateSecret, secret⟩ ∈ own ∧ ⟨.create path, .ok file⟩ ∈ own ∧
      ((offset = 0 ∧ bytes = utf8 (R.toEncoded secret)) ∨
        ∃ offset' bytes' n, ⟨.write file offset' bytes', .ok n⟩ ∈ own ∧ n ≠ bytes'.length) := by
  cases h with
  | load hload => cases hload
  | @write path own own' secret file' _ hopened hwrite =>
      cases hwrite with
      | write hwritten hmore =>
          refine ⟨path, secret, List.mem_append_left _ hopened.mem.1, List.mem_append_left _ hopened.mem.2, ?_⟩
          rcases hwritten.inv hmore with ⟨-, rfl⟩ | ⟨offset', bytes', n, hmem, hn⟩
          · exact .inl ⟨rfl, List.drop_zero⟩
          · exact .inr ⟨offset', bytes', n, List.mem_append_right _ hmem, hn⟩

theorem printAll_meets {path : String} {secret : List UInt8} {own : History adminSig} {before lines : List String}
    (h : Enrolled P R force configPath path secret own) (hlines : enrolledLines R path secret = before ++ lines) :
    (printAll lines).Meets (EnrollStage P R force configPath)
      (fun past _ => past = own ++ printed (enrolledLines R path secret)) (own ++ printed before) := by
  induction lines generalizing before with
  | nil =>
      rw [List.append_nil] at hlines
      rw [hlines]
      exact rfl
  | cons line lines ih =>
      refine meets_adminCall_bind.mpr ⟨.print h hlines, fun _ => ?_⟩
      have hprinted : own ++ printed before ++ [⟨.print line, ()⟩] =
          own ++ (printed (before ++ [line]) : History adminSig) := by
        rw [printed, printed, List.map_append, List.append_assoc, List.map_singleton]
      rw [hprinted]
      exact ih (by rw [hlines, List.append_assoc, List.singleton_append])

theorem fail_meets {own : History adminSig} {complaint : String}
    (h : Complained P R force configPath own complaint) :
    (fail complaint).Meets (EnrollStage P R force configPath) (EnrollDone P R force configPath) own :=
  meets_adminCall_bind.mpr ⟨.eprint h, fun _ => .failure h⟩

theorem enrollAt_meets {path : String} {own : History adminSig} (h : Cleared P force configPath path own) :
    (enrollAt R path).Meets (EnrollStage P R force configPath) (EnrollDone P R force configPath) own := by
  refine meets_adminCall_bind.mpr ⟨.generateSecret h, fun secret => ?_⟩
  refine meets_adminCall_bind.mpr ⟨.create h, fun created => ?_⟩
  rw [List.append_assoc]
  cases created with
  | error e => exact fail_meets (.uncreatable h)
  | ok file =>
      have hopened : Opened P force configPath path secret file
          (own ++ [⟨.generateSecret, secret⟩, ⟨.create path, .ok file⟩]) := .intro h
      have hnothing : Written file (utf8 (R.toEncoded secret)) [] 0 := .nothing
      have hwrite := writeAll_meets file (utf8 (R.toEncoded secret)).length hnothing (Nat.le_refl _)
      rw [List.drop_zero] at hwrite
      refine hwrite.bind (fun own' op => .write hopened) fun own' result hdone => ?_
      cases result with
      | error e => exact fail_meets (.unwritten hopened hdone)
      | ok _ =>
          have henrolled : Enrolled P R force configPath path secret _ := .intro hopened hdone
          dsimp only
          cases hnew : R.new (provisioned secret) with
          | error e => exact .panic henrolled hnew
          | ok _ =>
              have hprint := printAll_meets henrolled (List.nil_append _).symm
              rw [printed_nil, List.append_nil] at hprint
              refine Program.meets_bind.mpr (hprint.mono (fun _ _ => id) ?_)
              rintro past _ rfl
              exact .success henrolled

theorem cmdEnroll_meets :
    (cmdEnroll P R force configPath).Meets (EnrollStage P R force configPath) (EnrollDone P R force configPath)
      [] := by
  unfold cmdEnroll getTotpSecretPath
  rw [Program.bind_assoc]
  refine load_meets.bind (fun _ _ => .load) fun own loaded hload => ?_
  cases loaded with
  | error e => exact fail_meets (.unloadable hload)
  | ok cfg =>
      simp only [Program.pure_eq, Program.ret_bind]
      cases hpath : cfg.config.approval.totpSecretPath with
      | none => exact fail_meets (.unset hload hpath)
      | some path =>
          dsimp only
          by_cases hforce : force = true
          · rw [if_pos hforce]
            exact enrollAt_meets (.forced hload hforce hpath)
          · rw [if_neg hforce]
            have hunforced : force = false := Bool.eq_false_iff.mpr hforce
            refine meets_adminCall_bind.mpr ⟨.pathExists hload hunforced hpath, fun present => ?_⟩
            cases present with
            | true => exact fail_meets (.existing hload hunforced hpath)
            | false => exact enrollAt_meets (.absent hload hunforced hpath)

end Enroll

section Listen

variable (runtimeDir : String) (agentUids : List Uid)

/-- The runtime directory is there, and what was at the socket's path has been removed, if it could be. -/
def cleaned (removed : Except IoError Unit) : History adminSig :=
  [⟨.systemdListener, false⟩, ⟨.createDirAll runtimeDir, .ok ()⟩, ⟨.removeFile (socketPathIn runtimeDir), removed⟩]

inductive ListenStage : History adminSig → AdminOp → Prop
  | systemdListener : ListenStage [] .systemdListener
  | passed : ListenStage [⟨.systemdListener, true⟩] (.eprint (passedLine agentUids))
  | createDirAll : ListenStage [⟨.systemdListener, false⟩] (.createDirAll runtimeDir)
  | removeFile : ListenStage [⟨.systemdListener, false⟩, ⟨.createDirAll runtimeDir, .ok ()⟩]
      (.removeFile (socketPathIn runtimeDir))
  | bind {removed} : ListenStage (cleaned runtimeDir removed) (.bind (socketPathIn runtimeDir))
  | setPermissions {removed} : ListenStage (cleaned runtimeDir removed ++ [⟨.bind (socketPathIn runtimeDir), .ok ()⟩])
      (.setPermissions (socketPathIn runtimeDir) 0o666)
  | listening {removed} : ListenStage
      (cleaned runtimeDir removed ++
        [⟨.bind (socketPathIn runtimeDir), .ok ()⟩, ⟨.setPermissions (socketPathIn runtimeDir) 0o666, .ok ()⟩])
      (.eprint (listeningLine (socketPathIn runtimeDir) agentUids))

inductive ListenDone : History adminSig → Except IoError Unit → Prop
  | passed : ListenDone [⟨.systemdListener, true⟩, ⟨.eprint (passedLine agentUids), ()⟩] (.ok ())
  | homeless {e} : ListenDone [⟨.systemdListener, false⟩, ⟨.createDirAll runtimeDir, .error e⟩] (.error e)
  | unbound {removed e} :
      ListenDone (cleaned runtimeDir removed ++ [⟨.bind (socketPathIn runtimeDir), .error e⟩]) (.error e)
  | unrestricted {removed e} : ListenDone
      (cleaned runtimeDir removed ++
        [⟨.bind (socketPathIn runtimeDir), .ok ()⟩, ⟨.setPermissions (socketPathIn runtimeDir) 0o666, .error e⟩])
      (.error e)
  | bound {removed} : ListenDone
      (cleaned runtimeDir removed ++
        [⟨.bind (socketPathIn runtimeDir), .ok ()⟩, ⟨.setPermissions (socketPathIn runtimeDir) 0o666, .ok ()⟩,
          ⟨.eprint (listeningLine (socketPathIn runtimeDir) agentUids), ()⟩])
      (.ok ())

variable {runtimeDir agentUids}

theorem listen_meets :
    (listen runtimeDir agentUids).Meets (ListenStage runtimeDir agentUids) (ListenDone runtimeDir agentUids) [] := by
  refine meets_adminCall_bind.mpr ⟨.systemdListener, fun passed => ?_⟩
  cases passed with
  | true => exact meets_adminCall_bind.mpr ⟨.passed, fun _ => .passed⟩
  | false =>
      refine meets_adminCall_bind.mpr ⟨.createDirAll, fun created => ?_⟩
      cases created with
      | error e => exact .homeless
      | ok _ =>
          refine meets_adminCall_bind.mpr ⟨.removeFile, fun removed => ?_⟩
          refine meets_adminCall_bind.mpr ⟨.bind, fun bound => ?_⟩
          cases bound with
          | error e => exact .unbound
          | ok _ =>
              refine meets_adminCall_bind.mpr ⟨.setPermissions, fun restricted => ?_⟩
              cases restricted with
              | error e => exact .unrestricted
              | ok _ => exact meets_adminCall_bind.mpr ⟨.listening, fun _ => .bound⟩

theorem ListenStage.removeFile_inv {own : History adminSig} {path : String}
    (h : ListenStage runtimeDir agentUids own (.removeFile path)) : path = socketPathIn runtimeDir := by
  cases h with
  | removeFile => rfl

/-- A socket is opened to everybody once it is bound. -/
theorem ListenStage.setPermissions_inv {own : History adminSig} {path : String} {mode : UInt32}
    (h : ListenStage runtimeDir agentUids own (.setPermissions path mode)) : ⟨.bind path, .ok ()⟩ ∈ own := by
  cases h with
  | setPermissions => simp

end Listen

section Start

variable (R) (rounds) (configPath runtimeDir : String)

/-- The config has been loaded, and then its hash has been read. -/
inductive Hashed (cfg : ValidConfig P.regex) (hash : Except IoError Hash) : History adminSig → Prop
  | intro {own} : LoadDone configPath own (.ok cfg) → Hashed cfg hash (own ++ [⟨.configHash configPath, hash⟩])

/-- The config asks for the secret file at this path. -/
structure Asks (cfg : ValidConfig P.regex) (path : String) : Prop where
  totp : cfg.config.approval.method = .totp
  path_eq : cfg.config.approval.totpSecretPath = some path

/-- The approver that the config asks for is there. -/
inductive Approved (cfg : ValidConfig P.regex) (hash : Except IoError Hash) : Option Totp → History adminSig → Prop
  | agent {own} : Hashed configPath cfg hash own → cfg.config.approval.method = .agent → Approved cfg hash none own
  | totp {own path owner raw totp} : Hashed configPath cfg hash own → Asks cfg path →
      checkOwner path owner = .ok () → totpOfText R raw = .ok totp →
      Approved cfg hash (some totp) (own ++ [⟨.metadata path, .ok owner⟩, ⟨.readToString path, .ok raw⟩])

variable (P)

/-- Why the daemon does not start. -/
inductive Refused : History adminSig → String → Prop
  | unloadable {own} {e : ConfigError} : LoadDone (P := P) configPath own (.error e) → Refused own e.display
  | unset {own hash} {cfg : ValidConfig P.regex} : Hashed configPath cfg hash own →
      cfg.config.approval.method = .totp → cfg.config.approval.totpSecretPath = none →
      Refused own ("approval setup failed: " ++ "TOTP method requires totp_secret_path")
  | unseen {own hash path e} {cfg : ValidConfig P.regex} : Hashed configPath cfg hash own → Asks cfg path →
      Refused (own ++ [⟨.metadata path, .error e⟩]) ("approval setup failed: " ++ e)
  | loose {own hash path owner e} {cfg : ValidConfig P.regex} : Hashed configPath cfg hash own → Asks cfg path →
      checkOwner path owner = .error e →
      Refused (own ++ [⟨.metadata path, .ok owner⟩]) ("approval setup failed: " ++ e)
  | unread {own hash path owner e} {cfg : ValidConfig P.regex} : Hashed configPath cfg hash own → Asks cfg path →
      checkOwner path owner = .ok () →
      Refused (own ++ [⟨.metadata path, .ok owner⟩, ⟨.readToString path, .error e⟩]) ("approval setup failed: " ++ e)
  | unusable {own hash path owner raw e} {cfg : ValidConfig P.regex} : Hashed configPath cfg hash own →
      Asks cfg path → checkOwner path owner = .ok () → totpOfText R raw = .error e →
      Refused (own ++ [⟨.metadata path, .ok owner⟩, ⟨.readToString path, .ok raw⟩]) ("approval setup failed: " ++ e)
  | unbound {own own' hash totp e} {cfg : ValidConfig P.regex} : Approved R configPath cfg hash totp own →
      ListenDone runtimeDir (startupBundle cfg).agentUids own' (.error e) → Refused (own ++ own') e

inductive DaemonStage : History adminSig → AdminOp → Prop
  | load {own op} : LoadStage configPath own op → DaemonStage own op
  | configHash {own} {cfg : ValidConfig P.regex} : LoadDone configPath own (.ok cfg) →
      DaemonStage own (.configHash configPath)
  | metadata {own hash path} {cfg : ValidConfig P.regex} : Hashed configPath cfg hash own → Asks cfg path →
      DaemonStage own (.metadata path)
  | readToString {own hash path owner} {cfg : ValidConfig P.regex} : Hashed configPath cfg hash own → Asks cfg path →
      checkOwner path owner = .ok () → DaemonStage (own ++ [⟨.metadata path, .ok owner⟩]) (.readToString path)
  | listen {own own' hash totp op} {cfg : ValidConfig P.regex} : Approved R configPath cfg hash totp own →
      ListenStage runtimeDir (startupBundle cfg).agentUids own' op → DaemonStage (own ++ own') op
  | eprint {own why} : Refused P R configPath runtimeDir own why →
      DaemonStage own (.eprint ("sudixd: fatal: " ++ why ++ "\n"))

inductive DaemonDone : History adminSig → Exit → Prop
  | serving {own own' hash totp} {cfg : ValidConfig P.regex} : Approved R configPath cfg hash totp own →
      ListenDone runtimeDir (startupBundle cfg).agentUids own' (.ok ()) →
      DaemonDone (own ++ own') (.serving ⟨startupBundle cfg, hash.toOption, setupOf R rounds totp⟩)
  | failure {own why} : Refused P R configPath runtimeDir own why →
      DaemonDone (own ++ [⟨.eprint ("sudixd: fatal: " ++ why ++ "\n"), ()⟩]) .failure

variable {P R configPath runtimeDir}

/-- The policy that a start goes by is what it has made of a text it has read. -/
theorem Hashed.policy {cfg : ValidConfig P.regex} {hash : Except IoError Hash} {own : History adminSig}
    (h : Hashed configPath cfg hash own) :
    ∃ raw, ⟨.readToString configPath, .ok raw⟩ ∈ own ∧ FileConfig.ofText P.regex P.parseToml raw = .ok cfg := by
  cases h with
  | intro hload =>
      obtain ⟨owner, raw, -, hraw, rfl⟩ := hload.ok_inv
      exact ⟨raw, by simp, hraw⟩

theorem fatal_meets {own : History adminSig} {why : String} (h : Refused P R configPath runtimeDir own why) :
    (fatal why).Meets (DaemonStage P R configPath runtimeDir) (DaemonDone P R rounds configPath runtimeDir) own :=
  meets_adminCall_bind.mpr ⟨.eprint h, fun _ => .failure h⟩

variable {rounds}

/-- Once its approver is there, a start needs its socket. -/
theorem listen_then_serve_meets {cfg : ValidConfig P.regex} {hash : Except IoError Hash} {totp : Option Totp}
    {own : History adminSig} (h : Approved R configPath cfg hash totp own) :
    (listen runtimeDir (startupBundle cfg).agentUids >>= fun listening =>
      match listening with
      | .error e => fatal e
      | .ok () => return .serving ⟨startupBundle cfg, hash.toOption, setupOf R rounds totp⟩).Meets
      (DaemonStage P R configPath runtimeDir) (DaemonDone P R rounds configPath runtimeDir) own := by
  refine listen_meets.bind (fun _ _ => .listen h) fun own' result hlisten => ?_
  cases result with
  | error e => exact fatal_meets rounds (.unbound h hlisten)
  | ok _ => exact .serving h hlisten

theorem runDaemon_meets :
    (runDaemon P R rounds configPath runtimeDir).Meets (DaemonStage P R configPath runtimeDir)
      (DaemonDone P R rounds configPath runtimeDir) [] := by
  refine load_meets.bind (fun _ _ => .load) fun own loaded hload => ?_
  cases loaded with
  | error e => exact fatal_meets rounds (.unloadable hload)
  | ok cfg =>
      refine meets_adminCall_bind.mpr ⟨.configHash hload, fun hash => ?_⟩
      have hhashed : Hashed configPath cfg hash (own ++ [⟨.configHash configPath, hash⟩]) := .intro hload
      unfold approverFor
      cases hmethod : cfg.config.approval.method with
      | agent => exact listen_then_serve_meets (.agent hhashed hmethod)
      | totp =>
          cases hpath : cfg.config.approval.totpSecretPath with
          | none => exact fatal_meets rounds (.unset hhashed hmethod hpath)
          | some path =>
              have hasks : Asks cfg path := ⟨hmethod, hpath⟩
              refine meets_adminCall_bind.mpr ⟨.metadata hhashed hasks, fun seen => ?_⟩
              cases seen with
              | error e => exact fatal_meets rounds (.unseen hhashed hasks)
              | ok owner =>
                  simp only [Program.bind, Program.pure_eq]
                  cases howner : checkOwner path owner with
                  | error e => exact fatal_meets rounds (.loose hhashed hasks howner)
                  | ok _ =>
                      refine meets_adminCall_bind.mpr ⟨.readToString hhashed hasks howner, fun read => ?_⟩
                      rw [List.append_assoc]
                      cases read with
                      | error e => exact fatal_meets rounds (.unread hhashed hasks howner)
                      | ok raw =>
                          simp only [Program.bind]
                          cases htotp : totpOfText R raw with
                          | error e => exact fatal_meets rounds (.unusable hhashed hasks howner htotp)
                          | ok totp => exact listen_then_serve_meets (.totp hhashed hasks howner htotp)

end Start

section Main

variable (P) (R) (rounds) (inv : Invocation)

/-- The invocation starts the daemon. -/
def Invocation.Starts (inv : Invocation) : Prop := inv.rawArgs.head? = none ∨ inv.rawArgs.head? = some "--"

inductive MainStage : History adminSig → AdminOp → Prop
  | starter : inv.rawArgs.head? = some "default-config" → MainStage [] (.print defaultConfigToml)
  | enroll {own op} : inv.rawArgs.head? = some "enroll" →
      EnrollStage P R (inv.rawArgs.contains "--force") inv.configPath own op → MainStage own op
  | unknown {first} : inv.rawArgs.head? = some first →
      MainStage [] (.eprint ("sudixd: unknown subcommand: " ++ first ++ "\n"))
  | usage {first} : inv.rawArgs.head? = some first →
      MainStage [⟨.eprint ("sudixd: unknown subcommand: " ++ first ++ "\n"), ()⟩]
        (.eprint "usage: sudixd [default-config | enroll [--force]]\n")
  | daemon {own op} : inv.Starts → DaemonStage P R inv.configPath inv.runtimeDir own op → MainStage own op

inductive MainDone : History adminSig → Exit → Prop
  | starter : inv.rawArgs.head? = some "default-config" →
      MainDone [⟨.print defaultConfigToml, ()⟩] .success
  | enroll {own exit} : inv.rawArgs.head? = some "enroll" →
      EnrollDone P R (inv.rawArgs.contains "--force") inv.configPath own exit → MainDone own exit
  | usage {first} : inv.rawArgs.head? = some first →
      MainDone [⟨.eprint ("sudixd: unknown subcommand: " ++ first ++ "\n"), ()⟩,
        ⟨.eprint "usage: sudixd [default-config | enroll [--force]]\n", ()⟩] .failure
  | daemon {own exit} : inv.Starts → DaemonDone P R rounds inv.configPath inv.runtimeDir own exit → MainDone own exit

variable {P R inv} in
/-- Only an enrollment writes, the text of its secret to the file it has opened. -/
theorem MainStage.write_inv {own : History adminSig} {file offset : Nat} {bytes : List UInt8}
    (h : MainStage P R inv own (.write file offset bytes)) :
    ∃ path secret, ⟨.generateSecret, secret⟩ ∈ own ∧ ⟨.create path, .ok file⟩ ∈ own ∧
      ((offset = 0 ∧ bytes = utf8 (R.toEncoded secret)) ∨
        ∃ offset' bytes' n, ⟨.write file offset' bytes', .ok n⟩ ∈ own ∧ n ≠ bytes'.length) := by
  cases h with
  | enroll _ hstage => exact hstage.write_inv
  | daemon _ hstage =>
      cases hstage with
      | load hload => cases hload
      | listen _ hlisten => cases hlisten

variable {P R inv} in
theorem MainStage.generateSecret_inv {own : History adminSig} (h : MainStage P R inv own .generateSecret) :
    inv.rawArgs.head? = some "enroll" ∧
      ∃ path, Cleared P (inv.rawArgs.contains "--force") inv.configPath path own := by
  cases h with
  | enroll hfirst hstage =>
      cases hstage with
      | load hload => cases hload
      | generateSecret hcleared => exact ⟨hfirst, _, hcleared⟩
      | write _ hwrite => cases hwrite
  | daemon _ hstage =>
      cases hstage with
      | load hload => cases hload
      | listen _ hlisten => cases hlisten

variable {P R inv} in
theorem MainStage.create_inv {own : History adminSig} {path : String} (h : MainStage P R inv own (.create path))
    (hforce : inv.forces = false) : ⟨.pathExists path, false⟩ ∈ own := by
  cases h with
  | enroll hfirst hstage =>
      have hunforced : inv.rawArgs.contains "--force" = false := by
        rw [Invocation.forces, hfirst] at hforce
        exact hforce
      cases hstage with
      | load hload => cases hload
      | create hcleared => exact List.mem_append_left _ (hcleared.unforced hunforced)
      | write _ hwrite => cases hwrite
  | daemon _ hstage =>
      cases hstage with
      | load hload => cases hload
      | listen _ hlisten => cases hlisten

variable {P R inv} in
/-- What an enrollment prints is about the secret it has generated. -/
theorem MainStage.print_inv {own : History adminSig} {text : String} (h : MainStage P R inv own (.print text))
    (hfirst : inv.rawArgs.head? = some "enroll") :
    ∃ path secret, ⟨.generateSecret, secret⟩ ∈ own ∧ text ∈ enrolledLines R path secret := by
  cases h with
  | starter hstarter =>
      rw [hfirst] at hstarter
      exact absurd hstarter (by decide)
  | enroll _ hstage =>
      cases hstage with
      | load hload => cases hload
      | write _ hwrite => cases hwrite
      | @print path own secret before _ after henrolled hlines =>
          cases henrolled with
          | intro hopened _ =>
              refine ⟨path, secret, ?_, ?_⟩
              · simp [hopened.mem.1]
              · simp [hlines]
  | daemon _ hstage =>
      cases hstage with
      | load hload => cases hload
      | listen _ hlisten => cases hlisten

variable {P R inv} in
/-- Only a start removes files, at the path of its socket. -/
theorem MainStage.removeFile_inv {own : History adminSig} {path : String}
    (h : MainStage P R inv own (.removeFile path)) : inv.Starts ∧ path = inv.socketPath := by
  cases h with
  | enroll _ hstage =>
      cases hstage with
      | load hload => cases hload
      | write _ hwrite => cases hwrite
  | daemon hstarts hstage =>
      cases hstage with
      | load hload => cases hload
      | listen _ hlisten => exact ⟨hstarts, hlisten.removeFile_inv⟩

variable {P R inv} in
theorem MainStage.setPermissions_inv {own : History adminSig} {path : String} {mode : UInt32}
    (h : MainStage P R inv own (.setPermissions path mode)) : ⟨.bind path, .ok ()⟩ ∈ own := by
  cases h with
  | enroll _ hstage =>
      cases hstage with
      | load hload => cases hload
      | write _ hwrite => cases hwrite
  | daemon _ hstage =>
      cases hstage with
      | load hload => cases hload
      | listen _ hlisten => exact List.mem_append_right _ hlisten.setPermissions_inv

variable {P R rounds inv} in
/-- A daemon that serves with one-time codes has read the text of their secret. -/
theorem MainDone.serving_inv {own : History adminSig} {d : Started}
    (h : MainDone P R rounds inv own (.serving d)) (htotp : d.setup.approver = .totp) :
    ∃ cfg hash path owner raw totp before after,
      own = before ++ ⟨.metadata path, .ok owner⟩ :: ⟨.readToString path, .ok raw⟩ :: after ∧
      Hashed (P := P) inv.configPath cfg hash before ∧ Asks cfg path ∧ checkOwner path owner = .ok () ∧
      totpOfText R raw = .ok totp ∧ d = ⟨startupBundle cfg, hash.toOption, setupOf R rounds (some totp)⟩ := by
  cases h with
  | enroll _ hdone => cases hdone
  | daemon _ hdone =>
      cases hdone with
      | @serving own own' hash _ cfg happroved _ =>
          cases happroved with
          | agent _ _ => cases htotp
          | @totp before path owner raw totp hhashed hasks howner hread =>
              exact ⟨cfg, hash, path, owner, raw, totp, before, own', List.append_assoc _ _ _, hhashed, hasks, howner,
                hread, rfl⟩

variable {P R rounds inv} in
/-- Over its secret files, as they have been read, the daemon is started as the model without files starts it. -/
theorem MainDone.started {own : History adminSig} {d : Started} (h : MainDone P R rounds inv own (.serving d)) :
    ∃ (cfg : ValidConfig P.regex) (hash : Except IoError Hash) (secrets : SecretFiles)
      (before after : History adminSig),
      own = before ++ after ∧ Hashed inv.configPath cfg hash before ∧
      (∀ path, Asks cfg path →
        ∃ raw, ⟨.readToString path, .ok raw⟩ ∈ after ∧ secrets path = (totpOfText R raw).map R.generate) ∧
      StartDone (P := P) secrets rounds [⟨.loadConfig, .ok cfg⟩, ⟨.configHash, hash⟩] (.ok d) := by
  cases h with
  | enroll _ hdone => cases hdone
  | daemon _ hdone =>
      cases hdone with
      | @serving own own' hash _ cfg happroved _ =>
          cases happroved with
          | agent hhashed hagent =>
              refine ⟨cfg, hash, fun _ => .error "", own, own', rfl, hhashed, fun path hasks => ?_, .started ?_⟩
              · rw [hasks.totp] at hagent
                cases hagent
              · simp [approvalSetup, Sudix.approverFor, hagent, setupOf]
          | @totp before path owner raw totp hhashed hasks howner hread =>
              refine ⟨cfg, hash, fun _ => .ok (R.generate totp), before, _, List.append_assoc _ _ _, hhashed,
                fun path' hasks' => ?_, .started ?_⟩
              · obtain rfl : path = path' := Option.some.inj (hasks.path_eq.symm.trans hasks'.path_eq)
                refine ⟨raw, by simp, ?_⟩
                rw [hread]
                rfl
              · simp [approvalSetup, Sudix.approverFor, hasks.totp, hasks.path_eq, setupOf, Except.map]

theorem main_meets : (main P R rounds inv).Meets (MainStage P R inv) (MainDone P R rounds inv) [] := by
  have hdaemon : inv.Starts →
      (runDaemon P R rounds inv.configPath inv.runtimeDir).Meets (MainStage P R inv) (MainDone P R rounds inv) [] :=
    fun hstarts => runDaemon_meets.mono (fun _ _ => .daemon hstarts) fun _ _ => .daemon hstarts
  unfold main
  cases hfirst : inv.rawArgs.head? with
  | none => exact hdaemon (.inl hfirst)
  | some first =>
      dsimp only
      by_cases hstarter : first = "default-config"
      · rw [if_pos hstarter]
        rw [hstarter] at hfirst
        exact meets_adminCall_bind.mpr ⟨.starter hfirst, fun _ => .starter hfirst⟩
      · rw [if_neg hstarter]
        by_cases henroll : first = "enroll"
        · rw [if_pos henroll]
          rw [henroll] at hfirst
          exact cmdEnroll_meets.mono (fun _ _ => .enroll hfirst) fun _ _ => .enroll hfirst
        · rw [if_neg henroll]
          by_cases hdash : first = "--"
          · rw [if_neg (not_not_intro hdash)]
            rw [hdash] at hfirst
            exact hdaemon (.inr hfirst)
          · rw [if_pos hdash]
            refine meets_adminCall_bind.mpr ⟨.unknown hfirst, fun _ => ?_⟩
            exact meets_adminCall_bind.mpr ⟨.usage hfirst, fun _ => .usage hfirst⟩

end Main

end Sudixd

end Sudix
