import Sudix.ConcurrentSolo
import Sudix.Enrollment

/-! What becomes of an enrolled secret. No process but an enrollment with `--force` changes a file that is there,
unless its name is where a start binds its socket, however many of them run at once; and an enrollment that is left
alone is followed by a daemon that accepts its codes. -/

namespace Sudix

open Concurrent

variable {P : Platform} {R : TotpRs} {rounds : Nat} {inv : Tid → Sudixd.Invocation}
  {s₀ s s' : Host} {ps : Pool adminSig Tid Exit} {tr : Trace adminSig Host Tid HostEvent}
  {st : Step adminSig Host Tid HostEvent} {t u : Tid} {path : String}

namespace Sudixd

/-- A step of a process; and no check for a file misses one that is there. -/
structure Orderly (st : Step adminSig Host Tid HostEvent) : Prop where
  own : ∀ event, st.label ≠ .env event
  sees : ∀ t path, st.label = .thread t ⟨.pathExists path, false⟩ → st.pre.disk.look path = none

/-- The event shows that there was nothing at the name. -/
def Frees (name : String) (event : Event adminSig) : Prop :=
  event = ⟨.pathExists name, false⟩ ∨ event = ⟨.bind name, .ok ()⟩

/-- No start binds its socket at the name. -/
def Apart (inv : Tid → Invocation) (name : String) : Prop := ∀ t, (inv t).Starts → name ≠ (inv t).socketPath

/-- The file `i` is as it was in the beginning, under all names but those of sockets, and nobody has it open. -/
structure Kept (inv : Tid → Invocation) (s₀ : Host) (i : Nat) (tr : Trace adminSig Host Tid HostEvent) (s : Host) :
    Prop where
  names : ∀ name, Apart inv name → s₀.disk.names name = some i → s.disk.names name = some i
  file : s.disk.file i = s₀.disk.file i
  fresh : i < s.disk.fresh
  closed : ¬ FileOpened i tr
  freed : ∀ t name event, event ∈ history t tr → Frees name event → s.disk.names name ≠ some i

theorem kept_start {i : Nat} (hi : i < s₀.disk.fresh) : Kept inv s₀ i [] s₀ where
  names := fun _ _ hname => hname
  file := rfl
  fresh := hi
  closed := by
    rintro ⟨t, name, h⟩
    rw [history_nil] at h
    cases h
  freed := by
    intro t name event h
    rw [history_nil] at h
    cases h

/-- A step that neither changes or opens the file nor makes a name lead to it. -/
theorem Kept.snoc {i : Nat} {event : Event adminSig} (h : Kept inv s₀ i tr s)
    (hfile : s'.disk.file i = s.disk.file i) (hfresh : s.disk.fresh ≤ s'.disk.fresh)
    (hopen : ∀ name, event ≠ ⟨.create name, .ok i⟩)
    (hnew : ∀ name, s'.disk.names name = some i → s.disk.names name = some i)
    (hnames : ∀ name, Apart inv name → s.disk.names name = some i → s'.disk.names name = some i)
    (hfrees : ∀ name, Frees name event → s.disk.names name ≠ some i) :
    Kept inv s₀ i (tr ++ [⟨s, .thread t event, s'⟩]) s' where
  names := fun name hapart hname => hnames name hapart (h.names name hapart hname)
  file := hfile.trans h.file
  fresh := Nat.lt_of_lt_of_le h.fresh hfresh
  closed := fun hi => h.closed (hi.snoc_of_ne fun u name hlabel => hopen name (Label.thread.inj hlabel).2)
  freed := by
    intro u name event' hmem hevent hname
    rcases mem_history_snoc.mp hmem with hold | hlast
    · exact h.freed u name event' hold hevent (hnew name hname)
    · rw [← (Label.thread.inj hlast).2] at hevent
      exact hfrees name hevent (hnew name hname)

/-- A file is opened, or a socket bound, at a name that does not lead to the file. -/
theorem Kept.created {i : Nat} {event : Event adminSig} {opened : Nat × Volumes.Volume Owner} {attr : Owner}
    (h : Kept inv s₀ i tr s) (hpath : s.disk.names path ≠ some i) (hopened : opened = s.disk.create path attr)
    (hcreates : ∀ name j, event = ⟨.create name, .ok j⟩ → j = opened.1)
    (hfrees : ∀ name, Frees name event → name = path) :
    Kept inv s₀ i (tr ++ [⟨s, .thread t event, { s with disk := opened.2 }⟩]) { s with disk := opened.2 } := by
  subst hopened
  have hne := Volumes.Volume.ne_create attr h.fresh hpath
  refine h.snoc (Volumes.Volume.create_file_of_ne hne) Volumes.Volume.fresh_le_create ?_ ?_ ?_ ?_
  · exact fun name heq => hne (hcreates name i heq)
  · exact fun name hname => Volumes.Volume.names_of_create hname hne
  · exact fun name _ hname => Volumes.Volume.create_names_of_some hname
  · intro name hevent
    rw [hfrees name hevent]
    exact hpath

theorem kept (hrun : Run (hostWorld P) s₀ (processes P R rounds inv) tr s ps)
    (hforce : ∀ t, (inv t).forces = false) {i : Nat} (hi : i < s₀.disk.fresh) :
    (∀ st ∈ tr, Orderly st) → Kept inv s₀ i tr s := by
  refine hrun.invariant (I := fun tr s => (∀ st ∈ tr, Orderly st) → Kept inv s₀ i tr s) processes_meets
    (fun _ => kept_start hi) ?_ ?_
  · intro tr s t event choice s' ih hstage hact horderly
    have h : Kept inv s₀ i tr s := ih fun st hst => horderly st (List.mem_append_left _ hst)
    have hlast := horderly _ (List.mem_append_right tr List.mem_cons_self)
    obtain ⟨op, answer⟩ := event
    cases act_effect hact with
    | none hquiet =>
        refine h.snoc rfl (Nat.le_refl _) ?_ (fun name hname => hname) (fun name _ hname => hname) ?_
        · intro name heq
          rw [heq] at hquiet
          cases hquiet
        · rintro name (heq | heq)
          · have hnone := hlast.sees t name (congrArg (Label.thread t) heq)
            rw [Option.map_eq_none_iff.mp hnone]
            exact fun hname => by cases hname
          · rw [heq] at hquiet
            cases hquiet
    | generated _ =>
        refine h.snoc rfl (Nat.le_refl _) (fun name heq => by cases heq) (fun name hname => hname)
          (fun name _ hname => hname) ?_
        rintro name (heq | heq)
        · cases heq
        · cases heq
    | @created name opened hopened =>
        refine h.created (h.freed t name _ (hstage.create_inv (hforce t)) (.inl rfl)) hopened ?_ ?_
        · intro name' j heq
          cases heq
          rfl
        · rintro name' (heq | heq)
          · cases heq
          · cases heq
    | @written file offset n bytes hn =>
        obtain ⟨name, _, _, hcreate, _⟩ := MainStage.write_inv hstage
        have hne : i ≠ file := by
          rintro rfl
          exact h.closed ⟨t, name, hcreate⟩
        refine h.snoc (Volumes.Volume.write_file_of_ne hne) (Nat.le_refl _) (fun name heq => by cases heq)
          (fun name hname => hname) (fun name _ hname => hname) ?_
        rintro name (heq | heq)
        · cases heq
        · cases heq
    | @removed name =>
        obtain ⟨hstarts, hsocket⟩ := MainStage.removeFile_inv hstage
        refine h.snoc rfl (Nat.le_refl _) (fun name heq => by cases heq)
          (fun name' hname => (Volumes.Volume.names_of_remove hname).2) ?_ ?_
        · intro name' hapart hname
          have hne : name' ≠ name := by
            rw [hsocket]
            exact hapart t hstarts
          exact (Volumes.Volume.remove_names_of_ne hne).trans hname
        · rintro name' (heq | heq)
          · cases heq
          · cases heq
    | @bound name opened hopened hfree =>
        refine h.created ?_ hopened (fun name' j heq => by cases heq) ?_
        · rw [hfree]
          exact fun hname => by cases hname
        · rintro name' (heq | heq)
          · cases heq
          · cases heq
            rfl
    | @restricted name mode j attr hname =>
        have hne : i ≠ j := by
          rintro rfl
          exact h.freed t name _ (MainStage.setPermissions_inv hstage) (.inr rfl) hname
        refine h.snoc (Volumes.Volume.setAttr_file_of_ne hne) (Nat.le_refl _) (fun name heq => by cases heq)
          (fun name hname => hname) (fun name _ hname => hname) ?_
        rintro name' (heq | heq)
        · cases heq
        · cases heq
  · intro tr s event s' _ _ horderly
    exact absurd rfl ((horderly _ (List.mem_append_right tr List.mem_cons_self)).own event)

/-- **No secret is lost unasked.** However many processes run at once, none of them an enrollment with `--force`, a
file that is there stays as it is, unless a start binds its socket at its name, somebody else changes files, or a
check for a file fails. -/
theorem unforced_keep_files (hrun : Run (hostWorld P) s₀ (processes P R rounds inv) tr s ps)
    (hforce : ∀ t, (inv t).forces = false) (hapart : Apart inv path) (horderly : ∀ st ∈ tr, Orderly st)
    {file : Volumes.File Owner} (hfile : s₀.disk.look path = some file) : s.disk.look path = some file := by
  obtain ⟨i, hi, rfl⟩ := Volumes.Volume.look_eq_some.mp hfile
  have h := kept hrun hforce (s₀.disk.bound path i hi) horderly
  exact Volumes.Volume.look_eq_some.mpr ⟨i, h.names path hapart hi, h.file⟩

/-- `Orderly`, as a test. -/
def seesFiles (st : Step adminSig Host Tid HostEvent) : Bool :=
  match st.label with
  | .env _ => false
  | .thread _ ⟨.pathExists path, present⟩ => present || (st.pre.disk.look path).isNone
  | _ => true

theorem orderly_of_all (h : tr.all seesFiles = true) : ∀ st ∈ tr, Orderly st := by
  intro st hst
  have hsees := List.all_eq_true.mp h st hst
  obtain ⟨pre, label, post⟩ := st
  refine ⟨fun event heq => ?_, fun t path heq => ?_⟩
  · obtain rfl : label = _ := heq
    cases hsees
  · obtain rfl : label = _ := heq
    exact Option.isNone_iff_eq_none.mp hsees

/-- A host with a secret, and with a socket that a daemon has left behind. -/
def keyedHost : Host :=
  { headlessHost with
    disk :=
      { names := fun name =>
          if name = defaultConfigPath then some 0
          else if name = "/etc/sudix/totp.key" then some 1
          else if name = "/run/sudix/sudixd.sock" then some 2
          else none
        file := fun i =>
          if i = 0 then ⟨⟨0o600, 0⟩, utf8 headlessToml⟩
          else if i = 1 then ⟨⟨0o400, 0⟩, utf8 "GEZDGNBVGY3TQOJQGEZDGNBVGY3TQOJQ"⟩
          else ⟨⟨0o666, 0⟩, []⟩
        fresh := 3
        bound := by
          intro name i h
          split at h
          · cases h
            decide
          · split at h
            · cases h
              decide
            · split at h
              · cases h
                decide
              · cases h } }

/-- Two enrollments at once, both refused, and a start that takes the place of the socket. -/
def refusedRun : Option (Point adminSig Host Tid HostEvent Exit) :=
  replay (hostWorld headlessPlatform) ⟨[], keyedHost, processes headlessPlatform base32Rs 0 headlessInv⟩
    ([0, 1, 2, 1, 0, 2, 2, 0, 1, 2, 2, 2, 2, 2, 2, 2, 2, 0, 1].map fun t => .thread t (smoothly countedSecret))

set_option maxRecDepth 4000 in
theorem refusedRun_keeps :
    ∃ c, refusedRun = some c ∧ (∀ st ∈ c.trace, Orderly st) ∧
      c.state.disk.look "/etc/sudix/totp.key" = some ⟨⟨0o400, 0⟩, utf8 "GEZDGNBVGY3TQOJQGEZDGNBVGY3TQOJQ"⟩ ∧
      c.state.disk.names "/run/sudix/sudixd.sock" = some 3 := by
  obtain ⟨c, hc⟩ : ∃ c, refusedRun = some c := ⟨_, rfl⟩
  have hrun : Run (hostWorld headlessPlatform) keyedHost (processes headlessPlatform base32Rs 0 headlessInv)
      c.trace c.state c.pool := run_of_replay .start hc
  have horderly : ∀ st ∈ c.trace, Orderly st := by
    refine orderly_of_all ?_
    obtain rfl := Option.some.inj hc
    decide +kernel
  have hforce : ∀ t, (headlessInv t).forces = false := by
    intro t
    unfold headlessInv
    split
    · decide
    · decide
  have hapart : Apart headlessInv "/etc/sudix/totp.key" := by
    intro t _
    unfold headlessInv
    split
    · decide
    · decide
  have hsocket : c.state.disk.names "/run/sudix/sudixd.sock" = some 3 := by
    obtain rfl := Option.some.inj hc
    decide +kernel
  exact ⟨c, hc, horderly, unforced_keep_files hrun hforce hapart horderly rfl, hsocket⟩

/-- Nothing fails, this secret is generated, and every write takes something. -/
structure Willing (secret : List UInt8) (choice : (op : AdminOp) → AdminChoice op) : Prop where
  configHash : ∀ path, choice (.configHash path) = none
  pathExists : ∀ path, choice (.pathExists path) = none
  generateSecret : choice .generateSecret = secret
  create : ∀ path, choice (.create path) = none
  write : ∀ file offset bytes, bytes ≠ [] → ∃ n, choice (.write file offset bytes) = .ok n ∧ 0 < n ∧ n ≤ bytes.length
  metadata : ∀ path, choice (.metadata path) = none
  readToString : ∀ path, choice (.readToString path) = none
  createDirAll : ∀ path, choice (.createDirAll path) = none
  removeFile : ∀ path, choice (.removeFile path) = none
  bind : ∀ path, choice (.bind path) = none
  setPermissions : ∀ path mode, choice (.setPermissions path mode) = none

section Alone

variable {choice : (op : AdminOp) → AdminChoice op} {secret : List UInt8} {k : Nat}

/-- Run alone from its `k`th operation on, the program ends so. -/
def EndsAlone (P : Platform) {α : Type} (t : Tid) (choice : (op : AdminOp) → AdminChoice op) (k : Nat)
    (p : AdminProg α) (s : Host) (Q : α → Host → Prop) : Prop :=
  (hostWorld P).Ends t (fun _ => []) choice k p s Q

theorem ends_admin {α : Type} {op : AdminOp} {f : AdminAnswer op → AdminProg α} {answer : AdminAnswer op}
    {Q : α → Host → Prop} (hact : Host.act P s t op (choice op) = some (answer, s'))
    (h : EndsAlone P t choice (k + 1) (f answer) s' Q) : EndsAlone P t choice k (adminCall op >>= f) s Q :=
  ends_call rfl hact h

/-- Whatever part each write takes, the text is written. -/
theorem writeAll_ends {α : Type} (hw : Willing secret choice) (f : Except IoError Unit → AdminProg α)
    {Q : α → Host → Prop} (disk : Volumes.Volume Owner) (file : Nat) (text : List UInt8)
    (hdone : ∀ k, EndsAlone P t choice k (f (.ok ())) { s with disk := disk.setContents file text } Q)
    (fuel : Nat) {offset : Nat} (hoffset : offset ≤ text.length) (hfuel : text.length ≤ fuel + offset) :
    EndsAlone P t choice k (writeAll file fuel offset (text.drop offset) >>= f)
      { s with disk := disk.setContents file (text.take offset) } Q := by
  induction fuel generalizing offset k with
  | zero =>
      have hend : text.take offset = text := List.take_of_length_le (by omega)
      rw [hend]
      exact hdone k
  | succ fuel ih =>
      by_cases hrest : text.length ≤ offset
      · have hempty : (text.drop offset).isEmpty = true := by
          rw [List.isEmpty_iff]
          exact List.drop_of_length_le hrest
        rw [writeAll, if_pos hempty, List.take_of_length_le hrest]
        exact hdone k
      · have hne : text.drop offset ≠ [] := by
          rw [Ne, List.drop_eq_nil_iff]
          exact hrest
        have hmore : ¬ (text.drop offset).isEmpty = true := by
          rw [List.isEmpty_iff]
          exact hne
        obtain ⟨n, hn, hpos, hle⟩ := hw.write file offset _ hne
        have hact : Host.act P { s with disk := disk.setContents file (text.take offset) } t
            (.write file offset (text.drop offset)) (choice (.write file offset (text.drop offset))) =
              some (Except.ok n, { s with disk := disk.setContents file (text.take (offset + n)) }) := by
          rw [hn]
          simp only [Host.act]
          rw [if_pos hle, Volumes.Volume.setContents_write hoffset]
        rw [List.length_drop] at hle
        rw [writeAll, if_neg hmore, Program.bind_assoc]
        refine ends_admin hact ?_
        dsimp only
        rw [if_neg (Nat.ne_of_gt hpos), List.drop_drop]
        exact ih (by omega) (by omega)

theorem printAll_ends {α : Type} {f : Unit → AdminProg α} {Q : α → Host → Prop}
    (hdone : ∀ k, EndsAlone P t choice k (f ()) s Q) (lines : List String) :
    EndsAlone P t choice k (printAll lines >>= f) s Q := by
  induction lines generalizing k with
  | nil => exact hdone k
  | cons line lines ih =>
      rw [printAll, Program.bind_assoc]
      exact ends_admin rfl ih

/-- The disk after a secret has been written whole. -/
def enrolledDisk (R : TotpRs) (s : Host) (t : Tid) (path : String) (secret : List UInt8) : Volumes.Volume Owner :=
  let opened := s.disk.create path ⟨0o400 &&& ~~~s.umask t, s.euid t⟩
  opened.2.setContents opened.1 (utf8 (R.toEncoded secret))

theorem enrollAt_ends (hR : R.Lawful) (hw : Willing secret choice) (hlength : secret.length = secretLength)
    {Q : Exit → Host → Prop} (hdone : Q .success { s with disk := enrolledDisk R s t path secret }) :
    EndsAlone P t choice k (enrollAt R path) s Q := by
  have hgenerate : Host.act P s t .generateSecret (choice .generateSecret) = some (secret, s) := by
    rw [hw.generateSecret]
    exact if_pos hlength
  refine ends_admin hgenerate ?_
  obtain ⟨opened, hopened⟩ : ∃ opened, opened = s.disk.create path ⟨0o400 &&& ~~~s.umask t, s.euid t⟩ := ⟨_, rfl⟩
  have hcreate : Host.act P s t (.create path) (choice (.create path)) =
      some (Except.ok opened.1, { s with disk := opened.2 }) := by
    rw [hw.create, hopened]
    rfl
  refine ends_admin hcreate ?_
  have hempty : opened.2.setContents opened.1 ((utf8 (R.toEncoded secret)).take 0) = opened.2 := by
    rw [hopened]
    exact Volumes.Volume.setContents_self Volumes.Volume.create_contents
  have hnew : R.new (provisioned secret) = .ok () := by
    refine hR.accepts _ ?_ ?_ ?_
    · show 16 ≤ secret.length
      rw [hlength]
      decide
    · intro issuer hissuer
      obtain rfl := Option.some.inj hissuer
      decide
    · show ':' ∉ "sudixd".toList
      decide
  have hwrite : ∀ f : Except IoError Unit → AdminProg Exit,
      (∀ k, EndsAlone P t choice k (f (.ok ()))
        { s with disk := opened.2.setContents opened.1 (utf8 (R.toEncoded secret)) } Q) →
      EndsAlone P t choice (k + 1 + 1)
        (writeAll opened.1 (utf8 (R.toEncoded secret)).length 0 (utf8 (R.toEncoded secret)) >>= f)
        { s with disk := opened.2 } Q := by
    intro f hf
    have hall := writeAll_ends (k := k + 1 + 1) hw f opened.2 opened.1 _ hf _ (Nat.zero_le _) (Nat.le_refl _)
    rwa [hempty, List.drop_zero] at hall
  refine hwrite _ fun k => ?_
  dsimp only
  rw [hnew]
  refine printAll_ends (fun k => ?_) _
  subst hopened
  exact ends_ret hdone

/-- What a load sees of a file. -/
def configFile (file : Volumes.File Owner) : ConfigFile := ⟨file.attr.mode, file.attr.uid, file.contents⟩

/-- The config that is loaded from this path. -/
def Loads (s : Host) (configPath : String) (cfg : ValidConfig P.regex) : Prop :=
  loadWithChecks P.regex P.parseToml configPath true ((s.access configPath none).map configFile) = .ok cfg

theorem Loads.congr {configPath : String} {cfg : ValidConfig P.regex} (h : Loads s configPath cfg)
    (hlook : s'.disk.look configPath = s.disk.look configPath) : Loads s' configPath cfg := by
  unfold Loads Host.access at h ⊢
  rwa [hlook]

theorem Loads.found {configPath : String} {cfg : ValidConfig P.regex} (h : Loads s configPath cfg) :
    ∃ file raw, s.disk.look configPath = some file ∧ checkFilePermissions configPath file.attr = .ok () ∧
      decodeText file.contents = .ok raw ∧ FileConfig.ofText P.regex P.parseToml raw = .ok cfg := by
  unfold Loads Host.access at h
  cases hlook : s.disk.look configPath with
  | none =>
      rw [hlook] at h
      cases h
  | some file =>
      rw [hlook] at h
      simp only [Except.map, loadWithChecks, if_true] at h
      split at h
      · cases h
      · rename_i hcheck
        split at h
        · cases h
        · rename_i raw hraw
          exact ⟨file, raw, rfl, hcheck, hraw, h⟩

theorem Loads.present {configPath : String} {cfg : ValidConfig P.regex} (h : Loads s configPath cfg) :
    ∃ i, s.disk.names configPath = some i := by
  obtain ⟨file, raw, hlook, -⟩ := h.found
  obtain ⟨i, hname, -⟩ := Volumes.Volume.look_eq_some.mp hlook
  exact ⟨i, hname⟩

theorem act_metadata {other : String} {file : Volumes.File Owner} (hw : Willing secret choice)
    (hlook : s.disk.look other = some file) :
    Host.act P s t (.metadata other) (choice (.metadata other)) = some (Except.ok file.attr, s) := by
  rw [hw.metadata]
  simp [Host.act, Host.access, hlook, Except.map]

theorem act_readToString {other raw : String} {file : Volumes.File Owner} (hw : Willing secret choice)
    (hlook : s.disk.look other = some file) (hraw : decodeText file.contents = .ok raw) :
    Host.act P s t (.readToString other) (choice (.readToString other)) = some (Except.ok raw, s) := by
  rw [hw.readToString]
  simp [Host.act, Host.access, hlook, Except.bind, hraw]

theorem load_ends {α : Type} {f : Except ConfigError (ValidConfig P.regex) → AdminProg α} {configPath : String}
    {cfg : ValidConfig P.regex} (hw : Willing secret choice) (hload : Loads s configPath cfg) {Q : α → Host → Prop}
    (hdone : ∀ k, EndsAlone P t choice k (f (.ok cfg)) s Q) :
    EndsAlone P t choice k (load P configPath >>= f) s Q := by
  obtain ⟨file, raw, hlook, hcheck, hraw, hcfg⟩ := hload.found
  rw [load, Program.bind_assoc]
  refine ends_admin (act_metadata hw hlook) ?_
  simp only [hcheck, Program.bind_assoc]
  refine ends_admin (act_readToString hw hlook hraw) ?_
  simp only [Program.pure_eq, Program.ret_bind, hcfg]
  exact hdone _

/-- The removal takes away what is at the socket's path, if anything is. -/
theorem removeFile_frees (hw : Willing secret choice) (s : Host) (t : Tid) (socketPath : String) :
    ∃ removed s', Host.act P s t (.removeFile socketPath) (choice (.removeFile socketPath)) = some (removed, s') ∧
      s'.disk.names socketPath = none := by
  rw [hw.removeFile]
  cases hlook : s.disk.look socketPath with
  | none =>
      refine ⟨.error "No such file or directory (os error 2)", s, ?_, Option.map_eq_none_iff.mp hlook⟩
      simp only [Host.act, Host.access, hlook]
  | some file =>
      refine ⟨.ok (), { s with disk := s.disk.remove socketPath }, ?_, Volumes.Volume.remove_names_self⟩
      simp only [Host.act, Host.access, hlook]

/-- Wherever the socket is to be, the daemon gets to listen. -/
theorem listen_ends {α : Type} {f : Except IoError Unit → AdminProg α} {runtimeDir : String} {agentUids : List Uid}
    (hw : Willing secret choice) {Q : α → Host → Prop}
    (hdone : ∀ k s', EndsAlone P t choice k (f (.ok ())) s' Q) :
    EndsAlone P t choice k (listen runtimeDir agentUids >>= f) s Q := by
  rw [listen, Program.bind_assoc]
  have hpassed : Host.act P s t .systemdListener (choice .systemdListener) = some (choice .systemdListener, s) := rfl
  refine ends_admin hpassed ?_
  cases choice .systemdListener with
  | true => exact ends_admin rfl (hdone _ _)
  | false =>
      have hcreate : Host.act P s t (.createDirAll runtimeDir) (choice (.createDirAll runtimeDir)) =
          some (Except.ok (), s) := by
        rw [hw.createDirAll]
        rfl
      refine ends_admin hcreate ?_
      obtain ⟨removed, s₁, hremove, hfree⟩ := removeFile_frees hw s t (socketPathIn runtimeDir)
      refine ends_admin hremove ?_
      obtain ⟨opened, hopened⟩ : ∃ opened, opened =
          s₁.disk.create (socketPathIn runtimeDir) ⟨0o777 &&& ~~~s₁.umask t, s₁.euid t⟩ := ⟨_, rfl⟩
      have hbind : Host.act P s₁ t (.bind (socketPathIn runtimeDir)) (choice (.bind (socketPathIn runtimeDir))) =
          some (Except.ok (), { s₁ with disk := opened.2 }) := by
        rw [hw.bind, hopened]
        exact if_pos hfree
      refine ends_admin hbind ?_
      have hname : opened.2.names (socketPathIn runtimeDir) = some opened.1 := by
        rw [hopened]
        exact Volumes.Volume.create_names
      have hrestrict : Host.act P { s₁ with disk := opened.2 } t (.setPermissions (socketPathIn runtimeDir) 0o666)
          (choice (.setPermissions (socketPathIn runtimeDir) 0o666)) =
            some (Except.ok (),
              { s₁ with
                disk := opened.2.setAttr opened.1 { (opened.2.file opened.1).attr with mode := 0o666 } }) := by
        rw [hw.setPermissions]
        simp only [Host.act, hname]
      refine ends_admin hrestrict ?_
      exact ends_admin rfl (hdone _ _)

theorem cmdEnroll_ends {force : Bool} {configPath : String} {cfg : ValidConfig P.regex} (hw : Willing secret choice)
    (hload : Loads s configPath cfg) (hpath : cfg.config.approval.totpSecretPath = some path)
    (hfree : force = true ∨ s.disk.look path = none) {Q : Exit → Host → Prop}
    (hdone : ∀ k, EndsAlone P t choice k (enrollAt R path) s Q) :
    EndsAlone P t choice k (cmdEnroll P R force configPath) s Q := by
  unfold cmdEnroll getTotpSecretPath
  rw [Program.bind_assoc]
  refine load_ends hw hload fun k => ?_
  simp only [Program.pure_eq, Program.ret_bind, hpath]
  by_cases hforce : force = true
  · rw [if_pos hforce]
    exact hdone _
  · rw [if_neg hforce]
    have habsent : Host.act P s t (.pathExists path) (choice (.pathExists path)) = some (false, s) := by
      rw [hw.pathExists]
      simp [Host.act, Host.access, hfree.resolve_left hforce, Except.toBool]
    exact ends_admin habsent (hdone _)

theorem runDaemon_ends (hR : R.Lawful) (hlength : secret.length = secretLength) {secret' : List UInt8}
    (hw : Willing secret' choice) {configPath runtimeDir : String} {cfg : ValidConfig P.regex} {owner : Owner}
    (hload : Loads s configPath cfg) (hasks : Asks cfg path) (howner : checkOwner path owner = .ok ())
    (hlook : s.disk.look path = some ⟨owner, utf8 (R.toEncoded secret)⟩) :
    EndsAlone P t choice k (runDaemon P R rounds configPath runtimeDir) s fun exit _ =>
      ∃ d, exit = .serving d ∧ d.bundle = startupBundle cfg ∧
        d.setup = ⟨.totp, true, R.generate (verifier secret)⟩ := by
  refine load_ends hw hload fun k => ?_
  obtain ⟨hash, hhash⟩ : ∃ hash, Host.act P s t (.configHash configPath) (choice (.configHash configPath)) =
      some (hash, s) := ⟨_, rfl⟩
  refine ends_admin hhash ?_
  simp only [approverFor, hasks.totp, hasks.path_eq, fromSecretFile, checkSecretPermissions, Program.bind_assoc]
  refine ends_admin (act_metadata hw hlook) ?_
  simp only [Program.pure_eq, Program.ret_bind, howner, Program.bind_assoc]
  refine ends_admin (act_readToString hw hlook (decodeText_ok.mpr (fromUtf8_utf8 _))) ?_
  simp only [Program.ret_bind, totpOfText_accepts hR hlength]
  exact listen_ends hw fun k s' => ends_ret ⟨_, rfl, rfl, rfl⟩

end Alone

theorem main_enroll {inv : Invocation} (h : inv.rawArgs.head? = some "enroll") :
    main P R rounds inv = cmdEnroll P R (inv.rawArgs.contains "--force") inv.configPath := by
  unfold main
  rw [h]
  dsimp only
  rw [if_neg (by decide), if_pos rfl]

theorem main_start {inv : Invocation} (h : inv.Starts) :
    main P R rounds inv = runDaemon P R rounds inv.configPath inv.runtimeDir := by
  unfold main
  rcases h with h | h
  · rw [h]
  · rw [h]
    dsimp only
    rw [if_neg (by decide), if_neg (by decide), if_neg (not_not_intro rfl)]

/-- A new secret file is for root alone, whatever the umask is. -/
theorem checkOwner_created (path : String) (mask : UInt32) : checkOwner path ⟨0o400 &&& mask, 0⟩ = .ok () := by
  have hmode : (0o400 &&& mask) &&& 0o077 = (0 : UInt32) := by
    calc
      (0o400 &&& mask) &&& 0o077 = mask &&& (0o400 &&& 0o077) := by rw [UInt32.and_comm 0o400, UInt32.and_assoc]
      _ = mask &&& 0 := rfl
      _ = 0 := UInt32.and_zero
  rw [checkOwner, if_neg (not_not_intro hmode), if_neg (not_not_intro rfl)]

theorem enrolledDisk_look (R : TotpRs) (secret : List UInt8)
    (hfree : (s.disk.look path = none ∧ s.euid t = 0) ∨
      ∃ file, s.disk.look path = some file ∧ checkOwner path file.attr = .ok ()) :
    ∃ owner, checkOwner path owner = .ok () ∧
      (enrolledDisk R s t path secret).look path = some ⟨owner, utf8 (R.toEncoded secret)⟩ := by
  have hlook : (enrolledDisk R s t path secret).look path = some ⟨_, utf8 (R.toEncoded secret)⟩ :=
    Volumes.Volume.look_eq_some.mpr ⟨_, Volumes.Volume.create_names, Volumes.Volume.setContents_file_self⟩
  refine ⟨_, ?_, hlook⟩
  rcases hfree with ⟨hnone, hroot⟩ | ⟨file, hfile, howner⟩
  · rw [Volumes.Volume.create_attr_of_none (Option.map_eq_none_iff.mp hnone), hroot]
    exact checkOwner_created path _
  · obtain ⟨i, hname, rfl⟩ := Volumes.Volume.look_eq_some.mp hfile
    rwa [Volumes.Volume.create_attr_of_some hname]

theorem enrolledDisk_look_other (R : TotpRs) (t : Tid) (secret : List UInt8) {other : String} {i : Nat}
    (hother : s.disk.names other = some i) (hapart : s.disk.names path ≠ some i) :
    (enrolledDisk R s t path secret).look other = s.disk.look other := by
  have hne := Volumes.Volume.ne_create ⟨0o400 &&& ~~~s.umask t, s.euid t⟩ (s.disk.bound other i hother) hapart
  rw [Volumes.Volume.look_eq_some.mpr ⟨i, hother, rfl⟩]
  refine Volumes.Volume.look_eq_some.mpr ⟨i, Volumes.Volume.create_names_of_some hother, ?_⟩
  exact (Volumes.Volume.setContents_file_of_ne hne).trans (Volumes.Volume.create_file_of_ne hne)

/-- **A round trip.** An enrollment that is left alone succeeds, and a daemon that starts next accepts the codes of
the secret it has generated, whatever parts the secret is written in. -/
theorem enroll_then_start (hR : R.Lawful) {secret secret' : List UInt8} (hlength : secret.length = secretLength)
    {choice choice' : (op : AdminOp) → AdminChoice op} (hw : Willing secret choice) (hw' : Willing secret' choice')
    {enroll start : Invocation} (henroll : enroll.rawArgs.head? = some "enroll") (hstart : start.Starts)
    (hpaths : start.configPath = enroll.configPath) {cfg : ValidConfig P.regex}
    (hload : Loads s enroll.configPath cfg) (hasks : Asks cfg path)
    (hapart : s.disk.names path ≠ s.disk.names enroll.configPath)
    (hfree : (s.disk.look path = none ∧ s.euid t = 0) ∨
      (enroll.forces = true ∧ ∃ file, s.disk.look path = some file ∧ checkOwner path file.attr = .ok ())) :
    EndsAlone P t choice 0 (main P R rounds enroll) s fun exit s' =>
      exit = .success ∧ EndsAlone P u choice' 0 (main P R rounds start) s' fun exit' _ =>
        ∃ d, exit' = .serving d ∧ d.bundle = startupBundle cfg ∧
          d.setup = ⟨.totp, true, R.generate (verifier secret)⟩ := by
  have hallowed : enroll.rawArgs.contains "--force" = true ∨ s.disk.look path = none := by
    rcases hfree with ⟨hnone, -⟩ | ⟨hforces, -⟩
    · exact .inr hnone
    · rw [Invocation.forces, Bool.and_eq_true] at hforces
      exact .inl hforces.2
  obtain ⟨i, hi⟩ := hload.present
  rw [hi] at hapart
  obtain ⟨owner, howner, hlook⟩ :=
    enrolledDisk_look R secret (hfree.imp_right fun h => h.2)
  have hconfig := enrolledDisk_look_other R t secret hi hapart
  rw [main_enroll henroll, main_start hstart, hpaths]
  refine cmdEnroll_ends hw hload hasks.path_eq hallowed fun k => enrollAt_ends hR hw hlength ⟨rfl, ?_⟩
  exact runDaemon_ends hR hlength hw' (hload.congr hconfig) hasks howner hlook

/-- Every write takes seven bytes at most. -/
def choppily (secret : List UInt8) : (op : AdminOp) → AdminChoice op
  | .write _ _ bytes => .ok (min 7 bytes.length)
  | op => smoothly secret op

theorem choppily_willing (secret : List UInt8) : Willing secret (choppily secret) where
  configHash := fun _ => rfl
  pathExists := fun _ => rfl
  generateSecret := rfl
  create := fun _ => rfl
  write := by
    intro file offset bytes hne
    have hpos := List.length_pos_iff.mpr hne
    exact ⟨_, rfl, by omega, by omega⟩
  metadata := fun _ => rfl
  readToString := fun _ => rfl
  createDirAll := fun _ => rfl
  removeFile := fun _ => rfl
  bind := fun _ => rfl
  setPermissions := fun _ _ => rfl

def enrolling : Invocation := ⟨["enroll"], none, none⟩

def starting : Invocation := ⟨["--"], none, none⟩

def headlessLoaded : ValidConfig headlessPlatform.regex := ⟨headlessConfig, rfl⟩

set_option maxRecDepth 4000 in
theorem headlessHost_loads : Loads headlessHost enrolling.configPath headlessLoaded := rfl

/-- On a host without a secret, one is enrolled and then served. -/
theorem headlessHost_enrolled :
    EndsAlone headlessPlatform 0 (choppily countedSecret) 0
      (main headlessPlatform base32Rs 0 enrolling) headlessHost fun exit s' =>
        exit = .success ∧ EndsAlone headlessPlatform 1 (choppily []) 0
          (main headlessPlatform base32Rs 0 starting) s' fun exit' _ =>
            ∃ d, exit' = .serving d ∧ d.bundle = startupBundle headlessLoaded ∧
              d.setup = ⟨.totp, true, base32Rs.generate (verifier countedSecret)⟩ := by
  have hlength : countedSecret.length = secretLength := rfl
  have hapart : headlessHost.disk.names "/etc/sudix/totp.key" ≠
      headlessHost.disk.names enrolling.configPath := by decide
  have hnone : headlessHost.disk.look "/etc/sudix/totp.key" = none := rfl
  have henroll : enrolling.rawArgs.head? = some "enroll" := rfl
  have hstart : starting.Starts := .inr rfl
  have hpaths : starting.configPath = enrolling.configPath := rfl
  exact enroll_then_start base32Rs_lawful hlength (choppily_willing countedSecret) (choppily_willing []) henroll
    hstart hpaths headlessHost_loads ⟨rfl, rfl⟩ hapart (.inl ⟨hnone, rfl⟩)

end Sudixd

end Sudix
