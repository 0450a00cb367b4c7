import Sudix.Base32
import Sudix.ConcurrentPast
import Sudix.SudixdSpec
import Sudix.Wire

/-! Secrets from enrollment to start. Any number of enrollments and starts are interleaved over the same files, each
access on its own. What a daemon reads as its secret was there from the beginning, or is the text that an enrollment
was the last to write, unless somebody else changes files or a write is cut short; a file that is truncated and not
yet written does not start a daemon, nor does the socket that another one has bound. -/

namespace Sudix

open Concurrent

/-- What is taken from the documentation of `totp_rs`: encoding is base32 without padding, a secret has 128 bits, and
neither issuer nor account name has a colon. -/
structure TotpRs.Lawful (R : TotpRs) : Prop where
  decodes : ∀ secret, R.toBytes (R.toEncoded secret) = .ok secret
  letters : ∀ secret, ∀ c ∈ (R.toEncoded secret).toList, isWhitespace c = false
  length : ∀ secret : List UInt8, secret.length = secretLength → (utf8 (R.toEncoded secret)).length = 32
  empty : R.toBytes "" = .ok []
  short : ∀ totp : Totp, totp.secret.length < 16 → ∃ e, R.new totp = .error e
  accepts : ∀ totp : Totp, 16 ≤ totp.secret.length → (∀ issuer ∈ totp.issuer, ':' ∉ issuer.toList) →
    ':' ∉ totp.accountName.toList → R.new totp = .ok ()

variable {P : Platform} {R : TotpRs} {rounds : Nat} {inv : Tid → Sudixd.Invocation}
  {s₀ s s' : Host} {ps : Pool adminSig Tid Exit} {tr : Trace adminSig Host Tid HostEvent}
  {st : Step adminSig Host Tid HostEvent} {t u : Tid} {path : String}

namespace Sudixd

/-- Processes of the program, each with its arguments. -/
def processes (P : Platform) (R : TotpRs) (rounds : Nat) (inv : Tid → Invocation) : Pool adminSig Tid Exit :=
  fun t => main P R rounds (inv t)

theorem processes_meets (t : Tid) :
    (processes P R rounds inv t).Meets (MainStage P R (inv t)) (MainDone P R rounds (inv t)) [] :=
  main_meets P R rounds (inv t)

theorem trim_encoded (hR : R.Lawful) (secret : List UInt8) : trim (R.toEncoded secret) = R.toEncoded secret := by
  have hkeep : ∀ {cs : List Char}, (∀ c ∈ cs, isWhitespace c = false) → cs.dropWhile isWhitespace = cs := by
    intro cs hcs
    cases cs with
    | nil => rfl
    | cons c cs => exact List.dropWhile_cons_of_neg (by simp [hcs c List.mem_cons_self])
  have hreverse : ∀ c ∈ (R.toEncoded secret).toList.reverse, isWhitespace c = false := fun c hc =>
    hR.letters secret c (List.mem_reverse.mp hc)
  rw [trim, hkeep (hR.letters secret), trimEnd, String.toList_ofList, hkeep hreverse, List.reverse_reverse,
    String.ofList_toList]

/-- The text of a secret starts a daemon with the secret. -/
theorem totpOfText_encoded (hR : R.Lawful) {secret : List UInt8} {totp : Totp}
    (h : totpOfText R (R.toEncoded secret) = .ok totp) : totp = verifier secret := by
  rw [totpOfText, trim_encoded hR, hR.decodes] at h
  dsimp only at h
  split at h
  · cases h
  · exact (Except.ok.inj h).symm

theorem totpOfText_empty (hR : R.Lawful) (totp : Totp) : totpOfText R "" ≠ .ok totp := by
  obtain ⟨e, he⟩ := hR.short (verifier []) (Nat.succ_pos _)
  have htrim : trim "" = "" := rfl
  intro h
  rw [totpOfText, htrim, hR.empty] at h
  dsimp only at h
  rw [he] at h
  cases h

theorem totpOfText_accepts (hR : R.Lawful) {secret : List UInt8} (h : secret.length = secretLength) :
    totpOfText R (R.toEncoded secret) = .ok (verifier secret) := by
  have hnew : R.new (verifier secret) = .ok () := by
    refine hR.accepts _ ?_ ?_ ?_
    · rw [verifier, h]
      decide
    · simp [verifier]
    · show ':' ∉ "sudix".toList
      decide
  rw [totpOfText, trim_encoded hR, hR.decodes]
  dsimp only
  rw [hnew]

/-- Whether an event leaves the files alone, and generates nothing. -/
def quiet (event : Event adminSig) : Bool :=
  match event with
  | ⟨.create _, .ok _⟩ | ⟨.write _ _ _, .ok _⟩ | ⟨.generateSecret, _⟩ | ⟨.removeFile _, .ok _⟩ | ⟨.bind _, .ok _⟩
  | ⟨.setPermissions _ _, .ok _⟩ => false
  | _ => true

inductive Effect (s : Host) (t : Tid) : Event adminSig → Host → Prop
  | none {event} : quiet event = true → Effect s t event s
  | generated {secret : List UInt8} : secret.length = secretLength → Effect s t ⟨.generateSecret, secret⟩ s
  | created {path : String} {opened : Nat × Volumes.Volume Owner} :
      opened = s.disk.create path ⟨0o400 &&& ~~~s.umask t, s.euid t⟩ →
      Effect s t ⟨.create path, .ok opened.1⟩ { s with disk := opened.2 }
  | written {file offset n : Nat} {bytes : List UInt8} : n ≤ bytes.length →
      Effect s t ⟨.write file offset bytes, .ok n⟩ { s with disk := s.disk.write file offset (bytes.take n) }
  | removed {path : String} : Effect s t ⟨.removeFile path, .ok ()⟩ { s with disk := s.disk.remove path }
  | bound {path : String} {opened : Nat × Volumes.Volume Owner} :
      opened = s.disk.create path ⟨0o777 &&& ~~~s.umask t, s.euid t⟩ → s.disk.names path = none →
      Effect s t ⟨.bind path, .ok ()⟩ { s with disk := opened.2 }
  | restricted {path : String} {mode : UInt32} {i : Nat} {attr : Owner} : s.disk.names path = some i →
      Effect s t ⟨.setPermissions path mode, .ok ()⟩ { s with disk := s.disk.setAttr i attr }

theorem act_effect {op : AdminOp} {choice : AdminChoice op} {answer : AdminAnswer op}
    (h : Host.act P s t op choice = some (answer, s')) : Effect s t ⟨op, answer⟩ s' := by
  cases op with
  | create path =>
      cases choice with
      | some e =>
          cases h
          exact .none rfl
      | none =>
          cases h
          exact .created rfl
  | write file offset bytes =>
      cases choice with
      | error e =>
          cases h
          exact .none rfl
      | ok n =>
          simp only [Host.act] at h
          split at h
          · rename_i hn
            cases h
            exact .written hn
          · cases h
  | generateSecret =>
      simp only [Host.act] at h
      split at h
      · rename_i hlength
        cases h
        exact .generated hlength
      · cases h
  | removeFile path =>
      simp only [Host.act] at h
      split at h
      · cases h
        exact .none rfl
      · cases h
        exact .removed
  | bind path =>
      cases choice with
      | some e =>
          cases h
          exact .none rfl
      | none =>
          simp only [Host.act] at h
          split at h
          · rename_i hfree
            cases h
            exact .bound rfl hfree
          · cases h
            exact .none rfl
  | setPermissions path mode =>
      simp only [Host.act] at h
      split at h
      · cases h
        exact .none rfl
      · cases h
        exact .none rfl
      · rename_i i hname
        cases h
        exact .restricted hname
  | configHash _ | pathExists _ | metadata _ | readToString _ | systemdListener | createDirAll _ | print _
  | eprint _ =>
      cases h
      exact .none rfl

/-- The step changes the contents behind a name. -/
def Changes (path : String) (st : Step adminSig Host Tid HostEvent) : Prop :=
  st.pre.disk.contents path ≠ st.post.disk.contents path

/-- Somebody else changes files, or a write takes a part of its bytes. -/
def Disturbs (st : Step adminSig Host Tid HostEvent) : Prop :=
  match st.label with
  | .env _ => True
  | .thread _ ⟨.write _ _ bytes, taken⟩ => ∃ n, taken = .ok n ∧ n ≠ bytes.length
  | _ => False

/-- An enrollment has opened the file. -/
def FileOpened (i : Nat) (tr : Trace adminSig Host Tid HostEvent) : Prop :=
  ∃ t path, ⟨.create path, .ok i⟩ ∈ history t tr

/-- Thread `t` has generated the secret, and its text is what was put behind the name last. -/
def LastEnrolled (R : TotpRs) (path : String) (t : Tid) (secret : List UInt8)
    (tr : Trace adminSig Host Tid HostEvent) : Prop :=
  ⟨.generateSecret, secret⟩ ∈ history t tr ∧
    Since (Changes path) (fun _ st =>
      ∃ i, st.label = .thread t ⟨.write i 0 (utf8 (R.toEncoded secret)), .ok 32⟩) tr

/-- Where the contents behind a name are from. -/
inductive Origin (R : TotpRs) (s₀ : Host) (path : String) (tr : Trace adminSig Host Tid HostEvent) : List UInt8 → Prop
  | initial {contents} : (∀ st ∈ tr, ¬ Changes path st) → s₀.disk.contents path = some contents →
      Origin R s₀ path tr contents
  | emptied : Origin R s₀ path tr []
  | enrolled {t secret} : LastEnrolled R path t secret tr → Origin R s₀ path tr (utf8 (R.toEncoded secret))

theorem Origin.snoc {contents : List UInt8} (h : Origin R s₀ path tr contents) (hst : ¬ Changes path st) :
    Origin R s₀ path (tr ++ [st]) contents := by
  cases h with
  | initial hnone hcontents =>
      refine .initial (fun st' hst' => ?_) hcontents
      rcases List.mem_append.mp hst' with hold | hnew
      · exact hnone st' hold
      · rwa [List.mem_singleton.mp hnew]
  | emptied => exact .emptied
  | enrolled hlast =>
      refine .enrolled ⟨?_, since_snoc.mpr (.inr ⟨hlast.2, hst⟩)⟩
      exact mem_history_snoc.mpr (.inl hlast.1)

/-- The files are accounted for. What has been opened is empty or has a text's length. -/
structure Accounted (R : TotpRs) (s₀ : Host) (tr : Trace adminSig Host Tid HostEvent) (s : Host) : Prop where
  generated : ∀ t secret, ⟨.generateSecret, secret⟩ ∈ history t tr → secret.length = secretLength
  opened : ∀ i, FileOpened i tr →
    i < s.disk.fresh ∧ ((s.disk.file i).contents = [] ∨ (s.disk.file i).contents.length = 32)
  origin : ∀ path contents, s.disk.contents path = some contents → Origin R s₀ path tr contents

theorem fileOpened_snoc {i : Nat} (h : FileOpened i (tr ++ [st])) :
    FileOpened i tr ∨ ∃ t path, st.label = .thread t ⟨.create path, .ok i⟩ := by
  obtain ⟨t, path, hmem⟩ := h
  rcases mem_history_snoc.mp hmem with hold | hnew
  · exact .inl ⟨t, path, hold⟩
  · exact .inr ⟨t, path, hnew⟩

theorem FileOpened.snoc_of_ne {i : Nat} (h : FileOpened i (tr ++ [st]))
    (hne : ∀ t path, st.label ≠ .thread t ⟨.create path, .ok i⟩) : FileOpened i tr := by
  rcases fileOpened_snoc h with hold | ⟨t, path, hlabel⟩
  · exact hold
  · exact absurd hlabel (hne t path)

/-- What holds of all events of a kind still does after a step that keeps to it. -/
theorem events_snoc {ι : Type} {event : ι → Event adminSig} {Q : ι → Prop}
    (h : ∀ t i, event i ∈ history t tr → Q i) (hst : ∀ t i, st.label = .thread t (event i) → Q i) :
    ∀ t i, event i ∈ history t (tr ++ [st]) → Q i := by
  intro t i hmem
  rcases mem_history_snoc.mp hmem with hold | hnew
  · exact h t i hold
  · exact hst t i hnew

theorem accounted_start : Accounted R s₀ [] s₀ where
  generated := by
    intro t secret h
    rw [history_nil] at h
    cases h
  opened := by
    rintro i ⟨t, path, h⟩
    rw [history_nil] at h
    cases h
  origin := fun path contents h => .initial (fun st hst => by cases hst) h

/-- A step after which every name has the contents that it had before. -/
theorem Accounted.same {event : Event adminSig} (h : Accounted R s₀ tr s)
    (hgenerated : ∀ secret, event = ⟨.generateSecret, secret⟩ → secret.length = secretLength)
    (hopened : ∀ i, FileOpened i (tr ++ [⟨s, .thread t event, s'⟩]) → FileOpened i tr)
    (hfresh : s.disk.fresh = s'.disk.fresh) (hfiles : ∀ i, (s'.disk.file i).contents = (s.disk.file i).contents)
    (hnames : ∀ name contents, s'.disk.contents name = some contents → s.disk.contents name = some contents) :
    Accounted R s₀ (tr ++ [⟨s, .thread t event, s'⟩]) s' where
  generated := events_snoc h.generated fun u secret hlabel => hgenerated secret (Label.thread.inj hlabel).2
  opened := by
    intro i hi
    rw [← hfresh, hfiles]
    exact h.opened i (hopened i hi)
  origin := by
    intro name contents hcontents
    have hbefore := hnames name contents hcontents
    refine (h.origin name contents hbefore).snoc ?_
    rw [Changes, hbefore, hcontents]
    exact not_not_intro rfl

/-- The file that is opened, or is the socket that is bound, is empty, and no other changes. -/
theorem Accounted.created {event : Event adminSig} {opened : Nat × Volumes.Volume Owner} {attr : Owner}
    (h : Accounted R s₀ tr s) (hopened : opened = s.disk.create path attr)
    (hgenerated : ∀ secret, event ≠ ⟨.generateSecret, secret⟩)
    (hcreates : ∀ name i, event = ⟨.create name, .ok i⟩ → i = opened.1) :
    Accounted R s₀ (tr ++ [⟨s, .thread t event, { s with disk := opened.2 }⟩]) { s with disk := opened.2 } where
  generated := events_snoc h.generated fun u secret hlabel => absurd (Label.thread.inj hlabel).2 (hgenerated secret)
  opened := by
    intro i hi
    subst hopened
    by_cases hself : i = (s.disk.create path attr).1
    · subst hself
      exact ⟨Volumes.Volume.create_fresh, .inl Volumes.Volume.create_contents⟩
    · have hbefore := h.opened i (hi.snoc_of_ne fun u name hlabel => ?_)
      · show i < (s.disk.create _ _).2.fresh ∧ _
        rw [Volumes.Volume.create_file_of_ne hself]
        exact ⟨Nat.lt_of_lt_of_le hbefore.1 Volumes.Volume.fresh_le_create, hbefore.2⟩
      · exact hself (hcreates name i (Label.thread.inj hlabel).2)
  origin := by
    intro name contents hcontents
    subst hopened
    obtain ⟨i, hname, rfl⟩ := Volumes.Volume.contents_eq_some.mp hcontents
    by_cases hself : i = (s.disk.create path attr).1
    · rw [hself, Volumes.Volume.create_contents]
      exact .emptied
    · have hkept : (s.disk.create path attr).2.file i = s.disk.file i := Volumes.Volume.create_file_of_ne hself
      have hbefore : s.disk.contents name = some (s.disk.file i).contents :=
        Volumes.Volume.contents_eq_some.mpr ⟨i, Volumes.Volume.names_of_create hname hself, rfl⟩
      show Origin R s₀ name _ ((s.disk.create path attr).2.file i).contents
      rw [hkept]
      refine (h.origin name _ hbefore).snoc ?_
      rw [Changes, hbefore, hcontents]
      exact not_not_intro (congrArg (fun file => some file.contents) hkept.symm)

/-- A text that is written whole to an open file is what is in it. -/
theorem Accounted.written {secret : List UInt8} {i : Nat} (hR : R.Lawful) (h : Accounted R s₀ tr s)
    (hsecret : ⟨.generateSecret, secret⟩ ∈ history t tr) (hi : FileOpened i tr) :
    Accounted R s₀
      (tr ++ [⟨s, .thread t ⟨.write i 0 (utf8 (R.toEncoded secret)), .ok 32⟩,
        { s with disk := s.disk.write i 0 (utf8 (R.toEncoded secret)) }⟩])
      { s with disk := s.disk.write i 0 (utf8 (R.toEncoded secret)) } := by
  have hlength : (utf8 (R.toEncoded secret)).length = 32 := hR.length secret (h.generated t secret hsecret)
  have hfile : ((s.disk.write i 0 (utf8 (R.toEncoded secret))).file i).contents = utf8 (R.toEncoded secret) := by
    rw [Volumes.Volume.write_file_self]
    refine Volumes.splice_zero ?_ ?_
    · intro hnil
      rw [hnil] at hlength
      cases hlength
    · rcases (h.opened i hi).2 with hempty | hfull
      · rw [hempty]
        exact Nat.zero_le _
      · rw [hfull, hlength]
  refine ⟨events_snoc h.generated ?_, ?_, ?_⟩
  · rintro u secret' hlabel
    cases hlabel
  · intro j hj
    have hopened := h.opened j (hj.snoc_of_ne fun u path' hlabel => by cases hlabel)
    refine ⟨hopened.1, ?_⟩
    by_cases hself : j = i
    · rw [hself]
      exact .inr (by rw [hfile, hlength])
    · show ((s.disk.write i 0 _).file j).contents = [] ∨ ((s.disk.write i 0 _).file j).contents.length = 32
      rw [Volumes.Volume.write_file_of_ne hself]
      exact hopened.2
  · intro name contents hcontents
    obtain ⟨j, hname, rfl⟩ := Volumes.Volume.contents_eq_some.mp hcontents
    by_cases hself : j = i
    · subst hself
      show Origin R s₀ name _ ((s.disk.write j 0 _).file j).contents
      rw [hfile]
      exact .enrolled ⟨mem_history_snoc.mpr (.inl hsecret), since_snoc.mpr (.inl ⟨j, rfl⟩)⟩
    · have hbefore : s.disk.contents name = some (s.disk.file j).contents :=
        Volumes.Volume.contents_eq_some.mpr ⟨j, hname, rfl⟩
      have hkept : (s.disk.write i 0 (utf8 (R.toEncoded secret))).file j = s.disk.file j :=
        Volumes.Volume.write_file_of_ne hself
      show Origin R s₀ name _ ((s.disk.write i 0 _).file j).contents
      rw [hkept]
      refine (h.origin name _ hbefore).snoc ?_
      rw [Changes, hbefore, hcontents]
      exact not_not_intro (congrArg (fun file => some file.contents) hkept.symm)

/-- What a step does to the files keeps them accounted for, unless it writes. -/
theorem Accounted.effect {event : Event adminSig} (h : Accounted R s₀ tr s) (heffect : Effect s t event s')
    (hwrites : ∀ file offset bytes n, event ≠ ⟨.write file offset bytes, .ok n⟩) :
    Accounted R s₀ (tr ++ [⟨s, .thread t event, s'⟩]) s' := by
  cases heffect with
  | none hquiet =>
      refine h.same ?_ ?_ rfl (fun i => rfl) fun name contents hcontents => hcontents
      · rintro secret rfl
        cases hquiet
      · refine fun i hi => hi.snoc_of_ne fun u name hlabel => ?_
        rw [(Label.thread.inj hlabel).2] at hquiet
        cases hquiet
  | generated hlength =>
      refine h.same ?_ ?_ rfl (fun i => rfl) fun name contents hcontents => hcontents
      · rintro secret ⟨⟩
        exact hlength
      · exact fun i hi => hi.snoc_of_ne fun u name hlabel => by cases hlabel
  | created hopened =>
      refine h.created hopened (fun secret heq => by cases heq) fun name i heq => ?_
      cases heq
      rfl
  | written _ => exact absurd rfl (hwrites _ _ _ _)
  | @removed path =>
      refine h.same (fun secret heq => by cases heq) ?_ rfl (fun i => rfl) fun name contents hcontents => ?_
      · exact fun i hi => hi.snoc_of_ne fun u name hlabel => by cases hlabel
      · obtain ⟨i, hname, hfile⟩ := Volumes.Volume.contents_eq_some.mp hcontents
        exact Volumes.Volume.contents_eq_some.mpr ⟨i, (Volumes.Volume.names_of_remove hname).2, hfile⟩
  | bound hopened _ => exact h.created hopened (fun secret heq => by cases heq) fun name i heq => by cases heq
  | restricted _ =>
      refine h.same (fun secret heq => by cases heq) ?_ rfl (fun i => Volumes.Volume.setAttr_contents) ?_
      · exact fun i hi => hi.snoc_of_ne fun u name hlabel => by cases hlabel
      · intro name contents hcontents
        obtain ⟨i, hname, hfile⟩ := Volumes.Volume.contents_eq_some.mp hcontents
        exact Volumes.Volume.contents_eq_some.mpr ⟨i, hname, Volumes.Volume.setAttr_contents.symm.trans hfile⟩

theorem once_disturbs {file offset n : Nat} {bytes : List UInt8}
    (h : ⟨.write file offset bytes, .ok n⟩ ∈ history t tr) (hn : n ≠ bytes.length) :
    Once (fun _ st => Disturbs st) tr := by
  refine (once_of_mem_history h).mono fun _ st hlabel => ?_
  rw [Disturbs, hlabel]
  exact ⟨n, rfl, hn⟩

/-- **The accounts.** As long as nobody else changes files and no write is cut short, every file is accounted for. -/
theorem disturbed_or_accounted (hR : R.Lawful) (hrun : Run (hostWorld P) s₀ (processes P R rounds inv) tr s ps) :
    Once (fun _ st => Disturbs st) tr ∨ Accounted R s₀ tr s := by
  refine hrun.invariant (I := fun tr s => Once (fun _ st => Disturbs st) tr ∨ Accounted R s₀ tr s)
    processes_meets (.inr accounted_start) ?_ ?_
  · intro tr s t event choice s' ih hstage hact
    rcases ih with hdisturbed | h
    · exact .inl (hdisturbed.append _)
    · have heffect := act_effect hact
      by_cases hwrites : ∀ file offset bytes n, event ≠ ⟨.write file offset bytes, .ok n⟩
      · exact .inr (h.effect heffect hwrites)
      · push Not at hwrites
        obtain ⟨file, offset, bytes, n, rfl⟩ := hwrites
        cases heffect with
        | none hquiet => cases hquiet
        | written hn =>
            by_cases hwhole : n = bytes.length
            · obtain ⟨path, secret, hsecret, hcreate, hwrite⟩ := MainStage.write_inv hstage
              rcases hwrite with ⟨rfl, rfl⟩ | ⟨offset', bytes', n', hmem, hn'⟩
              · have hlength := hR.length secret (h.generated t secret hsecret)
                rw [hlength] at hwhole
                subst hwhole
                rw [List.take_of_length_le (Nat.le_of_eq hlength)]
                exact .inr (h.written hR hsecret ⟨t, path, hcreate⟩)
              · exact .inl ((once_disturbs hmem hn').append _)
            · exact .inl (once_snoc.mpr (.inr ⟨n, rfl, hwhole⟩))
  · intro tr s event s' _ _
    exact .inl (once_snoc.mpr (.inr trivial))

theorem readToString_legal {raw : String} (h : st.Legal (hostWorld P))
    (hlabel : st.label = .thread u ⟨.readToString path, .ok raw⟩) :
    ∃ file, st.pre.disk.look path = some file ∧ fromUtf8 file.contents = some raw := by
  obtain ⟨pre, label, post⟩ := st
  obtain rfl : label = _ := hlabel
  obtain ⟨failure, hact⟩ := h
  have hread : ((pre.access path failure).bind fun file => decodeText file.contents) = .ok raw :=
    (Prod.mk.inj (Option.some.inj hact)).1
  cases failure with
  | some e => cases hread
  | none =>
      rw [Host.access] at hread
      cases hlook : pre.disk.look path with
      | none =>
          rw [hlook] at hread
          cases hread
      | some file =>
          rw [hlook] at hread
          exact ⟨file, rfl, decodeText_ok.mp hread⟩

/-- A process generates one secret at most. -/
theorem generated_once (hrun : Run (hostWorld P) s₀ (processes P R rounds inv) tr s ps) (t : Tid) :
    (history t tr).countP generates ≤ 1 := by
  refine countP_history_le_one ((hrun.every_pre processes_meets).mono fun before st hstage u event hlabel hg => ?_) t
  obtain ⟨op, answer⟩ := event
  cases op with
  | generateSecret =>
      obtain ⟨-, path, hcleared⟩ := (hstage u _ hlabel).generateSecret_inv
      exact hcleared.generates
  | _ => cases hg

/-- What an enrollment prints is about the secret it generates. -/
theorem prints_own (hrun : Run (hostWorld P) s₀ (processes P R rounds inv) tr s ps) {secret : List UInt8}
    (hsecret : ⟨.generateSecret, secret⟩ ∈ history t tr) {text : String} (htext : ⟨.print text, ()⟩ ∈ history t tr) :
    ∃ path, text ∈ enrolledLines R path secret := by
  have hstages := hrun.every_pre processes_meets
  have hfirst : (inv t).rawArgs.head? = some "enroll" := by
    obtain ⟨before, st, after, heq, hlabel⟩ := once_of_mem_history hsecret
    exact (hstages before st after heq t _ hlabel).generateSecret_inv.1
  obtain ⟨before, st, after, heq, hlabel⟩ := once_of_mem_history htext
  obtain ⟨path, secret', hsecret', hline⟩ := (hstages before st after heq t _ hlabel).print_inv hfirst
  have hearlier : ⟨.generateSecret, secret'⟩ ∈ history t tr := by
    rw [heq, history_append]
    exact List.mem_append_left _ hsecret'
  cases eq_of_countP_le_one (generated_once hrun t) hsecret hearlier rfl rfl
  exact ⟨path, hline⟩

/-- Where the text that is read behind a name comes from, and the secret in it. -/
inductive SecretOrigin (R : TotpRs) (s₀ : Host) (path raw : String) (totp : Totp)
    (before tr : Trace adminSig Host Tid HostEvent) : Prop
  /-- Somebody else has changed files before, or a write was cut short. -/
  | disturbed : Once (fun _ st => Disturbs st) before → SecretOrigin R s₀ path raw totp before tr
  /-- It was there from the beginning. -/
  | initial {contents} : (∀ st ∈ before, ¬ Changes path st) → s₀.disk.contents path = some contents →
      fromUtf8 contents = some raw → SecretOrigin R s₀ path raw totp before tr
  /-- An enrollment was the last to put it there, and all that it prints is about this secret. -/
  | enrolled {t secret} : LastEnrolled R path t secret before → totp = verifier secret →
      (∀ text, ⟨.print text, ()⟩ ∈ history t tr → ∃ path', text ∈ enrolledLines R path' secret) →
      SecretOrigin R s₀ path raw totp before tr

/-- **Started with what was enrolled.** In any interleaving of enrollments and starts, a daemon accepts the codes of
the secret it has read, and this was there from the beginning or is the one of the enrollment that was the last to
change the file before the daemon read it; unless somebody else changed files before, or a write was cut short. -/
theorem started_with_enrolled (hR : R.Lawful)
    (hrun : Run (hostWorld P) s₀ (processes P R rounds inv) tr s ps) {d : Started}
    (hu : ps u = .ret (.serving d)) (htotp : d.setup.approver = .totp) :
    ∃ (policy : String) (cfg : ValidConfig P.regex) (path raw : String) (totp : Totp)
      (before after : Trace adminSig Host Tid HostEvent) (st : Step adminSig Host Tid HostEvent),
      ⟨.readToString (inv u).configPath, .ok policy⟩ ∈ history u tr ∧
      FileConfig.ofText P.regex P.parseToml policy = .ok cfg ∧ Asks cfg path ∧ d.bundle = startupBundle cfg ∧
      totpOfText R raw = .ok totp ∧ d.setup.totpCode = R.generate totp ∧ tr = before ++ st :: after ∧
      st.label = .thread u ⟨.readToString path, .ok raw⟩ ∧ SecretOrigin R s₀ path raw totp before tr := by
  have hdone : MainDone P R rounds (inv u) (history u tr) (.serving d) := hrun.result processes_meets hu
  obtain ⟨cfg, hash, path, owner, raw, totp, start, rest, hown, hhashed, hasks, -, hraw, rfl⟩ :=
    hdone.serving_inv htotp
  obtain ⟨policy, hpolicy, hcfg⟩ := hhashed.policy
  have hread : ⟨.readToString (inv u).configPath, .ok policy⟩ ∈ history u tr := by
    rw [hown]
    exact List.mem_append_left _ hpolicy
  have hmem : ⟨.readToString path, .ok raw⟩ ∈ history u tr := by
    rw [hown]
    simp
  obtain ⟨before, pre, post, after, ps', heq, hbefore, hlegal⟩ := hrun.split_event hmem
  refine ⟨policy, cfg, path, raw, totp, before, after, _, hread, hcfg, hasks, rfl, hraw, rfl, heq, rfl, ?_⟩
  obtain ⟨file, hlook, htext⟩ := readToString_legal hlegal rfl
  have hcontents : pre.disk.contents path = some file.contents := by
    obtain ⟨i, hname, hfile⟩ := Volumes.Volume.look_eq_some.mp hlook
    exact Volumes.Volume.contents_eq_some.mpr ⟨i, hname, congrArg Volumes.File.contents hfile⟩
  rcases disturbed_or_accounted hR hbefore with hdisturbed | haccounted
  · exact .disturbed hdisturbed
  · generalize file.contents = contents at htext hcontents
    cases haccounted.origin path contents hcontents with
    | initial hnone hinitial => exact .initial hnone hinitial htext
    | emptied =>
        have hnothing : raw = "" := (Option.some.inj htext).symm
        rw [hnothing] at hraw
        exact absurd hraw (totpOfText_empty hR totp)
    | @enrolled t secret hlast =>
        rw [fromUtf8_utf8] at htext
        rw [← Option.some.inj htext] at hraw
        refine .enrolled hlast (totpOfText_encoded hR hraw) fun text hprint => prints_own hrun ?_ hprint
        rw [heq, history_append]
        exact List.mem_append_left _ hlast.1

/-- The secret whose code in the first time step is 287082. -/
def countedSecret : List UInt8 := utf8 "12345678901234567890"

/-- `totp_rs` on base32, with the code of one secret. -/
def base32Rs : TotpRs where
  toEncoded := Base32.encode
  toBytes text :=
    match Base32.decode text with
    | none => .error "ParseBase32"
    | some secret => .ok secret
  new totp :=
    if totp.secret.length < 16 then .error "SecretTooSmall"
    else if totp.issuer.any fun issuer => issuer.toList.contains ':' then .error "InvalidIssuer"
    else if totp.accountName.toList.contains ':' then .error "InvalidAccountName"
    else .ok ()
  getUrl totp := "otpauth://totp/" ++ totp.accountName ++ "?secret=" ++ Base32.encode totp.secret
  generate totp step := if totp.secret = countedSecret ∧ step = 1 then "287082" else "000000"

theorem base32Rs_lawful : base32Rs.Lawful where
  decodes := by
    intro secret
    simp only [base32Rs, Base32.decode_encode]
  letters := by
    have halphabet : Base32.alphabet.all (fun c => isWhitespace c == false) = true := by decide
    intro secret c hc
    exact eq_of_beq (List.all_eq_true.mp halphabet c (Base32.mem_alphabet hc))
  length := by
    intro secret hlength
    have hascii : Base32.alphabet.all (fun c => (String.utf8EncodeChar c).length == 1) = true := by decide
    have hones : (Base32.encode secret).toList.map (fun c => (String.utf8EncodeChar c).length) =
        List.replicate (Base32.encode secret).toList.length 1 :=
      List.map_eq_replicate_iff.mpr fun c hc =>
        eq_of_beq (List.all_eq_true.mp hascii c (Base32.mem_alphabet hc))
    show (utf8 (Base32.encode secret)).length = 32
    rw [utf8_eq_flatMap, List.length_flatMap, hones, List.sum_replicate_nat, Base32.length_encode, hlength]
    rfl
  empty := rfl
  short := by
    intro totp hshort
    exact ⟨_, if_pos hshort⟩
  accepts := by
    intro totp hlong hissuer haccount
    have hlabel : ¬ (totp.issuer.any fun issuer => issuer.toList.contains ':') = true := by
      cases h : totp.issuer with
      | none => simp
      | some issuer => simpa using hissuer issuer h
    have hname : ¬ totp.accountName.toList.contains ':' = true := by simpa using haccount
    show (if totp.secret.length < 16 then _ else _) = _
    rw [if_neg (Nat.not_lt.mpr hlong), if_neg hlabel, if_neg hname]

def headlessToml : String :=
"allow = []
agent_uids = [1000]
approver_uids = [1000]

[approval]
method = \"totp\"
totp_secret_path = \"/etc/sudix/totp.key\"
"

def headlessConfig : FileConfig := ⟨[], [], [1000], [1000], ⟨.totp, some "/etc/sudix/totp.key"⟩⟩

def headlessPlatform : Platform :=
  { Platform.bare with parseToml := fun raw => if raw = headlessToml then .ok headlessConfig else .error "unknown" }

/-- A host with the config and no secret. -/
def headlessHost : Host where
  disk :=
    { names := fun name => if name = defaultConfigPath then some 0 else none
      file := fun _ => ⟨⟨0o600, 0⟩, utf8 headlessToml⟩
      fresh := 1
      bound := by
        intro name i h
        split at h
        · rw [← Option.some.inj h]
          exact Nat.one_pos
        · cases h }
  euid := fun _ => 0
  umask := fun _ => 0o022

/-- Nothing fails, and a write takes all. -/
def smoothly (secret : List UInt8) : (op : AdminOp) → AdminChoice op
  | .configHash _ => none
  | .pathExists _ => none
  | .generateSecret => secret
  | .create _ => none
  | .write _ _ bytes => .ok bytes.length
  | .metadata _ => none
  | .readToString _ => none
  | .systemdListener => false
  | .createDirAll _ => none
  | .removeFile _ => none
  | .bind _ => none
  | .setPermissions _ _ => none
  | .print _ => ()
  | .eprint _ => ()

/-- The processes 0 and 1 enroll, and the others start. -/
def headlessInv (t : Tid) : Invocation := if t < 2 then ⟨["enroll"], none, none⟩ else ⟨[], none, none⟩

/-- Both enrollments find no secret. The first one opens the file before the other does, and writes before it. -/
def enrolledRun : Option (Point adminSig Host Tid HostEvent Exit) :=
  replay (hostWorld headlessPlatform)
    ⟨[], headlessHost, processes headlessPlatform base32Rs 0 headlessInv⟩
    ([0, 0, 0, 1, 1, 1, 0, 0, 1, 1, 0, 1, 0, 0, 0, 2, 2, 2, 2, 2, 2, 2, 2, 2, 2, 2].map fun t =>
      .thread t (smoothly (if t = 0 then List.replicate 20 0 else countedSecret)))

set_option maxRecDepth 4000 in
/-- The daemon accepts the codes of the second enrollment, and the first one has printed another secret. -/
theorem enrolledRun_started :
    ∃ c d, enrolledRun = some c ∧ c.pool 2 = .ret (.serving d) ∧ d.setup.totpCode 1 = "287082" ∧
      ∃ path raw totp before, totpOfText base32Rs raw = .ok totp ∧ d.setup.totpCode = base32Rs.generate totp ∧
        SecretOrigin base32Rs headlessHost path raw totp before c.trace := by
  obtain ⟨c, hc⟩ : ∃ c, enrolledRun = some c := ⟨_, rfl⟩
  have hrun : Run (hostWorld headlessPlatform) headlessHost (processes headlessPlatform base32Rs 0 headlessInv)
      c.trace c.state c.pool := run_of_replay .start hc
  obtain ⟨d, hd, htotp, hcode⟩ : ∃ d, c.pool 2 = .ret (.serving d) ∧ d.setup.approver = .totp ∧
      d.setup.totpCode 1 = "287082" := by
    obtain rfl := Option.some.inj hc
    exact ⟨_, rfl, rfl, rfl⟩
  obtain ⟨policy, cfg, path, raw, totp, before, after, st, -, -, -, -, hraw, htotpCode, -, -, horigin⟩ :=
    started_with_enrolled base32Rs_lawful hrun hd htotp
  exact ⟨c, d, hc, hd, hcode, path, raw, totp, before, hraw, htotpCode, horigin⟩

end Sudixd

end Sudix
