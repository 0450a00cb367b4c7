import Sudix.ReloadHash

/-! What one reload does that nothing else overlaps, as a single step on what the daemon serves. The
bundle, the recorded hash and the approval state move together, or not at all. -/

namespace Sudix

open Concurrent

/-- What a reload reads and replaces, with the contents of the last successful load. -/
@[ext] structure Served where
  bundle : PolicyBundle
  lastHash : Option Hash
  approvals : ApprovalState
  contents : List UInt8

variable (P : Platform)

/-- A whole reload against one state of the config file. -/
def Served.reload (disk : ConfigOnDisk) (v : Served) : Except ConfigError Unit × Served :=
  match disk with
  | .error e => (.error (.io e), v)
  | .ok file =>
      if v.lastHash = some (P.sha256 file.contents) then (.ok (), v)
      else
        match loadWithChecks P.regex P.parseToml P.configPath P.enforcePerms (.ok file) with
        | .error e => (.error e, v)
        | .ok fc =>
            (.ok (), ⟨bundleFromFileCfg fc, some (P.sha256 file.contents), ApprovalState.new, file.contents⟩)

/-- The bundle is built from the contents of the last load, and the recorded hash, if there is one, is
theirs. -/
structure Coherent (v : Served) : Prop where
  bundle : BundleOf P v.contents v.bundle
  lastHash : v.lastHash = none ∨ v.lastHash = some (P.sha256 v.contents)

/-- The file has other contents than those of the last load, or no hash is recorded. -/
def Changed (file : ConfigFile) (v : Served) : Prop := file.contents ≠ v.contents ∨ v.lastHash = none

instance (file : ConfigFile) (v : Served) : Decidable (Changed file v) :=
  inferInstanceAs (Decidable (_ ∨ _))

/-- The file cannot be read, or it is to be loaded and does not load. -/
inductive Refuses (v : Served) : ConfigOnDisk → Prop
  | unreadable (e : IoError) : Refuses v (.error e)
  | unloadable (file : ConfigFile) (e : ConfigError) : Changed file v →
      loadWithChecks P.regex P.parseToml P.configPath P.enforcePerms (.ok file) = .error e → Refuses v (.ok file)

variable {P} {v : Served} {disk : ConfigOnDisk}

/-- A reload that fails changes nothing. -/
theorem reload_failed {e : ConfigError} (h : (v.reload P disk).1 = .error e) : (v.reload P disk).2 = v := by
  cases disk with
  | error e' => rfl
  | ok file =>
      rw [Served.reload] at h ⊢
      split at h
      · cases h
      · rename_i hne
        rw [if_neg hne]
        split at h
        · rfl
        · cases h

theorem Coherent.reload (h : Coherent P v) : Coherent P (v.reload P disk).2 := by
  cases disk with
  | error e => exact h
  | ok file =>
      rw [Served.reload]
      split
      · exact h
      · split
        · exact h
        · rename_i fc hload
          exact ⟨⟨file, fc, rfl, hload, rfl⟩, .inr rfl⟩

/-- The fast path is taken where nothing has changed. -/
theorem Coherent.unchanged_iff (hinjective : Function.Injective P.sha256) (h : Coherent P v) (file : ConfigFile) :
    v.lastHash = some (P.sha256 file.contents) ↔ ¬ Changed file v := by
  rcases h.lastHash with hnone | hsome
  · simp [Changed, hnone]
  · rw [hsome, Changed, Option.some.injEq, hinjective.eq_iff]
    simp [hsome, eq_comm]

theorem Coherent.reload_error_iff (hinjective : Function.Injective P.sha256) (h : Coherent P v) :
    (∃ e, (v.reload P disk).1 = .error e) ↔ Refuses P v disk := by
  cases disk with
  | error e => exact iff_of_true ⟨_, rfl⟩ (.unreadable e)
  | ok file =>
      have hfast := h.unchanged_iff hinjective file
      rw [Served.reload]
      split
      · rename_i hsame
        refine iff_of_false nofun fun hrefuses => ?_
        cases hrefuses with
        | unloadable _ _ hchanged _ => exact hfast.mp hsame hchanged
      · rename_i hne
        have hchanged : Changed file v := by
          by_contra hunchanged
          exact hne (hfast.mpr hunchanged)
        split
        · rename_i e hload
          exact iff_of_true ⟨e, rfl⟩ (.unloadable file e hchanged hload)
        · rename_i fc hload
          refine iff_of_false nofun fun hrefuses => ?_
          cases hrefuses with
          | unloadable _ e _ hfailed =>
              rw [hload] at hfailed
              cases hfailed

/-- A reload that succeeds leaves the file's own bundle in force, and empties the approval state where
something has changed. -/
theorem Coherent.reload_ok (hinjective : Function.Injective P.sha256) (h : Coherent P v)
    (hok : (v.reload P disk).1 = .ok ()) :
    ∃ file, disk = .ok file ∧ BundleOf P file.contents (v.reload P disk).2.bundle ∧
      (v.reload P disk).2.approvals = if Changed file v then ApprovalState.new else v.approvals := by
  cases disk with
  | error e => cases hok
  | ok file =>
      have hfast := h.unchanged_iff hinjective file
      refine ⟨file, rfl, ?_⟩
      rw [Served.reload] at hok ⊢
      split
      · rename_i hsame
        rw [if_neg (hfast.mp hsame)]
        rcases h.lastHash with hnone | hsome
        · rw [hnone] at hsame
          cases hsame
        · rw [hsome, Option.some.injEq, hinjective.eq_iff] at hsame
          exact ⟨hsame ▸ h.bundle, rfl⟩
      · rename_i hne
        have hchanged : Changed file v := by
          by_contra hunchanged
          exact hne (hfast.mpr hunchanged)
        rw [if_neg hne] at hok
        split at hok
        · cases hok
        · rename_i fc hload
          rw [if_pos hchanged]
          exact ⟨⟨file, fc, rfl, hload, rfl⟩, rfl⟩

end Sudix
