import Sudix.RestartEquivalence

/-! Edits of the config file reach the connections that come after them. A connection hashes the file outside the
lock of the hash and takes its bundle after it has released the lock, and in between other connections may reload;
if the file is left alone meanwhile, the bundle is all the same the one of the file on disk. -/

namespace Sudix

open Concurrent

variable {P : Platform} {approver : Approver} {approvalMutex : Bool} {s₀ s : Daemon}
  {ps : Pool (sig P) Tid (Except IoError Unit)} {tr : Trace (sig P) Daemon Tid Env} {c u : Tid}
  {contents : List UInt8}

/-- A load finds what is on disk. -/
theorem bundleOf_of_loads {st : Step (sig P) Daemon Tid Env} {fc : ValidConfig P.regex} (hload : Loads u fc st)
    (hlegal : st.Legal (world P)) (hcontents : contentsOf st.pre.file = some contents) :
    BundleOf P contents (bundleFromFileCfg fc) := by
  obtain ⟨pre, label, post⟩ := st
  obtain rfl : label = _ := hload
  have hfile := (legal_loadConfig hlegal).1
  cases hpre : pre.file with
  | error e =>
      rw [hpre] at hfile
      cases hfile
  | ok file =>
      rw [hpre] at hfile hcontents
      exact ⟨file, fc, Option.some.inj hcontents, hfile.symm, rfl⟩

/-- The history of a thread that is about to swap. -/
def beforeSwap (h : Hash) (poisoned : Bool) (last : Option Hash) (fc : ValidConfig P.regex) : History (sig P) :=
  ⟨.acquireSlot, ()⟩ :: (looked h poisoned last ++ [⟨.loadConfig, .ok fc⟩])

theorem WorkerStage.swap_inv {own : History (sig P)} {b : PolicyBundle}
    (hstage : WorkerStage u approver approvalMutex own (.swapCurrent b)) :
    ∃ h poisoned last fc, own = beforeSwap h poisoned last fc ∧ last ≠ some h ∧ b = bundleFromFileCfg fc := by
  obtain ⟨own', rfl, hreload⟩ := hstage.reload_inv rfl
  cases hreload with
  | swap hne => exact ⟨_, _, _, _, rfl, hne, rfl⟩

theorem beforeSwap_holds {h : Hash} {poisoned : Bool} {last : Option Hash} {fc : ValidConfig P.regex} :
    Holds .lastHash (beforeSwap h poisoned last fc) := by simp [Holds, beforeSwap, looked]

section Run

variable {before after : Trace (sig P) Daemon Tid Env} {st : Step (sig P) Daemon Tid Env} {event : Event (sig P)}

section

variable (hrun : Run (world P) s₀ (workers P approver approvalMutex) (before ++ st :: after) s ps)
  (hfree : s₀.holder .lastHash = none) (hlabel : st.label = .thread c event)
  (hheld : st.pre.holder .lastHash = some c)

include hrun hfree hlabel hheld

/-- A thread that is about to swap after `c` has held the lock has loaded the file since. -/
theorem loaded_since {h : Hash} {poisoned : Bool} {last : Option Hash} {fc : ValidConfig P.regex} (hu : c ≠ u)
    (hown : history u (before ++ st :: after) = beforeSwap h poisoned last fc) :
    ⟨.loadConfig, .ok fc⟩ ∈ history u after := by
  have hskip : history u (st :: after) = history u after := by
    simp [history, Step.eventOf, hlabel, hu]
  rw [history_append, hskip] at hown
  rcases List.eq_nil_or_concat (history u after) with hnil | ⟨rest, last', hrest⟩
  · -- the thread would hold the lock that `c` holds
    rw [hnil, List.append_nil] at hown
    obtain ⟨⟨ps', hbefore⟩, -⟩ := hrun.before
    have hother : st.pre.holder .lastHash = some u :=
      (lastHash_holder hbefore hfree u).mpr (hown ▸ beforeSwap_holds)
    rw [hheld] at hother
    exact absurd (Option.some.inj hother) hu
  · rw [hrest, List.concat_eq_append] at hown ⊢
    rw [beforeSwap, ← List.append_assoc, ← List.cons_append] at hown
    obtain ⟨-, hlast⟩ := List.append_inj' hown rfl
    rw [(List.cons.inj hlast).1]
    exact List.mem_append_right _ List.mem_cons_self

/-- The file has been left alone since, so the swap puts the bundle of these contents in force. -/
theorem swap_bundleOf {h : Hash} {poisoned : Bool} {last : Option Hash} {fc : ValidConfig P.regex} (hu : c ≠ u)
    (hown : history u (before ++ st :: after) = beforeSwap h poisoned last fc)
    (hcontents : contentsOf st.pre.file = some contents) (hunedited : ∀ st' ∈ st :: after, edits st' = false) :
    BundleOf P contents (bundleFromFileCfg fc) := by
  have hmem := loaded_since hrun hfree hlabel hheld hu hown
  obtain ⟨a, st', a', rfl, hload⟩ := once_of_mem_history hmem
  rw [← List.cons_append, ← List.append_assoc] at hrun
  obtain ⟨⟨ps', hbefore⟩, hlegal⟩ := hrun.before
  refine bundleOf_of_loads hload hlegal ?_
  rw [file_of_unedited hbefore rfl fun st'' hst'' => hunedited st'' ?_]
  · exact hcontents
  · rw [← List.cons_append]
    exact List.mem_append_left _ hst''

end

/-- What was the bundle of the file when `c` held the lock still is, whoever has reloaded since. -/
theorem bundleOf_since (hrun : Run (world P) s₀ (workers P approver approvalMutex) tr s ps)
    (hfree : s₀.holder .lastHash = none) (hlabel : st.label = .thread c event)
    (hheld : st.pre.holder .lastHash = some c) (hcontents : contentsOf st.pre.file = some contents)
    (hbundle : BundleOf P contents st.post.current.bundle)
    (hdone : ∀ later h poisoned last fc, last ≠ some h →
      history c before ++ event :: later ≠ beforeSwap h poisoned last fc)
    (htr : tr = before ++ st :: after) (hunedited : ∀ st' ∈ st :: after, edits st' = false) :
    BundleOf P contents s.current.bundle := by
  induction hrun generalizing after with
  | start => simp at htr
  | env event' hbefore henv ih =>
      rcases snoc_eq_append_cons htr with ⟨-, -, rfl⟩ | ⟨after', rfl, rfl⟩
      · cases hlabel
      · rw [(env_frame henv).current]
        exact ih rfl fun st' hst' => hunedited st' (List.mem_append_left _ hst')
  | @thread tr s ps u op next choice answer s' hbefore hnext hact ih =>
      have hlegal : Step.Legal (world P) ⟨s, .thread u ⟨op, answer⟩, s'⟩ := ⟨choice, hact⟩
      rcases snoc_eq_append_cons htr with ⟨-, -, rfl⟩ | ⟨after', rfl, rfl⟩
      · exact hbundle
      · have hunedited' : ∀ st' ∈ st :: after', edits st' = false :=
          fun st' hst' => hunedited st' (List.mem_append_left _ hst')
        cases op with
        | swapCurrent b =>
            obtain ⟨h, poisoned, last, fc, hown, hne, rfl⟩ := (hbefore.pre_next workers_meets hnext).swap_inv
            obtain rfl := legal_swapCurrent hlegal
            by_cases hu : c = u
            · subst hu
              rw [history_split hlabel] at hown
              exact absurd hown (hdone _ h poisoned last fc hne)
            · exact swap_bundleOf hbefore hfree hlabel hheld hu hown hcontents hunedited'
        | _ =>
            rw [legal_current hlegal rfl]
            exact ih rfl hunedited'

end Run

/-- A reload that is about to compare the hashes finds the recorded one in step with the bundle. -/
theorem describes_at_lookup (hrun : Run (world P) s₀ (workers P approver approvalMutex) tr s ps)
    (hfree : s₀.holder .lastHash = none) (hinitial : HashDescribes P s₀.lastHash s₀.current.bundle)
    (hloaded : Every LoadedAsHashed tr) (hstage : WorkerStage c approver approvalMutex (history c tr) .readLastHash) :
    s.holder .lastHash = some c ∧ HashDescribes P s.lastHash s.current.bundle := by
  obtain ⟨own, hown, hreload⟩ := hstage.reload_inv rfl
  have hheld : s.holder .lastHash = some c := by
    refine (lastHash_holder hrun hfree c).mpr ?_
    rw [hown]
    cases hreload
    simp [Holds]
  have hdescribed := run_described hrun hfree hinitial hloaded
  refine ⟨hheld, hdescribed.settled fun u b hswapped => ?_⟩
  have hother := (hdescribed.swapped u b hswapped).1
  rw [hheld] at hother
  obtain rfl := Option.some.inj hother
  rw [hown] at hswapped
  exact hreload.not_swapped (by simp) (hswapped.of_cons (by simp))

section Served

variable {before after : Trace (sig P) Daemon Tid Env} {st : Step (sig P) Daemon Tid Env} {h : Hash}
  (hrun : Run (world P) s₀ (workers P approver approvalMutex) (before ++ st :: after) s ps)
  (hhash : Hashes c h st) (hunedited : ∀ st' ∈ st :: after, edits st' = false)

include hrun hhash

/-- A worker hashes the file first of all. -/
theorem history_hashed :
    history c (before ++ st :: after) = ⟨.acquireSlot, ()⟩ :: ⟨.configHash, .ok h⟩ :: history c after := by
  obtain ⟨own, hown, hreload⟩ := (hrun.every_pre workers_meets before st after rfl c _ hhash).reload_inv rfl
  cases hreload
  rw [history_split hhash, hown]
  rfl

/-- The contents that were hashed. -/
theorem contents_hashed : ∃ contents, contentsOf st.pre.file = some contents ∧ P.sha256 contents = h := by
  obtain ⟨pre, label, post⟩ := st
  obtain rfl : label = _ := hhash
  have hanswer := (legal_configHash hrun.before.2).1
  cases hpre : pre.file with
  | error e =>
      rw [hpre] at hanswer
      cases hanswer
  | ok file =>
      rw [hpre] at hanswer
      exact ⟨file.contents, rfl, (Except.ok.inj hanswer).symm⟩

include hunedited

/-- A reload that found its hash recorded leaves the bundle of the file in force. -/
theorem bundleOf_of_same (hfree : s₀.holder .lastHash = none) (hinjective : Function.Injective P.sha256)
    (hinitial : HashDescribes P s₀.lastHash s₀.current.bundle) (hloaded : Every LoadedAsHashed (before ++ st :: after))
    (hcontents : contentsOf st.pre.file = some contents) (hsha : P.sha256 contents = h)
    (hmem : ⟨.readLastHash, some h⟩ ∈ history c after) : BundleOf P contents s.current.bundle := by
  obtain ⟨a, st₂, a₂, rfl, hread⟩ := once_of_mem_history hmem
  rw [← List.cons_append, ← List.append_assoc] at hrun hloaded
  obtain ⟨⟨ps', hbefore⟩, hlegal⟩ := hrun.before
  have hstage := hrun.every_pre workers_meets _ st₂ a₂ rfl c _ hread
  obtain ⟨hheld, hdescribes⟩ := describes_at_lookup hbefore hfree hinitial hloaded.of_append hstage
  have hcontents₂ : contentsOf st₂.pre.file = some contents := by
    rw [file_of_unedited hbefore rfl fun st' hst' => hunedited st' ?_]
    · exact hcontents
    · rw [← List.cons_append]
      exact List.mem_append_left _ hst'
  refine bundleOf_since hrun hfree hread hheld hcontents₂ ?_ ?_ rfl
    fun st' hst' => hunedited st' (List.mem_cons_of_mem _ (List.mem_append_right a hst'))
  · obtain ⟨pre, label, post⟩ := st₂
    obtain rfl : label = _ := hread
    obtain ⟨hlast, rfl⟩ := legal_readLastHash hlegal
    obtain ⟨contents', hsha', hbundle⟩ := hdescribes h hlast.symm
    rwa [hinjective (hsha.trans hsha'.symm)]
  · -- a reload that loads has found another hash
    intro later h' poisoned last fc hne hown
    obtain ⟨own, hown₂, hreload⟩ := hstage.reload_inv rfl
    have hhashed := history_hashed hbefore hhash
    rw [hown₂] at hhashed hown
    cases hreload with
    | @readLast h₂ poisoned₂ =>
        obtain rfl : h₂ = h := by simpa using (List.cons.inj (List.cons.inj hhashed).2).1
        have hall : h₂ = h' ∧ poisoned₂ = poisoned ∧ some h₂ = last ∧ later = [⟨.loadConfig, .ok fc⟩] := by
          simpa [beforeSwap, looked] using hown
        exact hne (hall.2.2.1.symm.trans (congrArg some hall.1))

/-- A reload that loaded leaves the bundle of the file in force. -/
theorem bundleOf_of_loaded (hfree : s₀.holder .lastHash = none) (hcontents : contentsOf st.pre.file = some contents)
    {b : PolicyBundle} (hmem : ⟨.swapCurrent b, ()⟩ ∈ history c after) : BundleOf P contents s.current.bundle := by
  obtain ⟨a, st₂, a₂, rfl, hswap⟩ := once_of_mem_history hmem
  rw [← List.cons_append, ← List.append_assoc] at hrun
  obtain ⟨⟨ps', hbefore⟩, hlegal⟩ := hrun.before
  obtain ⟨h', poisoned, last, fc, hown, -, rfl⟩ :=
    (hrun.every_pre workers_meets _ st₂ a₂ rfl c _ hswap).swap_inv
  have hunedited₁ : ∀ st' ∈ st :: a, edits st' = false := by
    intro st' hst'
    refine hunedited st' ?_
    rw [← List.cons_append]
    exact List.mem_append_left _ hst'
  have hcontents₂ : contentsOf st₂.pre.file = some contents := by
    rw [file_of_unedited hbefore rfl hunedited₁]
    exact hcontents
  refine bundleOf_since hrun hfree hswap ((lastHash_holder hbefore hfree c).mpr (hown ▸ beforeSwap_holds)) hcontents₂
    ?_ ?_ rfl fun st' hst' => hunedited st' (List.mem_cons_of_mem _ (List.mem_append_right a hst'))
  · -- the load stands between the hash and the swap
    have hload : ⟨.loadConfig, .ok fc⟩ ∈ history c a := by
      have hmem₂ : (⟨.loadConfig, .ok fc⟩ : Event (sig P)) ∈ history c (before ++ st :: a) := by
        rw [hown]
        simp [beforeSwap]
      rw [history_hashed hbefore hhash] at hmem₂
      simpa using hmem₂
    obtain ⟨a₀, st₁, a₁, rfl, hload₁⟩ := once_of_mem_history hload
    have hbundle : BundleOf P contents (bundleFromFileCfg fc) := by
      rw [← List.cons_append, ← List.append_assoc] at hbefore
      obtain ⟨⟨ps₁, hbefore₁⟩, hlegal₁⟩ := hbefore.before
      refine bundleOf_of_loads hload₁ hlegal₁ ?_
      rw [file_of_unedited hbefore₁ rfl fun st' hst' => hunedited₁ st' ?_]
      · exact hcontents
      · rw [← List.cons_append]
        exact List.mem_append_left _ hst'
    obtain ⟨pre, label, post⟩ := st₂
    obtain rfl : label = _ := hswap
    obtain rfl := legal_swapCurrent hlegal
    exact hbundle
  · intro later h₂ poisoned₂ last₂ fc₂ _ hown₂
    have hlength := congrArg List.length hown₂
    rw [hown] at hlength
    simp [beforeSwap, looked] at hlength

end Served

/-- A connection that has hashed the file is served with the bundle of what is on disk now, if the file has been left
alone since. -/
def ServedFresh (before : Trace (sig P) Daemon Tid Env) (st : Step (sig P) Daemon Tid Env) : Prop :=
  ∀ c loaded h b hst a, st.label = .thread c ⟨.snapshot, loaded⟩ → before = b ++ hst :: a → Hashes c h hst →
    (∀ st' ∈ hst :: a, edits st' = false) →
    ∃ contents, contentsOf st.pre.file = some contents ∧ BundleOf P contents loaded.bundle

section Daemon

variable {secrets : SecretFiles} {rounds : Nat} {s₁ : Daemon} {tr₀ : Trace (sig P) Daemon Tid Env}
  {ps₁ : Pool (sig P) Tid (Except String Started)} {main : Tid} {d : Started} {uidOf : Conn → Uid}
  {channel : Conn → Channel}

/-- **An edit is seen by every connection after it**, in every run of the daemon from its start on in which the
contents that are loaded are each time the contents that are hashed, whatever the other connections do. -/
theorem edits_are_served (hstart : Run (world P) s₀ (fun _ => runDaemon P secrets rounds) tr₀ s₁ ps₁)
    (hd : ps₁ main = .ret (.ok d)) (hhashed : Every HashedAsLoaded tr₀)
    (hrun : Run (world P) (d.daemon s₁.file s₁.files uidOf channel s₁.now s₁.unixSecs)
      (workers P approver approvalMutex) tr s ps) (hloaded : Every LoadedAsHashed tr)
    (hinjective : Function.Injective P.sha256) : Every ServedFresh tr := by
  intro before st after htr c loaded h b hst a hlabel hbefore hhash hunedited
  subst htr hbefore
  have hinitial := started_describes hstart hhashed hd
  obtain ⟨own, hown, hreload⟩ := (hrun.every_pre workers_meets _ st after rfl c _ hlabel).snapshot_reload
  obtain ⟨⟨ps', hprefix⟩, hlegal⟩ := hrun.before
  obtain ⟨contents, hcontents, hsha⟩ := contents_hashed hprefix hhash
  have hfile : contentsOf st.pre.file = some contents := by
    rw [file_of_unedited hprefix rfl hunedited]
    exact hcontents
  refine ⟨contents, hfile, ?_⟩
  have hloadedWith : loaded = st.pre.current := by
    obtain ⟨pre, label, post⟩ := st
    obtain rfl : label = _ := hlabel
    exact (legal_snapshot hlegal).1
  rw [hloadedWith]
  have htail : own = ⟨.configHash, .ok h⟩ :: history c a := by
    rw [history_hashed hprefix hhash] at hown
    exact (List.cons.inj hown).2.symm
  subst htail
  generalize hafter : history c a = rest at hreload
  generalize hall : (⟨.configHash, .ok h⟩ : Event (sig P)) :: rest = all at hreload
  cases hreload with
  | unlocked hreloaded =>
      cases hreloaded with
      | @same h' poisoned =>
          obtain ⟨hh, hrest⟩ := List.cons.inj hall
          cases hh
          refine bundleOf_of_same hprefix hhash hunedited rfl hinjective hinitial hloaded.of_append hcontents hsha ?_
          simp [hafter, hrest]
      | @loaded h' poisoned last fc hne =>
          obtain ⟨-, hrest⟩ := List.cons.inj hall
          refine bundleOf_of_loaded hprefix hhash hunedited rfl hcontents (b := bundleFromFileCfg fc) ?_
          simp [hafter, hrest]

end Daemon

/-- The file is edited, and a connection that comes then is served. -/
def editServedRun : Option (Point (sig editPlatform) Daemon Tid Env (Except IoError Unit)) :=
  replay (world editPlatform) ⟨[], oldServing (utf8 oldToml) oldToml, editWorkers⟩
    (.env (.editConfig (onDisk newToml)) :: List.replicate 10 (.thread 0 (smooth 55 .denied)))

theorem editServedRun_steps :
    ∃ c, editServedRun = some c ∧
      Run (world editPlatform) (oldServing (utf8 oldToml) oldToml) editWorkers c.trace c.state c.pool ∧
      (∀ st ∈ c.trace.dropWhile (!hashing ·), edits st = false) ∧
      ∃ b hst a st loaded, c.trace = (b ++ hst :: a) ++ [st] ∧ Hashes 0 (utf8 newToml) hst ∧
        st.label = .thread 0 ⟨.snapshot, loaded⟩ ∧ st.pre.file = onDisk newToml ∧
        ∀ st' ∈ hst :: a, edits st' = false := by
  obtain ⟨c, hc⟩ : ∃ c, editServedRun = some c := ⟨_, rfl⟩
  refine ⟨c, hc, run_of_replay .start hc, ?_⟩
  have hsteps : ∃ hst st loaded, c.trace = (c.trace.take 2 ++ hst :: (c.trace.drop 3).take 7) ++ [st] ∧
      Hashes 0 (utf8 newToml) hst ∧ st.label = .thread 0 ⟨.snapshot, loaded⟩ ∧ st.pre.file = onDisk newToml := by
    obtain rfl := Option.some.inj hc
    exact ⟨_, _, _, rfl, rfl, rfl, rfl⟩
  have hquiet : ∀ st ∈ c.trace.dropWhile (!hashing ·), edits st = false := by
    obtain rfl := Option.some.inj hc
    decide +kernel
  obtain ⟨hst, st, loaded, htrace, hhash, hlabel, hfile⟩ := hsteps
  refine ⟨hquiet, _, hst, _, st, loaded, htrace, hhash, hlabel, hfile, fun st' hst' => hquiet st' ?_⟩
  have hlabel' : hst.label = .thread 0 ⟨.configHash, .ok (utf8 newToml)⟩ := hhash
  rw [htrace]
  exact mem_dropWhile_of_stop (by simp [hashing, hlabel']) hst'

/-- It gets the policy of the new file. -/
theorem editServedRun_fresh :
    ∃ c before st loaded, editServedRun = some c ∧ c.trace = before ++ [st] ∧
      st.label = .thread 0 ⟨.snapshot, loaded⟩ ∧ BundleOf editPlatform (utf8 newToml) loaded.bundle := by
  obtain ⟨c₀, hc₀⟩ : ∃ c, steadyStart = some c := ⟨_, rfl⟩
  obtain ⟨c, hc, hrun, hquiet, b, hst, a, st, loaded, htrace, hhash, hlabel, hfile, hunedited⟩ := editServedRun_steps
  have hstart : Run (world editPlatform) (emptyDaemon oldToml) startingDaemons c₀.trace c₀.state c₀.pool :=
    run_of_replay .start hc₀
  have hsteady : ∀ st ∈ c₀.trace, edits st = false := by
    obtain rfl := Option.some.inj hc₀
    decide +kernel
  have hstarted : c₀.pool 0 = .ret (.ok (oldStarted (utf8 oldToml))) := by
    obtain rfl := Option.some.inj hc₀
    rfl
  have hhashed := hashedAsLoaded_of_unedited hstart hsteady
  have hloaded := loadedAsHashed_of_unedited hrun hquiet
  obtain rfl := Option.some.inj hc₀
  obtain ⟨contents, hcontents, hbundle⟩ := edits_are_served hstart hstarted hhashed hrun hloaded
    (fun _ _ h => h) _ st [] htrace 0 loaded (utf8 newToml) b hst a hlabel rfl hhash hunedited
  rw [hfile] at hcontents
  obtain rfl : utf8 newToml = contents := Option.some.inj hcontents
  exact ⟨c, _, st, loaded, hc, htrace, hlabel, hbundle⟩

end Sudix
