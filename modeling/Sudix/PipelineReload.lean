import Sudix.ScopingTrace
import Sudix.Startup

/-! Approvals and reloads. The approval state is replaced in a step of its own after the bundle has
been swapped, and requests in flight keep the bundle they have snapshotted. An entry is read under
the bundle it was written under as long as no request writes or reads the state in an epoch, from one
replacement to the next, of another bundle than its own. -/

namespace Sudix

open Concurrent

variable {P : Platform} {approver : Approver} {approvalMutex : Bool} {s₀ s : Daemon}
  {ps : Pool (sig P) Tid (Except IoError Unit)} {tr : Trace (sig P) Daemon Tid Env} {first loaded : Loaded}

/-- The bundle in force when the approval state was last replaced, `first` at the start. -/
def epoch (first : Loaded) (tr : Trace (sig P) Daemon Tid Env) : Loaded :=
  tr.foldl (fun loaded st => if resets st then st.pre.current else loaded) first

theorem epoch_snoc (st : Step (sig P) Daemon Tid Env) :
    epoch first (tr ++ [st]) = if resets st then st.pre.current else epoch first tr := by
  simp [epoch, List.foldl_append]

theorem resets_iff {st : Step (sig P) Daemon Tid Env} : resets st = true ↔ Resets st := by
  obtain ⟨pre, label, post⟩ := st
  constructor
  · intro h
    unfold resets at h
    split at h
    · rename_i t answer hlabel
      exact ⟨t, hlabel⟩
    · cases h
  · rintro ⟨t, hlabel⟩
    obtain rfl : label = _ := hlabel
    rfl

theorem epoch_append {before after : Trace (sig P) Daemon Tid Env} (h : ∀ st ∈ after, ¬ Resets st) :
    epoch first (before ++ after) = epoch first before := by
  induction after using List.reverseRecOn with
  | nil => rw [List.append_nil]
  | append_singleton after st ih =>
      have hst : ¬ resets st = true := fun hreset => h st (by simp) (resets_iff.mp hreset)
      rw [← List.append_assoc, epoch_snoc, if_neg hst]
      exact ih fun st' hst' => h st' (List.mem_append_left _ hst')

/-- The step is one of a request decided under the bundle `loaded`. -/
def Under (loaded : Loaded) (tr : Trace (sig P) Daemon Tid Env) (st : Step (sig P) Daemon Tid Env) : Prop :=
  ∃ t event, st.label = .thread t event ∧ ⟨.snapshot, loaded⟩ ∈ history t tr

theorem Under.append {st : Step (sig P) Daemon Tid Env} (h : Under loaded tr st)
    (after : Trace (sig P) Daemon Tid Env) : Under loaded (tr ++ after) st := by
  obtain ⟨t, event, hlabel, hmem⟩ := h
  refine ⟨t, event, hlabel, ?_⟩
  rw [history_append]
  exact List.mem_append_left _ hmem

/-- The operations that write into the approval state what later requests look at. -/
def Op.recording : Op → Bool
  | .recordApproval _ _ _ | .recordCacheHit _ _ => true
  | _ => false

/-- The window an `is_rate_limited` of the rule counts in. -/
def windowOf (ruleIndex : Nat) (s : Daemon) : List Instant :=
  prune ((checkedSub s.now rateWindow).getD s.now) (s.approvals.rate ruleIndex)

/-- The recordings that are counted: the latest ones, as many as there are times in the window. -/
def counted (ruleIndex : Nat) (before : Trace (sig P) Daemon Tid Env) (s : Daemon) :
    List (Step (sig P) Daemon Tid Env) :=
  (noted ruleIndex before).drop ((noted ruleIndex before).length - (windowOf ruleIndex s).length)

/-- A cache hit is on an entry that was recorded under the bundle of the request that hits. -/
def HitsOwnBundle (before : Trace (sig P) Daemon Tid Env) (st : Step (sig P) Daemon Tid Env) : Prop :=
  ∀ t scopes ruleIndex argv, st.label = .thread t ⟨.checkCache scopes ruleIndex argv, .hit⟩ →
    ∃ loaded, Under loaded before st ∧
      Since (fun st' => Resets st' ∨ CachesApproval ruleIndex argv st')
        (fun _ st' => CachesApproval ruleIndex argv st' ∧ Under loaded before st') before

/-- The times a rate check counts were recorded under the bundle of the request that checks. -/
def CountsOwnBundle (before : Trace (sig P) Daemon Tid Env) (st : Step (sig P) Daemon Tid Env) : Prop :=
  ∀ t scopes ruleIndex limited, st.label = .thread t ⟨.isRateLimited scopes ruleIndex, limited⟩ →
    0 < limitOf scopes ruleIndex →
      ∃ loaded, Under loaded before st ∧ ∀ st' ∈ counted ruleIndex before st.pre, Under loaded before st'

/-- A request records in an epoch of its own bundle. -/
def RecordsInEpoch (first : Loaded) (before : Trace (sig P) Daemon Tid Env)
    (st : Step (sig P) Daemon Tid Env) : Prop :=
  ∀ t event, st.label = .thread t event → event.op.recording = true → Under (epoch first before) before st

/-- A request that finds something in the approval state finds it in an epoch of its own bundle. -/
def ReadsInEpoch (first : Loaded) (before : Trace (sig P) Daemon Tid Env)
    (st : Step (sig P) Daemon Tid Env) : Prop :=
  (∀ t scopes ruleIndex argv verdict, st.label = .thread t ⟨.checkCache scopes ruleIndex argv, verdict⟩ →
      checkCache st.pre.approvals scopes ruleIndex argv st.pre.now = .hit → Under (epoch first before) before st) ∧
    ∀ t scopes ruleIndex limited, st.label = .thread t ⟨.isRateLimited scopes ruleIndex, limited⟩ →
      0 < limitOf scopes ruleIndex → windowOf ruleIndex st.pre ≠ [] → Under (epoch first before) before st

/-- What is noted since the last reset is of the epoch's bundle. -/
theorem noted_under (hrecords : Every (RecordsInEpoch first) tr) {ruleIndex : Nat} :
    ∀ st ∈ noted ruleIndex tr, Under (epoch first tr) tr st := by
  induction tr using List.reverseRecOn with
  | nil => simp [noted]
  | append_singleton tr st ih =>
      obtain ⟨hold, hnew⟩ := every_snoc.mp hrecords
      intro st' hst'
      rw [noted_snoc] at hst'
      rw [epoch_snoc]
      by_cases hreset : resets st = true
      · rw [if_pos hreset] at hst'
        cases hst'
      · rw [if_neg hreset] at hst' ⊢
        by_cases hnote : notes ruleIndex st = true
        · rw [if_pos hnote] at hst'
          rcases List.mem_append.mp hst' with hst' | hst'
          · exact (ih hold st' hst').append _
          · obtain rfl := List.mem_singleton.mp hst'
            refine Under.append ?_ _
            obtain ⟨pre, label, post⟩ := st'
            unfold notes at hnote
            split at hnote
            · rename_i hlabel
              exact hnew _ _ hlabel rfl
            · rename_i hlabel
              exact hnew _ _ hlabel rfl
            · cases hnote
        · rw [if_neg hnote] at hst'
          exact (ih hold st' hst').append _

/-- The latest recording of a key since the last reset is of the epoch's bundle. -/
theorem since_under (hrecords : Every (RecordsInEpoch first) tr) {ruleIndex : Nat} {argv : List String}
    {Q : Trace (sig P) Daemon Tid Env → Step (sig P) Daemon Tid Env → Prop}
    (hQ : ∀ before st, Q before st → CachesApproval ruleIndex argv st)
    (h : Since (fun st => Resets st ∨ CachesApproval ruleIndex argv st) Q tr) :
    Since (fun st => Resets st ∨ CachesApproval ruleIndex argv st)
      (fun before st => Q before st ∧ Under (epoch first tr) tr st) tr := by
  obtain ⟨before, st, after, rfl, hst, hafter⟩ := h
  refine ⟨before, st, after, rfl, ⟨hst, ?_⟩, hafter⟩
  obtain ⟨t, scopes, hlabel, -⟩ := hQ _ _ hst
  have hepoch : epoch first (before ++ st :: after) = epoch first before := by
    refine epoch_append fun st' hst' hreset => ?_
    rcases List.mem_cons.mp hst' with rfl | hst'
    · obtain ⟨t', hreset⟩ := hreset
      rw [hlabel] at hreset
      cases hreset
    · exact hafter st' hst' (.inl hreset)
  rw [hepoch]
  exact (hrecords before st after rfl t _ hlabel rfl).append _

def isSnapshot (event : Event (sig P)) : Bool :=
  match event.op with
  | .snapshot => true
  | _ => false

theorem ReloadDone.countP_snapshot {own : History (sig P)} {result : Except ConfigError Unit}
    (h : ReloadDone own result) : own.countP isSnapshot = 0 := by
  cases h with
  | unreadable => rfl
  | unlocked hreloaded => cases hreloaded <;> rfl

theorem WorkerStage.snapshot_inv {c : Conn} {own : History (sig P)}
    (h : WorkerStage c approver approvalMutex own .snapshot) : own.countP isSnapshot = 0 := by
  cases h with
  | connection hconnection =>
      cases hconnection with
      | reload hreload => cases hreload
      | snapshot hreload =>
          rw [List.countP_cons_of_neg (by simp [isSnapshot])]
          exact hreload.countP_snapshot
      | read _ _ hread => cases hread
      | request _ hrequest => cases hrequest.requesting
      | register _ hregister => cases hregister
      | respond _ hwrite => cases hwrite

section Run

variable (hrun : Run (world P) s₀ (workers P approver approvalMutex) tr s ps)

include hrun

/-- A request is decided under one bundle. -/
theorem under_unique {loaded loaded' : Loaded} {st : Step (sig P) Daemon Tid Env} (h : Under loaded tr st)
    (h' : Under loaded' tr st) : loaded = loaded' := by
  obtain ⟨t, event, hlabel, hmem⟩ := h
  obtain ⟨t', event', hlabel', hmem'⟩ := h'
  rw [hlabel] at hlabel'
  obtain ⟨rfl, rfl⟩ := Label.thread.inj hlabel'
  have honce := countP_history_le_one (q := isSnapshot)
    ((hrun.every_pre workers_meets).mono fun before st h u event hlabel hsnapshot => by
      have hstage := h u event hlabel
      obtain ⟨op, answer⟩ := event
      cases op with
      | snapshot => exact hstage.snapshot_inv
      | _ => cases hsnapshot) t
  have heq := eq_of_countP_le_one honce hmem hmem' rfl rfl
  cases heq
  rfl

/-- A request has a bundle when it comes to look at the approval state. -/
theorem request_under :
    Every (fun before (st : Step (sig P) Daemon Tid Env) => ∀ t event, st.label = .thread t event →
      event.op.deciding = true → ∃ loaded, Under loaded before st) tr := by
  intro before st after heq t event hlabel hop
  have hstage := hrun.every_pre workers_meets before st after heq t event hlabel
  obtain ⟨own₁, loaded, callerUid, req, own₂, hadmitted, -, hown⟩ := hstage.request_inv hop
  refine ⟨loaded, t, event, hlabel, ?_⟩
  rw [hown]
  simp [hadmitted.peerUid.2]

omit hrun in
/-- The recordings that are counted have the times of the window. -/
theorem counted_times {α : Type} {p₀ qs : Pool (sig P) Tid α} (hrun : Run (world P) s₀ p₀ tr s qs)
    (hempty : s₀.approvals = ApprovalState.new) (ruleIndex : Nat) :
    (counted ruleIndex tr s).map (fun st => st.pre.now) = windowOf ruleIndex s := by
  obtain ⟨dropped, hnoted, -⟩ := rate_noted hrun hempty ruleIndex
  obtain ⟨pruned, hpruned⟩ : ∃ pruned, s.approvals.rate ruleIndex = pruned ++ windowOf ruleIndex s :=
    ⟨_, (List.takeWhile_append_dropWhile).symm⟩
  rw [hpruned, ← List.append_assoc] at hnoted
  have hlen := congrArg List.length hnoted
  rw [List.length_map, List.length_append] at hlen
  rw [counted, List.map_drop, hnoted, hlen, Nat.add_sub_cancel, List.drop_left]

/-- **Reloads, exactly.** In every run of the daemon's workers in which requests record in epochs of
their own bundle, what cache hits and rate checks find was recorded under the bundle of the request
that finds it, if and only if requests find something in epochs of their own bundle only. -/
theorem reload_isolated_iff (hempty : s₀.approvals = ApprovalState.new)
    (hrecords : Every (RecordsInEpoch s₀.current) tr) :
    Every HitsOwnBundle tr ∧ Every CountsOwnBundle tr ↔ Every (ReadsInEpoch s₀.current) tr := by
  constructor
  · rintro ⟨hhits, hcounts⟩ before ⟨pre, label, post⟩ after rfl
    obtain ⟨⟨ps', hbefore⟩, hlegal⟩ := hrun.before
    have hrecorded := hrecords.of_append
    constructor
    · intro t scopes ruleIndex argv verdict hlabel hhit
      obtain rfl : label = _ := hlabel
      obtain rfl : verdict = .hit := (legal_checkCache hlegal).1.symm.trans hhit
      obtain ⟨loaded, hunder, hsince⟩ := hhits before _ after rfl t scopes ruleIndex argv rfl
      obtain ⟨_, st', _, -, ⟨-, hloaded⟩, hepoch⟩ := (since_under hrecorded (fun _ _ h => h.1) hsince).once
      rwa [under_unique hbefore hepoch hloaded]
    · intro t scopes ruleIndex limited hlabel hlimit hwindow
      obtain ⟨loaded, hunder, hcounted⟩ := hcounts before _ after rfl t scopes ruleIndex limited hlabel hlimit
      have hne : counted ruleIndex before pre ≠ [] := by
        intro hnil
        rw [← counted_times hbefore hempty, hnil] at hwindow
        exact hwindow rfl
      obtain ⟨st', hst'⟩ := List.exists_mem_of_ne_nil _ hne
      have hepoch := noted_under hrecorded st' (List.mem_of_mem_drop hst')
      rwa [under_unique hbefore hepoch (hcounted st' hst')]
  · intro hreads
    constructor
    · rintro before ⟨pre, label, post⟩ after rfl t scopes ruleIndex argv hlabel
      obtain ⟨⟨ps', hbefore⟩, hlegal⟩ := hrun.before
      obtain rfl : label = _ := hlabel
      have hhit := (legal_checkCache hlegal).1
      refine ⟨_, (hreads before _ after rfl).1 t scopes ruleIndex argv _ rfl hhit, ?_⟩
      obtain ⟨last, hentry, -⟩ := checkCache_eq_hit_iff.mp hhit
      have hsince := cache_since hbefore hempty _ _ _ hentry
      exact (since_under hrecords.of_append (fun _ _ h => h.1) hsince).mono
        (fun _ _ h => ⟨h.1.1, h.2⟩) fun _ h => h
    · rintro before ⟨pre, label, post⟩ after rfl t scopes ruleIndex limited hlabel hlimit
      obtain ⟨⟨ps', hbefore⟩, hlegal⟩ := hrun.before
      by_cases hwindow : windowOf ruleIndex pre = []
      · obtain ⟨loaded, hunder⟩ := request_under hrun before _ after rfl t _ hlabel rfl
        refine ⟨loaded, hunder, fun st' hst' => ?_⟩
        have hmem := List.mem_map_of_mem (f := fun st => st.pre.now) hst'
        rw [counted_times hbefore hempty, hwindow] at hmem
        cases hmem
      · refine ⟨_, (hreads before _ after rfl).2 t scopes ruleIndex limited hlabel hlimit hwindow, ?_⟩
        exact fun st' hst' => noted_under hrecords.of_append st' (List.mem_of_mem_drop hst')

end Run

/-- No step belongs to a reload. -/
def Unreloaded (tr : Trace (sig P) Daemon Tid Env) : Prop :=
  ∀ st ∈ tr, writes Op.writesCurrent st.label = false ∧ resets st = false

instance : Decidable (Unreloaded tr) := inferInstanceAs (Decidable (∀ st ∈ tr, _ ∧ _))

theorem Unreloaded.of_append {after : Trace (sig P) Daemon Tid Env} (h : Unreloaded (tr ++ after)) :
    Unreloaded tr := fun st hst => h st (List.mem_append_left _ hst)

theorem current_of_unreloaded {α : Type} {p₀ qs : Pool (sig P) Tid α} (hrun : Run (world P) s₀ p₀ tr s qs)
    (h : Unreloaded tr) : s.current = s₀.current := by
  revert h
  refine hrun.world_invariant (I := fun tr s => Unreloaded tr → s.current = s₀.current) (fun _ => rfl) ?_
  intro tr st ih hlegal h
  rw [legal_current hlegal (h st (by simp)).1]
  exact ih h.of_append

def reloadPlatform : Platform :=
  { Platform.bare with
    json := SerdeJson.ofTables helloTexts [] [] []
    parseToml := fun raw => if raw = newToml then .ok newConfig else .error "unknown"
    sha256 := id }

def reloadDaemon : Daemon :=
  Daemon.start (onDisk oldToml) ⟨.ok, fun _ => true⟩ (bundleFromFileCfg (E := reloadPlatform.regex) ⟨oldConfig, rfl⟩)
    (some (utf8 oldToml)) (fun _ => 1000) (fun _ => arrived idLine) (100 * nanosPerSec) 0

def reloadWorkers : Pool (sig reloadPlatform) Tid (Except IoError Unit) := workers reloadPlatform .external false

/-- While the first request waits for its approval, the second one reloads; the first one then records
what the second one finds. -/
def reloadRun : Option (Point (sig reloadPlatform) Daemon Tid Env (Except IoError Unit)) :=
  replay (world reloadPlatform) ⟨[], reloadDaemon, reloadWorkers⟩
    (List.replicate 14 (.thread 0 (smooth 55 .allowed)) ++ [.env (.editConfig (onDisk newToml))] ++
      List.replicate 13 (.thread 1 (smooth 55 .denied)) ++ [.thread 0 (smooth 0 .allowed)] ++
      List.replicate 4 (.thread 1 (smooth 0 .denied)))

/-- The generations of the bundles a thread has snapshotted. -/
def generations (t : Tid) (tr : Trace (sig P) Daemon Tid Env) : List Nat :=
  (history t tr).filterMap fun event =>
    match event with
    | ⟨.snapshot, loaded⟩ => some loaded.generation
    | _ => none

theorem mem_generations {t : Tid} (h : ⟨.snapshot, loaded⟩ ∈ history t tr) :
    loaded.generation ∈ generations t tr :=
  List.mem_filterMap.mpr ⟨_, h, rfl⟩

/-- The thread a step records an approval for. -/
def recordingThread (st : Step (sig P) Daemon Tid Env) : Option Tid :=
  match st.label with
  | .thread t ⟨.recordApproval _ _ _, _⟩ => some t
  | _ => none

/-- The hit, and what the threads have snapshotted before it. -/
theorem reloadRun_steps :
    ∃ c, reloadRun = some c ∧ Run (world reloadPlatform) reloadDaemon reloadWorkers c.trace c.state c.pool ∧
      (∃ h : 32 < c.trace.length,
        c.trace[32].label = .thread 1 ⟨.checkCache [⟨60, 0⟩] 0 ["id"], .hit⟩) ∧
      (c.trace.take 32).filterMap recordingThread = [0] ∧
      generations 0 (c.trace.take 32) = [0] ∧ generations 1 (c.trace.take 32) = [1] := by
  obtain ⟨c, hc⟩ : ∃ c, reloadRun = some c := ⟨_, rfl⟩
  refine ⟨c, hc, run_of_replay .start hc, ?_⟩
  obtain rfl := Option.some.inj hc
  exact ⟨⟨by decide +kernel, rfl⟩, rfl, rfl, rfl⟩

/-- The second request hits the entry that the first one has recorded under the bundle before. -/
theorem hit_of_older_bundle :
    ∃ c, reloadRun = some c ∧ Run (world reloadPlatform) reloadDaemon reloadWorkers c.trace c.state c.pool ∧
      ¬ Every HitsOwnBundle c.trace := by
  obtain ⟨c, hc, hrun, ⟨hlen, hhit⟩, hrecorded, hold, hnew⟩ := reloadRun_steps
  refine ⟨c, hc, hrun, fun hhits => ?_⟩
  obtain ⟨loaded, ⟨t, event, hlabel, hmem⟩, hsince⟩ := hhits.getElem 32 hlen 1 _ _ _ hhit
  rw [hhit] at hlabel
  obtain ⟨rfl, -⟩ := Label.thread.inj hlabel
  obtain ⟨before, st, after, heq, ⟨t, scopes, hrecord, -⟩, t', event', hlabel', hmem'⟩ := hsince.once
  rw [hrecord] at hlabel'
  obtain ⟨rfl, -⟩ := Label.thread.inj hlabel'
  have ht : t ∈ (c.trace.take 32).filterMap recordingThread :=
    List.mem_filterMap.mpr ⟨st, by simp [heq], by simp [recordingThread, hrecord]⟩
  rw [hrecorded, List.mem_singleton] at ht
  subst ht
  have hgeneration := mem_generations hmem
  have hgeneration' := mem_generations hmem'
  rw [hnew, List.mem_singleton] at hgeneration
  rw [hold, List.mem_singleton, hgeneration] at hgeneration'
  cases hgeneration'

/-- One request ends before the edit, the second one reloads and ends, and the third one, under the same bundle as
the second one, hits what that one has recorded. -/
def turnoverRun : Option (Point (sig reloadPlatform) Daemon Tid Env (Except IoError Unit)) :=
  replay (world reloadPlatform) ⟨[], reloadDaemon, reloadWorkers⟩
    (List.replicate 19 (.thread 0 (smooth 55 .allowed)) ++ [.env (.editConfig (onDisk newToml))] ++
      List.replicate 23 (.thread 1 (smooth 55 .allowed)) ++ List.replicate 13 (.thread 2 (smooth 55 .denied)))

/-- Whether the step is one in which a request records. -/
def recordsApproval (st : Step (sig P) Daemon Tid Env) : Bool :=
  match st.label with
  | .thread _ event => event.op.recording
  | .env _ => false

/-- Each of the two requests that record does so in the epoch of its bundle. -/
theorem turnoverRun_records :
    ∃ c, turnoverRun = some c ∧ Run (world reloadPlatform) reloadDaemon reloadWorkers c.trace c.state c.pool ∧
      Every (RecordsInEpoch reloadDaemon.current) c.trace ∧
      (∃ h : 26 < c.trace.length, resets c.trace[26] = true) ∧
      ∃ h : 55 < c.trace.length, c.trace[55].label = .thread 2 ⟨.checkCache [⟨60, 0⟩] 0 ["id"], .hit⟩ := by
  obtain ⟨c, hc⟩ : ∃ c, turnoverRun = some c := ⟨_, rfl⟩
  have hat : ∀ i (hi : i < c.trace.length), recordsApproval c.trace[i] = true → i = 14 ∨ i = 38 := by
    obtain rfl := Option.some.inj hc
    decide +kernel
  have hfirst : ∀ h : 14 < c.trace.length,
      Under (epoch reloadDaemon.current (c.trace.take 14)) (c.trace.take 14) c.trace[14] := by
    obtain rfl := Option.some.inj hc
    exact fun h => ⟨_, _, rfl, List.mem_of_getElem? (i := 5) rfl⟩
  have hsecond : ∀ h : 38 < c.trace.length,
      Under (epoch reloadDaemon.current (c.trace.take 38)) (c.trace.take 38) c.trace[38] := by
    obtain rfl := Option.some.inj hc
    exact fun h => ⟨_, _, rfl, List.mem_of_getElem? (i := 9) rfl⟩
  refine ⟨c, hc, run_of_replay .start hc, Every.of_getElem fun i hi => ?_, ?_⟩
  · intro t event hlabel hop
    have hrecords : recordsApproval c.trace[i] = true := by
      rw [recordsApproval, hlabel]
      exact hop
    rcases hat i hi hrecords with rfl | rfl
    · exact hfirst hi
    · exact hsecond hi
  · obtain rfl := Option.some.inj hc
    exact ⟨⟨by decide +kernel, rfl⟩, by decide +kernel, rfl⟩

theorem turnoverRun_isolated :
    ∃ c, turnoverRun = some c ∧ (∃ h : 26 < c.trace.length, resets c.trace[26] = true) ∧
      (∃ h : 55 < c.trace.length, c.trace[55].label = .thread 2 ⟨.checkCache [⟨60, 0⟩] 0 ["id"], .hit⟩) ∧
      (Every HitsOwnBundle c.trace ∧ Every CountsOwnBundle c.trace ↔
        Every (ReadsInEpoch reloadDaemon.current) c.trace) := by
  obtain ⟨c, hc, hrun, hrecords, hreset, hhit⟩ := turnoverRun_records
  exact ⟨c, hc, hreset, hhit, reload_isolated_iff hrun rfl hrecords⟩

end Sudix
