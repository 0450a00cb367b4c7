import Sudix.LockHolder
import Sudix.Startup

/-! The hash that is recorded with the bundle in force. It is taken from one read of the config file and
the bundle from another, so it describes the bundle as long as both reads see the same contents. -/

namespace Sudix

open Concurrent

variable {P : Platform} {approver : Approver} {approvalMutex : Bool} {c : Conn} {own : History (sig P)}
  {op : Op}

/-- What a reload performs. -/
def Op.reloading : Op → Bool
  | .configHash | .readLastHash | .loadConfig | .swapCurrent _ | .resetApprovals | .storeLastHash _ => true
  | .lock l | .unlock l => l = .lastHash
  | _ => false

theorem Op.prompting.not_reloading (h : op.prompting c = true) : op.reloading = false := by
  cases op with
  | lock l | unlock l =>
      obtain rfl : l = .stream c := of_decide_eq_true h
      rfl
  | _ => first | rfl | cases h

theorem Op.awaiting.not_reloading (h : op.awaiting = true) : op.reloading = false := by
  cases op <;> first | rfl | cases h

theorem AgentStage.not_reloading {callerUid : Uid} {req : Request} (h : AgentStage callerUid req own op) :
    op.reloading = false := by
  cases h with
  | await hawait => exact Op.awaiting.not_reloading hawait.only.1
  | prompt _ hprompt => exact Op.prompting.not_reloading hprompt.only.1
  | _ => rfl

theorem Approver.Stage.not_reloading {callerUid : Uid} {req : Request}
    (h : approver.Stage callerUid req own op) : op.reloading = false := by
  cases h with
  | consult => rfl
  | totp htotp => cases htotp <;> rfl
  | agent hagent => exact hagent.not_reloading

theorem GateStage.not_reloading {callerUid : Uid} {req : Request}
    (h : GateStage approver callerUid req approvalMutex own op) : op.reloading = false := by
  cases h with
  | ungated happrove | held happrove => exact happrove.not_reloading
  | _ => rfl

theorem RequestStage.not_reloading {ctx : RequestCtx} {req : Request}
    (h : RequestStage ctx approver approvalMutex req own op) : op.reloading = false := by
  cases h with
  | approve _ hgate => exact hgate.not_reloading
  | _ => rfl

/-- A worker reloads first of all. -/
theorem WorkerStage.reload_inv (h : WorkerStage c approver approvalMutex own op) (hop : op.reloading = true) :
    ∃ own', own = ⟨.acquireSlot, ()⟩ :: own' ∧ ReloadStage own' op := by
  cases h with
  | connection hconnection =>
      cases hconnection with
      | reload hreload => exact ⟨_, rfl, hreload⟩
      | read _ _ hread =>
          cases hread
          cases hop
      | request _ hrequest =>
          rw [hrequest.not_reloading] at hop
          cases hop
      | register _ hregister => cases hregister <;> cases hop
      | respond _ hwrite => cases hwrite <;> cases hop
      | _ => cases hop
  | _ => cases hop

theorem Reloaded.holds {result : Except ConfigError Unit} (h : Reloaded own result) : Holds .lastHash own := by
  cases h with
  | same | loaded _ | failed _ => simp [Holds, looked, swapped]

/-- The hash is locked once, and released only while it is held. -/
theorem worker_locks_lastHash (c : Conn) :
    LockedOnce .lastHash (WorkerStage (P := P) c approver approvalMutex) where
  lock own hstage := by
    obtain ⟨own', rfl, hreload⟩ := hstage.reload_inv rfl
    cases hreload
    simp [Untouched]
  unlock own hstage := by
    obtain ⟨own', rfl, hreload⟩ := hstage.reload_inv rfl
    cases hreload with
    | unlock hreloaded =>
        obtain ⟨⟨e, he, hlock⟩, hnone⟩ := hreloaded.holds
        refine ⟨⟨e, List.mem_cons_of_mem _ he, hlock⟩, fun e' he' => ?_⟩
        rcases List.mem_cons.mp he' with rfl | he'
        · exact nofun
        · exact hnone e' he'

section Operations

variable {s s' : Daemon} {t : Tid}

theorem legal_configHash {answer : Except IoError Hash}
    (h : Step.Legal (world P) ⟨s, .thread t ⟨.configHash, answer⟩, s'⟩) :
    answer = s.file.map (fun f => P.sha256 f.contents) ∧ s' = s := by
  obtain ⟨choice, hact⟩ := legal_act h
  cases hact
  exact ⟨rfl, rfl⟩

theorem legal_readLastHash {answer : Option Hash}
    (h : Step.Legal (world P) ⟨s, .thread t ⟨.readLastHash, answer⟩, s'⟩) :
    answer = s.lastHash ∧ s' = s := by
  obtain ⟨choice, hact⟩ := legal_act h
  cases hact
  exact ⟨rfl, rfl⟩

theorem legal_loadConfig {answer : Except ConfigError (ValidConfig P.regex)}
    (h : Step.Legal (world P) ⟨s, .thread t ⟨.loadConfig, answer⟩, s'⟩) :
    answer = loadWithChecks P.regex P.parseToml P.configPath P.enforcePerms s.file ∧ s' = s := by
  obtain ⟨choice, hact⟩ := legal_act h
  cases hact
  exact ⟨rfl, rfl⟩

theorem legal_swapCurrent {b : PolicyBundle} {answer : Unit}
    (h : Step.Legal (world P) ⟨s, .thread t ⟨.swapCurrent b, answer⟩, s'⟩) :
    s' = { s with current := ⟨b, s.generations⟩, generations := s.generations + 1 } := by
  obtain ⟨choice, hact⟩ := legal_act h
  cases hact
  rfl

theorem legal_storeLastHash {h : Hash} {answer : Unit}
    (hlegal : Step.Legal (world P) ⟨s, .thread t ⟨.storeLastHash h, answer⟩, s'⟩) :
    s' = { s with lastHash := some h } := by
  obtain ⟨choice, hact⟩ := legal_act hlegal
  cases hact
  rfl

/-- Only a reload records a hash. -/
theorem act_lastHash {choice : Choice op} {answer : Answer P op} (h : act P s t op choice = some (answer, s'))
    (hop : ∀ h, op ≠ .storeLastHash h) : s'.lastHash = s.lastHash := by
  cases op
  case storeLastHash h' => exact absurd rfl (hop h')
  all_goals
    simp only [act] at h
    repeat' split at h
    all_goals first
      | cases h
        done
      | cases h
        rfl

theorem env_lastHash {event : Env} (h : env P s event = some s') : s'.lastHash = s.lastHash := by
  rcases env_changes h with ⟨_, rfl⟩ | ⟨_, rfl⟩ | ⟨_, _, rfl⟩ | ⟨_, rfl⟩ | ⟨_, _, rfl⟩
  all_goals rfl

theorem legal_lastHash {st : Step (sig P) Daemon Tid Env} (hlegal : st.Legal (world P))
    (hstore : ∀ t h, st.label ≠ .thread t ⟨.storeLastHash h, ()⟩) : st.post.lastHash = st.pre.lastHash := by
  obtain ⟨pre, label, post⟩ := st
  cases label with
  | thread t event =>
      obtain ⟨choice, hact⟩ := hlegal
      refine act_lastHash hact fun h hop => ?_
      obtain ⟨op, answer⟩ := event
      obtain rfl : op = _ := hop
      exact hstore t h rfl
  | env event => exact env_lastHash hlegal

end Operations

/-- The step is an edit of the config file. -/
def edits (st : Step (sig P) Daemon Tid Env) : Bool :=
  match st.label with
  | .env (.editConfig _) => true
  | _ => false

theorem legal_file {st : Step (sig P) Daemon Tid Env} (hlegal : st.Legal (world P)) (hedit : edits st = false) :
    st.post.file = st.pre.file := by
  obtain ⟨pre, label, post⟩ := st
  cases label with
  | thread t event =>
      obtain ⟨choice, hact⟩ := hlegal
      exact (act_frame hact).file
  | env event =>
      have hstep : env P pre event = some post := hlegal
      rcases env_changes hstep with ⟨_, rfl⟩ | ⟨_, rfl⟩ | ⟨file, rfl, _⟩ | ⟨_, rfl⟩ | ⟨_, _, rfl⟩
      case inr.inr.inl => cases hedit
      all_goals rfl

/-- Without an edit since a step, the file is as it was before it. -/
theorem file_of_unedited {α : Type} {s₀ s : Daemon} {p₀ ps : Pool (sig P) Tid α}
    {tr : Trace (sig P) Daemon Tid Env} (hrun : Run (world P) s₀ p₀ tr s ps)
    {before after : Trace (sig P) Daemon Tid Env} {st : Step (sig P) Daemon Tid Env} (htr : tr = before ++ st :: after)
    (hunedited : ∀ st' ∈ st :: after, edits st' = false) : s.file = st.pre.file := by
  refine hrun.world_invariant (I := fun tr s => ∀ before st after, tr = before ++ st :: after →
    (∀ st' ∈ st :: after, edits st' = false) → s.file = st.pre.file) ?_ ?_ before st after htr hunedited
  · intro before st after h
    simp at h
  · intro tr last ih hlegal before st after heq hunedited
    rcases snoc_eq_append_cons heq with ⟨rfl, rfl, rfl⟩ | ⟨after', rfl, rfl⟩
    · exact legal_file hlegal (hunedited _ List.mem_cons_self)
    · rw [legal_file hlegal (hunedited _ (by simp))]
      exact ih before st after' rfl fun st' hst' => hunedited st' (by
        rw [← List.cons_append]
        exact List.mem_append_left _ hst')

/-- The contents at the config path, if they can be read. -/
def contentsOf (disk : ConfigOnDisk) : Option (List UInt8) := disk.toOption.map ConfigFile.contents

variable (P) in
/-- The bundle is built from a config file with these contents. -/
def BundleOf (contents : List UInt8) (b : PolicyBundle) : Prop :=
  ∃ file fc, file.contents = contents ∧
    loadWithChecks P.regex P.parseToml P.configPath P.enforcePerms (.ok file) = .ok fc ∧ b = bundleFromFileCfg fc

/-- The contents determine the bundle; the mode and the owner only decide whether they are loaded. -/
theorem BundleOf.unique {contents : List UInt8} {b b' : PolicyBundle} (h : BundleOf P contents b)
    (h' : BundleOf P contents b') : b = b' := by
  obtain ⟨file, fc, rfl, hload, rfl⟩ := h
  obtain ⟨file', fc', hcontents, hload', rfl⟩ := h'
  obtain ⟨raw, hraw, hcfg⟩ := loadWithChecks_config hload
  obtain ⟨raw', hraw', hcfg'⟩ := loadWithChecks_config hload'
  rw [hcontents, hraw] at hraw'
  rw [← Option.some.inj hraw', hcfg] at hcfg'
  obtain ⟨cfg, hvalid⟩ := fc
  obtain ⟨cfg', hvalid'⟩ := fc'
  obtain rfl : cfg = cfg' := Except.ok.inj hcfg'
  rfl

variable (P) in
/-- A recorded hash is that of contents the bundle is built from. -/
def HashDescribes (lastHash : Option Hash) (b : PolicyBundle) : Prop :=
  ∀ h, lastHash = some h → ∃ contents, P.sha256 contents = h ∧ BundleOf P contents b

/-- Thread `t` hashes the config file, with this result. -/
def Hashes (t : Tid) (h : Hash) (st : Step (sig P) Daemon Tid Env) : Prop :=
  st.label = .thread t ⟨.configHash, .ok h⟩

/-- Thread `t` loads the config file, with this result. -/
def Loads (t : Tid) (fc : ValidConfig P.regex) (st : Step (sig P) Daemon Tid Env) : Prop :=
  st.label = .thread t ⟨.loadConfig, .ok fc⟩

/-- When `run_daemon` hashes the file, it has the contents that were loaded. -/
def HashedAsLoaded (before : Trace (sig P) Daemon Tid Env) (st : Step (sig P) Daemon Tid Env) : Prop :=
  ∀ t h, Hashes t h st →
    Once (fun _ st' => (∃ fc, Loads t fc st') ∧ contentsOf st'.pre.file = contentsOf st.pre.file) before

/-- When a reload loads the file, it has the contents that were hashed. -/
def LoadedAsHashed (before : Trace (sig P) Daemon Tid Env) (st : Step (sig P) Daemon Tid Env) : Prop :=
  ∀ t fc, Loads t fc st →
    Once (fun _ st' => (∃ h, Hashes t h st') ∧ contentsOf st'.pre.file = contentsOf st.pre.file) before

/-- Two reads of the same contents give a bundle and the hash of it. -/
theorem describes_of_reads {disk disk' : ConfigOnDisk} {fc : ValidConfig P.regex} {h : Hash}
    (hload : loadWithChecks P.regex P.parseToml P.configPath P.enforcePerms disk = .ok fc)
    (hhash : .ok h = disk'.map fun f => P.sha256 f.contents) (hsame : contentsOf disk = contentsOf disk') :
    HashDescribes P (some h) (bundleFromFileCfg fc) := by
  cases disk with
  | error e => cases hload
  | ok file =>
      cases disk' with
      | error e => cases hhash
      | ok file' =>
          intro h' hh'
          refine ⟨file.contents, ?_, file, fc, rfl, hload, rfl⟩
          have hcontents : file.contents = file'.contents := Option.some.inj hsame
          rw [hcontents, ← Option.some.inj hh']
          exact (Except.ok.inj hhash).symm

theorem describes_of_steps {t : Tid} {fc : ValidConfig P.regex} {h : Hash} {st st' : Step (sig P) Daemon Tid Env}
    (hload : Loads t fc st) (hlegal : st.Legal (world P)) (hhash : Hashes t h st') (hlegal' : st'.Legal (world P))
    (hsame : contentsOf st.pre.file = contentsOf st'.pre.file) : HashDescribes P (some h) (bundleFromFileCfg fc) := by
  obtain ⟨pre, label, post⟩ := st
  obtain ⟨pre', label', post'⟩ := st'
  obtain rfl : label = _ := hload
  obtain rfl : label' = _ := hhash
  exact describes_of_reads (legal_loadConfig hlegal).1.symm (legal_configHash hlegal').1 hsame

/-- The daemon starts with a hash that describes its bundle, if it hashes the contents it has loaded. -/
theorem started_describes {secrets : SecretFiles} {rounds : Nat} {s₀ s : Daemon}
    {ps : Pool (sig P) Tid (Except String Started)} {tr : Trace (sig P) Daemon Tid Env}
    (hrun : Run (world P) s₀ (fun _ => runDaemon P secrets rounds) tr s ps) (hhashed : Every HashedAsLoaded tr)
    {t : Tid} {d : Started} (hd : ps t = .ret (.ok d)) : HashDescribes P d.initialHash d.bundle := by
  have hdone : StartDone secrets rounds (history t tr) (.ok d) := hrun.result (fun _ => runDaemon_meets) hd
  generalize hown : history t tr = own at hdone
  cases hdone with
  | @started fileCfg hash setup _ =>
      cases hash with
      | error e => exact nofun
      | ok h =>
          have hmem : (⟨.configHash, .ok h⟩ : Event (sig P)) ∈ history t tr := by simp [hown]
          obtain ⟨before, st, after, rfl, hlabel⟩ := once_of_mem_history hmem
          obtain ⟨b, st', a, rfl, ⟨fc, hload⟩, hsame⟩ := hhashed before st after rfl t h hlabel
          have hfc : (⟨.loadConfig, .ok fc⟩ : Event (sig P)) ∈ history t (b ++ st' :: a ++ st :: after) := by
            rw [List.append_assoc, List.cons_append, history_split hload]
            simp
          rw [hown] at hfc
          obtain rfl : fc = fileCfg := by simpa using hfc
          have hlegal := hrun.every_legal
          exact describes_of_steps hload (hlegal.of_append b _ a rfl) hlabel (hlegal _ _ after rfl) hsame

/-- A thread that has put `b` in force and not recorded its hash. -/
def SwappedTo (b : PolicyBundle) (own : History (sig P)) : Prop :=
  (∃ e ∈ own, e.op = .swapCurrent b) ∧ ∀ e ∈ own, ∀ h, e.op ≠ .storeLastHash h

/-- The bundle in force is described by the recorded hash, except while a reload, which then holds the
lock, has swapped the bundle and not recorded its hash. -/
structure Described (tr : Trace (sig P) Daemon Tid Env) (s : Daemon) : Prop where
  swapped : ∀ t b, SwappedTo b (history t tr) → s.holder .lastHash = some t ∧ s.current.bundle = b
  settled : (∀ t b, ¬ SwappedTo b (history t tr)) → HashDescribes P s.lastHash s.current.bundle

theorem SwappedTo.of_snoc {b : PolicyBundle} {e : Event (sig P)} (h : SwappedTo b (own ++ [e]))
    (hop : e.op ≠ .swapCurrent b) : SwappedTo b own := by
  obtain ⟨⟨e', he', hswap⟩, hnone⟩ := h
  refine ⟨?_, fun e'' he'' => hnone e'' (List.mem_append_left _ he'')⟩
  rcases List.mem_append.mp he' with he' | he'
  · exact ⟨e', he', hswap⟩
  · obtain rfl := List.mem_singleton.mp he'
    exact absurd hswap hop

theorem SwappedTo.snoc {b : PolicyBundle} {e : Event (sig P)} (h : SwappedTo b own)
    (hop : ∀ h, e.op ≠ .storeLastHash h) : SwappedTo b (own ++ [e]) := by
  obtain ⟨⟨e', he', hswap⟩, hnone⟩ := h
  refine ⟨⟨e', List.mem_append_left _ he', hswap⟩, fun e'' he'' => ?_⟩
  rcases List.mem_append.mp he'' with he'' | he''
  · exact hnone e'' he''
  · obtain rfl := List.mem_singleton.mp he''
    exact hop

/-- Nothing is swapped before the swap, nor after the store. -/
theorem ReloadStage.not_swapped {b : PolicyBundle} (h : ReloadStage own op)
    (hop : op ≠ .resetApprovals ∧ ∀ h, op ≠ .storeLastHash h) : ¬ SwappedTo b own := by
  cases h with
  | reset => exact absurd rfl hop.1
  | store => exact absurd rfl (hop.2 _)
  | unlock hreloaded =>
      cases hreloaded with
      | @loaded h poisoned last fc _ => exact fun hswapped => hswapped.2 ⟨.storeLastHash h, ()⟩ (by simp) h rfl
      | _ => simp [SwappedTo, looked]
  | _ => simp [SwappedTo, looked]

section Step

variable {tr : Trace (sig P) Daemon Tid Env} {s s' : Daemon} {u : Tid}

theorem swappedTo_iff {b : PolicyBundle} {answer : Answer P op} (hswap : ∀ b, op ≠ .swapCurrent b)
    (hstore : ∀ h, op ≠ .storeLastHash h) (t : Tid) :
    SwappedTo b (history t (tr ++ [⟨s, .thread u ⟨op, answer⟩, s'⟩])) ↔ SwappedTo b (history t tr) := by
  rw [history_append]
  by_cases hu : u = t
  · subst hu
    rw [history_thread_self]
    exact ⟨fun h => h.of_snoc (hswap b), fun h => h.snoc hstore⟩
  · rw [history_thread_other hu, List.append_nil]

theorem Described.env {event : Env} (h : Described tr s) (hstep : Sudix.env P s event = some s') :
    Described (tr ++ [⟨s, .env event, s'⟩]) s' := by
  have hhistory : ∀ t, history t (tr ++ [⟨s, .env event, s'⟩]) = history t tr := fun t => by
    rw [history_append, history_env, List.append_nil]
  constructor
  · intro t b hswapped
    rw [hhistory] at hswapped
    rw [(env_frame hstep).holder, (env_frame hstep).current]
    exact h.swapped t b hswapped
  · intro hnone
    rw [env_lastHash hstep, (env_frame hstep).current]
    exact h.settled fun t b hswapped => hnone t b (by rwa [hhistory])

/-- An operation that swaps no bundle and records no hash. -/
theorem Described.quiet {answer : Answer P op} (h : Described tr s)
    (hlegal : Step.Legal (world P) ⟨s, .thread u ⟨op, answer⟩, s'⟩) (hswap : ∀ b, op ≠ .swapCurrent b)
    (hstore : ∀ h, op ≠ .storeLastHash h)
    (hholder : ∀ t b, SwappedTo b (history t tr) → s'.holder .lastHash = some t) :
    Described (tr ++ [⟨s, .thread u ⟨op, answer⟩, s'⟩]) s' := by
  obtain ⟨choice, hact⟩ := legal_act hlegal
  have hcurrent : s'.current = s.current := by
    refine (act_frame hact).current ?_
    cases op <;> first | rfl | exact absurd rfl (hswap _)
  constructor
  · intro t b hswapped
    have hbefore := (swappedTo_iff hswap hstore t).mp hswapped
    rw [hcurrent]
    exact ⟨hholder t b hbefore, (h.swapped t b hbefore).2⟩
  · intro hnone
    rw [act_lastHash hact hstore, hcurrent]
    exact h.settled fun t b hswapped => hnone t b ((swappedTo_iff hswap hstore t).mpr hswapped)

/-- A swap, by the thread that holds the lock. -/
theorem Described.swap {b : PolicyBundle} (h : Described tr s)
    (hlegal : Step.Legal (world P) ⟨s, .thread u ⟨.swapCurrent b, ()⟩, s'⟩)
    (hheld : s.holder .lastHash = some u) (hfirst : ∀ b, ¬ SwappedTo b (history u tr))
    (hunstored : ∀ e ∈ history u tr, ∀ h, e.op ≠ .storeLastHash h) :
    Described (tr ++ [⟨s, .thread u ⟨.swapCurrent b, ()⟩, s'⟩]) s' := by
  obtain rfl := legal_swapCurrent hlegal
  constructor
  · intro t b' hswapped
    rw [history_append] at hswapped
    by_cases hu : u = t
    · subst hu
      rw [history_thread_self] at hswapped
      refine ⟨hheld, ?_⟩
      by_contra hne
      exact hfirst b' (hswapped.of_snoc fun heq => hne (by cases heq; rfl))
    · rw [history_thread_other hu, List.append_nil] at hswapped
      have hother := (h.swapped t b' hswapped).1
      rw [hheld] at hother
      exact absurd (Option.some.inj hother) hu
  · intro hnone
    refine absurd ?_ (hnone u b)
    rw [history_append, history_thread_self]
    refine ⟨⟨_, List.mem_append_right _ List.mem_cons_self, rfl⟩, fun e he => ?_⟩
    rcases List.mem_append.mp he with he | he
    · exact hunstored e he
    · obtain rfl := List.mem_singleton.mp he
      exact nofun

/-- A store, of a hash that describes the bundle that was swapped. -/
theorem Described.store {h : Hash} {b : PolicyBundle} (hdescribed : Described tr s)
    (hlegal : Step.Legal (world P) ⟨s, .thread u ⟨.storeLastHash h, ()⟩, s'⟩)
    (hswapped : SwappedTo b (history u tr)) (hdescribes : HashDescribes P (some h) b) :
    Described (tr ++ [⟨s, .thread u ⟨.storeLastHash h, ()⟩, s'⟩]) s' := by
  obtain rfl := legal_storeLastHash hlegal
  obtain ⟨hheld, hcurrent⟩ := hdescribed.swapped u b hswapped
  constructor
  · intro t b' hswapped'
    rw [history_append] at hswapped'
    by_cases hu : u = t
    · subst hu
      rw [history_thread_self] at hswapped'
      exact absurd rfl (hswapped'.2 ⟨.storeLastHash h, ()⟩ (by simp) h)
    · rw [history_thread_other hu, List.append_nil] at hswapped'
      have hother := (hdescribed.swapped t b' hswapped').1
      rw [hheld] at hother
      exact absurd (Option.some.inj hother) hu
  · intro _
    rwa [hcurrent]

end Step

section Run

variable {s₀ s : Daemon} {ps : Pool (sig P) Tid (Except IoError Unit)} {tr : Trace (sig P) Daemon Tid Env}
  {t : Tid}

theorem SwappedTo.of_cons {b : PolicyBundle} {e : Event (sig P)} (h : SwappedTo b (e :: own))
    (hop : e.op ≠ .swapCurrent b) : SwappedTo b own := by
  obtain ⟨⟨e', he', hswap⟩, hnone⟩ := h
  refine ⟨?_, fun e'' he'' => hnone e'' (List.mem_cons_of_mem _ he'')⟩
  rcases List.mem_cons.mp he' with rfl | he'
  · exact absurd hswap hop
  · exact ⟨e', he', hswap⟩

/-- A reload that loads the contents it has hashed records the hash of the bundle it has built. -/
theorem loaded_describes (hlegal : Every (fun _ st => st.Legal (world P)) tr) (hloaded : Every LoadedAsHashed tr)
    {h : Hash} {poisoned : Bool} {last : Option Hash} {fc : ValidConfig P.regex}
    (hown : history t tr = ⟨.acquireSlot, ()⟩ :: (swapped h poisoned last fc ++ [⟨.resetApprovals, ()⟩])) :
    HashDescribes P (some h) (bundleFromFileCfg fc) := by
  have hmem : (⟨.loadConfig, .ok fc⟩ : Event (sig P)) ∈ history t tr := by simp [hown, swapped]
  obtain ⟨before, st, after, rfl, hload⟩ := once_of_mem_history hmem
  obtain ⟨b, st', a, rfl, ⟨h', hhash⟩, hsame⟩ := hloaded before st after rfl t fc hload
  have hhashed : (⟨.configHash, .ok h'⟩ : Event (sig P)) ∈ history t (b ++ st' :: a ++ st :: after) := by
    rw [List.append_assoc, List.cons_append, history_split hhash]
    simp
  rw [hown] at hhashed
  obtain rfl : h' = h := by simpa [swapped, looked] using hhashed
  exact describes_of_steps hload (hlegal _ _ after rfl) hhash (hlegal.of_append b _ a rfl) hsame.symm

section Daemon

variable (hrun : Run (world P) s₀ (workers P approver approvalMutex) tr s ps)
  (hfree : s₀.holder .lastHash = none)

include hrun hfree

/-- The lock is held by the thread whose reload has taken and not released it. -/
theorem lastHash_holder (t : Tid) : s.holder .lastHash = some t ↔ Holds .lastHash (history t tr) :=
  holder_eq_some_iff hrun workers_meets worker_locks_lastHash hfree t

/-- **The hash stays in step.** The recorded hash describes the bundle in every state a run reaches, but
for the moment in which a reload has swapped the one and not recorded the other. -/
theorem run_described (hstart : HashDescribes P s₀.lastHash s₀.current.bundle)
    (hloaded : Every LoadedAsHashed tr) : Described tr s := by
  induction hrun with
  | start =>
      constructor
      · rintro t b ⟨⟨e, he, -⟩, -⟩
        cases he
      · exact fun _ => hstart
  | env event hbefore henv ih => exact (ih (every_snoc.mp hloaded).1).env henv
  | @thread tr s ps u op next choice answer s' hbefore hnext hact ih =>
      obtain ⟨hold, -⟩ := every_snoc.mp hloaded
      have hdescribed := ih hold
      have hlegal : Step.Legal (world P) ⟨s, .thread u ⟨op, answer⟩, s'⟩ := ⟨choice, hact⟩
      have hstage : WorkerStage u approver approvalMutex (history u tr) op :=
        hbefore.pre_next workers_meets hnext
      have hunswapped : op.reloading = true → op ≠ .resetApprovals ∧ (∀ h, op ≠ .storeLastHash h) →
          ∀ b, ¬ SwappedTo b (history u tr) := by
        intro hop hne b hswapped
        obtain ⟨own, hown, hreload⟩ := hstage.reload_inv hop
        rw [hown] at hswapped
        exact hreload.not_swapped hne (hswapped.of_cons (by simp))
      cases op with
      | swapCurrent b =>
          have hfirst := hunswapped rfl (by simp)
          obtain ⟨own, hown, hreload⟩ := hstage.reload_inv rfl
          cases hreload
          refine hdescribed.swap hlegal ((lastHash_holder hbefore hfree u).mpr ?_) hfirst ?_
          · rw [hown]
            simp [Holds, looked]
          · rw [hown]
            simp [looked]
      | storeLastHash h =>
          obtain ⟨own, hown, hreload⟩ := hstage.reload_inv rfl
          cases hreload with
          | @store _ _ _ fc hne =>
              refine hdescribed.store (b := bundleFromFileCfg fc) hlegal ?_ ?_
              · rw [hown]
                simp [SwappedTo, swapped, looked]
              · exact loaded_describes hbefore.every_legal hold hown
      | lock l =>
          refine hdescribed.quiet hlegal (by simp) (by simp) fun t b hswapped => ?_
          have hheld := (hdescribed.swapped t b hswapped).1
          by_cases hl : l = .lastHash
          · subst hl
            rw [(legal_lock hlegal).1] at hheld
            cases hheld
          · rwa [legal_holder hlegal (fun _ _ h => hl (by cases h; rfl)) (by simp)]
      | unlock l =>
          refine hdescribed.quiet hlegal (by simp) (by simp) fun t b hswapped => ?_
          have hheld := (hdescribed.swapped t b hswapped).1
          by_cases hl : l = .lastHash
          · subst hl
            rw [(legal_unlock hlegal).1] at hheld
            obtain rfl := Option.some.inj hheld
            exact absurd hswapped (hunswapped rfl (by simp) b)
          · rwa [legal_holder hlegal (by simp) fun _ _ h => hl (by cases h; rfl)]
      | _ =>
          refine hdescribed.quiet hlegal (by simp) (by simp) fun t b hswapped => ?_
          rw [legal_holder hlegal (by simp) (by simp)]
          exact (hdescribed.swapped t b hswapped).1

end Daemon

end Run

/-- A reload that takes the fast path finds the bundle of the contents it has hashed in force. -/
def FastPathCurrent (before : Trace (sig P) Daemon Tid Env) (st : Step (sig P) Daemon Tid Env) : Prop :=
  ∀ t h contents, st.label = .thread t ⟨.readLastHash, some h⟩ →
    Once (fun _ st' => Hashes t h st' ∧ contentsOf st'.pre.file = some contents) before →
      BundleOf P contents st.pre.current.bundle

section Served

variable {secrets : SecretFiles} {rounds : Nat} {s₀ s₁ s : Daemon} {tr₀ tr : Trace (sig P) Daemon Tid Env}
  {ps₁ : Pool (sig P) Tid (Except String Started)} {ps : Pool (sig P) Tid (Except IoError Unit)} {main : Tid}
  {d : Started} {uidOf : Conn → Uid} {channel : Conn → Channel}

/-- **The recorded hash describes the served policy**, in every run of the daemon from its start on in
which the contents that are loaded are each time the contents that are hashed. -/
theorem hash_describes_bundle (hstart : Run (world P) s₀ (fun _ => runDaemon P secrets rounds) tr₀ s₁ ps₁)
    (hd : ps₁ main = .ret (.ok d)) (hhashed : Every HashedAsLoaded tr₀)
    (hrun : Run (world P) (d.daemon s₁.file s₁.files uidOf channel s₁.now s₁.unixSecs)
      (workers P approver approvalMutex) tr s ps) (hloaded : Every LoadedAsHashed tr) :
    (s.holder .lastHash = none → HashDescribes P s.lastHash s.current.bundle) ∧
      (Function.Injective P.sha256 → Every FastPathCurrent tr) := by
  have hinitial := started_describes hstart hhashed hd
  constructor
  · intro hfree
    have hdescribed := run_described hrun rfl hinitial hloaded
    refine hdescribed.settled fun t b hswapped => ?_
    have hheld := (hdescribed.swapped t b hswapped).1
    rw [hfree] at hheld
    cases hheld
  · rintro hinjective before st after rfl t h contents hlabel ⟨b, st', a, rfl, hhash, hcontents⟩
    obtain ⟨pre, label, post⟩ := st
    obtain rfl : label = _ := hlabel
    obtain ⟨⟨ps', hbefore⟩, hlegal⟩ := hrun.before
    obtain ⟨own, hown, hreload⟩ := (hrun.every_pre workers_meets _ _ after rfl t _ rfl).reload_inv rfl
    have hdescribed := run_described hbefore rfl hinitial hloaded.of_append
    have hsettled : HashDescribes P pre.lastHash pre.current.bundle := by
      refine hdescribed.settled fun u b' hswapped => ?_
      -- the thread holds the lock, so the one that has swapped is the thread itself, but it has not
      have hheld : pre.holder .lastHash = some t := by
        refine (lastHash_holder hbefore rfl t).mpr ?_
        rw [hown]
        cases hreload
        simp [Holds]
      rw [(hdescribed.swapped u b' hswapped).1] at hheld
      obtain rfl := Option.some.inj hheld
      rw [hown] at hswapped
      exact hreload.not_swapped (by simp) (hswapped.of_cons (by simp))
    obtain ⟨contents', hsha, hbundle⟩ := hsettled h (legal_readLastHash hlegal).1.symm
    have hlegal' := hbefore.every_legal b st' a rfl
    obtain ⟨pre', label', post'⟩ := st'
    obtain rfl : label' = _ := hhash
    have hhashed' := (legal_configHash hlegal').1
    cases hfile : pre'.file with
    | error e =>
        rw [hfile] at hhashed'
        cases hhashed'
    | ok file =>
        rw [hfile] at hhashed' hcontents
        have hsha' : P.sha256 contents = h := by
          rw [← Option.some.inj hcontents]
          exact (Except.ok.inj hhashed').symm
        rwa [hinjective (hsha'.trans hsha.symm)]

end Served

section Unedited

variable {α : Type} {s₀ s : Daemon} {tr : Trace (sig P) Daemon Tid Env}

theorem once_unedited {p₀ ps : Pool (sig P) Tid α} {before : Trace (sig P) Daemon Tid Env} {t : Tid}
    {e : Event (sig P)} (hrun : Run (world P) s₀ p₀ before s ps) (hmem : e ∈ history t before)
    (hunedited : ∀ b st a, before = b ++ st :: a → st.label = .thread t e →
      ∀ st' ∈ st :: a, edits st' = false) :
    Once (fun _ st => st.label = .thread t e ∧ contentsOf st.pre.file = contentsOf s.file) before := by
  obtain ⟨b, st, a, rfl, hlabel⟩ := once_of_mem_history hmem
  refine ⟨b, st, a, rfl, hlabel, ?_⟩
  rw [file_of_unedited hrun rfl (hunedited b st a rfl hlabel)]

theorem hashedAsLoaded_of_unedited {secrets : SecretFiles} {rounds : Nat}
    {ps : Pool (sig P) Tid (Except String Started)}
    (hrun : Run (world P) s₀ (fun _ => runDaemon P secrets rounds) tr s ps)
    (hunedited : ∀ st ∈ tr, edits st = false) : Every HashedAsLoaded tr := by
  rintro before st after rfl t h hhash
  have hstage := hrun.every_pre (fun _ => runDaemon_meets) before st after rfl t _ hhash
  obtain ⟨⟨ps', hbefore⟩, -⟩ := hrun.before
  generalize hown : history t before = own at hstage
  cases hstage with
  | @hash fc =>
      refine (once_unedited hbefore (e := ⟨.loadConfig, .ok fc⟩) (by simp [hown]) ?_).mono
        fun _ _ h => ⟨⟨fc, h.1⟩, h.2⟩
      rintro b st' a rfl - st'' hst''
      exact hunedited st'' (List.mem_append_left _ (List.mem_append_right _ hst''))

/-- The step hashes the config file. -/
def hashing (st : Step (sig P) Daemon Tid Env) : Bool :=
  match st.label with
  | .thread _ ⟨.configHash, _⟩ => true
  | _ => false

/-- What comes from a stop of the dropping on is left. -/
theorem mem_dropWhile_of_stop {α : Type} {p : α → Bool} {before after rest : List α} {x y : α} (hx : p x = false)
    (hy : y ∈ x :: after) : y ∈ (before ++ x :: after ++ rest).dropWhile p := by
  have hstop : x :: after ++ rest = (x :: after ++ rest).dropWhile p := by
    rw [List.cons_append, List.dropWhile_cons_of_neg (by simp [hx])]
  rw [List.append_assoc, List.dropWhile_append]
  split
  · rw [← hstop]
    exact List.mem_append_left _ hy
  · exact List.mem_append_right _ (List.mem_append_left _ hy)

/-- The file is edited before any reload begins, if ever. -/
theorem loadedAsHashed_of_unedited {ps : Pool (sig P) Tid (Except IoError Unit)}
    (hrun : Run (world P) s₀ (workers P approver approvalMutex) tr s ps)
    (hunedited : ∀ st ∈ tr.dropWhile (!hashing ·), edits st = false) : Every LoadedAsHashed tr := by
  rintro before st after rfl t fc hload
  obtain ⟨own, hown, hreload⟩ := (hrun.every_pre workers_meets before st after rfl t _ hload).reload_inv rfl
  obtain ⟨⟨ps', hbefore⟩, -⟩ := hrun.before
  cases hreload with
  | @load h poisoned last _ =>
      refine (once_unedited hbefore (e := ⟨.configHash, .ok h⟩) (by simp [hown, looked]) ?_).mono
        fun _ _ h' => ⟨⟨h, h'.1⟩, h'.2⟩
      rintro b st' a rfl hhash st'' hst''
      have hhashing : hashing st' = true := by simp [hashing, hhash]
      exact hunedited st'' (mem_dropWhile_of_stop (by simp [hhashing]) hst'')

end Unedited

/-- The host before the daemon runs. -/
def emptyDaemon (toml : String) : Daemon :=
  Daemon.start (onDisk toml) ⟨.ok, fun _ => true⟩ ⟨⟨[], []⟩, [], []⟩ none (fun _ => 0)
    (fun _ => ⟨[], [], .gone⟩) (100 * nanosPerSec) 0

def startingDaemons : Pool (sig editPlatform) Tid (Except String Started) :=
  fun _ => runDaemon editPlatform (fun _ => .error "no secret") 0

def editWorkers : Pool (sig editPlatform) Tid (Except IoError Unit) :=
  workers editPlatform (.agent registerWait 0) false

/-- The daemon loads the old file, and hashes the new one. -/
def editedStart : Option (Point (sig editPlatform) Daemon Tid Env (Except String Started)) :=
  replay (world editPlatform) ⟨[], emptyDaemon oldToml, startingDaemons⟩
    [.thread 0 (smooth 0 .denied), .env (.editConfig (onDisk newToml)), .thread 0 (smooth 0 .denied)]

def oldStarted (initialHash : Hash) : Started :=
  ⟨bundleFromFileCfg (E := editPlatform.regex) ⟨oldConfig, oldConfig_valid⟩, some initialHash,
    ⟨.agent registerWait 0, false, fun _ => ""⟩⟩

/-- The daemon has started from the old file; the file on disk is this one. -/
def oldServing (initialHash : Hash) (toml : String) : Daemon :=
  (oldStarted initialHash).daemon (onDisk toml) ⟨.ok, fun _ => true⟩ (fun _ => 1000) (fun _ => arrived idLine)
    (100 * nanosPerSec) 0

/-- A connection up to its snapshot. -/
def staleRun : Option (Point (sig editPlatform) Daemon Tid Env (Except IoError Unit)) :=
  replay (world editPlatform) ⟨[], oldServing (utf8 newToml) newToml, editWorkers⟩
    (List.replicate 6 (.thread 0 (smooth 55 .denied)))

theorem bundleOf_new :
    BundleOf editPlatform (utf8 newToml) (bundleFromFileCfg (E := editPlatform.regex) ⟨newConfig, rfl⟩) :=
  ⟨⟨0o600, 0, utf8 newToml⟩, ⟨newConfig, rfl⟩, rfl, rfl, rfl⟩

/-- The hash of the new file does not describe the bundle of the old one. -/
theorem not_describes_old :
    ¬ HashDescribes editPlatform (some (utf8 newToml)) (oldStarted (utf8 newToml)).bundle := by
  intro hdescribes
  obtain ⟨contents, hcontents, hbundle⟩ := hdescribes _ rfl
  obtain rfl : contents = utf8 newToml := hcontents
  have hscopes := congrArg PolicyBundle.ruleScopes (hbundle.unique bundleOf_new)
  exact absurd hscopes (by decide)

theorem staleRun_steps :
    ∃ c, staleRun = some c ∧
      Run (world editPlatform) (oldServing (utf8 newToml) newToml) editWorkers c.trace c.state c.pool ∧
      c.state.holder .lastHash = none ∧ c.state.lastHash = some (utf8 newToml) ∧
      c.state.current = ⟨(oldStarted (utf8 newToml)).bundle, 0⟩ ∧
      (history 0 c.trace).getLast? = some ⟨.snapshot, ⟨(oldStarted (utf8 newToml)).bundle, 0⟩⟩ := by
  obtain ⟨c, hc⟩ : ∃ c, staleRun = some c := ⟨_, rfl⟩
  refine ⟨c, hc, run_of_replay .start hc, ?_⟩
  obtain rfl := Option.some.inj hc
  exact ⟨rfl, rfl, rfl, rfl⟩

/-- The daemon serves the old policy with the new file on disk, and its reloads take the fast path. -/
theorem stale_policy_served :
    ∃ c₀ c, editedStart = some c₀ ∧
      Run (world editPlatform) (emptyDaemon oldToml) startingDaemons c₀.trace c₀.state c₀.pool ∧
      c₀.pool 0 = .ret (.ok (oldStarted (utf8 newToml))) ∧ c₀.state.file = onDisk newToml ∧
      staleRun = some c ∧
      Run (world editPlatform) (oldServing (utf8 newToml) newToml) editWorkers c.trace c.state c.pool ∧
      (history 0 c.trace).getLast? = some ⟨.snapshot, ⟨(oldStarted (utf8 newToml)).bundle, 0⟩⟩ ∧
      c.state.holder .lastHash = none ∧ ¬ HashDescribes editPlatform c.state.lastHash c.state.current.bundle := by
  obtain ⟨c₀, hc₀⟩ : ∃ c, editedStart = some c := ⟨_, rfl⟩
  obtain ⟨c, hc, hrun, hfree, hhash, hcurrent, hsnapshot⟩ := staleRun_steps
  refine ⟨c₀, c, hc₀, run_of_replay .start hc₀, ?_, ?_, hc, hrun, hsnapshot, hfree, ?_⟩
  · obtain rfl := Option.some.inj hc₀
    rfl
  · obtain rfl := Option.some.inj hc₀
    rfl
  · rw [hhash, hcurrent]
    exact not_describes_old

/-- The daemon hashes the file it has loaded. -/
def steadyStart : Option (Point (sig editPlatform) Daemon Tid Env (Except String Started)) :=
  replay (world editPlatform) ⟨[], emptyDaemon oldToml, startingDaemons⟩
    (List.replicate 2 (.thread 0 (smooth 0 .denied)))

/-- The file is edited, and a connection reloads it. -/
def reloadedRun : Option (Point (sig editPlatform) Daemon Tid Env (Except IoError Unit)) :=
  replay (world editPlatform) ⟨[], oldServing (utf8 oldToml) oldToml, editWorkers⟩
    (.env (.editConfig (onDisk newToml)) :: List.replicate 9 (.thread 0 (smooth 55 .denied)))

/-- The hash then is the new file's, and so is the bundle. -/
theorem reloadedRun_describes :
    ∃ c, reloadedRun = some c ∧ c.state.lastHash = some (utf8 newToml) ∧
      HashDescribes editPlatform c.state.lastHash c.state.current.bundle := by
  obtain ⟨c₀, hc₀⟩ : ∃ c, steadyStart = some c := ⟨_, rfl⟩
  obtain ⟨c, hc⟩ : ∃ c, reloadedRun = some c := ⟨_, rfl⟩
  have hstart : Run (world editPlatform) (emptyDaemon oldToml) startingDaemons c₀.trace c₀.state c₀.pool :=
    run_of_replay .start hc₀
  have hrun : Run (world editPlatform) (oldServing (utf8 oldToml) oldToml) editWorkers c.trace c.state c.pool :=
    run_of_replay .start hc
  have hunedited : ∀ st ∈ c₀.trace, edits st = false := by
    obtain rfl := Option.some.inj hc₀
    decide +kernel
  have hunedited' : ∀ st ∈ c.trace.dropWhile (!hashing ·), edits st = false := by
    obtain rfl := Option.some.inj hc
    decide +kernel
  have hhashed := hashedAsLoaded_of_unedited hstart hunedited
  have hloaded := loadedAsHashed_of_unedited hrun hunedited'
  have hstarted : c₀.pool 0 = .ret (.ok (oldStarted (utf8 oldToml))) := by
    obtain rfl := Option.some.inj hc₀
    rfl
  obtain rfl := Option.some.inj hc₀
  obtain rfl := Option.some.inj hc
  exact ⟨_, rfl, rfl, (hash_describes_bundle hstart hstarted hhashed hrun hloaded).1 rfl⟩

end Sudix
