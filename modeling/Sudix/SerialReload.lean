import Sudix.ReloadSpec
import Sudix.RestartEquivalence

/-! Reloads that do not overlap. While a connection opens, from its hash of the config file to its
snapshot or its refusal, no other thread moves; then its reload is one step of the specification, and
what is served stays coherent with the contents of the last successful load. -/

namespace Sudix

open Concurrent

variable {P : Platform} {approver : Approver} {approvalMutex : Bool} {c : Conn} {own : History (sig P)}
  {first : List UInt8} {tr before after : Trace (sig P) Daemon Tid Env} {st : Step (sig P) Daemon Tid Env}

/-- The step is a successful load of the config file. -/
def loads (st : Step (sig P) Daemon Tid Env) : Bool :=
  match st.label with
  | .thread _ ⟨.loadConfig, .ok _⟩ => true
  | _ => false

/-- The contents of the last successful load, `first` before any. -/
def lastLoaded (first : List UInt8) (tr : Trace (sig P) Daemon Tid Env) : List UInt8 :=
  tr.foldl (fun contents st => if loads st then (contentsOf st.pre.file).getD contents else contents) first

theorem lastLoaded_snoc :
    lastLoaded first (tr ++ [st]) =
      if loads st then (contentsOf st.pre.file).getD (lastLoaded first tr) else lastLoaded first tr := by
  simp [lastLoaded, List.foldl_append]

def servedAt (first : List UInt8) (tr : Trace (sig P) Daemon Tid Env) (s : Daemon) : Served :=
  ⟨s.current.bundle, s.lastHash, s.approvals, lastLoaded first tr⟩

/-- What an event of a reload does to what is served, where `contents` are those that are loaded. -/
def effect (contents : List UInt8) (v : Served) (event : Event (sig P)) : Served :=
  match event with
  | ⟨.loadConfig, .ok _⟩ => { v with contents := contents }
  | ⟨.swapCurrent b, _⟩ => { v with bundle := b }
  | ⟨.resetApprovals, _⟩ => { v with approvals := ApprovalState.new }
  | ⟨.storeLastHash h, _⟩ => { v with lastHash := some h }
  | _ => v

/-- Whether an operation changes what is served other than as `effect` says. -/
def Op.requestWrites : Op → Bool
  | .isRateLimited _ _ | .recordCacheHit _ _ | .recordApproval _ _ _ => true
  | _ => false

theorem servedAt_env {event : Env} {s s' : Daemon} (h : env P s event = some s') :
    servedAt first (tr ++ [⟨s, .env event, s'⟩]) s' = servedAt first tr s := by
  rw [servedAt, lastLoaded_snoc, env_lastHash h, (env_frame h).current, (env_frame h).approvals]
  rfl

theorem servedAt_thread {t : Tid} {op : Op} {answer : Answer P op} {s s' : Daemon} {contents : List UInt8}
    (hlegal : Step.Legal (world P) ⟨s, .thread t ⟨op, answer⟩, s'⟩) (hop : op.requestWrites = false)
    (hload : loads (⟨s, .thread t ⟨op, answer⟩, s'⟩ : Step (sig P) Daemon Tid Env) = true →
      contentsOf s.file = some contents) :
    servedAt first (tr ++ [⟨s, .thread t ⟨op, answer⟩, s'⟩]) s' =
      effect contents (servedAt first tr s) ⟨op, answer⟩ := by
  rw [servedAt, lastLoaded_snoc]
  cases op with
  | loadConfig =>
      obtain ⟨-, rfl⟩ := legal_loadConfig hlegal
      cases answer with
      | error e => rfl
      | ok fc =>
          have hcontents := hload rfl
          simp [loads, hcontents, effect, servedAt]
  | swapCurrent b =>
      obtain rfl := legal_swapCurrent hlegal
      rfl
  | storeLastHash h =>
      obtain rfl := legal_storeLastHash hlegal
      rfl
  | resetApprovals =>
      obtain ⟨choice, hact⟩ := legal_act hlegal
      cases hact
      rfl
  | isRateLimited _ _ | recordCacheHit _ _ | recordApproval _ _ _ => cases hop
  | _ =>
      have hcurrent : s'.current = s.current := legal_current hlegal rfl
      have happrovals : s'.approvals = s.approvals := legal_approvals hlegal rfl
      have hhash : s'.lastHash = s.lastHash := legal_lastHash hlegal nofun
      rw [hcurrent, happrovals, hhash]
      rfl

/-- A step that is `c`'s own if it is a thread's, and no request's write; it loads `contents` if it loads. -/
structure OwnStep (c : Conn) (contents : List UInt8) (st : Step (sig P) Daemon Tid Env) : Prop where
  thread : ∀ t event, st.label = .thread t event → t = c ∧ event.op.requestWrites = false
  load : loads st = true → contentsOf st.pre.file = some contents

theorem servedAt_step {contents : List UInt8} (hlegal : st.Legal (world P)) (hown : OwnStep c contents st) :
    servedAt first (tr ++ [st]) st.post = (history c [st]).foldl (effect contents) (servedAt first tr st.pre) := by
  obtain ⟨pre, label, post⟩ := st
  cases label with
  | env event =>
      rw [history_env]
      exact servedAt_env hlegal
  | thread t event =>
      obtain ⟨rfl, hop⟩ := hown.thread t event rfl
      rw [history_thread_self]
      exact servedAt_thread hlegal hop hown.load

/-- Where only `c` moves, what is served follows from what `c` does. -/
theorem served_since {α : Type} {s₀ s : Daemon} {p₀ ps : Pool (sig P) Tid α} {contents : List UInt8}
    (hrun : Run (world P) s₀ p₀ tr s ps) (htr : tr = before ++ st :: after)
    (hown : ∀ st' ∈ st :: after, OwnStep c contents st') :
    servedAt first tr s = (history c (st :: after)).foldl (effect contents) (servedAt first before st.pre) := by
  refine hrun.world_invariant (I := fun tr s => ∀ before st after, tr = before ++ st :: after →
    (∀ st' ∈ st :: after, OwnStep c contents st') →
      servedAt first tr s = (history c (st :: after)).foldl (effect contents) (servedAt first before st.pre))
    ?_ ?_ before st after htr hown
  · intro before st after h
    simp at h
  · intro tr last ih hlegal before st after heq hown
    rcases snoc_eq_append_cons heq with ⟨rfl, rfl, rfl⟩ | ⟨after', rfl, rfl⟩
    · exact servedAt_step hlegal (hown _ List.mem_cons_self)
    · rw [← List.cons_append] at hown ⊢
      rw [servedAt_step hlegal (hown _ (List.mem_append_right _ List.mem_cons_self)),
        ih before st after' rfl fun st' hst' => hown st' (List.mem_append_left _ hst'), history_append,
        List.foldl_append]

/-- What a refused connection does after its reload. -/
def Op.replying : Op → Bool
  | .writeAll _ _ | .flush _ => true
  | _ => false

theorem effect_replying {contents : List UInt8} {v : Served} (h : Only Op.replying own) :
    own.foldl (effect contents) v = v := by
  induction own generalizing v with
  | nil => rfl
  | cons e own ih =>
      obtain ⟨hop, hown⟩ := only_cons.mp h
      rw [List.foldl_cons, ih hown]
      obtain ⟨op, answer⟩ := e
      cases op <;> first | rfl | cases hop

/-- A reload whose answers come from one state of the file and of what is served is one step of the
specification. -/
theorem ReloadDone.effect {result : Except ConfigError Unit} (h : ReloadDone own result) {disk : ConfigOnDisk}
    {v : Served}
    (hhash : own.head? = some ⟨.configHash, disk.map fun f => P.sha256 f.contents⟩)
    (hlast : ∀ last, ⟨.readLastHash, last⟩ ∈ own → last = v.lastHash)
    (hload : ∀ loaded, ⟨.loadConfig, loaded⟩ ∈ own →
      loaded = loadWithChecks P.regex P.parseToml P.configPath P.enforcePerms disk) :
    (result, own.foldl (Sudix.effect ((contentsOf disk).getD [])) v) = v.reload P disk := by
  have hanswer : ∀ answer, own.head? = some ⟨.configHash, answer⟩ →
      answer = disk.map fun f => P.sha256 f.contents := by
    intro answer hhead
    rw [hhead] at hhash
    cases hhash
    rfl
  cases disk with
  | error e =>
      cases h with
      | unreadable =>
          cases hanswer _ rfl
          rfl
      | unlocked hreloaded => cases hreloaded <;> cases hanswer _ rfl
  | ok file =>
      cases h with
      | unreadable => cases hanswer _ rfl
      | unlocked hreloaded =>
          cases hreloaded with
          | @same h poisoned =>
              have hsame := hlast (some h) (by simp [looked])
              cases hanswer _ rfl
              rw [Served.reload, if_pos hsame.symm]
              rfl
          | @loaded h poisoned last fc hne =>
              cases hanswer _ rfl
              have hread := hlast last (by simp [swapped, looked])
              have hok := hload (.ok fc) (by simp [swapped, looked])
              rw [Served.reload, if_neg (hread ▸ hne), ← hok]
              rfl
          | @failed h poisoned last e hne =>
              cases hanswer _ rfl
              have hread := hlast last (by simp [looked])
              have herror := hload (.error e) (by simp [looked])
              rw [Served.reload, if_neg (hread ▸ hne), ← herror]
              rfl

/-- A connection that has hashed the config file and is neither past its snapshot nor refused and done. -/
def Opening (own : History (sig P)) : Prop :=
  (∃ e ∈ own, e.op = .configHash) ∧ ∀ e ∈ own, e.op ≠ .snapshot ∧ e.op ≠ .releaseSlot

/-- While a connection opens, no other thread moves. -/
def Serial (before : Trace (sig P) Daemon Tid Env) (st : Step (sig P) Daemon Tid Env) : Prop :=
  ∀ t event, st.label = .thread t event → ∀ u, u ≠ t → ¬ Opening (history u before)

/-- The file is not edited between the hash and the load of one reload. -/
def UneditedReload (before : Trace (sig P) Daemon Tid Env) (st : Step (sig P) Daemon Tid Env) : Prop :=
  ∀ t loaded, st.label = .thread t ⟨.loadConfig, loaded⟩ →
    ∀ b st' a h, before = b ++ st' :: a → Hashes t h st' → ∀ st'' ∈ a, edits st'' = false

/-- A whole connection at a time: no thread moves while another one's connection is under way. -/
theorem serial_of_whole
    (h : Every (fun before (st : Step (sig P) Daemon Tid Env) => ∀ t event, st.label = .thread t event →
      ∀ u, u ≠ t → history u before = [] ∨ ∃ e ∈ history u before, e.op = .releaseSlot) tr) : Every Serial tr := by
  refine h.mono fun before st hst t event hlabel u hu hopening => ?_
  rcases hst t event hlabel u hu with hnil | ⟨e, he, hrelease⟩
  · obtain ⟨⟨e, he, -⟩, -⟩ := hopening
    rw [hnil] at he
    cases he
  · exact (hopening.2 e he).2 hrelease

theorem ReloadDone.reloading {result : Except ConfigError Unit} (h : ReloadDone own result) :
    Only Op.reloading own := by
  cases h with
  | unreadable => simp [Op.reloading]
  | unlocked hreloaded => cases hreloaded <;> simp [looked, swapped, Op.reloading]

section Run

variable {s₀ s : Daemon} {ps : Pool (sig P) Tid (Except IoError Unit)} {rest : History (sig P)}
  {answer : Except IoError Hash} {result : Except ConfigError Unit}

/-- A connection hashes the file first of all. -/
theorem history_before_hash
    (hrun : Run (world P) s₀ (workers P approver approvalMutex) (before ++ st :: after) s ps)
    (hhash : st.label = .thread c ⟨.configHash, answer⟩) : history c before = [⟨.acquireSlot, ()⟩] := by
  obtain ⟨own, hown, hreload⟩ := (hrun.every_pre workers_meets before st after rfl c _ hhash).reload_inv rfl
  cases hreload
  exact hown

/-- A load comes after a hash that was read from the same file. -/
theorem file_at_load (hrun : Run (world P) s₀ (workers P approver approvalMutex) (before ++ st :: after) s ps)
    (hunedited : Every UneditedReload (before ++ st :: after))
    (hhash : st.label = .thread c ⟨.configHash, answer⟩) {a a' : Trace (sig P) Daemon Tid Env}
    {st' : Step (sig P) Daemon Tid Env} (hafter : after = a ++ st' :: a')
    {loaded : Except ConfigError (ValidConfig P.regex)} (hload : st'.label = .thread c ⟨.loadConfig, loaded⟩) :
    st'.pre.file = st.pre.file ∧ ∃ h, answer = .ok h := by
  subst hafter
  have hbefore := history_before_hash hrun hhash
  rw [← List.cons_append, ← List.append_assoc] at hrun hunedited
  obtain ⟨own, hown, hreload⟩ := (hrun.every_pre workers_meets _ st' a' rfl c _ hload).reload_inv rfl
  rw [history_split hhash, hbefore] at hown
  cases hreload with
  | @load h poisoned last _ =>
      simp only [looked, List.cons_append, List.nil_append, List.cons.injEq, Event.mk.injEq, heq_eq_eq,
        true_and] at hown
      obtain ⟨rfl, -⟩ := hown
      have hkept := hunedited _ st' a' rfl c loaded hload before st a h rfl hhash
      obtain ⟨⟨ps', hto⟩, -⟩ := hrun.before
      refine ⟨file_of_unedited hto rfl fun st'' hst'' => ?_, h, rfl⟩
      rcases List.mem_cons.mp hst'' with rfl | hst''
      · simp [edits, hhash]
      · exact hkept st'' hst''

/-- From the hash to the end of its reload, only the connection itself moves. -/
theorem ownStep_of_serial (hrun : Run (world P) s₀ (workers P approver approvalMutex) (before ++ st :: after) s ps)
    (hserial : Every Serial (before ++ st :: after)) (hunedited : Every UneditedReload (before ++ st :: after))
    (hhash : st.label = .thread c ⟨.configHash, answer⟩)
    (hquiet : ∀ e ∈ history c (st :: after), e.op.reloading = true ∨ e.op.replying = true) :
    ∀ st' ∈ st :: after, OwnStep c ((contentsOf st.pre.file).getD []) st' := by
  have hfirst : OwnStep c ((contentsOf st.pre.file).getD []) st := by
    constructor
    · intro t event hlabel
      rw [hhash] at hlabel
      obtain ⟨rfl, rfl⟩ := Label.thread.inj hlabel
      exact ⟨rfl, rfl⟩
    · intro hload
      simp [loads, hhash] at hload
  intro st' hst'
  rcases List.mem_cons.mp hst' with rfl | hst'
  · exact hfirst
  obtain ⟨a, a', rfl⟩ := List.append_of_mem hst'
  have hthread : ∀ t event, st'.label = .thread t event → t = c := by
    intro t event hlabel
    by_contra ht
    have hopening := hserial (before ++ st :: a) st' a' (by simp) t event hlabel c (Ne.symm ht)
    refine hopening ⟨⟨⟨.configHash, answer⟩, ?_, rfl⟩, fun e he => ?_⟩
    · rw [history_split hhash]
      simp
    · rw [history_append, history_before_hash hrun hhash] at he
      rcases List.mem_append.mp he with he | he
      · obtain rfl := List.mem_singleton.mp he
        exact ⟨by simp, by simp⟩
      · have hop := hquiet e (by
          rw [← List.cons_append, history_append]
          exact List.mem_append_left _ he)
        obtain ⟨op, answer⟩ := e
        constructor <;> (rintro rfl; rcases hop with hop | hop <;> cases hop)
  constructor
  · intro t event hlabel
    obtain rfl := hthread t event hlabel
    refine ⟨rfl, ?_⟩
    have hmem : event ∈ history t (st :: (a ++ st' :: a')) := mem_history.mpr ⟨st', by simp, hlabel⟩
    obtain ⟨op, answer⟩ := event
    cases op <;> first | rfl | (rcases hquiet _ hmem with hop | hop <;> cases hop)
  · intro hload
    unfold loads at hload
    split at hload
    · rename_i t fc hlabel
      obtain rfl := hthread _ _ hlabel
      obtain ⟨hfile, h, rfl⟩ := file_at_load hrun hunedited hhash rfl hlabel
      rw [hfile]
      obtain ⟨pre, label, post⟩ := st
      obtain rfl : label = _ := hhash
      have hok := (legal_configHash hrun.before.2).1
      cases hdisk : pre.file with
      | error e =>
          rw [hdisk] at hok
          cases hok
      | ok file => rfl
    · cases hload

/-- **Refinement.** A reload that nothing overlaps is one step of the specification, from what is served
and on disk when the file is hashed. -/
theorem serial_refines (hrun : Run (world P) s₀ (workers P approver approvalMutex) (before ++ st :: after) s ps)
    (hserial : Every Serial (before ++ st :: after)) (hunedited : Every UneditedReload (before ++ st :: after))
    (hhash : st.label = .thread c ⟨.configHash, answer⟩)
    (hown : history c (before ++ st :: after) = ⟨.acquireSlot, ()⟩ :: (own ++ rest))
    (hdone : ReloadDone own result) (hrest : Only Op.replying rest) :
    (result, servedAt first (before ++ st :: after) s) = (servedAt first before st.pre).reload P st.pre.file := by
  have hsince : history c (st :: after) = own ++ rest := by
    rw [history_append, history_before_hash hrun hhash] at hown
    exact (List.cons.inj hown).2
  have hsteps := ownStep_of_serial hrun hserial hunedited hhash fun e he => by
    rw [hsince] at he
    exact (List.mem_append.mp he).imp (hdone.reloading e) (hrest e)
  have hlater : ∀ event ∈ own, event.op ≠ .configHash →
      ∃ a st' a', after = a ++ st' :: a' ∧ st'.label = .thread c event := by
    intro event hmem hne
    have hafter : event ∈ history c (st :: after) := by
      rw [hsince]
      exact List.mem_append_left _ hmem
    obtain ⟨st', hst', hlabel⟩ := mem_history.mp hafter
    rcases List.mem_cons.mp hst' with rfl | hst'
    · rw [hhash] at hlabel
      cases hlabel
      exact absurd rfl hne
    · obtain ⟨a, a', rfl⟩ := List.append_of_mem hst'
      exact ⟨a, st', a', rfl, hlabel⟩
  have hlegal := hrun.every_legal
  rw [served_since hrun rfl hsteps, hsince, List.foldl_append, effect_replying hrest]
  refine hdone.effect ?_ (fun last hmem => ?_) fun loaded hmem => ?_
  · have hhead : (history c (st :: after)).head? = some ⟨.configHash, answer⟩ := by
      simp [history, Step.eventOf, hhash]
    obtain ⟨pre, label, post⟩ := st
    obtain rfl : label = _ := hhash
    rw [← (legal_configHash hrun.before.2).1, ← hhead, hsince]
    cases hdone with
    | unreadable => rfl
    | unlocked hreloaded => cases hreloaded <;> rfl
  · obtain ⟨a, st', a', rfl, hlabel⟩ := hlater _ hmem (by simp)
    rw [← List.cons_append, ← List.append_assoc] at hrun
    obtain ⟨⟨ps', hto⟩, hlegal'⟩ := hrun.before
    have hserved : servedAt first (before ++ st :: a) st'.pre = _ :=
      served_since hto rfl fun st'' hst'' => hsteps st'' (by
        rw [← List.cons_append]
        exact List.mem_append_left _ hst'')
    obtain ⟨own', hown', hreload⟩ := (hrun.every_pre workers_meets _ st' a' rfl c _ hlabel).reload_inv rfl
    rw [history_append, history_before_hash hto hhash] at hown'
    have hso : history c (st :: a) = own' := (List.cons.inj hown').2
    rw [hso] at hserved
    obtain ⟨pre', label', post'⟩ := st'
    obtain rfl : label' = _ := hlabel
    rw [(legal_readLastHash hlegal').1]
    cases hreload
    exact congrArg Served.lastHash hserved
  · obtain ⟨a, st', a', rfl, hlabel⟩ := hlater _ hmem (by simp)
    obtain ⟨hfile, -⟩ := file_at_load hrun hunedited hhash rfl hlabel
    have hlegal' := hlegal (before ++ st :: a) st' a' (by simp)
    obtain ⟨pre', label', post'⟩ := st'
    obtain rfl : label' = _ := hlabel
    rw [(legal_loadConfig hlegal').1, ← hfile]

end Run

theorem WriteDone.replying {resp : Response} {result : Except IoError Unit} (h : WriteDone c resp own result) :
    Only Op.replying own := by
  cases h <;> simp [Op.replying]

theorem Identified.mem_snapshot {loaded : Loaded} {callerUid : Uid} (h : Identified own loaded callerUid) :
    ⟨.snapshot, loaded⟩ ∈ own := by
  cases h
  simp

theorem Greeted.mem_snapshot {loaded : Loaded} {callerUid : Uid} {line : String}
    (h : Greeted c own loaded callerUid line) : ⟨.snapshot, loaded⟩ ∈ own := by
  cases h with
  | intro hid => exact List.mem_append_left _ (List.mem_append_left _ hid.mem_snapshot)

theorem Answered.reload {resp : Response} (h : Answered c approver approvalMutex own resp) :
    (∃ e, ReloadDone own (.error e)) ∨ ∃ loaded, ⟨.snapshot, loaded⟩ ∈ own := by
  cases h with
  | reloadFailed hreload => exact .inl ⟨_, hreload⟩
  | unauthorized hid => exact .inr ⟨_, hid.mem_snapshot⟩
  | tooLarge hgreeted | malformed hgreeted => exact .inr ⟨_, hgreeted.mem_snapshot⟩
  | command hadmitted => exact .inr ⟨_, List.mem_append_left _ hadmitted.peerUid.2⟩

/-- A connection that is done has been refused by its reload, or has made a snapshot. -/
theorem ConnectionDone.reload {result : Except IoError Unit}
    (h : ConnectionDone c approver approvalMutex own result) :
    (∃ own' rest e, own = own' ++ rest ∧ ReloadDone own' (.error e) ∧ Only Op.replying rest) ∨
      ∃ loaded, ⟨.snapshot, loaded⟩ ∈ own := by
  cases h with
  | answered hanswered hwrite =>
      rcases hanswered.reload with ⟨e, hreload⟩ | ⟨loaded, hmem⟩
      · exact .inl ⟨_, _, e, rfl, hreload, hwrite.replying⟩
      · exact .inr ⟨loaded, List.mem_append_left _ hmem⟩
  | @noPeer _ loaded => exact .inr ⟨loaded, by simp⟩
  | noClone hid => exact .inr ⟨_, List.mem_append_left _ hid.mem_snapshot⟩
  | noLine hid => exact .inr ⟨_, List.mem_append_left _ (List.mem_append_left _ hid.mem_snapshot)⟩
  | closed hgreeted => exact .inr ⟨_, hgreeted.mem_snapshot⟩
  | registered hadmitted => exact .inr ⟨_, List.mem_append_left _ hadmitted.peerUid.2⟩

/-- A worker that takes its snapshot or releases its slot without one has reloaded. -/
theorem WorkerStage.reloaded {op : Op} (h : WorkerStage c approver approvalMutex own op)
    (hop : op = .snapshot ∨ op = .releaseSlot) (hnone : ∀ e ∈ own, e.op ≠ .snapshot) :
    ∃ own' rest result, own = ⟨.acquireSlot, ()⟩ :: (own' ++ rest) ∧ ReloadDone own' result ∧
      Only Op.replying rest := by
  rcases hop with rfl | rfl
  · obtain ⟨own', rfl, hreload⟩ := h.snapshot_reload
    exact ⟨own', [], _, by rw [List.append_nil], hreload, only_nil⟩
  · cases h with
    | connection hconnection =>
        cases hconnection with
        | reload hreload => cases hreload
        | read _ _ hread => cases hread
        | request _ hrequest => cases hrequest.requesting
        | register _ hregister => cases hregister
        | respond _ hwrite => cases hwrite
    | release hdone =>
        rcases hdone.reload with ⟨own', rest, e, rfl, hreload, hrest⟩ | ⟨loaded, hmem⟩
        · exact ⟨own', rest, _, rfl, hreload, hrest⟩
        · exact absurd rfl (hnone ⟨.snapshot, loaded⟩ (List.mem_cons_of_mem _ hmem))

/-- The operations of a reload that coherence is about. -/
def Op.reloads : Op → Bool
  | .loadConfig | .swapCurrent _ | .storeLastHash _ => true
  | _ => false

theorem Coherent.quiet {t : Tid} {op : Op} {answer : Answer P op} {s s' : Daemon}
    (h : Coherent P (servedAt first tr s)) (hlegal : Step.Legal (world P) ⟨s, .thread t ⟨op, answer⟩, s'⟩)
    (hop : op.reloads = false) :
    Coherent P (servedAt first (tr ++ [⟨s, .thread t ⟨op, answer⟩, s'⟩]) s') := by
  have hcurrent : s'.current = s.current := by
    refine legal_current hlegal ?_
    cases op <;> first | rfl | cases hop
  have hhash : s'.lastHash = s.lastHash := by
    refine legal_lastHash hlegal fun u h heq => ?_
    cases heq
    cases hop
  have hcontents : lastLoaded first (tr ++ [⟨s, .thread t ⟨op, answer⟩, s'⟩]) = lastLoaded first tr := by
    rw [lastLoaded_snoc]
    cases op <;> first | rfl | cases hop
  constructor
  · have hbundle := h.bundle
    simp only [servedAt, hcurrent, hcontents] at hbundle ⊢
    exact hbundle
  · have hlast := h.lastHash
    simp only [servedAt, hhash, hcontents] at hlast ⊢
    exact hlast

/-- A reload that has come to its load is under way. -/
theorem WorkerStage.opening {op : Op} (h : WorkerStage c approver approvalMutex own op) (hop : op.reloads = true) :
    Opening own := by
  obtain ⟨own', rfl, hreload⟩ := h.reload_inv (by cases op <;> first | rfl | cases hop)
  cases hreload <;> first | cases hop; done | simp [Opening, looked, swapped]

/-- What is served is coherent when no connection is opening. -/
def Settled (P : Platform) (first : List UInt8) (tr : Trace (sig P) Daemon Tid Env) (s : Daemon) : Prop :=
  (∀ t, ¬ Opening (history t tr)) → Coherent P (servedAt first tr s)

section Run

variable {s₀ s : Daemon} {ps : Pool (sig P) Tid (Except IoError Unit)}

/-- When a connection hashes the file, no connection is opening. -/
theorem not_opening_at_hash {answer : Except IoError Hash}
    (hrun : Run (world P) s₀ (workers P approver approvalMutex) (before ++ st :: after) s ps)
    (hserial : Every Serial (before ++ st :: after)) (hhash : st.label = .thread c ⟨.configHash, answer⟩) (t : Tid) :
    ¬ Opening (history t before) := by
  by_cases ht : t = c
  · subst ht
    rw [history_before_hash hrun hhash]
    simp [Opening]
  · exact hserial before st after rfl c _ hhash t ht

/-- The step that ends an opening leaves what is served coherent. -/
theorem settled_of_opening {u : Tid} {op : Op} {answer : Answer P op} {s' : Daemon}
    (hrun : Run (world P) s₀ (workers P approver approvalMutex) tr s ps) (hserial : Every Serial tr)
    (hunedited : Every UneditedReload tr) (hsettled : Every (fun b st => Settled P first b st.pre) tr)
    (hlegal : Step.Legal (world P) ⟨s, .thread u ⟨op, answer⟩, s'⟩)
    (hstage : WorkerStage u approver approvalMutex (history u tr) op) (hopening : Opening (history u tr))
    (hdone : ¬ Opening (history u tr ++ [⟨op, answer⟩])) :
    Coherent P (servedAt first (tr ++ [⟨s, .thread u ⟨op, answer⟩, s'⟩]) s') := by
  have hop : op = .snapshot ∨ op = .releaseSlot := by
    by_contra hother
    rw [not_or] at hother
    refine hdone ⟨?_, fun e he => ?_⟩
    · obtain ⟨e, he, hhash⟩ := hopening.1
      exact ⟨e, List.mem_append_left _ he, hhash⟩
    · rcases List.mem_append.mp he with he | he
      · exact hopening.2 e he
      · obtain rfl := List.mem_singleton.mp he
        exact hother
  obtain ⟨own, rest, result, hown, hreload, hrest⟩ := hstage.reloaded hop fun e he => (hopening.2 e he).1
  obtain ⟨⟨hashed, hash⟩, he, hhashed⟩ := hopening.1
  obtain rfl : hashed = .configHash := hhashed
  obtain ⟨b, st, a, rfl, hhash⟩ := once_of_mem_history he
  have hbefore := hsettled b st a rfl (not_opening_at_hash hrun hserial hhash)
  have hrefines : (result, servedAt first (b ++ st :: a) s) = _ :=
    serial_refines hrun hserial hunedited hhash hown hreload hrest
  have hcoherent : Coherent P (servedAt first (b ++ st :: a) s) := by
    rw [show servedAt first (b ++ st :: a) s = _ from congrArg Prod.snd hrefines]
    exact hbefore.reload
  refine hcoherent.quiet hlegal ?_
  rcases hop with rfl | rfl <;> rfl

/-- **Coherence.** In every run in which reloads do not overlap and the file is not edited in their
midst, the bundle and the hash are those of the last load whenever no connection is opening. -/
theorem coherent_of_serial (hrun : Run (world P) s₀ (workers P approver approvalMutex) tr s ps)
    (hstart : Coherent P (servedAt first ([] : Trace (sig P) Daemon Tid Env) s₀)) (hserial : Every Serial tr)
    (hunedited : Every UneditedReload tr) :
    Every (fun b st => Settled P first b st.pre) tr ∧ Settled P first tr s := by
  induction hrun with
  | start => exact ⟨every_nil, fun _ => hstart⟩
  | @env tr s ps event s' hbefore henv ih =>
      obtain ⟨hold, hnow⟩ := ih (every_snoc.mp hserial).1 (every_snoc.mp hunedited).1
      refine ⟨every_snoc.mpr ⟨hold, hnow⟩, fun hidle => ?_⟩
      rw [servedAt_env henv]
      refine hnow fun t hopening => hidle t ?_
      rwa [history_append, history_env, List.append_nil]
  | @thread tr s ps u op next choice answer s' hbefore hnext hact ih =>
      obtain ⟨hserial, hmoves⟩ := every_snoc.mp hserial
      obtain ⟨hunedited, -⟩ := every_snoc.mp hunedited
      obtain ⟨hold, hnow⟩ := ih hserial hunedited
      have hlegal : Step.Legal (world P) ⟨s, .thread u ⟨op, answer⟩, s'⟩ := ⟨choice, hact⟩
      have hstage : WorkerStage u approver approvalMutex (history u tr) op :=
        hbefore.pre_next workers_meets hnext
      refine ⟨every_snoc.mpr ⟨hold, hnow⟩, fun hidle => ?_⟩
      by_cases hopening : Opening (history u tr)
      · refine settled_of_opening hbefore hserial hunedited hold hlegal hstage hopening fun h => hidle u ?_
        rwa [history_append, history_thread_self]
      · refine (hnow fun t => ?_).quiet hlegal ?_
        · by_cases ht : t = u
          · rwa [ht]
          · exact hmoves u _ rfl t ht
        · by_contra hop
          exact hopening (hstage.opening (by simpa using hop))

/-- The thread of a step has neither loaded a config nor taken a snapshot by the end of `tr`. -/
def Unserved (tr : Trace (sig P) Daemon Tid Env) (st : Step (sig P) Daemon Tid Env) : Prop :=
  ∀ u event, st.label = .thread u event →
    (∀ e ∈ history u tr, e.op ≠ .snapshot) ∧ ∀ fc, ⟨.loadConfig, .ok fc⟩ ∉ history u tr

theorem Unserved.of_append (h : Unserved (tr ++ after) st) : Unserved tr st := by
  intro u event hlabel
  obtain ⟨hsnapshot, hload⟩ := h u event hlabel
  rw [history_append] at hsnapshot hload
  exact ⟨fun e he => hsnapshot e (List.mem_append_left _ he), fun fc hmem => hload fc (List.mem_append_left _ hmem)⟩

theorem ReloadStage.loaded {op : Op} (h : ReloadStage own op)
    (hop : op.writesCurrent = true ∨ op.writesApprovals = true ∨ ∃ h, op = .storeLastHash h) :
    ∃ fc, ⟨.loadConfig, .ok fc⟩ ∈ own := by
  cases h with
  | @swap _ _ _ fc | @reset _ _ _ fc | @store _ _ _ fc => exact ⟨fc, by simp [swapped]⟩
  | _ => rcases hop with hop | hop | ⟨_, hop⟩ <;> cases hop

theorem effect_unserved {u : Tid} {op : Op} {answer : Answer P op} (contents : List UInt8) (v : Served)
    (hstage : WorkerStage u approver approvalMutex own op) (hsnapshot : ∀ e ∈ own, e.op ≠ .snapshot)
    (hload : ∀ fc, ⟨.loadConfig, .ok fc⟩ ∉ own ++ [⟨op, answer⟩]) :
    op.requestWrites = false ∧ effect contents v ⟨op, answer⟩ = v := by
  have hreload : op.reloading = true → (op.writesCurrent = true ∨ op.writesApprovals = true ∨
      ∃ h, op = .storeLastHash h) → False := by
    intro hop hwrites
    obtain ⟨own', rfl, hreload⟩ := hstage.reload_inv hop
    obtain ⟨fc, hmem⟩ := hreload.loaded hwrites
    exact hload fc (List.mem_append_left _ (List.mem_cons_of_mem _ hmem))
  cases op with
  | isRateLimited | recordCacheHit | recordApproval =>
      obtain ⟨own₁, loaded, callerUid, req, own₂, hadmitted, -, rfl⟩ := hstage.request_inv rfl
      have hmem : ⟨.snapshot, loaded⟩ ∈ (⟨.acquireSlot, ()⟩ :: own₁ ++ own₂ : History (sig P)) := by
        simp [hadmitted.peerUid.2]
      exact absurd rfl (hsnapshot _ hmem)
  | swapCurrent b => exact absurd (.inl rfl) (hreload rfl)
  | resetApprovals => exact absurd (.inr (.inl rfl)) (hreload rfl)
  | storeLastHash h => exact absurd (.inr (.inr ⟨h, rfl⟩)) (hreload rfl)
  | loadConfig =>
      cases answer with
      | error e => exact ⟨rfl, rfl⟩
      | ok fc => exact absurd (List.mem_append_right _ List.mem_cons_self) (hload fc)
  | _ => exact ⟨rfl, rfl⟩

theorem servedAt_unserved (hrun : Run (world P) s₀ (workers P approver approvalMutex) (tr ++ [st]) s ps)
    (hunserved : Unserved (tr ++ [st]) st) : servedAt first (tr ++ [st]) st.post = servedAt first tr st.pre := by
  obtain ⟨-, hlegal⟩ := hrun.before
  obtain ⟨pre, label, post⟩ := st
  cases label with
  | env event => exact servedAt_env hlegal
  | thread u event =>
      obtain ⟨op, answer⟩ := event
      have hstage := hrun.every_pre workers_meets tr _ [] rfl u _ rfl
      obtain ⟨hsnapshot, hload⟩ := hunserved u ⟨op, answer⟩ rfl
      rw [history_append, history_thread_self] at hsnapshot hload
      have hquiet := effect_unserved ((contentsOf pre.file).getD []) (servedAt first tr pre) hstage
        (fun e he => hsnapshot e (List.mem_append_left _ he)) hload
      rw [servedAt_thread hlegal hquiet.1, hquiet.2]
      intro hloads
      unfold loads at hloads
      split at hloads
      · rename_i t fc hlabel
        cases hlabel
        exact absurd (List.mem_append_right _ List.mem_cons_self) (hload fc)
      · cases hloads

/-- Connections that are not served change nothing that is. -/
theorem served_of_unserved
    (hrun : Run (world P) s₀ (workers P approver approvalMutex) (before ++ st :: after) s ps)
    (hunserved : ∀ st' ∈ st :: after, Unserved (before ++ st :: after) st') :
    servedAt first (before ++ st :: after) s = servedAt first before st.pre := by
  induction after using List.reverseRecOn generalizing s ps with
  | nil =>
      rw [hrun.state_eq]
      exact servedAt_unserved hrun (hunserved st List.mem_cons_self)
  | append_singleton after last ih =>
      have hlast := hunserved last (by simp)
      rw [← List.cons_append, ← List.append_assoc] at hrun hlast ⊢
      obtain ⟨⟨ps', hto⟩, -⟩ := hrun.before
      rw [hrun.state_eq, servedAt_unserved hrun hlast]
      refine ih hto fun st' hst' => ?_
      have hst := hunserved st' (by
        rw [← List.cons_append]
        exact List.mem_append_left _ hst')
      rw [← List.cons_append, ← List.append_assoc] at hst
      exact hst.of_append

/-- A worker whose reload has failed: it reports the error and is done. -/
def refuseReload (P : Platform) (c : Conn) (e : ConfigError) : Prog P (Except IoError Unit) := do
  let result ← writeResponse P c (.error ("config reload failed; request refused: " ++ e.display))
  call P .releaseSlot
  return result

theorem worker_refused {e : ConfigError} (hreload : ReloadDone own (.error e)) :
    (worker P approver approvalMutex c).Follows (⟨.acquireSlot, ()⟩ :: own) (refuseReload P c e) :=
  .step ((hreload.follows.bind _).bind _)

theorem worker_served (hreload : ReloadDone own (.ok ())) :
    (worker P approver approvalMutex c).Follows (⟨.acquireSlot, ()⟩ :: own)
      (.call .snapshot fun loaded => finishWorker P c loaded.bundle approver approvalMutex) :=
  .step ((hreload.follows.bind _).bind _)

/-- **A serial reload serves the file on disk or nothing.** A connection is refused, before any request
of it is read and with nothing changed, exactly when the file cannot be read, or is new to the daemon and
does not load. Otherwise it goes on to snapshot the bundle of the file's own contents, with the approval
state emptied exactly when the contents are new or no hash was recorded. After connections that were all
refused, the contents of the last load are served with the approval state there was. -/
theorem serial_reload_serves_file {answer : Except IoError Hash} {result : Except ConfigError Unit}
    (hinjective : Function.Injective P.sha256)
    (hrun : Run (world P) s₀ (workers P approver approvalMutex) (before ++ st :: after) s ps)
    (hstart : Coherent P (servedAt first ([] : Trace (sig P) Daemon Tid Env) s₀))
    (hserial : Every Serial (before ++ st :: after)) (hunedited : Every UneditedReload (before ++ st :: after))
    (hhash : st.label = .thread c ⟨.configHash, answer⟩)
    (hown : history c (before ++ st :: after) = ⟨.acquireSlot, ()⟩ :: own) (hdone : ReloadDone own result) :
    ((∃ e, result = .error e) ↔ Refuses P (servedAt first before st.pre) st.pre.file) ∧
    (∀ e, result = .error e →
      servedAt first (before ++ st :: after) s = servedAt first before st.pre ∧ ps c = refuseReload P c e) ∧
    (result = .ok () → ∃ file, st.pre.file = .ok file ∧ BundleOf P file.contents s.current.bundle ∧
      s.approvals = (if Changed file (servedAt first before st.pre) then ApprovalState.new else st.pre.approvals) ∧
      ps c = .call .snapshot fun loaded => finishWorker P c loaded.bundle approver approvalMutex) ∧
    ∀ b st₀ a, before = b ++ st₀ :: a → (∀ st' ∈ st₀ :: a, Unserved before st') → st₀.pre.lastHash ≠ none →
      contentsOf st.pre.file = some (lastLoaded first b) →
        result = .ok () ∧ s.approvals = st₀.pre.approvals ∧ s.current.bundle = st₀.pre.current.bundle := by
  have hcoherent : Coherent P (servedAt first before st.pre) :=
    (coherent_of_serial hrun hstart hserial hunedited).1 before st after rfl
      (not_opening_at_hash hrun hserial hhash)
  have hrefines : (result, servedAt first (before ++ st :: after) s) =
      (servedAt first before st.pre).reload P st.pre.file :=
    serial_refines hrun hserial hunedited hhash (by rw [hown, List.append_nil]) hdone only_nil
  obtain ⟨hresult, hserved⟩ := Prod.ext_iff.mp hrefines
  have hfollows := hrun.follows c
  rw [hown] at hfollows
  refine ⟨?_, fun e he => ?_, fun hok => ?_, ?_⟩
  · rw [← hcoherent.reload_error_iff hinjective, ← hresult]
  · subst he
    exact ⟨hserved.trans (reload_failed hresult.symm), hfollows.det (worker_refused hdone)⟩
  · subst hok
    obtain ⟨file, hfile, hbundle, happrovals⟩ := hcoherent.reload_ok hinjective hresult.symm
    rw [← hserved] at hbundle happrovals
    exact ⟨file, hfile, hbundle, happrovals, hfollows.det (worker_served hdone)⟩
  · rintro b st₀ a rfl hunserved hhashed hcontents
    obtain ⟨⟨ps', hbefore⟩, -⟩ := hrun.before
    have hkept : servedAt first (b ++ st₀ :: a) st.pre = servedAt first b st₀.pre :=
      served_of_unserved hbefore hunserved
    have hlast : st₀.pre.lastHash = some (P.sha256 (lastLoaded first b)) := by
      rw [hkept] at hcoherent
      exact hcoherent.lastHash.resolve_left hhashed
    cases hdisk : st.pre.file with
    | error e =>
        rw [hdisk] at hcontents
        cases hcontents
    | ok file =>
        rw [hdisk] at hcontents
        have hfast : (servedAt first (b ++ st₀ :: a) st.pre).reload P (.ok file) =
            (.ok (), servedAt first b st₀.pre) := by
          rw [hkept, Served.reload, if_pos]
          show st₀.pre.lastHash = some (P.sha256 file.contents)
          rw [hlast, ← Option.some.inj hcontents]
        rw [hdisk, hfast] at hresult hserved
        exact ⟨hresult, congrArg Served.approvals hserved, congrArg Served.bundle hserved⟩

end Run

/-- The thread that makes a step. -/
def mover (st : Step (sig P) Daemon Tid Env) : Option Tid :=
  match st.label with
  | .thread t _ => some t
  | .env _ => none

theorem serial_of_one (h : ∀ st ∈ tr, mover st = none ∨ mover st = some c) : Every Serial tr := by
  rintro before st after rfl t event hlabel u hu ⟨⟨e, he, -⟩, -⟩
  obtain ⟨st', hst', hlabel'⟩ := mem_history.mp he
  have hthread : t = c := by simpa [mover, hlabel] using h st (by simp)
  have hother : u = c := by simpa [mover, hlabel'] using h st' (List.mem_append_left _ hst')
  exact hu (hother.trans hthread.symm)

theorem uneditedReload_of_unedited (h : ∀ st ∈ tr.dropWhile (!hashing ·), edits st = false) :
    Every UneditedReload tr := by
  rintro before st after rfl t loaded hload b st' a hash rfl hhash st'' hst''
  have hhashing : hashing st' = true := by
    unfold Hashes at hhash
    simp [hashing, hhash]
  exact h st'' (mem_dropWhile_of_stop (by simp [hhashing]) (List.mem_cons_of_mem _ hst''))

theorem coherent_old (initialHash : Option Hash) (h : initialHash = none ∨ initialHash = some (utf8 oldToml)) :
    Coherent editPlatform (servedAt (utf8 oldToml) ([] : Trace (sig editPlatform) Daemon Tid Env)
      (Daemon.start (onDisk oldToml) ⟨.ok, fun _ => true⟩
        (bundleFromFileCfg (E := editPlatform.regex) ⟨oldConfig, rfl⟩) initialHash (fun _ => 1000)
        (fun _ => arrived idLine) (100 * nanosPerSec) 0)) :=
  ⟨⟨⟨0o600, 0, utf8 oldToml⟩, ⟨oldConfig, rfl⟩, rfl, rfl, rfl⟩, h⟩

/-- The daemon could not hash its file when it started, and the file is then made writable by all. -/
def unhashedDaemon : Daemon :=
  Daemon.start (onDisk oldToml) ⟨.ok, fun _ => true⟩
    (bundleFromFileCfg (E := editPlatform.regex) ⟨oldConfig, oldConfig_valid⟩) none (fun _ => 1000)
    (fun _ => arrived idLine) (100 * nanosPerSec) 0

def writableRun : Option (Point (sig editPlatform) Daemon Tid Env (Except IoError Unit)) :=
  replay (world editPlatform) ⟨[], unhashedDaemon, editWorkers⟩
    (.env (.editConfig (.ok ⟨0o622, 0, utf8 oldToml⟩)) :: List.replicate 6 (.thread 0 (smooth 55 .denied)))

def writableMsg : String := " is group- or world-writable; refusing to load (fix: chmod o-w,g-w)"

/-- The connection is refused, and the contents are those of the last load. -/
theorem refused_same_contents :
    ∃ c, writableRun = some c ∧ Run (world editPlatform) unhashedDaemon editWorkers c.trace c.state c.pool ∧
      Coherent editPlatform (servedAt (utf8 oldToml) ([] : Trace (sig editPlatform) Daemon Tid Env) unhashedDaemon) ∧
      Every Serial c.trace ∧ Every UneditedReload c.trace ∧
      contentsOf c.state.file = some (lastLoaded (utf8 oldToml) c.trace) ∧
      ∃ own e, history 0 c.trace = ⟨.acquireSlot, ()⟩ :: own ∧ ReloadDone own (.error e) := by
  obtain ⟨c, hc⟩ : ∃ c, writableRun = some c := ⟨_, rfl⟩
  refine ⟨c, hc, run_of_replay .start hc, coherent_old none (.inl rfl), ?_⟩
  obtain rfl := Option.some.inj hc
  have hreload : ReloadDone (P := editPlatform) (looked (utf8 oldToml) false none ++
      [⟨.loadConfig, .error (.invalid ("/etc/sudix/policy.toml" ++ writableMsg))⟩] ++
      [⟨.unlock .lastHash, ()⟩]) (.error (.invalid ("/etc/sudix/policy.toml" ++ writableMsg))) :=
    .unlocked (.failed nofun)
  refine ⟨serial_of_one (c := 0) (by decide +kernel), uneditedReload_of_unedited (by decide +kernel),
    by decide +kernel, _, _, ?_, hreload⟩
  rfl

/-- Whose connection is over with the step. -/
def releaser (st : Step (sig P) Daemon Tid Env) : Option Tid :=
  match st.label with
  | .thread t ⟨.releaseSlot, _⟩ => some t
  | _ => none

/-- Whose load of the config the step is. -/
def loader (st : Step (sig P) Daemon Tid Env) : Option Tid :=
  match st.label with
  | .thread t ⟨.loadConfig, _⟩ => some t
  | _ => none

def hashedBy (t : Tid) (st : Step (sig P) Daemon Tid Env) : Bool := hashing st && mover st == some t

/-- Every other thread that has moved before the step has ended its connection. -/
def wholeAt (before : Trace (sig P) Daemon Tid Env) (st : Step (sig P) Daemon Tid Env) : Bool :=
  (mover st).isNone || before.all fun st' =>
    mover st' == none || mover st' == mover st || before.any fun last => releaser last == mover st'

theorem serial_of_wholeAt (h : ∀ (i : Nat) (hi : i < tr.length), wholeAt (tr.take i) tr[i] = true) :
    Every Serial tr := by
  have hevery := Every.of_getElem (P := fun before st => wholeAt before st = true) h
  refine serial_of_whole (hevery.mono fun before st hwhole t event hlabel u hu => ?_)
  have hmover : mover st = some t := by rw [mover, hlabel]
  rcases List.eq_nil_or_concat (history u before) with hnil | ⟨own, last, hown⟩
  · exact .inl hnil
  · have hlast : last ∈ history u before := by simp [hown]
    obtain ⟨st', hst', hlabel'⟩ := mem_history.mp hlast
    have hmover' : mover st' = some u := by rw [mover, hlabel']
    rw [wholeAt, hmover, Option.isNone_some, Bool.false_or] at hwhole
    have hended := List.all_eq_true.mp hwhole st' hst'
    have hother : (some u == some t) = false := by simpa using hu
    rw [hmover', hother, Bool.or_false] at hended
    obtain ⟨release, hrelease, hreleaser⟩ : ∃ last ∈ before, releaser last = some u := by simpa using hended
    refine .inr ?_
    unfold releaser at hreleaser
    split at hreleaser
    · rename_i t' answer hlabel''
      obtain rfl : t' = u := by simpa using hreleaser
      exact ⟨_, mem_history.mpr ⟨release, hrelease, hlabel''⟩, rfl⟩
    · simp at hreleaser

/-- Since the loader has hashed the file, nobody has edited it. -/
def uneditedAt (before : Trace (sig P) Daemon Tid Env) (st : Step (sig P) Daemon Tid Env) : Bool :=
  match loader st with
  | none => true
  | some t => (before.dropWhile (!hashedBy t ·)).all (!edits ·)

theorem uneditedReload_of_uneditedAt
    (h : ∀ (i : Nat) (hi : i < tr.length), uneditedAt (tr.take i) tr[i] = true) : Every UneditedReload tr := by
  have hevery := Every.of_getElem (P := fun before st => uneditedAt before st = true) h
  refine hevery.mono fun before st hunedited t loaded hload b st' a hash hbefore hhash st'' hst'' => ?_
  have hloader : loader st = some t := by rw [loader, hload]
  have hhashed : hashedBy t st' = true := by
    unfold Hashes at hhash
    simp [hashedBy, hashing, mover, hhash]
  rw [uneditedAt, hloader, hbefore] at hunedited
  have hsince : st'' ∈ (b ++ st' :: a ++ []).dropWhile (!hashedBy t ·) :=
    mem_dropWhile_of_stop (by simp [hhashed]) (List.mem_cons_of_mem _ hst'')
  rw [List.append_nil] at hsince
  simpa using List.all_eq_true.mp hunedited st'' hsince

/-- Connection 0 is served from its first step to its last, connection 1 is refused because of an edit that does not
parse, and connection 2 comes after another edit. -/
def connectionsRun : Option (Point (sig editPlatform) Daemon Tid Env (Except IoError Unit)) :=
  replay (world editPlatform) ⟨[], oldServing (utf8 oldToml) oldToml, editWorkers⟩
    (List.replicate 18 (.thread 0 (smooth 55 .denied)) ++
      .env (.editConfig (onDisk "allow=")) :: List.replicate 7 (.thread 1 (smooth 55 .denied)) ++
      .env (.editConfig (onDisk newToml)) :: List.replicate 9 (.thread 2 (smooth 55 .denied)))

set_option maxRecDepth 4000 in
theorem connectionsRun_steps :
    ∃ c, connectionsRun = some c ∧
      Run (world editPlatform) (oldServing (utf8 oldToml) oldToml) editWorkers c.trace c.state c.pool ∧
      Every Serial c.trace ∧ Every UneditedReload c.trace ∧
      (∃ own, history 2 c.trace = ⟨.acquireSlot, ()⟩ :: own ∧ ReloadDone own (.ok ())) ∧
      ∃ h : 28 < c.trace.length, c.trace[28].label = .thread 2 ⟨.configHash, .ok (utf8 newToml)⟩ ∧
        c.trace[28].pre.file = onDisk newToml ∧ lastLoaded (utf8 oldToml) (c.trace.take 28) = utf8 oldToml := by
  obtain ⟨c, hc⟩ : ∃ c, connectionsRun = some c := ⟨_, rfl⟩
  refine ⟨c, hc, run_of_replay .start hc, ?_⟩
  obtain rfl := Option.some.inj hc
  have hreload : ReloadDone (P := editPlatform)
      (swapped (utf8 newToml) false (some (utf8 oldToml)) ⟨newConfig, rfl⟩ ++
        [⟨.resetApprovals, ()⟩, ⟨.storeLastHash (utf8 newToml), ()⟩] ++ [⟨.unlock .lastHash, ()⟩]) (.ok ()) :=
    .unlocked (.loaded (by decide +kernel))
  refine ⟨serial_of_wholeAt (by decide +kernel), uneditedReload_of_uneditedAt (by decide +kernel),
    ⟨_, ?_, hreload⟩, by decide +kernel, rfl, rfl, by decide +kernel⟩
  rfl

/-- The edited file is loaded and served, with an empty approval state. -/
theorem connectionsRun_serves :
    ∃ c, connectionsRun = some c ∧ BundleOf editPlatform (utf8 newToml) c.state.current.bundle ∧
      c.state.approvals = ApprovalState.new := by
  obtain ⟨c, hc, hrun, hserial, hunedited, ⟨own, hown, hreload⟩, hlen, hlabel, hfile, hfirst⟩ := connectionsRun_steps
  have hsplit : c.trace = c.trace.take 28 ++ c.trace[28] :: c.trace.drop 29 := by
    rw [List.getElem_cons_drop, List.take_append_drop]
  rw [hsplit] at hrun hserial hunedited hown
  obtain ⟨-, -, hserved, -⟩ :=
    serial_reload_serves_file Function.injective_id hrun (coherent_old _ (.inr rfl)) hserial
      hunedited hlabel hown hreload
  obtain ⟨file, hdisk, hbundle, happrovals, -⟩ := hserved rfl
  rw [hfile] at hdisk
  obtain rfl := Except.ok.inj hdisk
  refine ⟨c, hc, hbundle, ?_⟩
  rw [happrovals, if_pos]
  refine .inl ?_
  show utf8 newToml ≠ lastLoaded (utf8 oldToml) (c.trace.take 28)
  rw [hfirst]
  decide +kernel

end Sudix
