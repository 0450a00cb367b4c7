import Sudix.AuditTrail
import Sudix.ConcurrentLocks

/-! The order of the daemon's mutexes. A request takes the server's approval mutex, the gate of the agent approver
and the stream of an agent in this order, and a reload takes `last_hash` alone. A worker reads its request, waits for
a slot, for a command to end or for its agent's disconnection with no mutex in its hands. -/

namespace Sudix

open Concurrent

variable {P : Platform} {c : Conn} {held : List Lock}

/-- What an operation does with the mutexes. The read of a request asks for a full buffer and has no timeout; the
read of a verdict has one. -/
def Op.lockEffect : Op → LockEffect Lock
  | .lock l => .take l
  | .unlock l => .release l
  | .acquireSlot | .waitDisconnected _ | .spawn _ _ _ => .wait
  | .recv _ max => if bufCapacity ≤ max then .wait else .pass
  | _ => .pass

/-- The place of a mutex in the order. -/
def Lock.rank : Lock → Nat
  | .lastHash => 0
  | .approvalMutex => 1
  | .approvalGate => 2
  | .stream _ => 3

theorem Lock.rank_le (l : Lock) : l.rank ≤ 3 := by cases l <;> simp [Lock.rank]

def lockOrder (P : Platform) : LockOrder (sig P) Lock := ⟨Op.lockEffect, Lock.rank⟩

theorem lockEffect_take {op : Op} {l : Lock} (h : op.lockEffect = .take l) : op = .lock l := by
  cases op with
  | lock l' =>
      cases h
      rfl
  | recv c max =>
      simp only [Op.lockEffect] at h
      split at h <;> cases h
  | _ => cases h

theorem lockEffect_release {op : Op} {l : Lock} (h : op.lockEffect = .release l) : op = .unlock l := by
  cases op with
  | unlock l' =>
      cases h
      rfl
  | recv c max =>
      simp only [Op.lockEffect] at h
      split at h <;> cases h
  | _ => cases h

/-- An operation that waits for nothing can always be performed: a read with a timeout may time out. -/
theorem act_of_pass {s : Daemon} {t : Tid} {op : Op} (h : op.lockEffect = .pass) :
    ∃ (choice : Choice op) (answer : Answer P op) (s' : Daemon), act P s t op choice = some (answer, s') := by
  cases op with
  | lock l | unlock l | acquireSlot | waitDisconnected c | spawn program args dir => cases h
  | recv c max => exact ⟨.error "timed out", _, _, rfl⟩
  | consumeCounter counter =>
      by_cases hmem : counter ∈ s.usedCounters
      · exact ⟨(), false, s, if_pos hmem⟩
      · exact ⟨(), true, _, if_neg hmem⟩
  | _ => exact ⟨smooth 0 .denied _, _, _, rfl⟩

theorem lockOrder_kept : (lockOrder P).KeptBy (world P) Daemon.holder where
  take {s t op choice answer s' l} heffect hact := by
    obtain rfl := lockEffect_take heffect
    have hlegal : Step.Legal (world P) ⟨s, .thread t ⟨.lock l, answer⟩, s'⟩ := ⟨choice, hact⟩
    obtain ⟨hfree, rfl⟩ := legal_lock hlegal
    exact ⟨hfree, rfl⟩
  release {s t op choice answer s' l} heffect hact := by
    obtain rfl := lockEffect_release heffect
    have hlegal : Step.Legal (world P) ⟨s, .thread t ⟨.unlock l, answer⟩, s'⟩ := ⟨choice, hact⟩
    obtain ⟨-, rfl⟩ := legal_unlock hlegal
    rfl
  pass {s t op choice answer s'} heffect hact := by
    refine (act_frame hact).holder ?_
    cases op with
    | lock l | unlock l => rcases heffect with h | h <;> cases h
    | _ => rfl
  env hstep := (env_frame hstep).holder
  takes {s t op l} heffect hfree := by
    obtain rfl := lockEffect_take heffect
    exact ⟨false, false, _, if_pos hfree⟩
  releases {s t op l} heffect hheld := by
    obtain rfl := lockEffect_release heffect
    exact ⟨(), (), _, if_pos hheld⟩
  passes heffect := act_of_pass heffect

section Programs

variable {α : Type} {held kept : List Lock}

/-- An operation that neither takes nor releases a mutex, and waits only with empty hands. -/
def Harmless (op : Op) (held : List Lock) : Prop := op.lockEffect = .pass ∨ op.lockEffect = .wait ∧ held = []

theorem call_orderly {op : Op} {f : Answer P op → Prog P α} (hop : Harmless op held)
    (hf : ∀ answer, (f answer).Orderly (lockOrder P) kept held) :
    (call P op >>= f).Orderly (lockOrder P) kept held := by
  rcases hop with hpass | ⟨hwait, rfl⟩
  · exact Program.orderly_pass hpass hf
  · exact Program.orderly_wait hwait hf

theorem last_orderly {op : Op} (hop : Harmless op held) : (call P op).Orderly (lockOrder P) held held :=
  call_orderly hop fun _ => rfl

/-- The mutex `l` may be taken with `held` in hand. -/
def Below (l : Lock) (held : List Lock) : Prop := ∀ l' ∈ held, l'.rank < l.rank

theorem lock_orderly {l : Lock} {f : Bool → Prog P α} (hbelow : Below l held)
    (hf : ∀ poisoned, (f poisoned).Orderly (lockOrder P) kept (l :: held)) :
    (call P (.lock l) >>= f).Orderly (lockOrder P) kept held :=
  Program.orderly_take rfl hbelow hf

theorem unlock_orderly {l : Lock} {f : Unit → Prog P α} (hf : (f ()).Orderly (lockOrder P) kept held) :
    (call P (.unlock l) >>= f).Orderly (lockOrder P) kept (l :: held) :=
  Program.orderly_release rfl fun _ => hf

theorem readLineBytes_orderly {chunk : Nat → Nat} {limit rounds : Nat} {line : List UInt8}
    (hread : ∀ n ≤ limit, Harmless (.recv c (chunk n)) held) :
    (readLineBytes P c chunk limit rounds line).Orderly (lockOrder P) held held := by
  induction rounds generalizing line with
  | zero => exact rfl
  | succ rounds ih =>
      rw [readLineBytes]
      by_cases hfull : limit ≤ line.length
      · rw [if_pos hfull]
        exact rfl
      · rw [if_neg hfull]
        refine call_orderly (hread _ (Nat.sub_le _ _)) fun answer => ?_
        cases answer with
        | error e => exact rfl
        | ok bytes =>
            dsimp only
            split
            · exact rfl
            · split
              · exact rfl
              · exact ih

theorem readLine_orderly {chunk : Nat → Nat} {limit : Nat} (hread : ∀ n ≤ limit, Harmless (.recv c (chunk n)) held) :
    (readLine P c chunk limit).Orderly (lockOrder P) held held := by
  refine (readLineBytes_orderly hread).bind fun result => ?_
  cases result with
  | error e => exact rfl
  | ok bytes =>
      dsimp only
      split <;> exact rfl

/-- The read of a verdict has a timeout: it asks for less than a full buffer. -/
theorem harmless_verdict (n : Nat) (hn : n ≤ maxVerdictBytes) : Harmless (.recv c (min bufCapacity n)) held := by
  have hsmall : ¬ bufCapacity ≤ min bufCapacity n := by
    simp only [bufCapacity, maxVerdictBytes] at hn ⊢
    omega
  exact .inl (if_neg hsmall)

theorem promptLocked_orderly (p : Prompt) : (promptLocked P c p).Orderly (lockOrder P) held held := by
  unfold promptLocked
  cases p.toLine P.json with
  | error e => exact rfl
  | ok line =>
      refine call_orderly (.inl rfl) fun written => ?_
      cases written with
      | error e => exact call_orderly (.inl rfl) fun _ => rfl
      | ok _ =>
          refine call_orderly (.inl rfl) fun flushed => ?_
          cases flushed with
          | error e => exact call_orderly (.inl rfl) fun _ => rfl
          | ok _ =>
              refine call_orderly (.inl rfl) fun timeout => ?_
              cases timeout with
              | error e => exact rfl
              | ok _ =>
                  refine (readLine_orderly harmless_verdict).bind fun result => ?_
                  cases result with
                  | error e => exact call_orderly (.inl rfl) fun _ => rfl
                  | ok answer =>
                      dsimp only
                      split
                      · exact call_orderly (.inl rfl) fun _ => rfl
                      · exact rfl

theorem prompt_orderly (p : Prompt) (hbelow : Below (.stream c) held) :
    (AgentHandle.prompt P c p).Orderly (lockOrder P) held held := by
  refine lock_orderly hbelow fun poisoned => ?_
  cases poisoned with
  | true => exact unlock_orderly rfl
  | false => exact (promptLocked_orderly p).bind fun approval => unlock_orderly rfl

theorem awaitAgent_orderly (callerUid : Uid) (deadline : Instant) (rounds : Nat) :
    (awaitAgent P callerUid deadline rounds).Orderly (lockOrder P) held held := by
  induction rounds with
  | zero => exact last_orderly (.inl rfl)
  | succ rounds ih =>
      refine call_orderly (.inl rfl) fun found => ?_
      cases found with
      | some c => exact rfl
      | none =>
          refine call_orderly (.inl rfl) fun now => ?_
          split
          · exact rfl
          · refine call_orderly (.inl rfl) fun timedOut => ?_
            cases timedOut with
            | true => exact rfl
            | false => exact ih

theorem agent_orderly (registerWait rounds : Nat) (callerUid : Uid) (req : Request)
    (hbelow : Below .approvalGate held) :
    (AgentApprover.approve P registerWait rounds callerUid req).Orderly (lockOrder P) held held := by
  refine call_orderly (.inl rfl) fun start => ?_
  refine (awaitAgent_orderly callerUid _ rounds).bind fun found => ?_
  cases found with
  | none => exact rfl
  | some c =>
      refine lock_orderly hbelow fun _ => (prompt_orderly _ fun l hl => ?_).bind fun approval => unlock_orderly rfl
      rcases List.mem_cons.mp hl with rfl | hl
      · exact Nat.lt_succ_self 2
      · exact Nat.lt_succ_of_lt (hbelow l hl)

theorem totp_orderly (req : Request) : (TotpApprover.approve P req).Orderly (lockOrder P) held held := by
  unfold TotpApprover.approve
  cases req.otp with
  | none => exact rfl
  | some code =>
      refine call_orderly (.inl rfl) fun accepted => ?_
      cases accepted with
      | false => exact rfl
      | true =>
          refine call_orderly (.inl rfl) fun unixSecs => call_orderly (.inl rfl) fun fresh => ?_
          cases fresh <;> exact rfl

theorem approve_orderly (approver : Approver) (callerUid : Uid) (req : Request) (hbelow : Below .approvalGate held) :
    (approver.approve P callerUid req).Orderly (lockOrder P) held held := by
  cases approver with
  | external => exact last_orderly (.inl rfl)
  | totp => exact totp_orderly req
  | agent registerWait rounds => exact agent_orderly registerWait rounds callerUid req hbelow

theorem maybeReload_orderly : (maybeReload P).Orderly (lockOrder P) [] [] := by
  refine call_orderly (.inl rfl) fun hash => ?_
  cases hash with
  | error e => exact rfl
  | ok h =>
      refine lock_orderly (by simp [Below]) fun _ => Program.Orderly.bind ?_ fun result => unlock_orderly rfl
      refine call_orderly (.inl rfl) fun last => ?_
      split
      · exact rfl
      · refine call_orderly (.inl rfl) fun loaded => ?_
        cases loaded with
        | error e => exact rfl
        | ok fc =>
            refine call_orderly (.inl rfl) fun _ => call_orderly (.inl rfl) fun _ => ?_
            exact call_orderly (.inl rfl) fun _ => rfl

theorem refuse_orderly (ctx : RequestCtx) (req : Request) (outcome : Outcome) (resp : Response) :
    (refuse P ctx req outcome resp).Orderly (lockOrder P) [] [] :=
  call_orderly (.inl rfl) fun _ => call_orderly (.inl rfl) fun _ => rfl

/-- A command runs, however long, while no mutex is held. -/
theorem executeAndReport_orderly (ctx : RequestCtx) (req : Request) (cwd : String) (outcome : Int32 → Outcome) :
    (executeAndReport P ctx req cwd outcome).Orderly (lockOrder P) [] [] := by
  refine call_orderly (.inr ⟨rfl, rfl⟩) fun result => ?_
  cases result with
  | error e => exact refuse_orderly ctx req _ _
  | ok output => exact refuse_orderly ctx req _ _

theorem gated_orderly (approver : Approver) (approvalMutex : Bool) (callerUid : Uid) (req : Request) :
    (gated P approvalMutex (approver.approve P callerUid req)).Orderly (lockOrder P) [] [] := by
  cases approvalMutex with
  | false => exact approve_orderly approver callerUid req (by simp [Below])
  | true =>
      refine lock_orderly (by simp [Below]) fun _ => ?_
      refine (approve_orderly approver callerUid req ?_).bind fun approval => unlock_orderly rfl
      simp [Below, Lock.rank]

theorem handleRequest_orderly (ctx : RequestCtx) (approver : Approver) (approvalMutex : Bool) (req : Request) :
    (handleRequest P ctx approver approvalMutex req).Orderly (lockOrder P) [] [] := by
  unfold handleRequest
  split
  · exact refuse_orderly ctx req _ _
  · split
    · exact refuse_orderly ctx req _ _
    · split
      · exact refuse_orderly ctx req _ _
      · refine call_orderly (.inl rfl) fun path => ?_
        cases path with
        | error e => exact refuse_orderly ctx req _ _
        | ok cwd =>
            refine call_orderly (.inl rfl) fun isDir => ?_
            cases isDir with
            | false => exact refuse_orderly ctx req _ _
            | true =>
                refine call_orderly (.inl rfl) fun limited => ?_
                cases limited with
                | true => exact refuse_orderly ctx req _ _
                | false =>
                    refine call_orderly (.inl rfl) fun verdict => ?_
                    cases verdict with
                    | hit => exact call_orderly (.inl rfl) fun _ => executeAndReport_orderly ctx req _ _
                    | miss =>
                        refine (gated_orderly approver approvalMutex ctx.callerUid req).bind fun approval => ?_
                        cases approval with
                        | denied => exact refuse_orderly ctx req _ _
                        | error why => exact refuse_orderly ctx req _ _
                        | allowed => exact call_orderly (.inl rfl) fun _ => executeAndReport_orderly ctx req _ _

theorem writeResponse_orderly (resp : Response) : (writeResponse P c resp).Orderly (lockOrder P) [] [] := by
  unfold writeResponse
  cases resp.toLine P.json with
  | error e => exact rfl
  | ok line =>
      refine call_orderly (.inl rfl) fun written => ?_
      cases written with
      | error e => exact rfl
      | ok _ => exact last_orderly (.inl rfl)

theorem serveAgent_orderly (callerUid : Uid) : (serveAgent P c callerUid).Orderly (lockOrder P) [] [] := by
  refine call_orderly (.inl rfl) fun cloned => ?_
  cases cloned with
  | error e => exact rfl
  | ok _ =>
      refine call_orderly (.inl rfl) fun _ => call_orderly (.inr ⟨rfl, rfl⟩) fun _ => ?_
      exact call_orderly (.inl rfl) fun _ => rfl

theorem handleConnection_orderly (approver : Approver) (approvalMutex : Bool) :
    (handleConnection P c approver approvalMutex).Orderly (lockOrder P) [] [] := by
  refine maybeReload_orderly.bind fun result => ?_
  cases result with
  | error e => exact writeResponse_orderly _
  | ok _ =>
      refine call_orderly (.inl rfl) fun loaded => call_orderly (.inl rfl) fun peer => ?_
      cases peer with
      | error e => exact rfl
      | ok callerUid =>
          dsimp only
          split
          · exact writeResponse_orderly _
          · refine call_orderly (.inl rfl) fun cloned => ?_
            cases cloned with
            | error e => exact rfl
            | ok _ =>
                refine (readLine_orderly fun _ _ => .inr ⟨rfl, rfl⟩).bind fun read => ?_
                cases read with
                | error e => exact rfl
                | ok line =>
                    dsimp only
                    split
                    · exact rfl
                    · split
                      · exact writeResponse_orderly _
                      · unfold serveHello
                        split
                        · exact (handleRequest_orderly _ _ _ _).bind fun resp => writeResponse_orderly resp
                        · exact serveAgent_orderly callerUid
                        · exact writeResponse_orderly _

theorem worker_orderly (approver : Approver) (approvalMutex : Bool) (c : Conn) :
    (worker P approver approvalMutex c).Orderly (lockOrder P) [] [] := by
  refine call_orderly (.inr ⟨rfl, rfl⟩) fun _ => (handleConnection_orderly approver approvalMutex).bind fun result => ?_
  exact call_orderly (.inl rfl) fun _ => rfl

end Programs

variable {approver : Approver} {approvalMutex : Bool} {s₀ s : Daemon} {tr : Trace (sig P) Daemon Tid Env}
  {ps : Pool (sig P) Tid (Except IoError Unit)}

/-- **Workers do not deadlock.** They never wait for each other's mutexes in a circle; one that has returned or waits
for its client, for a slot, for its command or for its agent's disconnection keeps no mutex from the others; and
whatever the peers do, every worker can get there. -/
theorem workers_deadlock_free (hrun : Run (world P) s₀ (workers P approver approvalMutex) tr s ps)
    (hfree : ∀ l, s₀.holder l = none) :
    (∀ t, ¬ Relation.TransGen (WaitsFor (lockOrder P) Daemon.holder s ps) t t) ∧
    (∀ t, AtRest (lockOrder P) (ps t) → ∀ l, s.holder l ≠ some t) ∧
    ∀ t, ∃ tr' s' ps', Run (world P) s₀ (workers P approver approvalMutex) (tr ++ tr') s' ps' ∧
      (∀ st ∈ tr', ∃ u event, st.label = .thread u event) ∧ AtRest (lockOrder P) (ps' t) := by
  obtain ⟨held, h⟩ := hrun.disciplined lockOrder_kept (worker_orderly approver approvalMutex) hfree
  refine ⟨fun t => h.not_circular, fun t hrest l hl => ?_, fun t => ?_⟩
  · have hmem : l ∈ held t := (h.holds t l).mp hl
    rw [h.held_eq_nil hrest] at hmem
    cases hmem
  · obtain ⟨s', ps', held', hsteps, -, hrest⟩ := h.can_rest lockOrder_kept Lock.rank_le t
    obtain ⟨tr', hrun', hthreads⟩ := hrun.unaided hsteps
    exact ⟨tr', s', ps', hrun', hthreads, hrest⟩

/-- Connection 1 has its approver asked, with the approval mutex in hand, and connection 2 is about to take it. -/
def queuedRun : Option (Point (sig strangerPlatform) Daemon Tid Env (Except IoError Unit)) :=
  replay (world strangerPlatform) ⟨[], strangerDaemon, workers strangerPlatform .external true⟩
    (List.replicate 14 (.thread 1 (smooth 55 .allowed)) ++ List.replicate 13 (.thread 2 (smooth 55 .allowed)))

theorem queuedRun_waits :
    ∃ c, queuedRun = some c ∧
      Run (world strangerPlatform) strangerDaemon (workers strangerPlatform .external true) c.trace c.state c.pool ∧
      WaitsFor (lockOrder strangerPlatform) Daemon.holder c.state c.pool 2 1 := by
  obtain ⟨c, hc⟩ : ∃ c, queuedRun = some c := ⟨_, rfl⟩
  refine ⟨c, hc, run_of_replay .start hc, ?_⟩
  obtain rfl := Option.some.inj hc
  exact ⟨.lock .approvalMutex, _, .approvalMutex, rfl, rfl, rfl⟩

/-- The one that waits can be brought to rest. -/
theorem queuedRun_deadlock_free :
    ∃ c, queuedRun = some c ∧ WaitsFor (lockOrder strangerPlatform) Daemon.holder c.state c.pool 2 1 ∧
      ¬ WaitsFor (lockOrder strangerPlatform) Daemon.holder c.state c.pool 1 2 ∧
      ∃ tr' s' ps', Run (world strangerPlatform) strangerDaemon (workers strangerPlatform .external true)
        (c.trace ++ tr') s' ps' ∧ AtRest (lockOrder strangerPlatform) (ps' 2) := by
  obtain ⟨c, hc, hrun, hwaits⟩ := queuedRun_waits
  obtain ⟨hcircle, -, hrest⟩ := workers_deadlock_free hrun fun _ => rfl
  obtain ⟨tr', s', ps', hrun', -, hend⟩ := hrest 2
  exact ⟨c, hc, hwaits, fun hback => hcircle 1 (.tail (.single hback) hwaits), tr', s', ps', hrun', hend⟩

end Sudix
