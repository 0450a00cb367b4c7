import Sudix.Approval

/-! What an approver's program can do: for each of its functions, the operations it performs with
everything it has performed and been answered before, and the histories it returns after. A function
is specified once, from the empty history; its callers use the frame rule and never unfold it. -/

namespace Sudix

open Concurrent

variable {P : Platform}

/-- The history of a `read_line` still in progress: reads that brought bytes, no newline and nothing
past the limit. -/
inductive Reading (c : Conn) (chunk : Nat → Nat) (limit : Nat) : History (sig P) → List UInt8 → Prop
  | start : Reading c chunk limit [] []
  | more {own line bytes} : Reading c chunk limit own line → line.length < limit →
      newline ∉ bytes.take (limit - line.length) → bytes.take (limit - line.length) ≠ [] →
      Reading c chunk limit (own ++ [⟨.recv c (chunk (limit - line.length)), .ok bytes⟩])
        (line ++ bytes.take (limit - line.length))

/-- The only operation of `read_line`. -/
inductive ReadStage (c : Conn) (chunk : Nat → Nat) (limit : Nat) : History (sig P) → Op → Prop
  | recv {own line} : Reading c chunk limit own line → line.length < limit →
      ReadStage c chunk limit own (.recv c (chunk (limit - line.length)))

inductive ReadDone (c : Conn) (chunk : Nat → Nat) (limit : Nat) :
    History (sig P) → Except IoError (List UInt8) → Prop
  | full {own line} : Reading c chunk limit own line → limit ≤ line.length →
      ReadDone c chunk limit own (.ok line)
  | newline {own line bytes} : Reading c chunk limit own line → line.length < limit →
      newline ∈ bytes.take (limit - line.length) →
      ReadDone c chunk limit (own ++ [⟨.recv c (chunk (limit - line.length)), .ok bytes⟩])
        (.ok (line ++ (bytes.take (limit - line.length)).takeWhile (· != Sudix.newline) ++ [Sudix.newline]))
  | eof {own line bytes} : Reading c chunk limit own line → line.length < limit →
      bytes.take (limit - line.length) = [] →
      ReadDone c chunk limit (own ++ [⟨.recv c (chunk (limit - line.length)), .ok bytes⟩]) (.ok line)
  | error {own line e} : Reading c chunk limit own line → line.length < limit →
      ReadDone c chunk limit (own ++ [⟨.recv c (chunk (limit - line.length)), .error e⟩]) (.error e)

theorem readLineBytes_meets_from {c : Conn} {chunk : Nat → Nat} {limit rounds : Nat} {line : List UInt8}
    {own : History (sig P)} (hreading : Reading c chunk limit own line)
    (hrounds : limit ≤ line.length + rounds) :
    (readLineBytes P c chunk limit rounds line).Meets (ReadStage c chunk limit) (ReadDone c chunk limit)
      own := by
  induction rounds generalizing line own with
  | zero => exact .full hreading (by omega)
  | succ rounds ih =>
      rw [readLineBytes]
      split
      · rename_i hfull
        exact .full hreading hfull
      · rename_i hnotfull
        have hlt : line.length < limit := by omega
        refine meets_call_bind.mpr ⟨.recv hreading hlt, fun answer => ?_⟩
        cases answer with
        | error e => exact .error hreading hlt
        | ok bytes =>
            dsimp only
            split
            · rename_i hnl
              exact .newline hreading hlt hnl
            · rename_i hnl
              split
              · rename_i hnil
                exact .eof hreading hlt hnil
              · rename_i hne
                refine ih (.more hreading hlt hnl hne) ?_
                -- every round brings at least one byte
                have hpos := List.length_pos_iff.mpr hne
                rw [List.length_append]
                omega

theorem readLineBytes_meets (c : Conn) (chunk : Nat → Nat) (limit : Nat) :
    (readLineBytes P c chunk limit limit []).Meets (ReadStage c chunk limit) (ReadDone c chunk limit) [] :=
  readLineBytes_meets_from .start (by simp)

/-- The text a `read_line` returns. -/
inductive LineDone (c : Conn) (chunk : Nat → Nat) (limit : Nat) :
    History (sig P) → Except IoError String → Prop
  | ok {own bytes line} : ReadDone c chunk limit own (.ok bytes) → fromUtf8 bytes = some line →
      LineDone c chunk limit own (.ok line)
  | error {own e} : ReadDone c chunk limit own (.error e) → LineDone c chunk limit own (.error e)
  | invalid {own bytes} : ReadDone c chunk limit own (.ok bytes) → fromUtf8 bytes = none →
      LineDone c chunk limit own (.error "stream did not contain valid UTF-8")

theorem readLine_meets (c : Conn) (chunk : Nat → Nat) (limit : Nat) :
    (readLine P c chunk limit).Meets (ReadStage c chunk limit) (LineDone c chunk limit) [] := by
  refine (readLineBytes_meets c chunk limit).bind (fun _ _ => id) fun own result hdone => ?_
  cases result with
  | error e => exact .error hdone
  | ok bytes =>
      cases htext : fromUtf8 bytes with
      | none =>
          simp only [htext]
          exact .invalid hdone htext
      | some line =>
          simp only [htext]
          exact .ok hdone htext

/-- The prompt's line is written and flushed, and the read timeout is set. -/
def sent (c : Conn) (line : String) : History (sig P) :=
  [⟨.writeAll c (utf8 line), .ok ()⟩, ⟨.flush c, .ok ()⟩, ⟨.setReadTimeout c, .ok ()⟩]

/-- The failures of a round-trip that signal the disconnection, with the error they end in. -/
inductive Broken (c : Conn) (p : Prompt) : History (sig P) → String → Prop
  | write {line e} : p.toLine P.json = .ok line →
      Broken c p [⟨.writeAll c (utf8 line), .error e⟩] ("failed to send prompt to agent: " ++ e)
  | flush {line e} : p.toLine P.json = .ok line →
      Broken c p [⟨.writeAll c (utf8 line), .ok ()⟩, ⟨.flush c, .error e⟩]
        ("failed to flush prompt to agent: " ++ e)
  | read {line own e} : p.toLine P.json = .ok line →
      LineDone c (min bufCapacity) maxVerdictBytes own (.error e) →
      Broken c p (sent c line ++ own) ("approval agent timed out or disconnected: " ++ e)
  | eof {line own} : p.toLine P.json = .ok line →
      LineDone c (min bufCapacity) maxVerdictBytes own (.ok "") →
      Broken c p (sent c line ++ own) "approval agent disconnected"

inductive LockedStage (c : Conn) (p : Prompt) : History (sig P) → Op → Prop
  | write {line} : p.toLine P.json = .ok line → LockedStage c p [] (.writeAll c (utf8 line))
  | flush {line} : p.toLine P.json = .ok line →
      LockedStage c p [⟨.writeAll c (utf8 line), .ok ()⟩] (.flush c)
  | setReadTimeout {line} : p.toLine P.json = .ok line →
      LockedStage c p [⟨.writeAll c (utf8 line), .ok ()⟩, ⟨.flush c, .ok ()⟩] (.setReadTimeout c)
  | read {line own op} : p.toLine P.json = .ok line →
      ReadStage c (min bufCapacity) maxVerdictBytes own op → LockedStage c p (sent c line ++ own) op
  | signal {own why} : Broken c p own why → LockedStage c p own (.signalDisconnected c)

inductive LockedDone (c : Conn) (p : Prompt) : History (sig P) → Approval → Prop
  | unserializable {e} : p.toLine P.json = .error e →
      LockedDone c p [] (.error ("failed to serialize prompt: " ++ e))
  | noTimeout {line e} : p.toLine P.json = .ok line →
      LockedDone c p [⟨.writeAll c (utf8 line), .ok ()⟩, ⟨.flush c, .ok ()⟩, ⟨.setReadTimeout c, .error e⟩]
        (.error ("set_read_timeout failed: " ++ e))
  | broken {own why} : Broken c p own why →
      LockedDone c p (own ++ [⟨.signalDisconnected c, ()⟩]) (.error why)
  | answered {line own answer} : p.toLine P.json = .ok line →
      LineDone c (min bufCapacity) maxVerdictBytes own (.ok answer) → answer ≠ "" →
      LockedDone c p (sent c line ++ own) (approvalOf P answer)

theorem promptLocked_meets (c : Conn) (p : Prompt) :
    (promptLocked P c p).Meets (LockedStage c p) (LockedDone c p) [] := by
  unfold promptLocked
  cases hline : p.toLine P.json with
  | error e => exact .unserializable hline
  | ok line =>
      refine meets_call_bind.mpr ⟨.write hline, fun written => ?_⟩
      cases written with
      | error e => exact meets_call_bind.mpr ⟨.signal (.write hline), fun _ => .broken (.write hline)⟩
      | ok _ =>
          refine meets_call_bind.mpr ⟨.flush hline, fun flushed => ?_⟩
          cases flushed with
          | error e => exact meets_call_bind.mpr ⟨.signal (.flush hline), fun _ => .broken (.flush hline)⟩
          | ok _ =>
              refine meets_call_bind.mpr ⟨.setReadTimeout hline, fun timeout => ?_⟩
              cases timeout with
              | error e => exact .noTimeout hline
              | ok _ =>
                  refine (readLine_meets c _ _).bind (fun own op h => .read hline h) fun own result h => ?_
                  cases result with
                  | error e => exact meets_call_bind.mpr ⟨.signal (.read hline h), fun _ => .broken (.read hline h)⟩
                  | ok answer =>
                      dsimp only
                      split
                      · rename_i hempty
                        subst hempty
                        exact meets_call_bind.mpr ⟨.signal (.eof hline h), fun _ => .broken (.eof hline h)⟩
                      · rename_i hne
                        exact .answered hline h hne

inductive PromptStage (c : Conn) (p : Prompt) : History (sig P) → Op → Prop
  | lock : PromptStage c p [] (.lock (.stream c))
  | poisoned : PromptStage c p [⟨.lock (.stream c), true⟩] (.unlock (.stream c))
  | locked {own op} : LockedStage c p own op → PromptStage c p (⟨.lock (.stream c), false⟩ :: own) op
  | unlock {own approval} : LockedDone c p own approval →
      PromptStage c p (⟨.lock (.stream c), false⟩ :: own) (.unlock (.stream c))

inductive PromptDone (c : Conn) (p : Prompt) : History (sig P) → Approval → Prop
  | poisoned : PromptDone c p [⟨.lock (.stream c), true⟩, ⟨.unlock (.stream c), ()⟩]
      (.error "agent handle poisoned: poisoned lock: another task failed inside")
  | released {own approval} : LockedDone c p own approval →
      PromptDone c p (⟨.lock (.stream c), false⟩ :: own ++ [⟨.unlock (.stream c), ()⟩]) approval

theorem AgentHandle.prompt_meets (c : Conn) (p : Prompt) :
    (AgentHandle.prompt P c p).Meets (PromptStage c p) (PromptDone c p) [] := by
  refine meets_call_bind.mpr ⟨.lock, fun poisoned => ?_⟩
  cases poisoned with
  | true => exact meets_call_bind.mpr ⟨.poisoned, fun _ => .poisoned⟩
  | false =>
      refine (promptLocked_meets c p).bind (fun own op h => .locked h) fun own approval h => ?_
      exact meets_call_bind.mpr ⟨.unlock h, fun _ => .released h⟩

/-- The wake-ups of the registration wait that found no agent. -/
inductive Awaiting (callerUid : Uid) : History (sig P) → Prop
  | start : Awaiting callerUid []
  | again {own now} : Awaiting callerUid own →
      Awaiting callerUid (own ++ [⟨.lookupAgent callerUid, none⟩, ⟨.instantNow, now⟩, ⟨.waitRegistry, false⟩])

inductive AwaitStage (callerUid : Uid) : History (sig P) → Op → Prop
  | lookup {own} : Awaiting callerUid own → AwaitStage callerUid own (.lookupAgent callerUid)
  | now {own} : Awaiting callerUid own →
      AwaitStage callerUid (own ++ [⟨.lookupAgent callerUid, none⟩]) .instantNow
  | wait {own now} : Awaiting callerUid own →
      AwaitStage callerUid (own ++ [⟨.lookupAgent callerUid, none⟩, ⟨.instantNow, now⟩]) .waitRegistry

/-- The wait ends with the handle the last lookup found, or with none when that lookup found none. -/
inductive AwaitDone (callerUid : Uid) : History (sig P) → Option Conn → Prop
  | found {own found} : Awaiting callerUid own →
      AwaitDone callerUid (own ++ [⟨.lookupAgent callerUid, found⟩]) found
  | expired {own now} : Awaiting callerUid own →
      AwaitDone callerUid (own ++ [⟨.lookupAgent callerUid, none⟩, ⟨.instantNow, now⟩]) none
  | timedOut {own now} : Awaiting callerUid own →
      AwaitDone callerUid
        (own ++ [⟨.lookupAgent callerUid, none⟩, ⟨.instantNow, now⟩, ⟨.waitRegistry, true⟩]) none

theorem awaitAgent_meets_from {callerUid : Uid} {deadline : Instant} {rounds : Nat} {own : History (sig P)}
    (h : Awaiting callerUid own) :
    (awaitAgent P callerUid deadline rounds).Meets (AwaitStage callerUid) (AwaitDone callerUid) own := by
  induction rounds generalizing own with
  | zero => exact meets_call.mpr ⟨.lookup h, fun _ => .found h⟩
  | succ rounds ih =>
      refine meets_call_bind.mpr ⟨.lookup h, fun found => ?_⟩
      cases found with
      | some c => exact .found h
      | none =>
          refine meets_call_bind.mpr ⟨.now h, fun now => ?_⟩
          rw [List.append_assoc]
          split
          · exact .expired h
          · refine meets_call_bind.mpr ⟨.wait h, fun timedOut => ?_⟩
            rw [List.append_assoc]
            cases timedOut with
            | true => exact .timedOut h
            | false => exact ih (.again h)

theorem awaitAgent_meets (callerUid : Uid) (deadline : Instant) (rounds : Nat) :
    (awaitAgent P callerUid deadline rounds).Meets (AwaitStage callerUid) (AwaitDone callerUid) [] :=
  awaitAgent_meets_from .start

/-- The prompt shown for a request. -/
def promptOf (req : Request) : Prompt := ⟨req.argv, req.cwd, req.reason⟩

inductive AgentStage (callerUid : Uid) (req : Request) : History (sig P) → Op → Prop
  | start : AgentStage callerUid req [] .instantNow
  | await {now own op} : AwaitStage callerUid own op →
      AgentStage callerUid req (⟨.instantNow, now⟩ :: own) op
  | lockGate {now own c} : AwaitDone callerUid own (some c) →
      AgentStage callerUid req (⟨.instantNow, now⟩ :: own) (.lock .approvalGate)
  | prompt {now own c poisoned own' op} : AwaitDone callerUid own (some c) →
      PromptStage c (promptOf req) own' op →
      AgentStage callerUid req (⟨.instantNow, now⟩ :: own ++ [⟨.lock .approvalGate, poisoned⟩] ++ own') op
  | unlockGate {now own c poisoned own' approval} : AwaitDone callerUid own (some c) →
      PromptDone c (promptOf req) own' approval →
      AgentStage callerUid req (⟨.instantNow, now⟩ :: own ++ [⟨.lock .approvalGate, poisoned⟩] ++ own')
        (.unlock .approvalGate)

inductive AgentDone (callerUid : Uid) (req : Request) : History (sig P) → Approval → Prop
  | noAgent {now own} : AwaitDone callerUid own none →
      AgentDone callerUid req (⟨.instantNow, now⟩ :: own) (.error noAgentMsg)
  | prompted {now own c poisoned own' approval} : AwaitDone callerUid own (some c) →
      PromptDone c (promptOf req) own' approval →
      AgentDone callerUid req
        (⟨.instantNow, now⟩ :: own ++ [⟨.lock .approvalGate, poisoned⟩] ++ own' ++
          [⟨.unlock .approvalGate, ()⟩]) approval

theorem AgentApprover.approve_meets (registerWait rounds : Nat) (callerUid : Uid) (req : Request) :
    (AgentApprover.approve P registerWait rounds callerUid req).Meets (AgentStage callerUid req)
      (AgentDone callerUid req) [] := by
  refine meets_call_bind.mpr ⟨.start, fun now => ?_⟩
  refine (awaitAgent_meets callerUid _ rounds).bind (fun own op h => .await h) fun own found hfound => ?_
  cases found with
  | none => exact .noAgent hfound
  | some c =>
      refine meets_call_bind.mpr ⟨.lockGate hfound, fun poisoned => ?_⟩
      refine (AgentHandle.prompt_meets c _).bind (fun own' op h => .prompt hfound h) fun own' approval h => ?_
      exact meets_call_bind.mpr ⟨.unlockGate hfound h, fun _ => .prompted hfound h⟩

/-- A code under which a request is answered: accepted, and its time step's counter consumed. -/
inductive TotpStage (req : Request) : History (sig P) → Op → Prop
  | check {code} : req.otp = some code → TotpStage req [] (.checkCurrent code)
  | clock {code} : req.otp = some code → TotpStage req [⟨.checkCurrent code, true⟩] .systemTime
  | consume {code unixSecs} : req.otp = some code →
      TotpStage req [⟨.checkCurrent code, true⟩, ⟨.systemTime, unixSecs⟩] (.consumeCounter (unixSecs / totpStep))

inductive TotpDone (req : Request) : History (sig P) → Approval → Prop
  | missing : req.otp = none → TotpDone req [] .denied
  | wrong {code} : req.otp = some code → TotpDone req [⟨.checkCurrent code, false⟩] .denied
  | replayed {code unixSecs} : req.otp = some code →
      TotpDone req [⟨.checkCurrent code, true⟩, ⟨.systemTime, unixSecs⟩,
        ⟨.consumeCounter (unixSecs / totpStep), false⟩] .denied
  | fresh {code unixSecs} : req.otp = some code →
      TotpDone req [⟨.checkCurrent code, true⟩, ⟨.systemTime, unixSecs⟩,
        ⟨.consumeCounter (unixSecs / totpStep), true⟩] .allowed

theorem TotpApprover.approve_meets (req : Request) :
    (TotpApprover.approve P req).Meets (TotpStage req) (TotpDone req) [] := by
  unfold TotpApprover.approve
  cases hotp : req.otp with
  | none => exact .missing hotp
  | some code =>
      refine meets_call_bind.mpr ⟨.check hotp, fun accepted => ?_⟩
      cases accepted with
      | false => exact .wrong hotp
      | true =>
          refine meets_call_bind.mpr ⟨.clock hotp, fun unixSecs => ?_⟩
          refine meets_call_bind.mpr ⟨.consume hotp, fun fresh => ?_⟩
          cases fresh with
          | false => exact .replayed hotp
          | true => exact .fresh hotp

inductive Approver.Stage : Approver → Uid → Request → History (sig P) → Op → Prop
  | consult {callerUid req} : Approver.Stage .external callerUid req [] (.consult callerUid req)
  | totp {callerUid req own op} : TotpStage req own op → Approver.Stage .totp callerUid req own op
  | agent {registerWait rounds callerUid req own op} : AgentStage callerUid req own op →
      Approver.Stage (.agent registerWait rounds) callerUid req own op

inductive Approver.Done : Approver → Uid → Request → History (sig P) → Approval → Prop
  | consulted {callerUid req approval} :
      Approver.Done .external callerUid req [⟨.consult callerUid req, approval⟩] approval
  | totp {callerUid req own approval} : TotpDone req own approval →
      Approver.Done .totp callerUid req own approval
  | agent {registerWait rounds callerUid req own approval} : AgentDone callerUid req own approval →
      Approver.Done (.agent registerWait rounds) callerUid req own approval

theorem Approver.approve_meets (approver : Approver) (callerUid : Uid) (req : Request) :
    (approver.approve P callerUid req).Meets (approver.Stage callerUid req) (approver.Done callerUid req)
      [] := by
  cases approver with
  | external => exact meets_call.mpr ⟨.consult, fun _ => .consulted⟩
  | totp => exact (TotpApprover.approve_meets req).mono (fun _ _ => .totp) fun _ _ => .totp
  | agent registerWait rounds =>
      exact (AgentApprover.approve_meets registerWait rounds callerUid req).mono (fun _ _ => .agent)
        fun _ _ => .agent

end Sudix
