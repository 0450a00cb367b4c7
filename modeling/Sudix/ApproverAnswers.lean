import Sudix.ConcurrentExpand
import Sudix.PromptDisplay
import Sudix.TwinRequests

/-! The pipeline knows of an approver only its answer: with any approver, behind the outer gate or not, it is the
pipeline of an external one whose consultation is performed by the approver. So what holds of two requests that
an external approver answers alike holds with every approver. -/

namespace Sudix

open Concurrent

variable {P : Platform} {ctx : RequestCtx} {approver approver' : Approver} {approvalMutex approvalMutex' : Bool}
  {req req' : Request}

/-- The consultation is performed by an approver, every other operation is itself. -/
def consulting (P : Platform) (approver : Approver) (approvalMutex : Bool) : (op : Op) → Prog P (Answer P op)
  | .consult callerUid req => gated P approvalMutex (approver.approve P callerUid req)
  | op => call P op

def Op.consults : Op → Bool
  | .consult _ _ => true
  | _ => false

theorem consulting_call {op : Op} (h : op.consults = false) : consulting P approver approvalMutex op = call P op := by
  cases op <;> first | rfl | cases h

section Expand

variable {α : Type}

theorem call_expand {op : Op} {f g : Answer P op → Prog P α} (h : op.consults = false)
    (hf : ∀ answer, f answer = (g answer).expand (consulting P approver approvalMutex)) :
    (call P op >>= f) = (call P op >>= g).expand (consulting P approver approvalMutex) := by
  have hexpand : (call P op >>= g).expand (consulting P approver approvalMutex) =
      consulting P approver approvalMutex op >>= fun answer =>
        (g answer).expand (consulting P approver approvalMutex) := rfl
  rw [hexpand, consulting_call h]
  exact bind_congr hf

theorem refuse_expand (outcome : Outcome) (resp : Response) :
    refuse P ctx req outcome resp =
      (refuse P ctx req outcome resp).expand (consulting P approver approvalMutex) :=
  call_expand rfl fun _ => call_expand rfl fun _ => rfl

theorem executeAndReport_expand (cwd : String) (outcome : Int32 → Outcome) :
    executeAndReport P ctx req cwd outcome =
      (executeAndReport P ctx req cwd outcome).expand (consulting P approver approvalMutex) := by
  refine call_expand rfl fun result => ?_
  cases result with
  | error e => exact refuse_expand _ _
  | ok output => exact refuse_expand _ _

end Expand

/-- **The pipeline with any approver is the pipeline with an external one**, in which the approver performs the
consultation. -/
theorem handleRequest_expand :
    handleRequest P ctx approver approvalMutex req =
      (handleRequest P ctx .external false req).expand (consulting P approver approvalMutex) := by
  unfold handleRequest
  by_cases hempty : req.argv.isEmpty = true
  · rw [if_pos hempty, if_pos hempty]
    exact refuse_expand _ _
  · rw [if_neg hempty, if_neg hempty]
    by_cases hlong : maxReasonBytes < req.reason.utf8ByteSize
    · rw [if_pos hlong, if_pos hlong]
      exact refuse_expand _ _
    · rw [if_neg hlong, if_neg hlong]
      cases ctx.bundle.policy.evaluate req.argv with
      | denied why => exact refuse_expand _ _
      | allowed ruleIndex =>
          refine call_expand rfl fun path => ?_
          cases path with
          | error e => exact refuse_expand _ _
          | ok cwd =>
              refine call_expand rfl fun isDir => ?_
              cases isDir with
              | false => exact refuse_expand _ _
              | true =>
                  refine call_expand rfl fun limited => ?_
                  cases limited with
                  | true => exact refuse_expand _ _
                  | false =>
                      refine call_expand rfl fun verdict => ?_
                      cases verdict with
                      | hit => exact call_expand rfl fun _ => executeAndReport_expand _ _
                      | miss =>
                          refine bind_congr fun approval => ?_
                          cases approval with
                          | denied => exact refuse_expand _ _
                          | error why => exact refuse_expand _ _
                          | allowed => exact call_expand rfl fun _ => executeAndReport_expand _ _

/-- What is not shown of an approver's operations is shown of the course in which it is one consultation. -/
theorem shown_of_expands {α : Type} {f : Event (sig P) → Option α} {abs own : History (sig P)}
    (h : Program.Expands (consulting P approver approvalMutex) abs own)
    (hquiet : ∀ event : Event (sig P), event.op.approving = true → f event = none) :
    own.filterMap f = abs.filterMap f := by
  refine h.filterMap_eq fun op answer during hduring => ?_
  cases hconsults : op.consults with
  | false =>
      rw [consulting_call hconsults] at hduring
      rw [hduring.perform_ret]
  | true =>
      cases op with
      | consult callerUid req =>
          have hdone : GateDone approver callerUid req approvalMutex during answer :=
            (gated_meets approver callerUid req approvalMutex).follows hduring
          have hnone : during.filterMap f = [] :=
            List.filterMap_eq_nil_iff.mpr fun event hmem => hquiet event (hdone.only event hmem)
          rw [hnone, List.filterMap_cons_none (hquiet _ rfl)]
          rfl
      | _ => cases hconsults

/-- Corresponding operations of two courses are answered alike. -/
def AnsweredAlike (callerUid : Uid) (req req' : Request) (abs abs' : History (sig P)) : Prop :=
  ∀ event ∈ abs, ∀ event' ∈ abs', TwinOp req req' callerUid event.op event'.op →
    TwinEvent req req' callerUid event event'

/-- The course of a call: what it does with its approver taken as one consultation. -/
def OuterCourse (P : Platform) (ctx : RequestCtx) (approver : Approver) (approvalMutex : Bool) (req : Request)
    (abs own : History (sig P)) (resp : Response) : Prop :=
  (handleRequest P ctx .external false req).Follows abs (.ret resp) ∧
    Program.Expands (consulting P approver approvalMutex) abs own

theorem exists_outerCourse {own : History (sig P)} {resp : Response}
    (h : (handleRequest P ctx approver approvalMutex req).Follows own (.ret resp)) :
    ∃ abs, OuterCourse P ctx approver approvalMutex req abs own resp := by
  rw [handleRequest_expand] at h
  exact h.of_expand

/-- Completed calls have courses, and two of them, with whatever approvers, return and show the same if what they
perform outside their approvers, and the approvers themselves, are answered alike. -/
def CallsAlike (P : Platform) (ctx : RequestCtx) (req req' : Request) : Prop :=
  ∀ (approver approver' : Approver) (approvalMutex approvalMutex' : Bool) (own own' : History (sig P))
    (resp resp' : Response),
    (handleRequest P ctx approver approvalMutex req).Follows own (.ret resp) →
    (handleRequest P ctx approver' approvalMutex' req').Follows own' (.ret resp') →
      (∃ abs, OuterCourse P ctx approver approvalMutex req abs own resp) ∧
        (∃ abs', OuterCourse P ctx approver' approvalMutex' req' abs' own' resp') ∧
          ∀ abs abs', OuterCourse P ctx approver approvalMutex req abs own resp →
            OuterCourse P ctx approver' approvalMutex' req' abs' own' resp' →
              AnsweredAlike ctx.callerUid req req' abs abs' → resp = resp' ∧ ShowAlike req req' own own'

section Quiet

variable {event : Event (sig P)} (h : event.op.approving = true)

include h

theorem launched_approving : launched event = none := by
  obtain ⟨op, answer⟩ := event
  cases op <;> first | rfl | cases h

theorem scopingOp_approving : scopingOp event = none := by
  obtain ⟨op, answer⟩ := event
  cases op <;> first | rfl | cases h

theorem emitted_approving : emitted event = none := by
  obtain ⟨op, answer⟩ := event
  cases op <;> first | rfl | cases h

end Quiet

/-- What is shown of the two courses is shown of the two calls. -/
theorem ShowAlike.of_expands {abs abs' own own' : History (sig P)} (h : ShowAlike req req' abs abs')
    (hown : Program.Expands (consulting P approver approvalMutex) abs own)
    (hown' : Program.Expands (consulting P approver' approvalMutex') abs' own') : ShowAlike req req' own own' := by
  have hemitted := shown_of_expands hown fun _ => emitted_approving
  have hemitted' := shown_of_expands hown' fun _ => emitted_approving
  refine ⟨?_, ?_, ?_, fun hreason => ?_⟩
  · rw [shown_of_expands hown fun _ => launched_approving, shown_of_expands hown' fun _ => launched_approving]
    exact h.executed
  · rw [shown_of_expands hown fun _ => scopingOp_approving, shown_of_expands hown' fun _ => scopingOp_approving]
    exact h.scoping
  · rw [hemitted, hemitted']
    exact h.outcomes
  · rw [hemitted, hemitted']
    exact h.records hreason

theorem twinPairs (h : SameCommand req req') :
    Pairs (P := P) ctx.callerUid req req' (TwinOp req req' ctx.callerUid) (TwinEvent req req' ctx.callerUid) :=
  { h with
    same := .same
    answer_eq := fun _ _ _ h => h.answer_eq
    entry := fun unixSecs outcome => .audit (h.veiled unixSecs outcome) }

theorem handleRequest_twins (h : SameCommand req req') (hshort : req.reason.utf8ByteSize ≤ maxReasonBytes)
    (hshort' : req'.reason.utf8ByteSize ≤ maxReasonBytes) (hasks : approver.AsksAlike req req') :
    (handleRequest P ctx approver approvalMutex req).Matches (TwinOp req req' ctx.callerUid)
      (TwinEvent req req' ctx.callerUid) (handleRequest P ctx approver approvalMutex req') := by
  have hask : (approver.approve P ctx.callerUid req).Matches (TwinOp req req' ctx.callerUid)
      (TwinEvent req req' ctx.callerUid) (approver.approve P ctx.callerUid req') :=
    hasks.matches (twinPairs h) .consult fun _ _ hevent => hevent.approval_eq
  exact (twinPairs h).handleRequest hshort hshort' hask

theorem calls_alike (h : SameCommand req req') (hshort : req.reason.utf8ByteSize ≤ maxReasonBytes)
    (hshort' : req'.reason.utf8ByteSize ≤ maxReasonBytes) : CallsAlike P ctx req req' := by
  intro approver approver' approvalMutex approvalMutex' own own' resp resp' hown hown'
  refine ⟨exists_outerCourse hown, exists_outerCourse hown', fun abs abs' hcourse hcourse' halike => ?_⟩
  have hexternal : Approver.external.AsksAlike req req' := trivial
  obtain ⟨hevents, hresp⟩ :=
    (handleRequest_twins h hshort hshort' hexternal).follows_ret hcourse.1 hcourse'.1 halike
  exact ⟨hresp, (showAlike_of_forall₂ hevents).of_expands hcourse.2 hcourse'.2⟩

/-- The point a schedule leads to when thread `t` serves a request and the other threads run any programs. -/
def servedAmong (P : Platform) (ctx : RequestCtx) (approvalMutex : Bool) (t : Tid)
    (others : Pool (sig P) Tid Response) (s : Daemon) (moves : List (Move (world P))) (approver : Approver)
    (req : Request) : Option (Point (sig P) Daemon Tid Env Response) :=
  replay (world P) ⟨[], s, Function.update others t (handleRequest P ctx approver approvalMutex req)⟩ moves

/-- **The one-time code and the reason carry no authority.** Of two requests for one command, with reasons of
their own that are not too long, and with codes of their own, served from one state under one schedule and with
one answer of the approver: the response, the approval state, what is executed and where, and the audited outcome
are the same, and so is all of the audit record if the reasons are. The calls show and return the same with any
approvers that answer the same. Where only the codes differ an agent is sent the same prompt: with it the runs
are the same to the last byte. -/
theorem otp_and_reason_without_authority (P : Platform) (ctx : RequestCtx) (approvalMutex : Bool) (t : Tid)
    (others : Pool (sig P) Tid Response) (s : Daemon) (moves : List (Move (world P))) (req req' : Request)
    (hcommand : SameCommand req req') (hshort : req.reason.utf8ByteSize ≤ maxReasonBytes)
    (hshort' : req'.reason.utf8ByteSize ≤ maxReasonBytes)
    (hanswer : ∀ choice, Move.thread t choice ∈ moves →
      choice (.consult ctx.callerUid req) = choice (.consult ctx.callerUid req')) :
    (∀ approver : Approver, approver.AsksAlike req req' →
        Option.Rel (ServedAlike t req req') (servedAmong P ctx approvalMutex t others s moves approver req)
          (servedAmong P ctx approvalMutex t others s moves approver req')) ∧
      CallsAlike P ctx req req' ∧
      (req.reason = req'.reason → ∀ registerWait rounds,
        servedAmong P ctx approvalMutex t others s moves (.agent registerWait rounds) req =
          servedAmong P ctx approvalMutex t others s moves (.agent registerWait rounds) req') := by
  refine ⟨fun approver hasks => ?_, calls_alike hcommand hshort hshort', fun hreason registerWait rounds => ?_⟩
  · exact replay_servedAlike (handleRequest_twins hcommand hshort hshort' hasks) hanswer
  · rw [servedAmong, servedAmong, handleRequest_agent_eq hcommand hreason hshort]

def codedRequest : Request := { linkRequest with otp := some "123456" }

def reasonedRequest : Request := { codedRequest with reason := "nightly build" }

def linkCtx : RequestCtx := ⟨linkDaemon.current.bundle, 1000⟩

/-- Served by the first thread, the approver allowing the request. -/
def allowedMoves : List (Move (world linkPlatform)) := List.replicate 9 (.thread 0 (smooth 0 .allowed))

/-- Served by the first thread, the agent's user allowing the request. -/
def promptedMoves : List (Move (world linkPlatform)) :=
  List.replicate 11 (.thread 0 (smooth 0 .allowed)) ++
    [.env (.agentRead 7), .env (.agentAnswer 7 .allow), .env (.agentWrite 7 20)] ++
    List.replicate 5 (.thread 0 (smooth 20 .allowed))

/-- The plain request and the one with a code and a reason are executed alike and leave different records; with
a code only, the agent is sent the same line. -/
theorem otp_and_reason_without_authority_link :
    (∃ c c', servedAmong linkPlatform linkCtx false 0 linkCalls linkDaemon allowedMoves .external linkRequest =
          some c ∧
        servedAmong linkPlatform linkCtx false 0 linkCalls linkDaemon allowedMoves .external reasonedRequest =
          some c' ∧
        ServedAlike 0 linkRequest reasonedRequest c c' ∧ c.pool 0 = .ret (.approved 0 "" "") ∧
        c.state.auditLog.map Entry.reason = [""] ∧ c'.state.auditLog.map Entry.reason = ["nightly build"]) ∧
      ∃ c, servedAmong linkPlatform linkCtx false 0 linkCalls linkDaemon promptedMoves (.agent 0 0) linkRequest =
          some c ∧
        servedAmong linkPlatform linkCtx false 0 linkCalls linkDaemon promptedMoves (.agent 0 0) codedRequest =
          some c ∧
        ⟨.writeAll 7 (utf8 linkLine), .ok ()⟩ ∈ history 0 c.trace := by
  obtain ⟨c, hc⟩ : ∃ c, servedAmong linkPlatform linkCtx false 0 linkCalls linkDaemon allowedMoves .external
    linkRequest = some c := ⟨_, rfl⟩
  obtain ⟨c', hc'⟩ : ∃ c', servedAmong linkPlatform linkCtx false 0 linkCalls linkDaemon allowedMoves .external
    reasonedRequest = some c' := ⟨_, rfl⟩
  obtain ⟨d, hd⟩ : ∃ d, servedAmong linkPlatform linkCtx false 0 linkCalls linkDaemon promptedMoves (.agent 0 0)
    linkRequest = some d := ⟨_, rfl⟩
  have hallowed : ∀ choice, Move.thread 0 choice ∈ allowedMoves →
      choice (.consult 1000 linkRequest) = choice (.consult 1000 reasonedRequest) := by
    intro choice hmem
    obtain ⟨-, hmove⟩ := List.mem_replicate.mp hmem
    cases hmove
    rfl
  have hprompted : ∀ choice, Move.thread 0 choice ∈ promptedMoves →
      choice (.consult 1000 linkRequest) = choice (.consult 1000 codedRequest) := by
    intro choice hmem
    simp only [promptedMoves, List.mem_append, List.mem_replicate, List.mem_cons, List.not_mem_nil, or_false,
      reduceCtorEq, or_self] at hmem
    rcases hmem with ⟨-, hmove⟩ | ⟨-, hmove⟩ <;> cases hmove <;> rfl
  obtain ⟨halike, -⟩ := otp_and_reason_without_authority linkPlatform linkCtx false 0 linkCalls linkDaemon
    allowedMoves linkRequest reasonedRequest ⟨rfl, rfl⟩ (by decide) (by decide) hallowed
  obtain ⟨-, -, hsame⟩ := otp_and_reason_without_authority linkPlatform linkCtx false 0 linkCalls linkDaemon
    promptedMoves linkRequest codedRequest ⟨rfl, rfl⟩ (by decide) (by decide) hprompted
  have hresponse : c.pool 0 = .ret (.approved 0 "" "") := by
    obtain rfl := Option.some.inj hc
    rfl
  have hplain : c.state.auditLog.map Entry.reason = [""] := by
    obtain rfl := Option.some.inj hc
    rfl
  have hreasoned : c'.state.auditLog.map Entry.reason = ["nightly build"] := by
    obtain rfl := Option.some.inj hc'
    rfl
  have hserved := halike .external trivial
  rw [hc, hc'] at hserved
  cases hserved with
  | some hcc' =>
      refine ⟨⟨c, c', hc, hc', hcc', hresponse, hplain, hreasoned⟩, d, hd, ?_, ?_⟩
      · rw [← hsame rfl 0 0, hd]
      · obtain rfl := Option.some.inj hd
        exact List.mem_of_getElem? (i := 8) rfl

end Sudix
