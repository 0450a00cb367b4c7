import Sudix.Pipeline
import Sudix.Wire

/-! What is shown and what is run. The prompt of a request carries its argv, which is what is
executed, and its cwd as the client spelled it, while the command runs in the canonicalized
directory: the two agree exactly when the client spelled the canonical path. -/

namespace Sudix

open Concurrent

variable {P : Platform} {ctx : Tid → RequestCtx} {registerWait rounds : Nat} {approvalMutex : Bool}
  {req : Tid → Request} {s₀ s : Daemon} {ps : Pool (sig P) Tid Response}
  {tr : Trace (sig P) Daemon Tid Env}

/-- Where the call of `t` canonicalizes its directory, the file system maps the requested spelling to
itself. -/
def SpelledCanonically (req : Tid → Request) (t : Tid) (tr : Trace (sig P) Daemon Tid Env) : Prop :=
  Once (fun _ (st : Step (sig P) Daemon Tid Env) =>
    st.pre.files.canonicalize (req t).cwd = .ok (req t).cwd ∧
      ∃ answer, st.label = .thread t ⟨.canonicalize (req t).cwd, answer⟩) tr

/-- At an execution: every prompt the call has written decodes to one that carries the argv that is
executed, and whose cwd is the directory of the execution if and only if it was spelled canonically. -/
def ShownAsRun (req : Tid → Request) (before : Trace (sig P) Daemon Tid Env)
    (st : Step (sig P) Daemon Tid Env) : Prop :=
  ∀ t program args dir result, st.label = .thread t ⟨.spawn program args dir, result⟩ →
    ∀ c bytes written, ⟨.writeAll c bytes, written⟩ ∈ history t before →
      ∃ line p, bytes = utf8 line ∧ Prompt.fromLine P.json line = .ok p ∧ p.argv = program :: args ∧
        (p.cwd = dir ↔ SpelledCanonically req t before)

/-- At an execution: every prompt the call has written shows the argv and the directory of the
execution. -/
def ShownExactly (before : Trace (sig P) Daemon Tid Env) (st : Step (sig P) Daemon Tid Env) : Prop :=
  ∀ t program args dir result, st.label = .thread t ⟨.spawn program args dir, result⟩ →
    ∀ c bytes written, ⟨.writeAll c bytes, written⟩ ∈ history t before →
      ∃ line p, bytes = utf8 line ∧ Prompt.fromLine P.json line = .ok p ∧ p.argv = program :: args ∧
        p.cwd = dir

/-- Whatever an agent approver writes during a request is the line of the request's prompt. -/
theorem RequestStage.writeAll_inv {ctx : RequestCtx} {req : Request} {own : History (sig P)} {c : Conn}
    {bytes : List UInt8}
    (h : RequestStage ctx (.agent registerWait rounds) approvalMutex req own (.writeAll c bytes)) :
    ∃ line, (promptOf req).toLine P.json = .ok line ∧ bytes = utf8 line := by
  have hagent : ∀ {own' : History (sig P)}, Approver.Stage (.agent registerWait rounds) ctx.callerUid req own'
      (.writeAll c bytes) → ∃ line, (promptOf req).toLine P.json = .ok line ∧ bytes = utf8 line := by
    intro own' happrove
    cases happrove with
    | agent hstage =>
        cases hstage with
        | await hawait => cases hawait
        | prompt hfound hprompt =>
            cases hprompt with
            | locked hlocked =>
                cases hlocked with
                | write hline => exact ⟨_, hline, rfl⟩
                | read hline hread => cases hread
  cases h with
  | approve hs hgate =>
      cases hgate with
      | ungated happrove => exact hagent happrove
      | held happrove => exact hagent happrove

/-- The directory a request is executed in is the canonical form of its cwd, taken when the call
canonicalized it. -/
theorem dir_eq_cwd_iff (hrun : Run (world P) s₀ (requests P ctx (.agent registerWait rounds) approvalMutex req) tr s ps)
    {t : Tid} {dir : String} {rest : History (sig P)}
    (hlocated : history t tr = ⟨.canonicalize (req t).cwd, .ok dir⟩ :: rest) :
    (req t).cwd = dir ↔ SpelledCanonically req t tr := by
  have hcanonicalize : ∀ answer before (st : Step (sig P) Daemon Tid Env) after, tr = before ++ st :: after →
      st.label = .thread t ⟨.canonicalize (req t).cwd, answer⟩ →
      answer = .ok dir ∧ st.pre.files.canonicalize (req t).cwd = .ok dir := by
    intro answer before st after heq hlabel
    -- it is the first operation of the call, and so the one that opens its history
    have hfirst : history t before = [] :=
      (hrun.every_pre requests_meets before st after heq t _ hlabel).canonicalize_inv
    have hanswer : answer = .ok dir := by
      rw [heq, history_split hlabel, hfirst, List.nil_append] at hlocated
      cases hlocated
      rfl
    obtain ⟨pre, label, post⟩ := st
    obtain rfl : label = _ := hlabel
    obtain ⟨hfiles, -⟩ := legal_canonicalize (hrun.every_legal before _ after heq)
    exact ⟨hanswer, by rw [← hanswer, hfiles]⟩
  constructor
  · intro hdir
    have hmem : ⟨.canonicalize (req t).cwd, .ok dir⟩ ∈ history t tr := by
      rw [hlocated]
      exact List.mem_cons_self
    obtain ⟨before, st, after, heq, hlabel⟩ := once_of_mem_history hmem
    refine ⟨before, st, after, heq, ?_, _, hlabel⟩
    rw [(hcanonicalize _ before st after heq hlabel).2, hdir]
  · rintro ⟨before, st, after, heq, hself, answer, hlabel⟩
    have hfiles := (hcanonicalize answer before st after heq hlabel).2
    rw [hself] at hfiles
    exact Except.ok.inj hfiles

/-- **What is shown is what is run, exactly.** In every run of requests, whenever one is executed
after a prompt, the prompt shows the argv that is executed, and the directory it is executed in if
and only if the requested directory was spelled canonically. -/
theorem prompt_shownAsRun (hlaw : P.json.Lawful)
    (hrun : Run (world P) s₀ (requests P ctx (.agent registerWait rounds) approvalMutex req) tr s ps) :
    Every (ShownAsRun req) tr := by
  intro before st after heq t program args dir result hlabel c bytes written hwrite
  obtain ⟨rfl, rfl, outcome, hready⟩ :=
    (hrun.every_pre requests_meets before st after heq t _ hlabel).spawn_inv
  subst heq
  obtain ⟨⟨ps', hbefore⟩, -⟩ := hrun.before
  obtain ⟨before', st', after', heq', hlabel'⟩ := once_of_mem_history hwrite
  obtain ⟨line, hline, hbytes⟩ :=
    (hbefore.every_pre requests_meets before' st' after' heq' t _ hlabel').writeAll_inv
  refine ⟨line, promptOf (req t), hbytes, Prompt.fromLine_toLine hlaw hline, ?_, ?_⟩
  · obtain ⟨program, args, hargv⟩ := List.exists_cons_of_ne_nil hready.argv_ne
    simp only [promptOf, hargv, List.headD_cons, List.tail_cons]
  · obtain ⟨rest, hrest⟩ := hready.located
    exact dir_eq_cwd_iff hbefore hrest

def linkPrompts : List (Prompt × String) :=
  [(⟨["make"], "/srv/link", ""⟩, "\x7b\"argv\":[\"make\"],\"cwd\":\"/srv/link\",\"reason\":\"\"\x7d")]

def linkVerdicts : List (Verdict × String) := [(.allow, "\x7b\"verdict\":\"allow\"\x7d")]

def linkPlatform : Platform :=
  { Platform.bare with json := SerdeJson.ofTables [] linkPrompts linkVerdicts [] }

theorem linkPlatform_lawful : linkPlatform.json.Lawful :=
  SerdeJson.ofTables_lawful (by decide +kernel) (by decide +kernel)

def makeRule : Rule := ⟨[.literal "make"], literal_ne_nil _, restOnlyLast_literal _⟩

/-- The symlink `/srv/link` leads to `/srv/app`; an agent of uid 1000 is registered on connection 7. -/
def linkDaemon : Daemon :=
  let s := Daemon.start (.error "") ⟨fun path => .ok (if path = "/srv/link" then "/srv/app" else path), fun _ => true⟩
    ⟨⟨[], [makeRule]⟩, [⟨0, 0⟩], [1000]⟩ none (fun _ => 1000) (fun _ => ⟨[], [], .agent .reading⟩) 0 0
  { s with registry := fun _ => some 7 }

def linkRequest : Request := ⟨["make"], "/srv/link", "", none⟩

def linkCalls : Pool (sig linkPlatform) Tid Response :=
  requests linkPlatform (fun _ => ⟨linkDaemon.current.bundle, 1000⟩) (.agent 0 0) false fun _ => linkRequest

/-- The request is prompted for, the human allows it, and it is executed. -/
def linkRun : Option (Point (sig linkPlatform) Daemon Tid Env Response) :=
  replay (world linkPlatform) ⟨[], linkDaemon, linkCalls⟩
    (List.replicate 11 (.thread 0 (smooth 0 .allowed)) ++
      [.env (.agentRead 7), .env (.agentAnswer 7 .allow), .env (.agentWrite 7 20)] ++
      List.replicate 5 (.thread 0 (smooth 20 .allowed)))

def linkLine : String := "\x7b\"argv\":[\"make\"],\"cwd\":\"/srv/link\",\"reason\":\"\"\x7d\n"

/-- The prompt that is written, and the execution it leads to. -/
theorem linkRun_steps :
    ∃ c, linkRun = some c ∧ Run (world linkPlatform) linkDaemon linkCalls c.trace c.state c.pool ∧
      (∃ h : 18 < c.trace.length,
        c.trace[18].label = .thread 0 ⟨.spawn "make" [] "/srv/app", .ok ⟨some 0, "", ""⟩⟩) ∧
      ⟨.writeAll 7 (utf8 linkLine), .ok ()⟩ ∈ history 0 (c.trace.take 18) := by
  obtain ⟨c, hc⟩ : ∃ c, linkRun = some c := ⟨_, rfl⟩
  refine ⟨c, hc, run_of_replay .start hc, ?_⟩
  obtain rfl := Option.some.inj hc
  exact ⟨⟨by decide +kernel, rfl⟩, List.mem_of_getElem? (i := 8) rfl⟩

theorem linkLine_decodes {p : Prompt} (h : Prompt.fromLine linkPlatform.json linkLine = .ok p) :
    p = promptOf linkRequest := by
  have hdecode : Prompt.fromLine linkPlatform.json linkLine = .ok (promptOf linkRequest) :=
    Prompt.fromLine_toLine linkPlatform_lawful rfl
  rw [h] at hdecode
  exact Except.ok.inj hdecode

/-- The prompt shows `/srv/link`, the command runs in `/srv/app`. -/
theorem prompt_shows_other_dir :
    ∃ c, linkRun = some c ∧ Run (world linkPlatform) linkDaemon linkCalls c.trace c.state c.pool ∧
      ¬ Every ShownExactly c.trace := by
  obtain ⟨c, hc, hrun, ⟨hlen, hspawn⟩, hwrite⟩ := linkRun_steps
  refine ⟨c, hc, hrun, fun hshown => ?_⟩
  obtain ⟨line, p, hbytes, hdecode, -, hcwd⟩ := hshown.getElem 18 hlen 0 _ _ _ _ hspawn _ _ _ hwrite
  obtain rfl := utf8_injective hbytes
  obtain rfl := linkLine_decodes hdecode
  exact absurd hcwd (by decide)

/-- So the request of that run was not spelled canonically. -/
theorem linkRun_not_canonical :
    ∃ c, linkRun = some c ∧ ¬ SpelledCanonically (fun _ => linkRequest) 0 (c.trace.take 18) := by
  obtain ⟨c, hc, hrun, ⟨hlen, hspawn⟩, hwrite⟩ := linkRun_steps
  refine ⟨c, hc, fun hcanonical => ?_⟩
  have hshown := prompt_shownAsRun linkPlatform_lawful hrun
  obtain ⟨line, p, hbytes, hdecode, -, hcwd⟩ := hshown.getElem 18 hlen 0 _ _ _ _ hspawn _ _ _ hwrite
  obtain rfl := utf8_injective hbytes
  obtain rfl := linkLine_decodes hdecode
  exact absurd (hcwd.mpr hcanonical) (by decide)

end Sudix
