import Mathlib.Data.List.Forall2
import Sudix.PolicyMeaning
import Sudix.Startup

/-! The scopes of a loaded config stay with the rules they were written for. The rules and the scopes are
two lists made in two passes over the allow entries of the file and joined by position at every request. -/

namespace Sudix

open Concurrent

variable {E : RegexEngine}

/-- A rule is what an entry of the file says. -/
def BuiltFrom (E : RegexEngine) (entry : AllowEntry) (rule : Rule) : Prop := buildRule E entry.argv = .ok rule

/-- A scope holds the two numbers of an entry. -/
def ScopedBy (entry : AllowEntry) (scope : RuleScope) : Prop := scope = ⟨entry.cacheTtlSecs, entry.ratePerMin⟩

/-- Rules and scopes both follow the entries, one for one. -/
structure Aligned (E : RegexEngine) (entries : List AllowEntry) (rules : List Rule) (scopes : List RuleScope) :
    Prop where
  rules : List.Forall₂ (BuiltFrom E) entries rules
  scopes : List.Forall₂ ScopedBy entries scopes

theorem forall₂_of_mapM {α β : Type} {f : α → Option β} {l : List α} {r : List β} (h : l.mapM f = some r) :
    List.Forall₂ (fun x y => f x = some y) l r := by
  induction l generalizing r with
  | nil =>
      cases h
      exact .nil
  | cons x l ih =>
      rw [List.mapM_cons] at h
      obtain ⟨y, hy, h⟩ := Option.bind_eq_some_iff.mp h
      obtain ⟨ys, hys, h⟩ := Option.bind_eq_some_iff.mp h
      cases h
      exact .cons hy (ih hys)

theorem FileConfig.buildPolicy_allow {cfg : FileConfig} {policy : Policy} (h : cfg.buildPolicy E = some policy) :
    List.Forall₂ (BuiltFrom E) cfg.allow policy.allow := by
  obtain ⟨deny, -, h⟩ := Option.bind_eq_some_iff.mp h
  obtain ⟨allow, hallow, h⟩ := Option.bind_eq_some_iff.mp h
  cases h
  refine (forall₂_of_mapM hallow).imp ?_
  intro entry rule hrule
  show buildRule E entry.argv = .ok rule
  cases hbuilt : buildRule E entry.argv with
  | error e =>
      rw [hbuilt] at hrule
      cases hrule
  | ok built =>
      rw [hbuilt] at hrule
      cases hrule
      rfl

theorem FileConfig.ruleScoping_scoped (cfg : FileConfig) :
    List.Forall₂ ScopedBy cfg.allow (cfg.ruleScoping.map fun s => ⟨s.1, s.2⟩) := by
  rw [FileConfig.ruleScoping, List.map_map, List.forall₂_map_right_iff, List.forall₂_same]
  intro entry _
  rfl

theorem bundleFromFileCfg_buildPolicy (vc : ValidConfig E) :
    vc.config.buildPolicy E = some (bundleFromFileCfg vc).policy :=
  (Option.some_get (vc.config.buildPolicy_isSome vc.valid)).symm

theorem bundleFromFileCfg_aligned (vc : ValidConfig E) :
    Aligned E vc.config.allow (bundleFromFileCfg vc).policy.allow (bundleFromFileCfg vc).ruleScopes where
  rules := FileConfig.buildPolicy_allow (bundleFromFileCfg_buildPolicy vc)
  scopes := vc.config.ruleScoping_scoped

/-- What a rule that matches says about its position. -/
theorem Aligned.position {entries : List AllowEntry} {rules : List Rule} {scopes : List RuleScope} {i : Nat}
    (h : Aligned E entries rules scopes) (hi : i < rules.length) :
    ∃ entry, entries[i]? = some entry ∧ BuiltFrom E entry rules[i] ∧
      scopes[i]? = some ⟨entry.cacheTtlSecs, entry.ratePerMin⟩ := by
  have hentries : i < entries.length := h.rules.length_eq ▸ hi
  have hscopes : i < scopes.length := h.scopes.length_eq ▸ hentries
  refine ⟨entries[i], List.getElem?_eq_getElem hentries, h.rules.get hentries hi, ?_⟩
  rw [List.getElem?_eq_getElem hscopes]
  exact congrArg some (h.scopes.get hentries hscopes)

/-- The daemon starts with the bundle of the config it loaded. -/
theorem runDaemon_bundle {P : Platform} {secrets : SecretFiles} {rounds : Nat} {vc : ValidConfig P.regex}
    {own : History (sig P)} {started : Started}
    (h : (runDaemon P secrets rounds).Follows (⟨.loadConfig, .ok vc⟩ :: own) (.ret (.ok started))) :
    started.bundle = bundleFromFileCfg vc := by
  have hdone : StartDone secrets rounds (⟨.loadConfig, .ok vc⟩ :: own) (.ok started) :=
    (runDaemon_meets).follows h
  cases hdone with
  | started _ => rfl

/-- A config that loads builds its policy; the startup and a reload make the same bundle of it; and when
the policy allows an argv by rule `i`, the scope at `i` is there and holds the numbers of the `i`-th allow
entry of the file, whose matchers match the argv. -/
theorem loadWithChecks_scoped {P : Platform} {path : String} {enforcePerms : Bool} {disk : ConfigOnDisk}
    {vc : ValidConfig P.regex} (h : loadWithChecks P.regex P.parseToml path enforcePerms disk = .ok vc) :
    (∃ file raw, disk = .ok file ∧ fromUtf8 file.contents = some raw ∧ P.parseToml raw = .ok vc.config) ∧
      vc.config.buildPolicy P.regex = some (bundleFromFileCfg vc).policy ∧
      startupBundle vc = bundleFromFileCfg vc ∧
      (∀ secrets rounds own started,
        (runDaemon P secrets rounds).Follows (⟨.loadConfig, .ok vc⟩ :: own) (.ret (.ok started)) →
          started.bundle = bundleFromFileCfg vc) ∧
      ∀ argv i, (bundleFromFileCfg vc).policy.evaluate argv = .allowed i →
        ∃ entry rule, vc.config.allow[i]? = some entry ∧ buildRule P.regex entry.argv = .ok rule ∧
          rule.isMatch argv = true ∧
          (bundleFromFileCfg vc).ruleScopes[i]? = some ⟨entry.cacheTtlSecs, entry.ratePerMin⟩ := by
  refine ⟨?_, bundleFromFileCfg_buildPolicy vc, startupBundle_eq vc, ?_, ?_⟩
  · cases disk with
    | error e => cases h
    | ok file =>
        obtain ⟨raw, hraw, hcfg⟩ := loadWithChecks_config h
        exact ⟨file, raw, rfl, hraw, hcfg⟩
  · intro secrets rounds own started hstarted
    exact runDaemon_bundle hstarted
  · intro argv i hallowed
    have hgrants := (Policy.evaluate_eq_allowed_iff _ argv i).mp hallowed
    obtain ⟨hi, hcovers⟩ := hgrants.covered
    obtain ⟨entry, hentry, hbuilt, hscope⟩ := (bundleFromFileCfg_aligned vc).position hi
    exact ⟨entry, _, hentry, hbuilt, (Rule.isMatch_iff_covers _ argv).mpr hcovers, hscope⟩

def pairToml : String :=
  "agent_uids=[1000]\napprover_uids=[1000]\n" ++
    "allow=[\x7bargv=[\"ls\"],cache_ttl_secs=60\x7d,\x7bargv=[\"id\"],cache_ttl_secs=300,rate_per_min=5\x7d]\n"

def pairConfig : FileConfig :=
  ⟨[], [⟨[.literal "ls"], 60, 0⟩, ⟨[.literal "id"], 300, 5⟩], [1000], [1000], ⟨.agent, none⟩⟩

def pairPlatform : Platform :=
  { Platform.bare with parseToml := fun raw => if raw = pairToml then .ok pairConfig else .error "unknown" }

theorem pairConfig_valid : pairConfig.validate pairPlatform.regex = .ok () := rfl

set_option maxRecDepth 4000 in
/-- The second of two entries allows `id`, with the numbers that are written in it. -/
theorem loadWithChecks_scoped_second :
    ∃ vc, loadWithChecks pairPlatform.regex pairPlatform.parseToml "sudix.toml" true (onDisk pairToml) = .ok vc ∧
      (bundleFromFileCfg vc).policy.evaluate ["id"] = .allowed 1 ∧
      (bundleFromFileCfg vc).ruleScopes[1]? = some ⟨300, 5⟩ := by
  have hload : loadWithChecks pairPlatform.regex pairPlatform.parseToml "sudix.toml" true (onDisk pairToml) =
      .ok ⟨pairConfig, pairConfig_valid⟩ := rfl
  have hallowed : (bundleFromFileCfg (E := pairPlatform.regex) ⟨pairConfig, pairConfig_valid⟩).policy.evaluate
      ["id"] = .allowed 1 := by decide
  obtain ⟨-, -, -, -, hscoped⟩ := loadWithChecks_scoped hload
  obtain ⟨entry, rule, hentry, -, -, hscope⟩ := hscoped ["id"] 1 hallowed
  obtain rfl := Option.some.inj hentry
  exact ⟨_, hload, hallowed, hscope⟩

end Sudix
