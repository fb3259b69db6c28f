import Mathlib
import PluginContract.Contract.Extraction
import PluginContract.Proofs.Contract.Exclusions
import PluginContract.Proofs.Noting

/-!
# The stages of an extraction

An extraction settles the entrypoint, the references to the schemas and the supported events
one after the other, then it applies the exclusions, and only then it asks its loader for
modules. What it asks for is recorded beside its result, in whatever surroundings it runs.
A contract that comes back says what was settled.
-/

namespace PluginContract.Contract

open Text Files Script Source Resolution Entrypoint

/-- Whether the type of the commands of an entrypoint is `null`. -/
def CommandsNull (c : Callsite) : Prop :=
  ∃ type, c.commandType? = some type ∧ stripParens type = "null".toList

/-- The plan of a project before any event is excluded, settled stage by stage with the cache
of one run. -/
inductive Settles (tree : Tree) (root : Path) : Plan → Prop
  | intro {project : Project} {c : Callsite} {m : Module} {commandType eventsType : List Char}
      {settings : Reference} {command : Option Reference} {events : List String}
      {c₁ c₂ c₃ c₄ c₅ : Cache}
      (configures : Project.ofRoot tree root = .ok project)
      (locates : outcome (locateEntrypoint project tree) .empty = (.ok c, c₁))
      (reads : outcome (getModule tree c.file) c₁ = (.ok m, c₂))
      (settles : outcome (resolveSettings project tree c) c₂ = (.ok settings, c₃))
      (third : c.commandType? = some commandType)
      (commands : outcome (resolveCommand project tree commandType m) c₃ = (.ok command, c₄))
      (fourth : c.eventsType? = some eventsType)
      (declares : outcome (resolveEvents project tree eventsType m []) c₄ = (.ok events, c₅)) :
      Settles tree root ⟨c, settings, command, events⟩

section Settling

variable {project : Project} {tree : Tree} {root : Path} {plan : Plan}

theorem decide?_returns (function : String) (calls : List Callsite) :
    Returns (decide? tree function calls) fun found =>
      ∀ c, found = some c → typeArgumentCount ≤ c.typeArguments.length := by
  match calls with
  | [] => exact .pure nofun
  | [c] =>
      rw [decide?]
      split
      · exact .andThen _ fun location => .reject _
      · rename_i hcount
        refine .pure ?_
        rintro _ ⟨⟩
        exact Nat.le_of_not_lt hcount
  | c :: d :: rest => exact .andThen _ fun locations => .reject _

/-- An entrypoint has all type arguments of a full contract. -/
theorem locate_returns (files : List Path) :
    Returns (locate tree files) fun c => typeArgumentCount ≤ c.typeArguments.length := by
  refine .andThen _ fun calls => .bind (decide?_returns preferred calls) ?_
  rintro (_ | c) hc
  · refine .andThen _ fun calls => .bind (decide?_returns alternative calls) ?_
    rintro (_ | c) hc
    · exact .reject _
    · exact .pure (hc c rfl)
  · exact .pure (hc c rfl)

/-- What a run settles is determined by the tree and the root. -/
theorem Settles.unique {other : Plan} (h : Settles tree root plan)
    (h' : Settles tree root other) : plan = other := by
  obtain ⟨configures, locates, reads, settles, third, commands, fourth, declares⟩ := h
  obtain ⟨configures', locates', reads', settles', third', commands', fourth', declares'⟩ := h'
  cases configures.symm.trans configures'
  cases locates.symm.trans locates'
  cases reads.symm.trans reads'
  cases settles.symm.trans settles'
  cases third.symm.trans third'
  cases commands.symm.trans commands'
  cases fourth.symm.trans fourth'
  cases declares.symm.trans declares'
  rfl

theorem resolveCommand_eq_none_iff {type : List Char} {m : Module} {command : Option Reference}
    {before after : Cache}
    (h : outcome (resolveCommand project tree type m) before = (.ok command, after)) :
    command = none ↔ stripParens type = "null".toList := by
  rw [resolveCommand] at h
  by_cases hnull : stripParens type = "null".toList
  · rw [if_pos hnull] at h
    cases h
    exact iff_of_true rfl hnull
  rw [if_neg hnull] at h
  refine iff_of_false ?_ hnull
  rintro rfl
  split at h
  · cases h
  obtain ⟨found, middle, -, h⟩ := outcome_bind_eq_ok_iff.mp h
  split at h
  · cases h
  split at h <;> cases h

/-- There is no reference to a command schema if and only if the type of the commands is `null`. -/
theorem Settles.command_eq_none_iff (h : Settles tree root plan) :
    plan.command = none ↔ CommandsNull plan.entrypoint := by
  obtain ⟨-, -, -, -, third, commands, -, -⟩ := h
  rw [resolveCommand_eq_none_iff commands, CommandsNull, third]
  simp

theorem Settles.events_nodup (h : Settles tree root plan) : plan.events.Nodup := by
  obtain ⟨-, -, -, -, -, -, -, declares⟩ := h
  exact (resolveEvents_returns _ _ _ _ _ _ _ _ declares).2

/-- Once everything is settled, a plan only depends on the exclusions. -/
theorem Settles.planAt_eq (h : Settles tree root plan) (excluded : List String) :
    planAt tree root excluded =
      match applyExclusions plan.events excluded with
      | .error error => .error (.contract error)
      | .ok events => .ok { plan with events } := by
  obtain ⟨configures, locates, reads, settles, third, commands, fourth, declares⟩ := h
  rw [planAt, configures]
  change (outcome (makePlan _ tree excluded) .empty).1 = _
  rw [makePlan, outcome_bind, locates]
  dsimp only
  rw [outcome_bind, reads]
  dsimp only
  rw [outcome_bind, settles, third]
  dsimp only [Option.getD_some]
  rw [outcome_bind, commands, fourth]
  dsimp only [Option.getD_some]
  rw [outcome_bind, declares]
  dsimp only
  cases applyExclusions _ excluded <;> rfl

/-- A run that does not settle everything fails in the same way with all exclusions. -/
theorem settles_or_fails (tree : Tree) (root : Path) :
    (∃ plan, Settles tree root plan) ∨
      ∃ failure, ∀ excluded, planAt tree root excluded = .error failure := by
  cases configures : Project.ofRoot tree root with
  | error failure => exact Or.inr ⟨failure, fun excluded => by rw [planAt, configures]; rfl⟩
  | ok project =>
      have hplan (excluded : List String) : planAt tree root excluded =
          (outcome (makePlan project tree excluded) .empty).1 := by
        rw [planAt, configures]
        rfl
      simp only [hplan, makePlan, outcome_bind]
      rcases locates : outcome (locateEntrypoint project tree) .empty with ⟨failure | c, c₁⟩
      · exact Or.inr ⟨failure, fun excluded => rfl⟩
      have hcount : typeArgumentCount ≤ c.typeArguments.length :=
        locate_returns (discover tree project.root) _ c c₁ locates
      obtain ⟨commandType, third⟩ : ∃ type, c.commandType? = some type :=
        ⟨_, List.getElem?_eq_getElem (Nat.lt_of_lt_of_le (by decide) hcount)⟩
      obtain ⟨eventsType, fourth⟩ : ∃ type, c.eventsType? = some type :=
        ⟨_, List.getElem?_eq_getElem (Nat.lt_of_lt_of_le (by decide) hcount)⟩
      dsimp only
      rcases reads : outcome (getModule tree c.file) c₁ with ⟨failure | m, c₂⟩
      · exact Or.inr ⟨failure, fun excluded => rfl⟩
      dsimp only
      rcases settles : outcome (resolveSettings project tree c) c₂ with ⟨failure | settings, c₃⟩
      · exact Or.inr ⟨failure, fun excluded => rfl⟩
      simp only [third, fourth, Option.getD_some]
      rcases commands : outcome (resolveCommand project tree commandType m) c₃ with
        ⟨failure | command, c₄⟩
      · exact Or.inr ⟨failure, fun excluded => rfl⟩
      dsimp only
      rcases declares : outcome (resolveEvents project tree eventsType m []) c₄ with
        ⟨failure | events, c₅⟩
      · exact Or.inr ⟨failure, fun excluded => rfl⟩
      exact Or.inl
        ⟨_, configures, locates, reads, settles, third, commands, fourth, declares⟩

end Settling

/-- A loader that also notes what it is asked for, before anything is loaded. -/
def Loader.recorded {μ : Type → Type} [Monad μ] (loader : Loader μ) :
    Loader (StateT Wanted μ) := fun module names => do
  modify (· ++ [(module, names)])
  loader module names

section Recording

variable {μ : Type → Type} [Monad μ] [LawfulMonad μ]

theorem run_recorded (loader : Loader μ) (module : Path) (names : List String)
    (asked : Wanted) :
    (loader.recorded module names).run asked =
      (fun result => (result, asked ++ [(module, names)])) <$> loader module names := by
  simp [Loader.recorded]

theorem run_loadAll_cons (loader : Loader μ) (module : Path) (names : List String)
    (rest asked : Wanted) :
    (loadAll loader.recorded ((module, names) :: rest)).run asked =
      loader module names >>= fun result =>
        match result with
        | .error failure => pure (.error failure, asked ++ [(module, names)])
        | .ok exports =>
            (loadAll loader.recorded rest).run (asked ++ [(module, names)]) >>= fun run =>
              match run.1 with
              | .error failure => pure (.error failure, run.2)
              | .ok loaded => pure (.ok ((module, exports) :: loaded), run.2) := by
  rw [loadAll, StateT.run_bind, run_recorded, bind_map_left]
  refine bind_congr fun result => ?_
  cases result with
  | error failure => rfl
  | ok exports =>
      dsimp only
      rw [StateT.run_bind]
      refine bind_congr fun run => ?_
      rcases run with ⟨failure | loaded, after⟩ <;> rfl

/-- Recording what is asked for changes nothing else about loading. -/
theorem run'_loadAll_recorded (loader : Loader μ) (wanted asked : Wanted) :
    (loadAll loader.recorded wanted).run' asked = loadAll loader wanted := by
  induction wanted generalizing asked with
  | nil => simp [loadAll]
  | cons entry rest ih =>
      obtain ⟨module, names⟩ := entry
      rw [loadAll, loadAll]
      refine run'_bind (by simp [run_recorded]) fun result after => ?_
      cases result with
      | error failure => simp
      | ok exports =>
          refine run'_bind (ih after) fun loaded last => ?_
          cases loaded <;> simp

/-- Modules are asked for in the order in which they are wanted, all of them if loading
succeeds. -/
theorem satisfiesM_loadAll_recorded (loader : Loader μ) (wanted asked : Wanted) :
    SatisfiesM
      (fun run => ∃ made, run.2 = asked ++ made ∧ made <+: wanted ∧
        ∀ loaded, run.1 = .ok loaded → made = wanted)
      ((loadAll loader.recorded wanted).run asked) := by
  induction wanted generalizing asked with
  | nil => exact .pure ⟨[], by simp, List.prefix_rfl, fun _ _ => rfl⟩
  | cons entry rest ih =>
      obtain ⟨module, names⟩ := entry
      rw [run_loadAll_cons]
      refine .bind .trivial fun result _ => ?_
      cases result with
      | error failure => exact .pure ⟨[(module, names)], rfl, by simp, nofun⟩
      | ok exports =>
          refine .bind (ih _) fun run hrun => ?_
          obtain ⟨made, hafter, hmade, hall⟩ := hrun
          have hasked : run.2 = asked ++ (module, names) :: made := by
            rw [hafter, List.append_assoc, List.singleton_append]
          have hinitial : (module, names) :: made <+: (module, names) :: rest :=
            List.cons_prefix_cons.mpr ⟨rfl, hmade⟩
          rcases run with ⟨failure | loaded, after⟩
          · exact .pure ⟨_, hasked, hinitial, nofun⟩
          · exact .pure ⟨_, hasked, hinitial, fun _ _ => by rw [hall loaded rfl]⟩

theorem run'_loadReferences_recorded (loader : Loader μ) (references : List Reference)
    (asked : Wanted) :
    (loadReferences loader.recorded references).run' asked =
      loadReferences loader references := by
  rw [loadReferences, loadReferences]
  refine run'_bind (run'_loadAll_recorded loader _ asked) fun loaded after => ?_
  cases loaded <;> simp

theorem satisfiesM_loadReferences_recorded (loader : Loader μ) (references : List Reference) :
    SatisfiesM
      (fun run => run.2 <+: Wanted.of references ∧
        ∀ values, run.1 = .ok values → run.2 = Wanted.of references)
      ((loadReferences loader.recorded references).run []) := by
  rw [loadReferences, StateT.run_bind]
  refine .bind (satisfiesM_loadAll_recorded loader _ []) fun run hrun => ?_
  obtain ⟨made, hafter, hinitial, hall⟩ := hrun
  rcases run with ⟨failure | loaded, after⟩ <;> cases hafter
  · exact .pure ⟨hinitial, nofun⟩
  · exact .pure ⟨hinitial, fun _ _ => hall loaded rfl⟩

end Recording

/-- The modules that a plan wants to be loaded, with the names wanted from each. -/
def Plan.wanted (plan : Plan) : Wanted := Wanted.of (plan.settings :: plan.command.toList)

theorem Plan.wanted_of_command_eq_none {plan : Plan} (h : plan.command = none) :
    plan.wanted = [(plan.settings.module, [plan.settings.exported])] := by
  rw [Plan.wanted, h]
  rfl

/-- Whether a contract says what was settled before, less the excluded events. -/
structure Metadata.Follows (d : Metadata) (plan : Plan) (exclusions : Exclusions) : Prop where
  entrypoint_eq : d.entrypoint = plan.entrypoint
  events_eq : d.events = plan.events.filter (· ∉ d.excluded)
  events_ne_nil : d.events ≠ []
  events_nodup : d.events.Nodup
  excluded_eq : d.excluded = exclusions.names
  excluded_nodup : d.excluded.Nodup
  excluded_trimmed : ∀ event ∈ d.excluded, trim event.toList = event.toList
  excluded_declared : ∀ event ∈ d.excluded, event ∈ plan.events
  allowMissingCommands_iff : d.allowMissingCommands = true ↔ CommandsNull d.entrypoint

/-- The plan without some of its events. -/
def Plan.without (plan : Plan) (excluded : List String) : Plan :=
  { plan with events := plan.events.filter (· ∉ excluded) }

/-- Whether exclusions can be applied to the events of a plan. -/
structure Plan.Allows (plan : Plan) (exclusions : Exclusions) : Prop where
  known : ∀ event ∈ exclusions.names, event ∈ plan.events
  left : ∃ event ∈ plan.events, event ∉ exclusions.names

/-- Whether an extraction goes stage by stage, in whatever surroundings modules are loaded. -/
structure GoesByStages (tree : Tree) (root : Path) (exclusions : Exclusions) : Prop where
  /-- A contract that comes back says what was settled, and what its plan wants was loaded. -/
  returns : ∀ {μ : Type → Type} [Monad μ] [LawfulMonad μ] (loader : Loader μ),
    SatisfiesM
      (fun run => ∀ d, run.1 = .ok d →
        ∃ plan, Settles tree root plan ∧ d.Follows plan exclusions ∧ run.2 = plan.wanted)
      ((extract tree root exclusions.names loader.recorded).run [])
  /-- Nothing is asked of the loader unless everything is settled and the exclusions apply. -/
  asks : ∀ {μ : Type → Type} [Monad μ] [LawfulMonad μ] (loader : Loader μ),
    SatisfiesM
      (fun run => run.2 ≠ [] →
        ∃ plan, Settles tree root plan ∧ plan.Allows exclusions ∧ run.2 <+: plan.wanted)
      ((extract tree root exclusions.names loader.recorded).run [])
  /-- Where the type of the commands is `null`, the settings schema is all that is wanted. -/
  commandless : ∀ plan, Settles tree root plan → CommandsNull plan.entrypoint →
    plan.wanted = [(plan.settings.module, [plan.settings.exported])]
  /-- A stage that fails ends the run. -/
  unsettled : (∀ plan, ¬ Settles tree root plan) → ∃ failure,
    ∀ {μ : Type → Type} [Monad μ] (loader : Loader μ),
      extract tree root exclusions.names loader = pure (.error failure)
  /-- So does an excluded event that is unknown. -/
  unknown : ∀ plan, Settles tree root plan →
    (∃ event ∈ exclusions.names, event ∉ plan.events) →
    ∀ {μ : Type → Type} [Monad μ] (loader : Loader μ),
      extract tree root exclusions.names loader = pure (.error (.contract
        (.unknownExcludedEvents (exclusions.names.filter (· ∉ plan.events)) plan.events)))
  /-- So do exclusions that leave no event. -/
  covered : ∀ plan, Settles tree root plan →
    (∀ event ∈ exclusions.names, event ∈ plan.events) →
    (∀ event ∈ plan.events, event ∈ exclusions.names) →
    ∀ {μ : Type → Type} [Monad μ] (loader : Loader μ),
      extract tree root exclusions.names loader = pure (.error (.contract
        (.noEventsLeft exclusions.names)))
  /-- With all other exclusions, what is left to do is to load what the plan wants. -/
  loads : ∀ plan, Settles tree root plan → plan.Allows exclusions →
    ∀ {μ : Type → Type} [Monad μ] (loader : Loader μ),
      extract tree root exclusions.names loader =
        (plan.without exclusions.names).load loader exclusions.names

section Extracting

variable {tree : Tree} {root : Path} {exclusions : Exclusions} {plan : Plan}
  {μ : Type → Type} [Monad μ]

theorem extract_of_planAt_eq_error {excluded : List String} {failure : Failure}
    (h : planAt tree root excluded = .error failure) (loader : Loader μ) :
    extract tree root excluded loader = pure (.error failure) := by
  rw [extract, h]

theorem extract_of_allows (h : Settles tree root plan) (allows : plan.Allows exclusions)
    (loader : Loader μ) :
    extract tree root exclusions.names loader =
      (plan.without exclusions.names).load loader exclusions.names := by
  have happly := applyExclusions_eq_ok_iff.mpr ⟨allows.known, allows.left, rfl⟩
  rw [extract, h.planAt_eq, happly]
  rfl

theorem follows_of_settles (h : Settles tree root plan) (allows : plan.Allows exclusions)
    {d : Metadata} (entrypoint : d.entrypoint = plan.entrypoint)
    (events : d.events = plan.events.filter (· ∉ exclusions.names))
    (excluded : d.excluded = exclusions.names)
    (commands : d.allowMissingCommands = plan.command.isNone) : d.Follows plan exclusions where
  entrypoint_eq := entrypoint
  events_eq := by rw [excluded, events]
  events_ne_nil := by
    obtain ⟨event, hevent, hleft⟩ := allows.left
    exact List.ne_nil_of_mem (events ▸ List.mem_filter.mpr ⟨hevent, decide_eq_true hleft⟩)
  events_nodup := events ▸ h.events_nodup.filter _
  excluded_eq := excluded
  excluded_nodup := excluded ▸ exclusions.nodup_names
  excluded_trimmed := by
    rw [excluded]
    exact fun event => Exclusions.trim_of_mem_names
  excluded_declared := excluded ▸ allows.known
  allowMissingCommands_iff := by
    rw [commands, Option.isNone_iff_eq_none, entrypoint, h.command_eq_none_iff]

variable [LawfulMonad μ]

/-- Recording what is asked for changes nothing else about an extraction. -/
theorem run'_extract_recorded (excluded : List String) (loader : Loader μ) :
    (extract tree root excluded loader.recorded).run' [] = extract tree root excluded loader := by
  rw [extract, extract]
  cases planAt tree root excluded with
  | error failure => simp
  | ok plan =>
      refine run'_bind (run'_loadReferences_recorded loader _ []) fun values after => ?_
      cases values <;> simp

/-- An extraction either ends before anything is asked of the loader, or it has settled a plan
that allows the exclusions. -/
theorem satisfiesM_extract_recorded (loader : Loader μ) :
    SatisfiesM
      (fun run => (run.2 = [] ∧ ∀ d, run.1 ≠ .ok d) ∨
        ∃ plan, Settles tree root plan ∧ plan.Allows exclusions ∧ run.2 <+: plan.wanted ∧
          ∀ d, run.1 = .ok d → d.Follows plan exclusions ∧ run.2 = plan.wanted)
      ((extract tree root exclusions.names loader.recorded).run []) := by
  rcases settles_or_fails tree root with ⟨plan, settled⟩ | ⟨failure, hfails⟩
  case inr =>
    rw [extract_of_planAt_eq_error (hfails _)]
    exact .pure (Or.inl ⟨rfl, nofun⟩)
  cases happly : applyExclusions plan.events exclusions.names with
  | error error =>
      have hplan : planAt tree root exclusions.names = .error (.contract error) := by
        rw [settled.planAt_eq, happly]
      rw [extract_of_planAt_eq_error hplan]
      exact .pure (Or.inl ⟨rfl, nofun⟩)
  | ok events =>
      obtain ⟨known, left, -⟩ := applyExclusions_eq_ok_iff.mp happly
      rw [extract_of_allows settled ⟨known, left⟩, Plan.load, StateT.run_bind]
      refine .bind (satisfiesM_loadReferences_recorded loader _) fun run hrun => ?_
      obtain ⟨hinitial, hall⟩ := hrun
      rcases run with ⟨failure | values, after⟩
      · exact .pure (Or.inr ⟨plan, settled, ⟨known, left⟩, hinitial, nofun⟩)
      · refine .pure (Or.inr ⟨plan, settled, ⟨known, left⟩, hinitial, ?_⟩)
        rintro d ⟨⟩
        exact ⟨follows_of_settles settled ⟨known, left⟩ rfl rfl rfl rfl, hall values rfl⟩

end Extracting

/-- Every extraction settles all that the sources tell before it loads anything, and a contract
that comes back says what was settled. -/
theorem extract_goesByStages (tree : Tree) (root : Path) (exclusions : Exclusions) :
    GoesByStages tree root exclusions where
  returns loader := by
    refine (satisfiesM_extract_recorded loader).imp fun hrun d hd => ?_
    obtain ⟨-, hnone⟩ | ⟨plan, settled, -, -, hfollows⟩ := hrun
    · exact absurd hd (hnone d)
    · exact ⟨plan, settled, hfollows d hd⟩
  asks loader := by
    refine (satisfiesM_extract_recorded loader).imp fun hrun hasked => ?_
    obtain ⟨hnil, -⟩ | ⟨plan, settled, allows, hinitial, -⟩ := hrun
    · exact absurd hnil hasked
    · exact ⟨plan, settled, allows, hinitial⟩
  commandless plan settled hnull :=
    Plan.wanted_of_command_eq_none (settled.command_eq_none_iff.mpr hnull)
  unsettled hnone := by
    obtain ⟨plan, settled⟩ | ⟨failure, hfails⟩ := settles_or_fails tree root
    · exact absurd settled (hnone plan)
    · exact ⟨failure, fun loader => extract_of_planAt_eq_error (hfails _) loader⟩
  unknown plan settled unknown _ _ loader := by
    apply extract_of_planAt_eq_error
    rw [settled.planAt_eq, applyExclusions_of_unknown unknown]
  covered plan settled known covered _ _ loader := by
    apply extract_of_planAt_eq_error
    rw [settled.planAt_eq, applyExclusions_of_covered known covered]
  loads plan settled allows _ _ loader := extract_of_allows settled allows loader

-- One event is excluded, and the commands need no module.
example :
    ((extract
      ⟨[], [(["a.ts"], .file (Text.Utf8.encode
        "createPlugin<A,B,(null),\"a.b\"|\"c.d\">(f,m,\x7bsettingsSchema\x7d)".toList))], .usual⟩
      ⟨.top, []⟩ (Exclusions.written " c.d,").names
      (Loader.recorded fun _ names => (pure (.ok (names.map fun name => (name, .null))) : Id _))).run
      []).map (fun result => result.toOption.map Metadata.events) id =
    (some ["a.b"], [(⟨.top, ["a.ts"]⟩, ["settingsSchema"])]) := by decide +kernel

end PluginContract.Contract
