import PluginContract.Contract.Extraction
import PluginContract.Proofs.Contract.EventReduction
import PluginContract.Proofs.Resolution.AliasLookups

/-!
# Lookups of a plan

Finding the entrypoint and its options looks up no specifier. The settings schema, the
command schema and the supported events are settled one after the other, so the lookups of a
plan are those of the settings, and those of a later part if the parts before it are settled.
A plan breaks if and only if one of its lookups leads nowhere.
-/

namespace PluginContract.Contract

open Text Files Script Source Resolution Entrypoint

variable {project : Project} {tree : Tree} {cache : Cache}

section Entrypoint

theorem not_breaks_collect (function : String) (files : List Path) (cache : Cache) :
    ¬ Breaks (collect tree function files) cache := by
  induction files generalizing cache with
  | nil => exact not_breaks_pure [] cache
  | cons file rest ih =>
      refine not_breaks_bind (not_breaks_getModule tree file cache) fun m middle => ?_
      exact not_breaks_bind (ih middle) fun others after => not_breaks_pure _ after

theorem not_breaks_locationOf (c : Callsite) (cache : Cache) :
    ¬ Breaks (locationOf tree c) cache :=
  not_breaks_bind (not_breaks_getModule tree c.file cache) fun _ middle => not_breaks_pure _ middle

theorem not_breaks_mapM {α β : Type} {f : α → Resolving β} (hf : ∀ a cache, ¬ Breaks (f a) cache)
    (l : List α) (cache : Cache) : ¬ Breaks (l.mapM f) cache := by
  induction l generalizing cache with
  | nil => exact not_breaks_pure [] cache
  | cons a rest ih =>
      rw [List.mapM_cons]
      refine not_breaks_bind (hf a cache) fun b middle => ?_
      exact not_breaks_bind (ih middle) fun bs after => not_breaks_pure _ after

theorem not_breaks_decide? (function : String) (calls : List Callsite) (cache : Cache) :
    ¬ Breaks (decide? tree function calls) cache := by
  match calls with
  | [] => exact not_breaks_pure none cache
  | [c] =>
      rw [decide?]
      split
      · exact not_breaks_bind (not_breaks_locationOf c cache) fun _ => not_breaks_reject _
      · exact not_breaks_pure (some c) cache
  | c :: d :: rest =>
      refine not_breaks_bind (not_breaks_mapM not_breaks_locationOf _ cache) fun _ => ?_
      exact not_breaks_reject _

theorem not_breaks_locate (files : List Path) (cache : Cache) :
    ¬ Breaks (locate tree files) cache := by
  refine not_breaks_bind (not_breaks_collect preferred files cache) fun calls c₁ => ?_
  refine not_breaks_bind (not_breaks_decide? preferred calls c₁) fun found c₂ => ?_
  cases found with
  | some c => exact not_breaks_pure c c₂
  | none =>
      refine not_breaks_bind (not_breaks_collect alternative files c₂) fun calls c₃ => ?_
      refine not_breaks_bind (not_breaks_decide? alternative calls c₃) fun found c₄ => ?_
      cases found with
      | some c => exact not_breaks_pure c c₄
      | none => exact not_breaks_reject _ c₄

theorem not_breaks_locateEntrypoint (cache : Cache) :
    ¬ Breaks (locateEntrypoint project tree) cache :=
  not_breaks_locate (discover tree project.root) cache

theorem not_breaks_optionsObject (c : Callsite) (cache : Cache) :
    ¬ Breaks (optionsObject tree c) cache := by
  refine not_breaks_bind (not_breaks_locationOf c cache) fun location middle => ?_
  cases c.options? with
  | none => exact not_breaks_reject _ middle
  | some expression =>
      dsimp only
      cases ObjectLiteral.read? expression with
      | none => exact not_breaks_reject _ middle
      | some literal =>
          dsimp only
          split
          · exact not_breaks_pure literal middle
          · exact not_breaks_reject _ middle

end Entrypoint

/-- The lookup for the settings schema of an entrypoint. -/
inductive SettingsAsks (tree : Tree) (c : Callsite) (cache : Cache) : Path → String → Prop
  | intro {literal : ObjectLiteral} {m : Module} {middle after : Cache} {specifier : String}
      (spells : outcome (optionsObject tree c) cache = (.ok literal, middle))
      (reads : outcome (getModule tree c.file) middle = (.ok m, after))
      (refers : referredSpecifier?
        (((literal.get? settingsProperty.toList).map Property.value).getD []) m =
          some specifier) :
      SettingsAsks tree c cache m.path specifier

/-- The lookups for the command schema that a type expression in a module stands for. -/
inductive CommandAsks (project : Project) (tree : Tree) (e : List Char) (m : Module)
    (cache : Cache) : Path → String → Prop
  | search {importer : Path} {specifier : String} (given : stripParens e ≠ "null".toList)
      (name : isName (stripParens e) = true)
      (asks : project.AliasAsks tree (String.ofList (stripParens e)) m [] cache importer
        specifier) :
      CommandAsks project tree e m cache importer specifier
  | schema {found : AliasDeclaration} {middle : Cache} {value : List Char} {specifier : String}
      (given : stripParens e ≠ "null".toList) (name : isName (stripParens e) = true)
      (finds : outcome (project.findAlias tree (String.ofList (stripParens e)) m []) cache =
        (.ok found, middle))
      (static : schemaValue? found.body = some value)
      (refers : referredSpecifier? value found.module = some specifier) :
      CommandAsks project tree e m cache found.module.path specifier

/-- The lookups for the supported events that a type expression in a module stands for. -/
inductive EventAsks (project : Project) (tree : Tree) :
    List Char → Module → List Link → Cache → Path → String → Prop
  | search {e : List Char} {m : Module} {seen : List Link} {cache : Cache} {importer : Path}
      {specifier : String} (name : isName (stripParens e) = true)
      (asks : project.AliasAsks tree (String.ofList (stripParens e)) m seen cache importer
        specifier) :
      EventAsks project tree e m seen cache importer specifier
  | follow {e : List Char} {m : Module} {seen : List Link} {cache middle : Cache}
      {found : AliasDeclaration} {importer : Path} {specifier : String}
      (name : isName (stripParens e) = true)
      (finds : outcome (project.findAlias tree (String.ofList (stripParens e)) m seen) cache =
        (.ok found, middle))
      (rest : EventAsks project tree found.body found.module found.seen middle importer
        specifier) :
      EventAsks project tree e m seen cache importer specifier

/-- The lookups of a plan that starts with nothing read. -/
inductive PlanAsks (project : Project) (tree : Tree) : Path → String → Prop
  | settings {c : Callsite} {m : Module} {c₁ c₂ : Cache} {importer : Path} {specifier : String}
      (locates : outcome (locateEntrypoint project tree) .empty = (.ok c, c₁))
      (reads : outcome (getModule tree c.file) c₁ = (.ok m, c₂))
      (asks : SettingsAsks tree c c₂ importer specifier) :
      PlanAsks project tree importer specifier
  | command {c : Callsite} {m : Module} {settings : Reference} {c₁ c₂ c₃ : Cache}
      {importer : Path} {specifier : String}
      (locates : outcome (locateEntrypoint project tree) .empty = (.ok c, c₁))
      (reads : outcome (getModule tree c.file) c₁ = (.ok m, c₂))
      (settles : outcome (resolveSettings project tree c) c₂ = (.ok settings, c₃))
      (asks : CommandAsks project tree (c.commandType?.getD []) m c₃ importer specifier) :
      PlanAsks project tree importer specifier
  | events {c : Callsite} {m : Module} {settings : Reference} {command : Option Reference}
      {c₁ c₂ c₃ c₄ : Cache} {importer : Path} {specifier : String}
      (locates : outcome (locateEntrypoint project tree) .empty = (.ok c, c₁))
      (reads : outcome (getModule tree c.file) c₁ = (.ok m, c₂))
      (settles : outcome (resolveSettings project tree c) c₂ = (.ok settings, c₃))
      (commands : outcome (resolveCommand project tree (c.commandType?.getD []) m) c₃ =
        (.ok command, c₄))
      (asks : EventAsks project tree (c.eventsType?.getD []) m [] c₄ importer specifier) :
      PlanAsks project tree importer specifier

theorem breaks_reference_iff {α : Type} {e : List Char} {m : Module} (settle : Reference → α) :
    Breaks (match project.reference tree e m with
      | .ok reference => return settle reference
      | .error failure => throw failure) cache ↔
      ∃ specifier, referredSpecifier? e m = some specifier ∧
        project.LeadsNowhere tree m.path specifier := by
  rw [← Project.not_contractual_reference_iff]
  cases project.reference tree e m <;> exact Iff.rfl

theorem breaks_resolveSettings_iff {c : Callsite} :
    Breaks (resolveSettings project tree c) cache ↔
      ∃ importer specifier, SettingsAsks tree c cache importer specifier ∧
        project.LeadsNowhere tree importer specifier := by
  rw [resolveSettings, breaks_bind_iff_of_not_breaks (not_breaks_optionsObject c cache)]
  constructor
  · rintro ⟨literal, middle, spells, h⟩
    obtain ⟨m, after, reads, h⟩ :=
      (breaks_bind_iff_of_not_breaks (not_breaks_getModule tree c.file middle)).mp h
    obtain ⟨specifier, refers, hn⟩ := (breaks_reference_iff id).mp h
    exact ⟨m.path, specifier, .intro spells reads refers, hn⟩
  · rintro ⟨_, specifier, ⟨spells, reads, refers⟩, hn⟩
    refine ⟨_, _, spells, breaks_bind_iff.mpr (Or.inr ⟨_, _, reads, ?_⟩)⟩
    exact (breaks_reference_iff id).mpr ⟨specifier, refers, hn⟩

theorem breaks_resolveCommand_iff {e : List Char} {m : Module} :
    Breaks (resolveCommand project tree e m) cache ↔
      ∃ importer specifier, CommandAsks project tree e m cache importer specifier ∧
        project.LeadsNowhere tree importer specifier := by
  rw [resolveCommand]
  by_cases given : stripParens e = "null".toList
  · rw [if_pos given]
    refine iff_of_false (not_breaks_pure none cache) ?_
    rintro ⟨_, _, ⟨given', _, _⟩ | ⟨given', _, _, _, _⟩, _⟩
    · exact given' given
    · exact given' given
  rw [if_neg given]
  cases name : isName (stripParens e) with
  | false =>
      refine iff_of_false (not_breaks_reject _ cache) ?_
      rintro ⟨_, _, ⟨_, name', _⟩ | ⟨_, name', _, _, _⟩, _⟩
      · exact Bool.false_ne_true (name.symm.trans name')
      · exact Bool.false_ne_true (name.symm.trans name')
  | true =>
      rw [if_neg (by decide), breaks_bind_iff, Project.breaks_findAlias_iff]
      constructor
      · rintro (⟨importer, specifier, asks, hn⟩ | ⟨found, middle, finds, h⟩)
        · exact ⟨importer, specifier, .search given name asks, hn⟩
        · cases static : schemaValue? found.body with
          | none =>
              rw [static] at h
              exact absurd h (not_breaks_reject _ middle)
          | some value =>
              rw [static] at h
              obtain ⟨specifier, refers, hn⟩ := (breaks_reference_iff some).mp h
              exact ⟨found.module.path, specifier, .schema given name finds static refers, hn⟩
      · rintro ⟨importer, specifier, ⟨_, _, asks⟩ | ⟨_, _, finds, static, refers⟩, hn⟩
        · exact Or.inl ⟨importer, specifier, asks, hn⟩
        · refine Or.inr ⟨_, _, finds, ?_⟩
          rw [static]
          exact (breaks_reference_iff some).mpr ⟨specifier, refers, hn⟩

theorem breaks_eventsWithin_of_not_name {e : List Char} {m : Module} {seen : List Link}
    {names : Nat} (name : isName (stripParens e) = false) :
    ¬ Breaks (eventsWithin project tree names e m seen) cache := by
  rw [Breaks, outcome_eventsWithin_of_not_name name, reduction]
  split
  · exact fun h => h rfl
  · exact fun h => h trivial

/-- A reduction breaks with any number of names that is left, as long as it covers the steps
that the search has left. -/
theorem EventAsks.breaks {e : List Char} {m : Module} {seen : List Link} {importer : Path}
    {specifier : String} (h : EventAsks project tree e m seen cache importer specifier)
    (hn : project.LeadsNowhere tree importer specifier) {names : Nat} (hpos : 0 < names)
    (hnames : stepLimit < seen.length + names) :
    Breaks (eventsWithin project tree names e m seen) cache := by
  induction h generalizing names with
  | search name asks =>
      obtain ⟨names, rfl⟩ := Nat.exists_eq_add_of_lt hpos
      rw [Nat.zero_add, eventsWithin_of_name name]
      exact breaks_bind_iff.mpr (Or.inl (Project.breaks_findAlias_iff.mpr ⟨_, _, asks, hn⟩))
  | @follow e m seen cache middle found importer specifier name finds rest ih =>
      obtain ⟨names, rfl⟩ := Nat.exists_eq_add_of_lt hpos
      rw [Nat.zero_add, eventsWithin_of_name name]
      have hseen := Project.findAlias_returns _ m seen cache found middle finds
      refine breaks_bind_iff.mpr (Or.inr ⟨found, middle, finds, ih hn ?_ ?_⟩)
      · omega
      · omega

theorem exists_eventAsks_of_breaks {e : List Char} {m : Module} {seen : List Link} {names : Nat}
    (h : Breaks (eventsWithin project tree names e m seen) cache) :
    ∃ importer specifier, EventAsks project tree e m seen cache importer specifier ∧
      project.LeadsNowhere tree importer specifier := by
  induction names generalizing e m seen cache with
  | zero =>
      cases name : isName (stripParens e) with
      | false => exact absurd h (breaks_eventsWithin_of_not_name name)
      | true =>
          rw [eventsWithin_of_name name] at h
          exact absurd h (not_breaks_reject _ cache)
  | succ names ih =>
      cases name : isName (stripParens e) with
      | false => exact absurd h (breaks_eventsWithin_of_not_name name)
      | true =>
          rw [eventsWithin_of_name name] at h
          rcases breaks_bind_iff.mp h with h | ⟨found, middle, finds, h⟩
          · obtain ⟨importer, specifier, asks, hn⟩ := Project.breaks_findAlias_iff.mp h
            exact ⟨importer, specifier, .search name asks, hn⟩
          · obtain ⟨importer, specifier, asks, hn⟩ := ih h
            exact ⟨importer, specifier, .follow name finds asks, hn⟩

theorem breaks_resolveEvents_iff {e : List Char} {m : Module} {seen : List Link} :
    Breaks (resolveEvents project tree e m seen) cache ↔
      ∃ importer specifier, EventAsks project tree e m seen cache importer specifier ∧
        project.LeadsNowhere tree importer specifier := by
  constructor
  · exact exists_eventAsks_of_breaks
  · rintro ⟨importer, specifier, asks, hn⟩
    exact asks.breaks hn (Nat.succ_pos stepLimit) (by omega)

/-- A plan breaks if and only if one of its lookups leads nowhere. The exclusions play no part
in it. -/
theorem breaks_makePlan_iff {excluded : List String} :
    Breaks (makePlan project tree excluded) .empty ↔
      ∃ importer specifier, PlanAsks project tree importer specifier ∧
        project.LeadsNowhere tree importer specifier := by
  rw [makePlan, breaks_bind_iff_of_not_breaks (not_breaks_locateEntrypoint _)]
  constructor
  · rintro ⟨c, c₁, locates, h⟩
    obtain ⟨m, c₂, reads, h⟩ :=
      (breaks_bind_iff_of_not_breaks (not_breaks_getModule tree c.file c₁)).mp h
    rcases breaks_bind_iff.mp h with h | ⟨settings, c₃, settles, h⟩
    · obtain ⟨importer, specifier, asks, hn⟩ := breaks_resolveSettings_iff.mp h
      exact ⟨importer, specifier, .settings locates reads asks, hn⟩
    rcases breaks_bind_iff.mp h with h | ⟨command, c₄, commands, h⟩
    · obtain ⟨importer, specifier, asks, hn⟩ := breaks_resolveCommand_iff.mp h
      exact ⟨importer, specifier, .command locates reads settles asks, hn⟩
    rcases breaks_bind_iff.mp h with h | ⟨events, c₅, -, h⟩
    · obtain ⟨importer, specifier, asks, hn⟩ := breaks_resolveEvents_iff.mp h
      exact ⟨importer, specifier, .events locates reads settles commands asks, hn⟩
    · exfalso
      cases hexclude : applyExclusions events excluded with
      | error error =>
          rw [hexclude] at h
          exact not_breaks_reject error c₅ h
      | ok events =>
          rw [hexclude] at h
          exact not_breaks_pure _ c₅ h
  · rintro ⟨importer, specifier, asks, hn⟩
    cases asks with
    | settings locates reads asks =>
        refine ⟨_, _, locates, breaks_bind_iff.mpr (Or.inr ⟨_, _, reads, ?_⟩)⟩
        exact breaks_bind_iff.mpr (Or.inl (breaks_resolveSettings_iff.mpr ⟨_, _, asks, hn⟩))
    | command locates reads settles asks =>
        refine ⟨_, _, locates, breaks_bind_iff.mpr (Or.inr ⟨_, _, reads, ?_⟩)⟩
        refine breaks_bind_iff.mpr (Or.inr ⟨_, _, settles, ?_⟩)
        exact breaks_bind_iff.mpr (Or.inl (breaks_resolveCommand_iff.mpr ⟨_, _, asks, hn⟩))
    | events locates reads settles commands asks =>
        refine ⟨_, _, locates, breaks_bind_iff.mpr (Or.inr ⟨_, _, reads, ?_⟩)⟩
        refine breaks_bind_iff.mpr (Or.inr ⟨_, _, settles, ?_⟩)
        refine breaks_bind_iff.mpr (Or.inr ⟨_, _, commands, ?_⟩)
        exact breaks_bind_iff.mpr (Or.inl (breaks_resolveEvents_iff.mpr ⟨_, _, asks, hn⟩))

end PluginContract.Contract
