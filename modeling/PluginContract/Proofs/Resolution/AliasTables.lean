import PluginContract.Resolution.Project

/-!
# Alias tables that can be read

A project can be made from its root directory if its configuration file is text without an integer
of too many digits, gives its compiler options as an object, and gives every alias targets of a form
that a first target can be taken from. A configuration file that is missing or holds no JSON is no
obstacle. Anything else fails outside the contract errors, and so does a root whose path the system
does not follow.
-/

namespace PluginContract.Resolution

open Text Files

/-- The targets that an alias can have. -/
inductive Targets : Json → Prop
  | absent {v : Json} (h : v.isGiven = false) : Targets v
  | list (target : String) (rest : List Json) : Targets (.arr (.str target :: rest))
  | text (target : String) : Targets (.str target)

theorem firstTarget?_of_not_isGiven {v : Json} (h : v.isGiven = false) :
    firstTarget? v = .ok none :=
  if_pos (by rw [h]; decide)

theorem firstTarget?_of_targets {v : Json} (h : Targets v) :
    ∃ found, firstTarget? v = .ok found := by
  cases h with
  | absent h => exact ⟨none, firstTarget?_of_not_isGiven h⟩
  | list target rest => exact ⟨some target, rfl⟩
  | text target =>
      cases hg : (Json.str target).isGiven with
      | false => exact ⟨none, firstTarget?_of_not_isGiven hg⟩
      | true => exact ⟨_, if_neg (by rw [hg]; decide)⟩

theorem targets_of_firstTarget? {v : Json} {found : Option String}
    (h : firstTarget? v = .ok found) : Targets v := by
  cases hg : v.isGiven with
  | false => exact .absent hg
  | true =>
      replace h := (if_neg (by rw [hg]; decide)).symm.trans h
      cases v with
      | str target => exact .text target
      | arr items =>
          cases items with
          | nil => cases h
          | cons item rest =>
              cases item with
              | str target => exact .list target rest
              | _ => cases h
      | _ => cases h

/-- The aliases with the one of an entry, if it has a target. -/
def addAlias (aliases : Entries String) (entry : String × Json) :
    Except AliasFault (Entries String) :=
  (firstTarget? entry.2).map fun found =>
    found.elim aliases fun target => aliases.put (dropWildcard entry.1) (dropWildcard target)

theorem readAliases_eq_foldlM (table : Entries Json) :
    readAliases table = table.foldlM addAlias [] := by
  rw [readAliases]
  congr
  funext aliases entry
  rw [addAlias]
  rcases firstTarget? entry.2 with fault | _ | target
  · rfl
  · rfl
  · rfl

/-- The aliases gathered before play no part in whether the rest of a table can be read. -/
theorem foldlM_addAlias_eq_ok_iff (table : Entries Json) (gathered : Entries String) :
    (∃ aliases, table.foldlM addAlias gathered = .ok aliases) ↔
      ∀ entry ∈ table, Targets entry.2 := by
  induction table generalizing gathered with
  | nil => exact iff_of_true ⟨gathered, rfl⟩ (by simp)
  | cons entry rest ih =>
      rw [List.forall_mem_cons, List.foldlM_cons, addAlias]
      cases hfirst : firstTarget? entry.2 with
      | error fault =>
          refine iff_of_false ?_ ?_
          · rintro ⟨aliases, ⟨⟩⟩
          · rintro ⟨hentry, -⟩
            obtain ⟨found, hfound⟩ := firstTarget?_of_targets hentry
            rw [hfound] at hfirst
            cases hfirst
      | ok found =>
          rw [iff_true_intro (targets_of_firstTarget? hfirst), true_and]
          exact ih _

/-- An alias table can be read if and only if every alias in it has targets that an alias can
have. -/
theorem readAliases_eq_ok_iff (table : Entries Json) :
    (∃ aliases, readAliases table = .ok aliases) ↔ ∀ entry ∈ table, Targets entry.2 := by
  rw [readAliases_eq_foldlM]
  exact foldlM_addAlias_eq_ok_iff table []

/-- The compiler options that a project's configuration file gives, if it gives any. -/
def compilerOptions? (tree : Tree) (root : Path) : Option Json :=
  (((tree.readText (root.child "tsconfig.json")).toOption.bind fun text =>
    (readTolerant? text).toOption).bind Json.fields?).bind
      fun fields => Entries.get? fields "compilerOptions"

/-- Whether the configuration file of a project can be read as far as it is there: the path to it is
not too long, and it holds text, in which the reading of JSON meets no long integer. -/
structure ConfigurationRead (tree : Tree) (root : Path) : Prop where
  followed : tree.readText (root.child "tsconfig.json") ≠ .error (.refused .tooLong)
  decodes : ∀ fault, tree.readText (root.child "tsconfig.json") ≠ .error (.notText fault)
  short : ∀ text digits, tree.readText (root.child "tsconfig.json") = .ok text →
    readTolerant? text ≠ .error (.longInteger digits)

/-- Whether the configuration file of a project can be used, or is not there. -/
structure Configured (tree : Tree) (root : Path) : Prop extends ConfigurationRead tree root where
  options : ∀ v, compilerOptions? tree root = some v → ∃ options, v = .obj options ∧
    ∀ paths, Entries.get? options "paths" = some (.obj paths) → ∀ entry ∈ paths, Targets entry.2

/-- The alias table in compiler options. -/
def optionsTable (v : Json) : Except Failure (Entries Json) :=
  v.fields?.elim (.error (.malformedAliases .optionsNotObject)) fun options =>
    .ok ((Json.field options "paths").fields?.getD [])

theorem aliasTable_eq (v : Json) :
    aliasTable v =
      (v.fields?.bind fun fields => Entries.get? fields "compilerOptions").elim (.ok [])
        optionsTable := by
  cases v with
  | obj fields =>
      rw [aliasTable, Json.fields?, Option.bind_some]
      cases Entries.get? fields "compilerOptions" with
      | none => rfl
      | some w => cases w <;> rfl
  | _ => rfl

theorem forall_mem_paths_iff (options : Entries Json) :
    (∀ entry ∈ (Json.field options "paths").fields?.getD [], Targets entry.2) ↔
      ∀ paths, Entries.get? options "paths" = some (.obj paths) →
        ∀ entry ∈ paths, Targets entry.2 := by
  rw [Json.field]
  cases Entries.get? options "paths" with
  | none => simp [Json.fields?]
  | some v => cases v <;> simp [Json.fields?]

theorem optionsTable_readable_iff (v : Json) :
    (∃ table, optionsTable v = .ok table ∧ ∀ entry ∈ table, Targets entry.2) ↔
      ∃ options, v = .obj options ∧
        ∀ paths, Entries.get? options "paths" = some (.obj paths) →
          ∀ entry ∈ paths, Targets entry.2 := by
  cases v with
  | obj options =>
      rw [optionsTable, Json.fields?, Option.elim_some]
      simp only [Except.ok.injEq, exists_eq_left', Json.obj.injEq, forall_mem_paths_iff]
  | _ => simp [optionsTable, Json.fields?]

section

variable {tree : Tree} {root : Path}

/-- What is not read of a configuration file fails outside the contract errors. -/
theorem exists_failure_of_not_configurationRead (h : ¬ ConfigurationRead tree root) :
    ∃ failure, readAliasTable tree root = .error failure ∧ failure.isContract = false := by
  unfold readAliasTable
  cases hread : tree.readText (root.child "tsconfig.json") with
  | error fault =>
      rcases fault with _ | _ | (_ | _) | fault
      case refused.tooLong => exact ⟨_, rfl, rfl⟩
      case notText => exact ⟨_, rfl, rfl⟩
      all_goals exact absurd ⟨by simp [hread], by simp [hread], by simp [hread]⟩ h
  | ok text =>
      have hlong : ∃ digits, readTolerant? text = .error (.longInteger digits) := by
        apply Classical.byContradiction
        intro hnone
        refine h ⟨by simp [hread], by simp [hread], fun text' digits htext hdigits => ?_⟩
        obtain rfl := Except.ok.inj (hread.symm.trans htext)
        exact hnone ⟨digits, hdigits⟩
      obtain ⟨digits, hdigits⟩ := hlong
      dsimp only
      rw [hdigits]
      exact ⟨_, rfl, rfl⟩

theorem readAliasTable_of_configurationRead (h : ConfigurationRead tree root) :
    readAliasTable tree root = (compilerOptions? tree root).elim (.ok []) optionsTable := by
  rw [readAliasTable, compilerOptions?]
  cases hread : tree.readText (root.child "tsconfig.json") with
  | error fault =>
      rcases fault with _ | _ | (_ | _) | fault
      case refused.tooLong => exact absurd hread h.followed
      case notText => exact absurd hread (h.decodes fault)
      all_goals rfl
  | ok text =>
      rw [Except.toOption, Option.bind_some]
      dsimp only
      cases htolerant : readTolerant? text with
      | ok v => exact aliasTable_eq v
      | error fault =>
          cases fault with
          | malformed => rfl
          | longInteger digits => exact absurd htolerant (h.short text digits hread)

/-- The alias table of a project can be read if and only if its configuration file can be used. -/
theorem readAliasTable_readable_iff :
    (∃ table, readAliasTable tree root = .ok table ∧ ∀ entry ∈ table, Targets entry.2) ↔
      Configured tree root := by
  by_cases hc : ConfigurationRead tree root
  · rw [readAliasTable_of_configurationRead hc]
    cases hv : compilerOptions? tree root with
    | none => exact iff_of_true ⟨[], rfl, by simp⟩ ⟨hc, by simp [hv]⟩
    | some v =>
        rw [Option.elim_some, optionsTable_readable_iff]
        constructor
        · exact fun h => ⟨hc, fun v' hv' => Option.some.inj (hv.symm.trans hv') ▸ h⟩
        · exact fun h => h.options v hv
  · refine iff_of_false ?_ fun h => hc h.toConfigurationRead
    rintro ⟨table, htable, -⟩
    obtain ⟨failure, hfailure, -⟩ := exists_failure_of_not_configurationRead hc
    cases hfailure.symm.trans htable

theorem not_isContract_of_readAliasTable {failure : Failure}
    (h : readAliasTable tree root = .error failure) : failure.isContract = false := by
  by_cases hc : ConfigurationRead tree root
  · rw [readAliasTable_of_configurationRead hc] at h
    cases hv : compilerOptions? tree root with
    | none =>
        rw [hv] at h
        cases h
    | some v =>
        rw [hv, Option.elim_some, optionsTable] at h
        cases hf : v.fields? with
        | none =>
            rw [hf] at h
            cases h
            rfl
        | some options =>
            rw [hf] at h
            cases h
  · obtain ⟨failure', hfailure, hcontract⟩ := exists_failure_of_not_configurationRead hc
    obtain rfl := Except.error.inj (hfailure.symm.trans h)
    exact hcontract

end

namespace Project

variable {tree : Tree} {root : Path}

theorem ofRoot_of_readAliasTable {table : Entries Json} (hnull : root.holdsNull = false)
    (h : readAliasTable tree (root.resolve tree.home) = .ok table) :
    ofRoot tree root =
      match readAliases table with
      | .ok aliases => .ok ⟨root.resolve tree.home, aliases⟩
      | .error fault => .error (.malformedAliases fault) := by
  rw [ofRoot, if_neg (by simp [hnull])]
  dsimp only
  rw [h]
  rfl

theorem ofRoot_of_readAliasTable_error {failure : Failure} (hnull : root.holdsNull = false)
    (h : readAliasTable tree (root.resolve tree.home) = .error failure) :
    ofRoot tree root = .error failure := by
  rw [ofRoot, if_neg (by simp [hnull])]
  dsimp only
  rw [h]
  rfl

/-- A project can be made from a root directory if and only if its path has no null character and
the configuration file there can be used. -/
theorem ofRoot_eq_ok_iff (tree : Tree) (root : Path) :
    (∃ project, ofRoot tree root = .ok project) ↔
      root.holdsNull = false ∧ Configured tree (root.resolve tree.home) := by
  cases hnull : root.holdsNull with
  | true => simp [ofRoot, hnull]
  | false =>
      rw [← readAliasTable_readable_iff, iff_true_intro (Eq.refl false), true_and]
      cases htable : readAliasTable tree (root.resolve tree.home) with
      | error failure => simp [ofRoot_of_readAliasTable_error hnull htable]
      | ok table =>
          simp only [ofRoot_of_readAliasTable hnull htable, Except.ok.injEq, exists_eq_left',
            ← readAliases_eq_ok_iff]
          cases readAliases table with
          | error fault =>
              refine iff_of_false ?_ ?_
              · rintro ⟨project, ⟨⟩⟩
              · rintro ⟨aliases, ⟨⟩⟩
          | ok aliases => exact iff_of_true ⟨_, rfl⟩ ⟨_, rfl⟩

/-- A root that no project can be made from gives no contract error. -/
theorem not_isContract_of_ofRoot {failure : Failure} (h : ofRoot tree root = .error failure) :
    failure.isContract = false := by
  cases hnull : root.holdsNull with
  | true =>
      rw [ofRoot, if_pos hnull] at h
      cases h
      rfl
  | false =>
      cases htable : readAliasTable tree (root.resolve tree.home) with
      | error failure' =>
          rw [ofRoot_of_readAliasTable_error hnull htable] at h
          cases h
          exact not_isContract_of_readAliasTable htable
      | ok table =>
          rw [ofRoot_of_readAliasTable hnull htable] at h
          split at h <;> cases h
          rfl

end Project

end PluginContract.Resolution
