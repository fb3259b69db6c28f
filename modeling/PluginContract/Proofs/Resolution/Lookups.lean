import PluginContract.Proofs.Resolution.Contractual
import PluginContract.Resolution.Reference

/-!
# Lookups that lead nowhere

A specifier fails outside the contract errors in three ways: a relative one holds the null
character, a path that is tried before a file is found is too long, or the specifier leads to a path
without a name, such as the top of the file system, to which no extension can be added. A reference
looks up one specifier at most, that of the import of its first name.
-/

namespace PluginContract.Resolution

open Text Files Script Source

/-- Whether one of the paths that are tried is too long, and none before it leads to a file. -/
inductive MeetsRefusal (tree : Tree) : List Path → Prop
  | here {path : Path} {rest : List Path} (refused : tree.refusal? path = some .tooLong) :
      MeetsRefusal tree (path :: rest)
  | later {path : Path} {rest : List Path} (passed : tree.checkFile path = .ok false)
      (meets : MeetsRefusal tree rest) : MeetsRefusal tree (path :: rest)

/-- Whether the search for the file of a path breaks off: a path that is tried is too long, or no
file is found at first and there is no name to which an extension can be added. -/
def BreaksOff (tree : Tree) (path : Path) : Prop :=
  MeetsRefusal tree (directPaths path) ∨
    (∀ q ∈ directPaths path, tree.checkFile q = .ok false) ∧
      (path.name = "" ∨ MeetsRefusal tree (extendedPaths tree path))

section Probing

variable {tree : Tree} {path found : Path} {paths : List Path}

theorem checkFile_eq_error_iff {fault : PathFault} :
    tree.checkFile path = .error fault ↔ fault = .tooLong ∧ tree.refusal? path = some .tooLong := by
  rw [Tree.checkFile]
  rcases tree.refusal? path with _ | _ | _ <;> simp [eq_comm]

theorem checkFile_eq_true_iff :
    tree.checkFile path = .ok true ↔ tree.refusal? path = none ∧ tree.isFile path = true := by
  rw [Tree.checkFile]
  rcases tree.refusal? path with _ | _ | _ <;> simp

theorem firstFile?_eq_ok_none_iff :
    firstFile? tree paths = .ok none ↔ ∀ q ∈ paths, tree.checkFile q = .ok false := by
  induction paths with
  | nil => exact iff_of_true rfl (by simp)
  | cons path rest ih =>
      rw [List.forall_mem_cons, ← ih, firstFile?]
      rcases tree.checkFile path with fault | _ | _ <;> simp

theorem checkFile_of_firstFile? (h : firstFile? tree paths = .ok (some found)) :
    found ∈ paths ∧ tree.checkFile found = .ok true := by
  induction paths with
  | nil => cases h
  | cons path rest ih =>
      rw [firstFile?] at h
      split at h
      · cases h
      · rename_i hcheck
        obtain rfl := Option.some.inj (Except.ok.inj h)
        exact ⟨List.mem_cons_self, hcheck⟩
      · obtain ⟨hmem, hcheck⟩ := ih h
        exact ⟨List.mem_cons_of_mem _ hmem, hcheck⟩

theorem meetsRefusal_cons_iff :
    MeetsRefusal tree (path :: paths) ↔
      tree.refusal? path = some .tooLong ∨
        tree.checkFile path = .ok false ∧ MeetsRefusal tree paths := by
  constructor
  · rintro (refused | ⟨passed, meets⟩)
    · exact Or.inl refused
    · exact Or.inr ⟨passed, meets⟩
  · rintro (refused | ⟨passed, meets⟩)
    · exact .here refused
    · exact .later passed meets

theorem not_isContract_of_firstFile? {failure : Failure}
    (h : firstFile? tree paths = .error failure) : failure.isContract = false := by
  induction paths with
  | nil => cases h
  | cons path rest ih =>
      rw [firstFile?] at h
      split at h
      · obtain rfl := Except.error.inj h
        rfl
      · cases h
      · exact ih h

theorem not_isContract_of_probe? {failure : Failure} (h : probe? tree path = .error failure) :
    failure.isContract = false := by
  rw [probe?] at h
  split at h
  · rename_i hfirst
    obtain rfl := Except.error.inj h
    exact not_isContract_of_firstFile? hfirst
  · cases h
  · split at h
    · obtain rfl := Except.error.inj h
      rfl
    · exact not_isContract_of_firstFile? h

/-- A search fails just at a path that is too long, which is no fault of the plugin. -/
theorem not_contractual_firstFile?_iff :
    ¬ Contractual (firstFile? tree paths) ↔ MeetsRefusal tree paths := by
  induction paths with
  | nil => exact iff_of_false (fun h => h trivial) nofun
  | cons path rest ih =>
      rw [meetsRefusal_cons_iff, ← ih, firstFile?]
      cases hcheck : tree.checkFile path with
      | error fault => simp [Failure.isContract, (checkFile_eq_error_iff.mp hcheck).2]
      | ok isFile =>
          have hfollowed : tree.refusal? path ≠ some .tooLong := by
            intro hlong
            rw [checkFile_eq_error_iff.mpr ⟨rfl, hlong⟩] at hcheck
            cases hcheck
          cases isFile <;> simp [hfollowed]

/-- The search for the file of a path breaks off just if it fails outside the contract errors. -/
theorem not_contractual_probe?_iff : ¬ Contractual (probe? tree path) ↔ BreaksOff tree path := by
  rw [probe?, BreaksOff, ← not_contractual_firstFile?_iff, ← not_contractual_firstFile?_iff,
    ← firstFile?_eq_ok_none_iff]
  rcases firstFile? tree (directPaths path) with failure | _ | found
  · simp
  · by_cases hname : path.name = ""
    · simp [hname, Failure.isContract]
    · simp [hname]
  · simp

end Probing

namespace Project

/-- Whether a specifier in a file leads to no file and to no answer either. -/
def LeadsNowhere (project : Project) (tree : Tree) (importer : Path) (specifier : String) : Prop :=
  specifier.toList.head? = some '.' ∧
      (importer.parent.join (Path.ofString specifier)).holdsNull = true ∨
    ∃ path, project.pathOf? tree importer specifier = .ok (some path) ∧ BreaksOff tree path

variable {project : Project} {tree : Tree} {importer path : Path} {specifier : String}

theorem pathOf?_of_relative (h : specifier.toList.head? = some '.') :
    project.pathOf? tree importer specifier =
      if (importer.parent.join (Path.ofString specifier)).holdsNull then
        .error (.refusedPath .null)
      else .ok (some ((importer.parent.join (Path.ofString specifier)).resolve tree.home)) := by
  obtain ⟨rest, hrest⟩ := List.head?_eq_some_iff.mp h
  rw [pathOf?.eq_def, hrest]
  rfl

theorem exists_pathOf?_of_not_relative (project : Project) (tree : Tree) (importer : Path)
    (h : specifier.toList.head? ≠ some '.') :
    ∃ asked, project.pathOf? tree importer specifier = .ok asked := by
  rw [pathOf?.eq_def]
  split
  · exact ⟨_, rfl⟩
  · rename_i hpoint
    rw [hpoint] at h
    exact absurd rfl h
  · split
    · exact ⟨_, rfl⟩
    · exact ⟨_, rfl⟩

theorem not_contractual_pathOf?_iff :
    ¬ Contractual (project.pathOf? tree importer specifier) ↔
      specifier.toList.head? = some '.' ∧
        (importer.parent.join (Path.ofString specifier)).holdsNull = true := by
  by_cases h : specifier.toList.head? = some '.'
  · rw [pathOf?_of_relative h]
    split <;> simp_all [Failure.isContract]
  · obtain ⟨asked, hasked⟩ := exists_pathOf?_of_not_relative project tree importer h
    simp [hasked, h]

theorem not_isContract_of_find? {failure : Failure}
    (h : project.find? tree importer specifier = .error failure) : failure.isContract = false := by
  rw [find?] at h
  split at h
  · rename_i hasked
    obtain rfl := Except.error.inj h
    by_cases hpoint : specifier.toList.head? = some '.'
    · rw [pathOf?_of_relative hpoint] at hasked
      split at hasked <;> cases hasked
      rfl
    · obtain ⟨asked, hok⟩ := exists_pathOf?_of_not_relative project tree importer hpoint
      cases hok.symm.trans hasked
  · cases h
  · exact not_isContract_of_probe? h

/-- A lookup fails outside the contract errors if and only if it leads nowhere. -/
theorem not_contractual_find?_iff :
    ¬ Contractual (project.find? tree importer specifier) ↔
      project.LeadsNowhere tree importer specifier := by
  rw [find?, LeadsNowhere, ← not_contractual_pathOf?_iff]
  rcases project.pathOf? tree importer specifier with failure | _ | path
  · simp
  · simp
  · simp [not_contractual_probe?_iff]

-- Neither the top of the file system nor a name with the null character leads anywhere.
example : ∀ specifier ∈ ["/", "./\x00"],
    ¬ Contractual (find? ⟨⟨.top, []⟩, []⟩ { home := [], nodes := [] } ⟨.top, ["a.ts"]⟩ specifier) := by
  decide +kernel

theorem not_contractual_require_iff :
    ¬ Contractual (project.require tree importer specifier) ↔
      project.LeadsNowhere tree importer specifier := by
  rw [← not_contractual_find?_iff, require]
  cases project.find? tree importer specifier with
  | error failure => rfl
  | ok found =>
      cases found with
      | some path => exact Iff.rfl
      | none => exact not_congr (iff_of_true rfl trivial)

end Project

/-- The specifier by which an expression in a module refers to another module, if it does. -/
def referredSpecifier? (expression : List Char) (m : Module) : Option String :=
  match member? (stripAssertions expression) with
  | some (space, _) => m.imports.namespaces.get? (String.ofList space)
  | none =>
      if isName (stripAssertions expression) then
        match m.imports.named.get? (String.ofList (stripAssertions expression)) with
        | some imported => some imported.source
        | none => m.imports.defaults.get? (String.ofList (stripAssertions expression))
      else none

theorem contractual_map_iff {α β : Type} {f : α → β} {e : Except Failure α} :
    Contractual (e.map f) ↔ Contractual e := by
  cases e <;> exact Iff.rfl

namespace Project

/-- A reference fails outside the contract errors if and only if the specifier by which it refers
to another module leads nowhere. -/
theorem not_contractual_reference_iff {project : Project} {tree : Tree} {expression : List Char}
    {m : Module} :
    ¬ Contractual (project.reference tree expression m) ↔
      ∃ specifier, referredSpecifier? expression m = some specifier ∧
        project.LeadsNowhere tree m.path specifier := by
  rw [reference, referredSpecifier?]
  dsimp only
  cases member? (stripAssertions expression) with
  | some names =>
      dsimp only
      cases m.imports.namespaces.get? (String.ofList names.1) with
      | some specifier => simp [contractual_map_iff, not_contractual_require_iff]
      | none => simp [Failure.isContract]
  | none =>
      dsimp only
      cases isName (stripAssertions expression) with
      | false => simp [Failure.isContract]
      | true =>
          cases m.imports.named.get? (String.ofList (stripAssertions expression)) with
          | some imported => simp [contractual_map_iff, not_contractual_require_iff]
          | none =>
              cases m.imports.defaults.get? (String.ofList (stripAssertions expression)) with
              | some specifier => simp [contractual_map_iff, not_contractual_require_iff]
              | none =>
                  -- What is left is a whole namespace, or a name of the module itself.
                  cases m.imports.namespaces.has (String.ofList (stripAssertions expression)) <;>
                    simp [Failure.isContract]

end Project

end PluginContract.Resolution
