import PluginContract.Proofs.Contract.PlanLookups
import PluginContract.Proofs.Contract.ReferenceValues
import PluginContract.Proofs.Contract.Stages
import PluginContract.Proofs.Entries
import PluginContract.Proofs.Entrypoint.Selection
import PluginContract.Proofs.Resolution.PlainPaths
import PluginContract.Proofs.Resolution.Walks

/-!
# One path for each file

Modules are read from plain paths, so a module that is loaded has a plain path unless a lookup of
its own led to it and asked for a path with a way up in it. As long as all lookups are straight,
the paths that they find, the references to one file and the requests to the loader each know a
file by one path only. A path that an alias makes of a specifier can have a way up in it.
-/

namespace PluginContract.Contract

open Text Files Script Source Resolution Entrypoint

/-- Whether a module is what a tree holds at a path. -/
def ReadFrom (tree : Tree) (m : Module) : Prop :=
  ∃ path : Path, readModule tree (path.resolve tree.home) = .ok m

/-- The specifiers by which the references of a plan lead to other modules. -/
inductive PlanRefers (project : Project) (tree : Tree) : Path → String → Prop
  | settings {c : Callsite} {m : Module} {c₁ c₂ : Cache} {importer : Path} {specifier : String}
      (locates : outcome (locateEntrypoint project tree) .empty = (.ok c, c₁))
      (reads : outcome (getModule tree c.file) c₁ = (.ok m, c₂))
      (asks : SettingsAsks tree c c₂ importer specifier) :
      PlanRefers project tree importer specifier
  | command {c : Callsite} {m : Module} {settings : Reference} {found : AliasDeclaration}
      {value : List Char} {c₁ c₂ c₃ c₄ : Cache} {specifier : String}
      (locates : outcome (locateEntrypoint project tree) .empty = (.ok c, c₁))
      (reads : outcome (getModule tree c.file) c₁ = (.ok m, c₂))
      (settles : outcome (resolveSettings project tree c) c₂ = (.ok settings, c₃))
      (finds : outcome (project.findAlias tree
        (String.ofList (stripParens (c.commandType?.getD []))) m []) c₃ = (.ok found, c₄))
      (static : schemaValue? found.body = some value)
      (refers : referredSpecifier? value found.module = some specifier) :
      PlanRefers project tree found.module.path specifier

/-- Whether every file is known by one path, as far as it is found by some lookups. -/
structure OneIdentity (project : Project) (tree : Tree) (considered : Path → String → Prop) :
    Prop where
  /-- A path that is found leads to a file and stays as it is when it is resolved. -/
  normal : ∀ importer specifier found, considered importer specifier →
    project.find? tree importer specifier = .ok (some found) →
    tree.isFile found = true ∧ found.resolve tree.home = found
  /-- Lookups that find one file find one path. -/
  same : ∀ importer specifier found importer' specifier' found',
    considered importer specifier → considered importer' specifier' →
    project.find? tree importer specifier = .ok (some found) →
    project.find? tree importer' specifier' = .ok (some found') →
    tree.place? found = tree.place? found' → found = found'
  /-- References in modules of the tree to one export of one file are equal if they are written
  alike. -/
  references : ∀ e m r e' m' r', ReadFrom tree m → ReadFrom tree m' →
    (∀ specifier, referredSpecifier? e m = some specifier → considered m.path specifier) →
    (∀ specifier, referredSpecifier? e' m' = some specifier → considered m'.path specifier) →
    project.reference tree e m = .ok r → project.reference tree e' m' = .ok r' →
    tree.place? r.module = tree.place? r'.module → r.exported = r'.exported →
    r.source = r'.source → r = r'
  /-- An extraction asks its loader for files only, and for no file twice. -/
  loads : ∀ root, Project.ofRoot tree root = .ok project →
    (∀ importer specifier, PlanRefers project tree importer specifier →
      considered importer specifier) →
    ∀ (exclusions : Exclusions) {μ : Type → Type} [Monad μ] [LawfulMonad μ] (loader : Loader μ),
      SatisfiesM
        (fun run => (∀ call ∈ run.2, tree.isFile call.1 = true) ∧
          (run.2.map fun call => tree.place? call.1).Nodup)
        ((extract tree root exclusions.names loader.recorded).run [])

section Reading

variable {project : Project} {tree : Tree} {cache : Cache} {m last : Module} {path : Path}
  {name final : String} {links : List Link}

/-- A module of a tree has a plain path. -/
theorem ReadFrom.plainFile (h : ReadFrom tree m) : tree.PlainFile m.path := by
  obtain ⟨path, h⟩ := h
  rw [readModule] at h
  split at h
  · rename_i text hread
    obtain rfl := Except.ok.inj h
    exact ⟨Path.isPlain_resolve _ _, Tree.isFile_of_readText hread⟩
  · cases h

variable (sees : cache.source tree = Cache.empty.source tree)
include sees

theorem readFrom_of_source (h : cache.source tree path = .ok m) : ReadFrom tree m :=
  ⟨path, by rw [sees] at h; exact h⟩

theorem readFrom_of_getModule {after : Cache}
    (h : outcome (getModule tree path) cache = (.ok m, after)) : ReadFrom tree m := by
  have hresult : result (getModule tree path) cache = .ok m := by rw [result, h]
  rw [result_getModule] at hresult
  exact readFrom_of_source sees hresult

/-- A walk through modules of a tree ends in one. -/
theorem readFrom_of_walk (h : Project.Walk project tree cache m name links last final)
    (hm : ReadFrom tree m) : ReadFrom tree last := by
  induction h with
  | here => exact hm
  | step edge rest ih =>
      refine ih ?_
      cases edge with
      | imported entry leads =>
          obtain ⟨path, -, hsource⟩ := leads
          exact readFrom_of_source sees hsource
      | reexported entry leads =>
          obtain ⟨path, -, hsource⟩ := leads
          exact readFrom_of_source sees hsource
      | renamed entry differs => exact hm
      | star entry leads =>
          obtain ⟨path, -, hsource⟩ := leads
          exact readFrom_of_source sees hsource

theorem readFrom_of_findAlias {found : AliasDeclaration} {seen : List Link} {after : Cache}
    (hm : ReadFrom tree m)
    (h : outcome (project.findAlias tree name m seen) cache = (.ok found, after)) :
    ReadFrom tree found.module := by
  have hresult : result (project.findAlias tree name m seen) cache = .ok found := by
    rw [result, h]
  obtain ⟨walk, hwalk, -⟩ := Project.exists_walk_of_found hresult
  exact readFrom_of_walk sees hwalk hm

end Reading

section References

variable {project : Project} {tree : Tree} {m : Module} {e : List Char} {r : Reference}

theorem plainFile_reference (hm : ReadFrom tree m)
    (straight : ∀ specifier, referredSpecifier? e m = some specifier →
      project.Straight tree m.path specifier)
    (h : project.reference tree e m = .ok r) : tree.PlainFile r.module := by
  rcases Project.reference_cases h with hmodule | ⟨specifier, hrefers, hfind⟩
  · rw [hmodule]
    exact hm.plainFile
  · exact (straight specifier hrefers).plainFile hfind

end References

section Planning

variable {project : Project} {tree : Tree} {root : Path} {cache after : Cache} {c : Callsite}
  {r : Reference} {plan : Plan}

theorem steady_optionsObject (tree : Tree) (c : Callsite) : Steady tree (optionsObject tree c) := by
  refine .bind (steady_locationOf c) fun location => ?_
  cases c.options? with
  | none => exact .reject _
  | some expression =>
      dsimp only
      cases ObjectLiteral.read? expression with
      | none => exact .reject _
      | some literal =>
          dsimp only
          split
          · exact .pure literal
          · exact .reject _

theorem steady_locateEntrypoint (project : Project) (tree : Tree) :
    Steady tree (locateEntrypoint project tree) := by
  rw [locateEntrypoint, locate_eq]
  exact steady_chooseOr (steady_chooseOr (steady_missing tree _) _ _) _ _

theorem steady_reference {α : Type} (settle : Reference → α) (e : List Char) (m : Module) :
    Steady tree (match project.reference tree e m with
      | .ok reference => return settle reference
      | .error failure => throw failure) := by
  cases project.reference tree e m with
  | ok reference => exact .pure _
  | error failure => exact ⟨fun _ => rfl, fun _ _ _ => rfl⟩

theorem steady_resolveSettings (project : Project) (tree : Tree) (c : Callsite) :
    Steady tree (resolveSettings project tree c) :=
  .bind (steady_optionsObject tree c) fun _ =>
    .bind (.getModule c.file) fun m => steady_reference id _ m

theorem eq_of_outcome_reference {α : Type} (settle : Reference → α) {a : α} {e : List Char}
    {m : Module}
    (h : outcome (match project.reference tree e m with
      | .ok reference => return settle reference
      | .error failure => throw failure) cache = (.ok a, after)) :
    ∃ r, project.reference tree e m = .ok r ∧ settle r = a := by
  cases hreference : project.reference tree e m with
  | error failure =>
      rw [hreference] at h
      cases h
  | ok reference =>
      rw [hreference] at h
      cases h
      exact ⟨reference, rfl, rfl⟩

/-- The reference to the settings schema leads to a plain path if the lookup for it is straight. -/
theorem plainFile_settings (sees : cache.source tree = Cache.empty.source tree)
    (straight : ∀ importer specifier, SettingsAsks tree c cache importer specifier →
      project.Straight tree importer specifier)
    (h : outcome (resolveSettings project tree c) cache = (.ok r, after)) :
    tree.PlainFile r.module := by
  rw [resolveSettings] at h
  obtain ⟨literal, middle, spells, h⟩ := outcome_bind_eq_ok_iff.mp h
  obtain ⟨m, last, reads, h⟩ := outcome_bind_eq_ok_iff.mp h
  obtain ⟨reference, hreference, rfl⟩ := eq_of_outcome_reference id h
  have hsees : middle.source tree = Cache.empty.source tree := by
    have hkeeps := (steady_optionsObject tree c).keeps cache
    rw [spells] at hkeeps
    exact hkeeps.trans sees
  exact plainFile_reference (readFrom_of_getModule hsees reads)
    (fun specifier refers => straight _ _ (.intro spells reads refers)) hreference

theorem exists_of_resolveCommand {e : List Char} {m : Module}
    (h : outcome (resolveCommand project tree e m) cache = (.ok (some r), after)) :
    ∃ found middle value,
      outcome (project.findAlias tree (String.ofList (stripParens e)) m []) cache =
        (.ok found, middle) ∧
      schemaValue? found.body = some value ∧ project.reference tree value found.module = .ok r := by
  rw [resolveCommand] at h
  split at h
  · cases h
  split at h
  · cases h
  obtain ⟨found, middle, finds, h⟩ := outcome_bind_eq_ok_iff.mp h
  split at h
  · cases h
  · rename_i value static
    obtain ⟨reference, hreference, hr⟩ := eq_of_outcome_reference some h
    obtain rfl := Option.some.inj hr
    exact ⟨found, middle, value, finds, static, hreference⟩

/-- What a plan wants to be loaded has plain paths, if its references are found by straight
lookups. -/
theorem plainFile_of_settles (configures : Project.ofRoot tree root = .ok project)
    (straight : ∀ importer specifier, PlanRefers project tree importer specifier →
      project.Straight tree importer specifier)
    (h : Settles tree root plan) :
    ∀ r ∈ plan.settings :: plan.command.toList, tree.PlainFile r.module := by
  obtain ⟨configures', locates, reads, settles, third, commands, -, -⟩ := h
  cases configures.symm.trans configures'
  rename_i c m commandType eventsType settings command events c₁ c₂ c₃ c₄ c₅
  -- The cache changes from step to step, but never what a path stands for.
  have hsees₁ : c₁.source tree = Cache.empty.source tree := by
    have hkeeps := (steady_locateEntrypoint project tree).keeps .empty
    rwa [locates] at hkeeps
  have hsees₂ : c₂.source tree = Cache.empty.source tree := by
    have hkeeps := source_getModule tree c.file c₁
    rw [reads] at hkeeps
    exact hkeeps.trans hsees₁
  have hsees₃ : c₃.source tree = Cache.empty.source tree := by
    have hkeeps := (steady_resolveSettings project tree c).keeps c₂
    rw [settles] at hkeeps
    exact hkeeps.trans hsees₂
  refine List.forall_mem_cons.mpr ⟨?_, fun r hr => ?_⟩
  · exact plainFile_settings hsees₂
      (fun importer specifier asks => straight _ _ (.settings locates reads asks)) settles
  · obtain rfl : command = some r := by simpa using hr
    obtain ⟨found, middle, value, finds, static, hreference⟩ := exists_of_resolveCommand commands
    have searched : outcome (project.findAlias tree
        (String.ofList (stripParens (c.commandType?.getD []))) m []) c₃ = (.ok found, middle) := by
      rw [third]
      exact finds
    exact plainFile_reference
      (readFrom_of_findAlias hsees₃ (readFrom_of_getModule hsees₁ reads) finds)
      (fun specifier refers => straight _ _
        (.command locates reads settles searched static refers)) hreference

end Planning

section Wanting

variable {tree : Tree} {references : List Reference}
  (h : ∀ r ∈ references, tree.PlainFile r.module)
include h

theorem plainFile_of_mem {path : Path} (hmem : path ∈ (Wanted.of references).map Prod.fst) :
    tree.PlainFile path := by
  rw [map_fst_of, mem_distinct] at hmem
  obtain ⟨r, hr, rfl⟩ := List.mem_map.mp hmem
  exact h r hr

/-- No file is wanted twice if all references have plain paths. -/
theorem nodup_places_of :
    ((Wanted.of references).map fun call => tree.place? call.1).Nodup := by
  have hplaces := (nodup_map_fst_of references).map_on (f := tree.place?) fun p hp q hq =>
    (plainFile_of_mem h hp).eq_of_place?_eq (plainFile_of_mem h hq)
  rwa [List.map_map] at hplaces

end Wanting

/-- Every file is known by one path, as far as it is found by some lookups, if and only if these
lookups are straight. -/
theorem oneIdentity_iff (project : Project) (tree : Tree) (considered : Path → String → Prop) :
    OneIdentity project tree considered ↔
      ∀ importer specifier, considered importer specifier →
        project.Straight tree importer specifier := by
  constructor
  · intro h importer specifier hconsidered asked found hasked hprobe
    have hfind := Project.find?_eq_ok_some_iff.mpr ⟨asked, hasked, hprobe⟩
    have hplain := Path.resolve_eq_self_iff.mp (h.normal _ _ _ hconsidered hfind).2
    exact (probed_of_probe? hprobe).2.isPlain_iff.mp hplain
  intro straight
  constructor
  case normal =>
    intro importer specifier found hconsidered hfind
    have hfound := (straight _ _ hconsidered).plainFile hfind
    exact ⟨hfound.isFile, Path.resolve_eq_self_iff.mpr hfound.plain⟩
  case same =>
    intro importer specifier found importer' specifier' found' hc hc' hfind hfind'
    exact ((straight _ _ hc).plainFile hfind).eq_of_place?_eq ((straight _ _ hc').plainFile hfind')
  case references =>
    intro e m r e' m' r' hm hm' hc hc' hr hr' hplace hexported hsource
    have hfile := plainFile_reference hm (fun _ refers => straight _ _ (hc _ refers)) hr
    have hfile' := plainFile_reference hm' (fun _ refers => straight _ _ (hc' _ refers)) hr'
    have hmodule := hfile.eq_of_place?_eq hfile' hplace
    obtain ⟨module, exported, source⟩ := r
    obtain ⟨module', exported', source'⟩ := r'
    rw [Reference.mk.injEq]
    exact ⟨hmodule, hexported, hsource⟩
  case loads =>
    intro root configures hc exclusions μ _ _ loader
    refine (satisfiesM_extract_recorded loader).imp fun hrun => ?_
    rcases hrun with ⟨hnone, -⟩ | ⟨plan, settled, -, hinitial, -⟩
    · rw [hnone]
      exact ⟨nofun, List.nodup_nil⟩
    have hfiles := plainFile_of_settles configures
      (fun importer specifier refers => straight _ _ (hc _ _ refers)) settled
    refine ⟨fun call hcall => ?_, (nodup_places_of hfiles).sublist (hinitial.map _).sublist⟩
    exact (plainFile_of_mem hfiles (List.mem_map_of_mem (hinitial.subset hcall))).isFile

/-- A path that an alias makes of a specifier can have a way up in it, and it is found as it is
written. -/
theorem not_oneIdentity_aliasedUp :
    ¬ OneIdentity ⟨⟨.top, ["p"]⟩, [("@", "src")]⟩
      ⟨["p"], [(["p"], .directory), (["p", "src"], .directory), (["p", "src", "a.ts"], .file []),
        (["p", "b.ts"], .file [])], .usual⟩
      fun _ _ => True := by
  intro h
  have hnormal := h.normal ⟨.top, ["p", "src", "a.ts"]⟩ "@/../b"
    ⟨.top, ["p", "src", "..", "b.ts"]⟩ trivial (by decide +kernel)
  exact absurd hnormal.2 (by decide)

end PluginContract.Contract
