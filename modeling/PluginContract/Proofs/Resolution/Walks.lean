import PluginContract.Proofs.Resolution.Lookups
import PluginContract.Proofs.Resolution.Snapshot

/-!
# Walks of a search for a type alias

A search goes from name to name along the imports, re-exports and local renames of the
modules that it meets. What it returns is declared where a walk along these edges ends, and a
cycle that it reports is a walk that comes back to a name met before. Star re-exports that
are passed over leave no trace in either.
-/

namespace PluginContract.Resolution

open Files Source

namespace Project

/-- Whether a specifier in a module leads to a module of the run. -/
def Leads (project : Project) (tree : Tree) (cache : Cache) (m : Module) (specifier : String)
    (target : Module) : Prop :=
  ∃ path, project.find? tree m.path specifier = .ok (some path) ∧
    cache.source tree path = .ok target

/-- The names in modules that a name in a module may stand for. -/
inductive Edge (project : Project) (tree : Tree) (cache : Cache) (m : Module) (name : String) :
    Module → String → Prop
  | imported {specifier other : String} {target : Module}
      (entry : m.imports.named.get? name = some ⟨specifier, other⟩)
      (leads : project.Leads tree cache m specifier target) :
      Edge project tree cache m name target other
  | reexported {specifier other : String} {target : Module}
      (entry : m.reexports.named.get? name = some ⟨specifier, .name other⟩)
      (leads : project.Leads tree cache m specifier target) :
      Edge project tree cache m name target other
  | renamed {other : String} (entry : m.localExports.get? name = some other)
      (differs : other ≠ name) : Edge project tree cache m name m other
  | star {specifier : String} {target : Module} (entry : specifier ∈ m.reexports.stars)
      (leads : project.Leads tree cache m specifier target) :
      Edge project tree cache m name target name

/-- The links of a walk along edges, from a name in a module to another one. -/
inductive Walk (project : Project) (tree : Tree) (cache : Cache) :
    Module → String → List Link → Module → String → Prop
  | here (m : Module) (name : String) : Walk project tree cache m name [(m.path, name)] m name
  | step {m target last : Module} {name other final : String} {links : List Link}
      (edge : Edge project tree cache m name target other)
      (rest : Walk project tree cache target other links last final) :
      Walk project tree cache m name ((m.path, name) :: links) last final

/-- Whether links are met once each and not among those seen before. -/
structure Fresh (seen links : List Link) : Prop where
  nodup : links.Nodup
  unseen : ∀ link ∈ links, link ∉ seen

/-- Whether a walk from a name in a module justifies the declaration that a search returns. -/
structure Justifies (project : Project) (tree : Tree) (cache : Cache) (name : String) (m : Module)
    (seen : List Link) (walk : List Link) (found : AliasDeclaration) : Prop where
  walks : Walk project tree cache m name walk found.module found.name
  starts : walk.head? = some (m.path, name)
  ends : walk.getLast? = some (found.module.path, found.name)
  declares : found.module.typeAliases.get? found.name = some found.body
  trace : found.seen = seen ++ walk
  fresh : Fresh seen walk
  bounded : found.seen.length ≤ stepLimit

/-- Whether a walk from a name in a module comes back to a link met before it, and a search reports
this as a cycle. -/
structure Closes (project : Project) (tree : Tree) (cache : Cache) (name : String) (m : Module)
    (seen : List Link) (walk : List Link) (link : Link) (chain : List Link) : Prop where
  walks : ∃ last final, Walk project tree cache m name (walk ++ [link]) last final
  starts : (walk ++ [link]).head? = some (m.path, name)
  trace : chain = seen ++ (walk ++ [link])
  fresh : Fresh seen walk
  again : link ∈ seen ++ walk

/-- Whether a search answers by what the sources of the run declare. -/
structure FollowsSources (project : Project) (tree : Tree) (cache : Cache) (name : String)
    (m : Module) (seen : List Link) : Prop where
  found : ∀ found after, outcome (project.findAlias tree name m seen) cache = (.ok found, after) →
    ∃ walk, Justifies project tree cache name m seen walk found
  cycle : ∀ chain after, outcome (project.findAlias tree name m seen) cache =
    (.error (.contract (.cycle chain)), after) →
      ∃ walk link, Closes project tree cache name m seen walk link chain

variable {project : Project} {tree : Tree} {cache : Cache} {limit steps : Nat}
  {name other final specifier : String} {m target last : Module} {seen links : List Link}

theorem Walk.head?_eq (h : Walk project tree cache m name links last final) :
    links.head? = some (m.path, name) := by
  cases h <;> rfl

theorem Walk.getLast?_eq (h : Walk project tree cache m name links last final) :
    links.getLast? = some (last.path, final) := by
  induction h with
  | here => rfl
  | step edge rest ih => rw [List.getLast?_cons, ih, Option.getD_some]

theorem Fresh.cons {link : Link} (h : link ∉ seen) (hrest : Fresh (seen ++ [link]) links) :
    Fresh seen (link :: links) := by
  constructor
  · refine List.nodup_cons.mpr ⟨fun hmem => ?_, hrest.nodup⟩
    exact hrest.unseen link hmem (List.mem_append_right _ (List.mem_singleton_self link))
  · rintro other (_ | ⟨_, hmem⟩)
    · exact h
    · exact fun hseen => hrest.unseen other hmem (List.mem_append_left _ hseen)

section Failing

variable {importer path : Path} {failure : Failure}

/-- Whether a failure reports no cycle. -/
def NoCycle (failure : Failure) : Prop := ∀ chain, failure ≠ .contract (.cycle chain)

theorem noCycle_of_find? (h : project.find? tree importer specifier = .error failure) :
    NoCycle failure := by
  rintro chain rfl
  cases not_isContract_of_find? h

theorem noCycle_of_source (h : cache.source tree path = .error failure) : NoCycle failure := by
  obtain ⟨unread, cause, rfl⟩ := source_error h
  rintro chain ⟨⟩

end Failing

theorem targetOf_eq_ok_iff :
    project.targetOf tree cache m specifier = .ok target ↔
      project.Leads tree cache m specifier target := by
  rw [targetOf, require, Leads]
  cases project.find? tree m.path specifier with
  | error failure => simp [bind, Except.bind]
  | ok found => cases found <;> simp [bind, Except.bind, pure, Except.pure]

theorem noCycle_of_targetOf {failure : Failure}
    (h : project.targetOf tree cache m specifier = .error failure) : NoCycle failure := by
  rw [targetOf, require] at h
  cases hfind : project.find? tree m.path specifier with
  | error failure' =>
      rw [hfind] at h
      cases h
      exact noCycle_of_find? hfind
  | ok found =>
      rw [hfind] at h
      cases found with
      | none =>
          cases h
          rintro chain ⟨⟩
      | some path => exact noCycle_of_source h

/-- A star re-export that is not passed over fails on the way to its module, or the search ends as
it does in that module. -/
theorem result_searchStar_cases
    (h : result (project.searchStar tree limit steps name m seen specifier) cache ≠ .ok none) :
    (∃ failure, NoCycle failure ∧
        result (project.searchStar tree limit steps name m seen specifier) cache =
          .error failure) ∨
      ∃ target, project.Leads tree cache m specifier target ∧
        result (project.searchStar tree limit steps name m seen specifier) cache =
          (result (project.searchAlias tree limit steps name target seen) cache).map some := by
  cases hfind : project.find? tree m.path specifier with
  | error failure =>
      rw [result_searchStar, hfind]
      exact Or.inl ⟨failure, noCycle_of_find? hfind, rfl⟩
  | ok found =>
      cases found with
      | none =>
          rw [result_searchStar, hfind] at h
          exact absurd rfl h
      | some path =>
          rw [result_searchStar_of_find? hfind] at h ⊢
          cases hread : cache.source tree path with
          | error failure =>
              -- A module that cannot be read is passed over.
              obtain ⟨unread, cause, rfl⟩ := source_error hread
              rw [hread] at h
              exact absurd rfl h
          | ok target =>
              rw [hread] at h
              exact Or.inr ⟨target, ⟨path, hfind, hread⟩, passing_eq_map h⟩

/-- All star re-exports together end in a failure without a cycle, or as the search in the module
of the first one that is not passed over. -/
theorem result_searchStars_cases (project : Project) (tree : Tree) (cache : Cache)
    (limit steps : Nat) (name : String) (m : Module) (seen : List Link) :
    (∃ failure, NoCycle failure ∧
        result (project.searchStars tree limit steps name m seen) cache = .error failure) ∨
      ∃ earlier specifier later target, m.reexports.stars = earlier ++ specifier :: later ∧
        (∀ s ∈ earlier, result (project.searchStar tree limit steps name m seen s) cache =
          .ok none) ∧
        project.Leads tree cache m specifier target ∧
        result (project.searchStars tree limit steps name m seen) cache =
          result (project.searchAlias tree limit steps name target seen) cache := by
  have hsteady (specifier : String) :
      Steady tree (project.searchStar tree limit steps name m seen specifier) :=
    steady_searchStar_searchAlias limit steps name m seen specifier
  rw [result_searchStars]
  rcases passed_or_first (project.searchStar tree limit steps name m seen) cache
    m.reexports.stars with hpassed | ⟨earlier, specifier, later, hstars, hpassed, hfirst⟩
  · rw [result_firstSuccess_of_passed hsteady hpassed]
    exact Or.inl ⟨_, by rintro chain ⟨⟩, rfl⟩
  · rw [hstars, result_firstSuccess_of_first hsteady hpassed hfirst]
    rcases result_searchStar_cases hfirst with ⟨failure, hcycle, hresult⟩ | ⟨target, hleads, hresult⟩
    · rw [hresult]
      exact Or.inl ⟨failure, hcycle, rfl⟩
    · refine Or.inr ⟨earlier, specifier, later, target, rfl, hpassed, hleads, ?_⟩
      rw [hresult]
      cases result (project.searchAlias tree limit steps name target seen) cache <;> rfl

theorem entry_of_declared_elsewhere (h : declared m name = .elsewhere specifier other) :
    m.imports.named.get? name = some ⟨specifier, other⟩ ∨
      m.reexports.named.get? name = some ⟨specifier, .name other⟩ := by
  rw [declared] at h
  split at h
  · cases h
  · split at h
    · rename_i imported himported
      cases h
      exact Or.inl himported
    · split at h
      · rename_i source given hreexported
        cases h
        exact Or.inr hreexported
      · split at h
        · split at h <;> cases h
        · cases h

theorem entry_of_declared_renamed (h : declared m name = .renamed other) :
    m.localExports.get? name = some other ∧ other ≠ name := by
  rw [declared] at h
  split at h
  · cases h
  · split at h
    · cases h
    · split at h
      · cases h
      · split at h
        · rename_i local' hlocal
          split at h
          · cases h
          · rename_i hne
            cases h
            exact ⟨hlocal, hne⟩
        · cases h

theorem get?_of_declared_here {body : List Char} (h : declared m name = .here body) :
    m.typeAliases.get? name = some body := by
  rw [declared] at h
  split at h
  · rename_i body' hbody
    cases h
    exact hbody
  · repeat' split at h
    all_goals cases h

/-- What one step of a search comes to: the declaration is here, the search goes on along an edge,
or it fails without a cycle. -/
inductive StepEnds (project : Project) (tree : Tree) (cache : Cache) (limit steps : Nat)
    (name : String) (m : Module) (seen : List Link) : Except Failure AliasDeclaration → Prop
  | here {body : List Char} (declares : m.typeAliases.get? name = some body) :
      StepEnds project tree cache limit steps name m seen (.ok ⟨name, m, body, seen⟩)
  | along {target : Module} {other : String} (edge : Edge project tree cache m name target other) :
      StepEnds project tree cache limit steps name m seen
        (result (project.searchAlias tree limit steps other target seen) cache)
  | fails {failure : Failure} (noCycle : NoCycle failure) :
      StepEnds project tree cache limit steps name m seen (.error failure)

theorem stepEnds_searchAlias (h : (m.path, name) ∉ seen) :
    StepEnds project tree cache limit steps name m (seen ++ [(m.path, name)])
      (result (project.searchAlias tree limit (steps + 1) name m seen) cache) := by
  rw [searchAlias_of_notMem h]
  cases hdeclared : declared m name with
  | here body => exact .here (get?_of_declared_here hdeclared)
  | elsewhere specifier other =>
      dsimp only
      rw [result_searchThrough]
      cases htarget : project.targetOf tree cache m specifier with
      | error failure => exact .fails (noCycle_of_targetOf htarget)
      | ok target =>
          have hleads := targetOf_eq_ok_iff.mp htarget
          rcases entry_of_declared_elsewhere hdeclared with hentry | hentry
          · exact .along (.imported hentry hleads)
          · exact .along (.reexported hentry hleads)
  | renamed other =>
      obtain ⟨hentry, hne⟩ := entry_of_declared_renamed hdeclared
      exact .along (.renamed hentry hne)
  | unnamed =>
      dsimp only
      rcases result_searchStars_cases project tree cache limit steps name m
        (seen ++ [(m.path, name)]) with
        ⟨failure, hcycle, hresult⟩ | ⟨earlier, specifier, later, target, hstars, -, hleads, hresult⟩
      · rw [hresult]
        exact .fails hcycle
      · rw [hresult]
        exact .along (.star (by rw [hstars]; simp) hleads)

/-- A declaration that is found stands at the end of a walk. -/
theorem exists_walk_of_found {found : AliasDeclaration}
    (h : result (project.searchAlias tree limit steps name m seen) cache = .ok found) :
    ∃ walk, Walk project tree cache m name walk found.module found.name ∧
      found.module.typeAliases.get? found.name = some found.body ∧
      found.seen = seen ++ walk ∧ Fresh seen walk := by
  induction steps generalizing name m seen with
  | zero =>
      rw [searchAlias_zero] at h
      split at h <;> cases h
  | succ steps ih =>
      by_cases hmem : (m.path, name) ∈ seen
      · rw [searchAlias_of_mem hmem] at h
        cases h
      have hends : StepEnds project tree cache limit steps name m (seen ++ [(m.path, name)])
          (result (project.searchAlias tree limit (steps + 1) name m seen) cache) :=
        stepEnds_searchAlias hmem
      generalize hr : result (project.searchAlias tree limit (steps + 1) name m seen) cache = r
        at h hends
      cases hends with
      | here declares =>
          cases h
          exact ⟨[(m.path, name)], .here m name, declares, rfl, .cons hmem ⟨.nil, by simp⟩⟩
      | along edge =>
          obtain ⟨walk, hwalk, hdeclares, hseen, hfresh⟩ := ih h
          refine ⟨(m.path, name) :: walk, .step edge hwalk, hdeclares, ?_, .cons hmem hfresh⟩
          rw [hseen, List.append_assoc, List.singleton_append]
      | fails noCycle => cases h

theorem closes_of_mem (h : (m.path, name) ∈ seen) :
    Closes project tree cache name m seen [] (m.path, name) (seen ++ [(m.path, name)]) where
  walks := ⟨m, name, .here m name⟩
  starts := rfl
  trace := rfl
  fresh := ⟨.nil, by simp⟩
  again := by rwa [List.append_nil]

theorem Closes.cons {walk : List Link} {link : Link} {chain : List Link}
    (h : (m.path, name) ∉ seen) (edge : Edge project tree cache m name target other)
    (hrest : Closes project tree cache other target (seen ++ [(m.path, name)]) walk link chain) :
    Closes project tree cache name m seen ((m.path, name) :: walk) link chain where
  walks := by
    obtain ⟨last, final, hwalk⟩ := hrest.walks
    exact ⟨last, final, .step edge hwalk⟩
  starts := rfl
  trace := by rw [hrest.trace, List.append_assoc, List.singleton_append, List.cons_append]
  fresh := .cons h hrest.fresh
  again := by
    have hagain := hrest.again
    rwa [List.append_assoc, List.singleton_append] at hagain

/-- A cycle that is reported is a walk that comes back to a link met before. -/
theorem exists_closes_of_cycle {chain : List Link}
    (h : result (project.searchAlias tree limit steps name m seen) cache =
      .error (.contract (.cycle chain))) :
    ∃ walk link, Closes project tree cache name m seen walk link chain := by
  induction steps generalizing name m seen with
  | zero =>
      rw [searchAlias_zero] at h
      split at h
      · rename_i hmem
        cases h
        exact ⟨[], _, closes_of_mem (List.contains_iff_mem.mp hmem)⟩
      · cases h
  | succ steps ih =>
      by_cases hmem : (m.path, name) ∈ seen
      · rw [searchAlias_of_mem hmem] at h
        cases h
        exact ⟨[], _, closes_of_mem hmem⟩
      have hends : StepEnds project tree cache limit steps name m (seen ++ [(m.path, name)])
          (result (project.searchAlias tree limit (steps + 1) name m seen) cache) :=
        stepEnds_searchAlias hmem
      generalize hr : result (project.searchAlias tree limit (steps + 1) name m seen) cache = r
        at h hends
      cases hends with
      | here declares => cases h
      | along edge =>
          obtain ⟨walk, link, hcloses⟩ := ih h
          exact ⟨_, link, hcloses.cons hmem edge⟩
      | fails noCycle =>
          cases h
          exact absurd rfl (noCycle chain)

/-- Whatever a search answers is justified by the sources of the run: a declaration that is found
stands at the end of a walk along edges, and a cycle is a walk that comes back. -/
theorem findAlias_followsSources (project : Project) (tree : Tree) (cache : Cache) (name : String)
    (m : Module) (seen : List Link) : FollowsSources project tree cache name m seen := by
  constructor
  · intro found after h
    obtain ⟨walk, hwalk, hdeclares, htrace, hfresh⟩ :=
      exists_walk_of_found (congrArg Prod.fst h)
    refine ⟨walk, hwalk, hwalk.head?_eq, hwalk.getLast?_eq, hdeclares, htrace, hfresh, ?_⟩
    exact (findAlias_returns name m seen cache found after h).2
  · intro chain after h
    exact exists_closes_of_cycle (congrArg Prod.fst h)

end Project

end PluginContract.Resolution
