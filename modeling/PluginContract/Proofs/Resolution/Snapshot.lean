import PluginContract.Proofs.Resolution.Contractual

/-!
# The sources that a run sees

In a run a path stands for the module that was read from it before, or else for what the
tree holds there. Steps that read modules do not change what any path stands for, so the
result of a search is settled by the sources alone, and is computed without following the
cache from step to step.
-/

namespace PluginContract.Resolution

open Files Source

/-- The module that the text at an absolute path makes up. -/
def readModule (tree : Tree) (path : Path) : Except Failure Module :=
  match tree.readText path with
  | .ok text => .ok (Module.ofText path text)
  | .error fault => .error (.contract (.unreadableModule path (.unreadable fault)))

/-- The module that a path stands for in a run with this cache. -/
def Cache.source (cache : Cache) (tree : Tree) (path : Path) : Except Failure Module :=
  match cache.find? (path.resolve tree.home) with
  | some m => .ok m
  | none => readModule tree (path.resolve tree.home)

section

variable {α β : Type} {tree : Tree} {path : Path} {cache other : Cache} {m : Module}

theorem Cache.find?_append (m : Module) (path : Path) :
    (Cache.mk (cache.modules ++ [m])).find? path =
      (cache.find? path).or (if m.path = path then some m else none) := by
  rw [Cache.find?, List.find?_append, List.find?_singleton]
  by_cases h : m.path = path <;> simp [h, Cache.find?]

/-- The result of a step. -/
def result (x : Resolving α) (cache : Cache) : Except Failure α := (outcome x cache).1

theorem result_getModule (tree : Tree) (path : Path) (cache : Cache) :
    result (getModule tree path) cache = cache.source tree path := by
  rw [result, outcome_getModule, Cache.source, readModule]
  cases cache.find? (path.resolve tree.home) with
  | some m => rfl
  | none => cases tree.readText (path.resolve tree.home) <;> rfl

/-- Reading a module changes nothing in what paths stand for. -/
theorem source_getModule (tree : Tree) (path : Path) (cache : Cache) :
    (outcome (getModule tree path) cache).2.source tree = cache.source tree := by
  rw [outcome_getModule]
  cases hfind : cache.find? (path.resolve tree.home) with
  | some m => rfl
  | none =>
      cases hread : tree.readText (path.resolve tree.home) with
      | error fault => rfl
      | ok text =>
          funext asked
          dsimp only
          rw [Cache.source, Cache.source, Cache.find?_append]
          by_cases hsame : path.resolve tree.home = asked.resolve tree.home
          · rw [← hsame, hfind, readModule, hread]
            simp [Module.ofText]
          · have hpath : (Module.ofText (path.resolve tree.home) text).path ≠
                asked.resolve tree.home := hsame
            rw [if_neg hpath, Option.or_none]

/-- A step whose result depends on the cache only by what paths stand for, and that leaves this
as it is. -/
structure Steady (tree : Tree) (x : Resolving α) : Prop where
  keeps : ∀ cache, (outcome x cache).2.source tree = cache.source tree
  depends : ∀ cache other, cache.source tree = other.source tree →
    result x cache = result x other

theorem result_liftExcept (e : Except Failure α) (cache : Cache) :
    result (Project.searchAlias.liftExcept e) cache = e := by
  cases e <;> rfl

theorem result_bind {x : Resolving α} {f : α → Resolving β} (hx : Steady tree x)
    (hf : ∀ a, Steady tree (f a)) (cache : Cache) :
    result (x >>= f) cache = (result x cache).bind fun a => result (f a) cache := by
  have hkeeps := hx.keeps cache
  rw [result, outcome_bind, result]
  rcases hout : outcome x cache with ⟨failure | a, middle⟩
  · rfl
  · rw [hout] at hkeeps
    exact (hf a).depends middle cache hkeeps

/-- What becomes of a result if an error of kind `resolution` means that nothing is found. -/
def passing : Except Failure α → Except Failure (Option α)
  | .ok a => .ok (some a)
  | .error (.contract error) =>
      if error.kind = .resolution then .ok none else .error (.contract error)
  | .error failure => .error failure

theorem outcome_orNothing (x : Resolving α) (cache : Cache) :
    outcome (orNothing x) cache = (passing (result x cache), (outcome x cache).2) := by
  rw [orNothing, outcome_tryCatch, map_eq_pure_bind, outcome_bind, result]
  rcases outcome x cache with ⟨failure | a, middle⟩
  · cases failure with
    | contract error =>
        dsimp only
        rw [passing]
        split <;> rfl
    | _ => rfl
  · rfl

theorem result_orNothing (x : Resolving α) (cache : Cache) :
    result (orNothing x) cache = passing (result x cache) :=
  congrArg Prod.fst (outcome_orNothing x cache)

/-- What is not passed over is kept. -/
theorem passing_eq_map {r : Except Failure α} (h : passing r ≠ .ok none) :
    passing r = r.map some := by
  rcases r with failure | a
  · cases failure with
    | contract error =>
        rw [passing] at h ⊢
        split at h
        · exact absurd rfl h
        · rename_i hkind
          rw [if_neg hkind]
          rfl
    | _ => rfl
  · rfl

theorem source_error {failure : Failure} (h : cache.source tree path = .error failure) :
    ∃ unread cause, failure = .contract (.unreadableModule unread cause) := by
  rw [Cache.source] at h
  split at h
  · cases h
  · rw [readModule] at h
    split at h <;> cases h
    exact ⟨_, _, rfl⟩

namespace Steady

theorem pure (a : α) : Steady tree (pure a) := ⟨fun _ => rfl, fun _ _ _ => rfl⟩

theorem reject (error : ContractError) : Steady tree (reject error : Resolving α) :=
  ⟨fun _ => rfl, fun _ _ _ => rfl⟩

theorem liftExcept (e : Except Failure α) :
    Steady tree (Project.searchAlias.liftExcept e) := by
  cases e <;> exact ⟨fun _ => rfl, fun _ _ _ => rfl⟩

theorem getModule (path : Path) : Steady tree (getModule tree path) := by
  refine ⟨source_getModule tree path, fun cache other h => ?_⟩
  rw [result_getModule, result_getModule, h]

theorem bind {x : Resolving α} {f : α → Resolving β} (hx : Steady tree x)
    (hf : ∀ a, Steady tree (f a)) : Steady tree (x >>= f) := by
  constructor
  · intro cache
    have hkeeps := hx.keeps cache
    rw [outcome_bind]
    rcases hout : outcome x cache with ⟨failure | a, middle⟩
    · rw [hout] at hkeeps
      exact hkeeps
    · rw [hout] at hkeeps
      exact ((hf a).keeps middle).trans hkeeps
  · intro cache other h
    rw [result_bind hx hf, result_bind hx hf, hx.depends cache other h]
    congr
    funext a
    exact (hf a).depends cache other h

theorem orNothing {x : Resolving α} (hx : Steady tree x) : Steady tree (orNothing x) := by
  constructor
  · intro cache
    rw [outcome_orNothing]
    exact hx.keeps cache
  · intro cache other h
    rw [result_orNothing, result_orNothing, hx.depends cache other h]

theorem firstSuccess {search : α → Resolving (Option β)} (h : ∀ a, Steady tree (search a))
    (alternatives : List α) : Steady tree (firstSuccess search alternatives) := by
  induction alternatives with
  | nil => exact pure none
  | cons a rest ih =>
      refine bind (h a) ?_
      rintro (_ | b)
      · exact ih
      · exact pure (some b)

end Steady

theorem result_getModule_bind {f : Module → Resolving β} (hf : ∀ m, Steady tree (f m)) :
    result (getModule tree path >>= f) cache =
      (cache.source tree path).bind fun m => result (f m) cache := by
  rw [result_bind (.getModule path) hf, result_getModule]

section FirstSuccess

variable {search : α → Resolving (Option β)} (h : ∀ a, Steady tree (search a))
include h

theorem result_firstSuccess_cons (a : α) (rest : List α) (cache : Cache) :
    result (firstSuccess search (a :: rest)) cache =
      (result (search a) cache).bind fun found =>
        found.elim (result (firstSuccess search rest) cache) fun b => .ok (some b) := by
  refine (result_bind (h a) ?_ cache).trans (congrArg _ (funext ?_))
  · rintro (_ | b)
    · exact .firstSuccess h rest
    · exact .pure (some b)
  · rintro (_ | b) <;> rfl

/-- Alternatives that find nothing are passed over. -/
theorem result_firstSuccess_append {earlier : List α} (rest : List α)
    (passed : ∀ a ∈ earlier, result (search a) cache = .ok none) :
    result (firstSuccess search (earlier ++ rest)) cache =
      result (firstSuccess search rest) cache := by
  induction earlier with
  | nil => rfl
  | cons a earlier ih =>
      obtain ⟨ha, hrest⟩ := List.forall_mem_cons.mp passed
      rw [List.cons_append, result_firstSuccess_cons h, ha]
      exact ih hrest

/-- The first alternative that is not passed over decides. -/
theorem result_firstSuccess_of_first {earlier later : List α} {a : α}
    (passed : ∀ b ∈ earlier, result (search b) cache = .ok none)
    (ha : result (search a) cache ≠ .ok none) :
    result (firstSuccess search (earlier ++ a :: later)) cache = result (search a) cache := by
  rw [result_firstSuccess_append h _ passed, result_firstSuccess_cons h]
  rcases hr : result (search a) cache with failure | _ | b
  · rfl
  · exact absurd hr ha
  · rfl

theorem result_firstSuccess_of_passed {alternatives : List α}
    (passed : ∀ a ∈ alternatives, result (search a) cache = .ok none) :
    result (firstSuccess search alternatives) cache = .ok none := by
  have := result_firstSuccess_append h [] passed
  rwa [List.append_nil] at this

end FirstSuccess

/-- All alternatives are passed over, or there is a first one that is not. -/
theorem passed_or_first (search : α → Resolving (Option β)) (cache : Cache)
    (alternatives : List α) :
    (∀ a ∈ alternatives, result (search a) cache = .ok none) ∨
      ∃ earlier a later, alternatives = earlier ++ a :: later ∧
        (∀ b ∈ earlier, result (search b) cache = .ok none) ∧
        result (search a) cache ≠ .ok none := by
  induction alternatives with
  | nil => exact Or.inl (by simp)
  | cons a rest ih =>
      by_cases ha : result (search a) cache = .ok none
      · rcases ih with hall | ⟨earlier, b, later, rfl, hpassed, hb⟩
        · exact Or.inl (List.forall_mem_cons.mpr ⟨ha, hall⟩)
        · exact Or.inr ⟨a :: earlier, b, later, rfl, List.forall_mem_cons.mpr ⟨ha, hpassed⟩, hb⟩
      · exact Or.inr ⟨[], a, rest, rfl, by simp, ha⟩

end

namespace Project

variable {project : Project} {tree : Tree} {limit steps : Nat} {name other specifier : String}
  {m target : Module} {seen : List Link} {cache : Cache}

theorem steady_searchThrough
    (h : ∀ name m, Steady tree (project.searchAlias tree limit steps name m seen)) :
    Steady tree (project.searchThrough tree limit steps m seen specifier other) := by
  refine .bind (.liftExcept _) fun path => ?_
  exact .bind (.getModule path) fun target => h other target

theorem steady_searchStar
    (h : ∀ name m, Steady tree (project.searchAlias tree limit steps name m seen))
    (specifier : String) :
    Steady tree (project.searchStar tree limit steps name m seen specifier) := by
  refine .bind (.liftExcept _) ?_
  rintro (_ | path)
  · exact .pure none
  · exact .orNothing (.bind (.getModule path) fun target => h name target)

theorem steady_searchStars
    (h : ∀ name m, Steady tree (project.searchAlias tree limit steps name m seen)) :
    Steady tree (project.searchStars tree limit steps name m seen) := by
  refine .bind (.firstSuccess (steady_searchStar h) _) ?_
  rintro (_ | found)
  · exact .reject _
  · exact .pure found

/-- The result of a search is settled by the sources that the run sees. -/
theorem steady_searchAlias (name : String) (m : Module) (seen : List Link) :
    Steady tree (project.searchAlias tree limit steps name m seen) := by
  induction steps generalizing name m seen with
  | zero =>
      rw [searchAlias_zero]
      split <;> exact .reject _
  | succ steps ih =>
      by_cases hmem : (m.path, name) ∈ seen
      · rw [searchAlias_of_mem hmem]
        exact .reject _
      rw [searchAlias_of_notMem hmem]
      have hnext (other : String) (target : Module) := ih other target (seen ++ [(m.path, name)])
      cases declared m name with
      | here body => exact .pure _
      | elsewhere specifier other => exact steady_searchThrough hnext
      | renamed other => exact hnext other m
      | unnamed => exact steady_searchStars hnext

theorem steady_searchStar_searchAlias (limit steps : Nat) (name : String) (m : Module)
    (seen : List Link) (specifier : String) :
    Steady tree (project.searchStar tree limit steps name m seen specifier) :=
  steady_searchStar (fun name m => steady_searchAlias name m seen) specifier

/-- The module that a specifier in a module leads to, which has to exist. -/
def targetOf (project : Project) (tree : Tree) (cache : Cache) (m : Module) (specifier : String) :
    Except Failure Module :=
  (project.require tree m.path specifier).bind (cache.source tree)

theorem result_searchThrough :
    result (project.searchThrough tree limit steps m seen specifier other) cache =
      (project.targetOf tree cache m specifier).bind fun target =>
        result (project.searchAlias tree limit steps other target seen) cache := by
  have hnext (path : Path) : Steady tree (getModule tree path >>= fun target =>
      project.searchAlias tree limit steps other target seen) :=
    .bind (.getModule path) fun target => steady_searchAlias other target seen
  rw [searchThrough, result_bind (.liftExcept _) hnext, result_liftExcept, targetOf]
  cases project.require tree m.path specifier with
  | error failure => rfl
  | ok path => exact result_getModule_bind fun target => steady_searchAlias other target seen

theorem result_searchStar :
    result (project.searchStar tree limit steps name m seen specifier) cache =
      (project.find? tree m.path specifier).bind fun found =>
        found.elim (.ok none) fun path =>
          passing ((cache.source tree path).bind fun target =>
            result (project.searchAlias tree limit steps name target seen) cache) := by
  rw [searchStar, result, outcome_bind]
  cases project.find? tree m.path specifier with
  | error failure => rfl
  | ok found =>
      cases found with
      | none => rfl
      | some path =>
          refine (result_orNothing _ cache).trans (congrArg passing ?_)
          exact result_getModule_bind fun target => steady_searchAlias name target seen

theorem result_searchStar_of_find? {path : Path}
    (h : project.find? tree m.path specifier = .ok (some path)) :
    result (project.searchStar tree limit steps name m seen specifier) cache =
      passing ((cache.source tree path).bind fun target =>
        result (project.searchAlias tree limit steps name target seen) cache) := by
  rw [result_searchStar, h]
  rfl

theorem result_searchStars :
    result (project.searchStars tree limit steps name m seen) cache =
      (result (firstSuccess (project.searchStar tree limit steps name m seen)
        m.reexports.stars) cache).bind fun found =>
          found.elim (.error (.contract (.aliasNotFound name m.path))) .ok := by
  have hsteady (specifier : String) :
      Steady tree (project.searchStar tree limit steps name m seen specifier) :=
    steady_searchStar_searchAlias limit steps name m seen specifier
  refine (result_bind (.firstSuccess hsteady m.reexports.stars) ?_ cache).trans
    (congrArg _ (funext ?_))
  · rintro (_ | found)
    · exact .reject _
    · exact .pure found
  · rintro (_ | found) <;> rfl

end Project

end PluginContract.Resolution
