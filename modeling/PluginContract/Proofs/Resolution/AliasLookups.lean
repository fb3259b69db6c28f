import PluginContract.Proofs.Resolution.Lookups

/-!
# Lookups of a search for a type alias

The lookups of a search are the specifiers that it follows, each in the module that the
search has reached by then. A star re-export is looked up only if none before it has led to
a declaration. A search breaks if and only if one of its lookups leads nowhere.
-/

namespace PluginContract.Resolution

open Files Source

namespace Project

variable {project : Project} {tree : Tree} {limit steps : Nat} {name : String} {m : Module}
  {seen : List Link} {cache : Cache} {importer : Path} {specifier : String}

/-- The lookups of a search for a type alias with so many steps left: specifiers, each in the
module that the search has reached. The cache is that of the run. -/
inductive Asks (project : Project) (tree : Tree) (limit : Nat) :
    Nat → String → Module → List Link → Cache → Path → String → Prop
  | through {steps : Nat} {name other specifier : String} {m : Module} {seen : List Link}
      {cache : Cache} (fresh : (m.path, name) ∉ seen)
      (declares : declared m name = .elsewhere specifier other) :
      Asks project tree limit (steps + 1) name m seen cache m.path specifier
  | beyond {steps : Nat} {name other specifier asked : String} {m target : Module}
      {seen : List Link} {cache middle : Cache} {path importer : Path}
      (fresh : (m.path, name) ∉ seen)
      (declares : declared m name = .elsewhere specifier other)
      (finds : project.require tree m.path specifier = .ok path)
      (reads : outcome (getModule tree path) cache = (.ok target, middle))
      (rest : Asks project tree limit steps other target (seen ++ [(m.path, name)]) middle
        importer asked) :
      Asks project tree limit (steps + 1) name m seen cache importer asked
  | renamed {steps : Nat} {name other asked : String} {m : Module} {seen : List Link}
      {cache : Cache} {importer : Path} (fresh : (m.path, name) ∉ seen)
      (declares : declared m name = .renamed other)
      (rest : Asks project tree limit steps other m (seen ++ [(m.path, name)]) cache
        importer asked) :
      Asks project tree limit (steps + 1) name m seen cache importer asked
  | star {steps : Nat} {name specifier : String} {m : Module} {seen : List Link}
      {cache middle : Cache} {earlier later : List String} (fresh : (m.path, name) ∉ seen)
      (declares : declared m name = .unnamed)
      (stars : m.reexports.stars = earlier ++ specifier :: later)
      (passes : outcome (firstSuccess
        (project.searchStar tree limit steps name m (seen ++ [(m.path, name)])) earlier) cache =
          (.ok none, middle)) :
      Asks project tree limit (steps + 1) name m seen cache m.path specifier
  | beyondStar {steps : Nat} {name specifier asked : String} {m target : Module}
      {seen : List Link} {cache middle after : Cache} {earlier later : List String}
      {path importer : Path} (fresh : (m.path, name) ∉ seen)
      (declares : declared m name = .unnamed)
      (stars : m.reexports.stars = earlier ++ specifier :: later)
      (passes : outcome (firstSuccess
        (project.searchStar tree limit steps name m (seen ++ [(m.path, name)])) earlier) cache =
          (.ok none, middle))
      (finds : project.find? tree m.path specifier = .ok (some path))
      (reads : outcome (getModule tree path) middle = (.ok target, after))
      (rest : Asks project tree limit steps name target (seen ++ [(m.path, name)]) after
        importer asked) :
      Asks project tree limit (steps + 1) name m seen cache importer asked

theorem breaks_searchThrough_iff {other : String} :
    Breaks (project.searchThrough tree limit steps m seen specifier other) cache ↔
      project.LeadsNowhere tree m.path specifier ∨
        ∃ path target middle, project.require tree m.path specifier = .ok path ∧
          outcome (getModule tree path) cache = (.ok target, middle) ∧
          Breaks (project.searchAlias tree limit steps other target seen) middle := by
  rw [searchThrough, breaks_bind_iff, breaks_liftExcept_iff, not_contractual_require_iff]
  refine or_congr_right ?_
  constructor
  · rintro ⟨path, middle, hlift, h⟩
    obtain ⟨hpath, rfl⟩ := outcome_liftExcept_eq_ok_iff.mp hlift
    obtain ⟨target, after, htarget, h⟩ :=
      (breaks_bind_iff_of_not_breaks (not_breaks_getModule tree path cache)).mp h
    exact ⟨path, target, after, hpath, htarget, h⟩
  · rintro ⟨path, target, middle, hpath, htarget, h⟩
    exact ⟨path, cache, outcome_liftExcept_eq_ok_iff.mpr ⟨hpath, rfl⟩,
      breaks_bind_iff.mpr (Or.inr ⟨target, middle, htarget, h⟩)⟩

theorem breaks_searchStar_iff :
    Breaks (project.searchStar tree limit steps name m seen specifier) cache ↔
      project.LeadsNowhere tree m.path specifier ∨
        ∃ path target middle, project.find? tree m.path specifier = .ok (some path) ∧
          outcome (getModule tree path) cache = (.ok target, middle) ∧
          Breaks (project.searchAlias tree limit steps name target seen) middle := by
  rw [searchStar, breaks_bind_iff, breaks_liftExcept_iff, not_contractual_find?_iff]
  refine or_congr_right ?_
  constructor
  · rintro ⟨found, middle, hlift, h⟩
    obtain ⟨hfound, rfl⟩ := outcome_liftExcept_eq_ok_iff.mp hlift
    cases found with
    | none => exact absurd h (not_breaks_pure none cache)
    | some path =>
        obtain ⟨target, after, htarget, h⟩ :=
          (breaks_bind_iff_of_not_breaks (not_breaks_getModule tree path cache)).mp
            (breaks_orNothing_iff.mp h)
        exact ⟨path, target, after, hfound, htarget, h⟩
  · rintro ⟨path, target, middle, hpath, htarget, h⟩
    exact ⟨some path, cache, outcome_liftExcept_eq_ok_iff.mpr ⟨hpath, rfl⟩,
      breaks_orNothing_iff.mpr (breaks_bind_iff.mpr (Or.inr ⟨target, middle, htarget, h⟩))⟩

theorem breaks_searchStars_iff :
    Breaks (project.searchStars tree limit steps name m seen) cache ↔
      ∃ earlier specifier later middle, m.reexports.stars = earlier ++ specifier :: later ∧
        outcome (firstSuccess (project.searchStar tree limit steps name m seen) earlier) cache =
          (.ok none, middle) ∧
        Breaks (project.searchStar tree limit steps name m seen specifier) middle := by
  rw [searchStars, breaks_bind_iff_left, breaks_firstSuccess_iff]
  rintro (_ | found) middle
  · exact not_breaks_reject _ middle
  · exact not_breaks_pure found middle

/-- A search breaks if one of its lookups leads nowhere. -/
theorem Asks.breaks (h : project.Asks tree limit steps name m seen cache importer specifier)
    (hnowhere : project.LeadsNowhere tree importer specifier) :
    Breaks (project.searchAlias tree limit steps name m seen) cache := by
  induction h with
  | through fresh declares =>
      rw [searchAlias_of_notMem fresh, declares]
      exact breaks_searchThrough_iff.mpr (Or.inl hnowhere)
  | beyond fresh declares finds reads rest ih =>
      rw [searchAlias_of_notMem fresh, declares]
      exact breaks_searchThrough_iff.mpr (Or.inr ⟨_, _, _, finds, reads, ih hnowhere⟩)
  | renamed fresh declares rest ih =>
      rw [searchAlias_of_notMem fresh, declares]
      exact ih hnowhere
  | star fresh declares stars passes =>
      rw [searchAlias_of_notMem fresh, declares]
      exact breaks_searchStars_iff.mpr
        ⟨_, _, _, _, stars, passes, breaks_searchStar_iff.mpr (Or.inl hnowhere)⟩
  | beyondStar fresh declares stars passes finds reads rest ih =>
      rw [searchAlias_of_notMem fresh, declares]
      exact breaks_searchStars_iff.mpr ⟨_, _, _, _, stars, passes,
        breaks_searchStar_iff.mpr (Or.inr ⟨_, _, _, finds, reads, ih hnowhere⟩)⟩

/-- A search that breaks has a lookup that leads nowhere. -/
theorem exists_asks_of_breaks
    (h : Breaks (project.searchAlias tree limit steps name m seen) cache) :
    ∃ importer specifier, project.Asks tree limit steps name m seen cache importer specifier ∧
      project.LeadsNowhere tree importer specifier := by
  induction steps generalizing name m seen cache with
  | zero =>
      rw [searchAlias_zero] at h
      split at h
      · exact absurd h (not_breaks_reject _ cache)
      · exact absurd h (not_breaks_reject _ cache)
  | succ steps ih =>
      by_cases hmem : (m.path, name) ∈ seen
      · rw [searchAlias_of_mem hmem] at h
        exact absurd h (not_breaks_reject _ cache)
      rw [searchAlias_of_notMem hmem] at h
      cases hdeclared : declared m name with
      | here body =>
          rw [hdeclared] at h
          exact absurd h (not_breaks_pure _ cache)
      | elsewhere specifier other =>
          rw [hdeclared] at h
          rcases breaks_searchThrough_iff.mp h with hn | ⟨path, target, middle, hf, hr, hb⟩
          · exact ⟨m.path, specifier, .through hmem hdeclared, hn⟩
          · obtain ⟨importer, asked, hasks, hn⟩ := ih hb
            exact ⟨importer, asked, .beyond hmem hdeclared hf hr hasks, hn⟩
      | renamed other =>
          rw [hdeclared] at h
          obtain ⟨importer, asked, hasks, hn⟩ := ih h
          exact ⟨importer, asked, .renamed hmem hdeclared hasks, hn⟩
      | unnamed =>
          rw [hdeclared] at h
          obtain ⟨earlier, specifier, later, middle, hstars, hpasses, hb⟩ :=
            breaks_searchStars_iff.mp h
          rcases breaks_searchStar_iff.mp hb with hn | ⟨path, target, after, hf, hr, hb⟩
          · exact ⟨m.path, specifier, .star hmem hdeclared hstars hpasses, hn⟩
          · obtain ⟨importer, asked, hasks, hn⟩ := ih hb
            exact ⟨importer, asked, .beyondStar hmem hdeclared hstars hpasses hf hr hasks, hn⟩

/-- A search breaks if and only if one of its lookups leads nowhere. -/
theorem breaks_searchAlias_iff :
    Breaks (project.searchAlias tree limit steps name m seen) cache ↔
      ∃ importer specifier, project.Asks tree limit steps name m seen cache importer specifier ∧
        project.LeadsNowhere tree importer specifier := by
  constructor
  · exact exists_asks_of_breaks
  · rintro ⟨importer, specifier, hasks, hn⟩
    exact hasks.breaks hn

/-- The lookups for the declaration of a type alias that is visible in a module. -/
abbrev AliasAsks (project : Project) (tree : Tree) (name : String) (m : Module)
    (seen : List Link) : Cache → Path → String → Prop :=
  project.Asks tree stepLimit (stepLimit - seen.length) name m seen

theorem breaks_findAlias_iff :
    Breaks (project.findAlias tree name m seen) cache ↔
      ∃ importer specifier, project.AliasAsks tree name m seen cache importer specifier ∧
        project.LeadsNowhere tree importer specifier :=
  breaks_searchAlias_iff

end Project

end PluginContract.Resolution
