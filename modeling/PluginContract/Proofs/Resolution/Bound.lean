import PluginContract.Proofs.Resolution.Walks

/-!
# The bound on the steps of a search

A search that stays within its bound ends in the same way with every larger one. A search
that the bound cuts off fails, and where it is one of several star re-exports, that failure
passes for nothing found. So with a larger bound a declaration can only be lost to a star
re-export that was cut off and passed over for it.
-/

namespace PluginContract.Resolution

open Files Source

section

variable {α β : Type} {tree : Tree} {cache : Cache}

/-- Alternatives end alike if each one does whose turn comes. -/
theorem result_firstSuccess_congr {search other : α → Resolving (Option β)}
    (hsearch : ∀ a, Steady tree (search a)) (hother : ∀ a, Steady tree (other a))
    {alternatives : List α}
    (h : ∀ earlier a later, alternatives = earlier ++ a :: later →
      (∀ b ∈ earlier, result (search b) cache = .ok none) →
        result (other a) cache = result (search a) cache) :
    result (firstSuccess other alternatives) cache =
      result (firstSuccess search alternatives) cache := by
  induction alternatives with
  | nil => rfl
  | cons a rest ih =>
      rw [result_firstSuccess_cons hsearch, result_firstSuccess_cons hother,
        h [] a rest rfl (by simp)]
      rcases hr : result (search a) cache with failure | _ | b
      · rfl
      · refine ih fun earlier b later heq hpassed => ?_
        exact h (a :: earlier) b later (by rw [heq, List.cons_append])
          (List.forall_mem_cons.mpr ⟨hr, hpassed⟩)
      · rfl

end

namespace Project

/-- Whether a search with so many steps left comes to its bound: to a link that is new when no
step is left. -/
inductive CutOff (project : Project) (tree : Tree) (cache : Cache) (limit : Nat) :
    Nat → String → Module → List Link → Prop
  | bound {name : String} {m : Module} {seen : List Link} (fresh : (m.path, name) ∉ seen) :
      CutOff project tree cache limit 0 name m seen
  | through {steps : Nat} {name other specifier : String} {m target : Module} {seen : List Link}
      (fresh : (m.path, name) ∉ seen) (declares : declared m name = .elsewhere specifier other)
      (leads : project.Leads tree cache m specifier target)
      (rest : CutOff project tree cache limit steps other target (seen ++ [(m.path, name)])) :
      CutOff project tree cache limit (steps + 1) name m seen
  | renamed {steps : Nat} {name other : String} {m : Module} {seen : List Link}
      (fresh : (m.path, name) ∉ seen) (declares : declared m name = .renamed other)
      (rest : CutOff project tree cache limit steps other m (seen ++ [(m.path, name)])) :
      CutOff project tree cache limit (steps + 1) name m seen
  | star {steps : Nat} {name specifier : String} {m target : Module} {seen : List Link}
      {earlier later : List String} (fresh : (m.path, name) ∉ seen)
      (declares : declared m name = .unnamed)
      (stars : m.reexports.stars = earlier ++ specifier :: later)
      (passed : ∀ s ∈ earlier, result
        (project.searchStar tree limit steps name m (seen ++ [(m.path, name)]) s) cache = .ok none)
      (leads : project.Leads tree cache m specifier target)
      (rest : CutOff project tree cache limit steps name target (seen ++ [(m.path, name)])) :
      CutOff project tree cache limit (steps + 1) name m seen

/-- What a search with a larger bound ends in if that is a star re-export which the bound cut off
and which was passed over for it. Up to there the search takes the same way with both bounds. -/
inductive Overtakes (project : Project) (tree : Tree) (cache : Cache) (limit larger : Nat) :
    Nat → Nat → String → Module → List Link → Except Failure AliasDeclaration → Prop
  | here {steps more : Nat} {name specifier : String} {m target : Module} {seen : List Link}
      {earlier later : List String} {ending : Except Failure AliasDeclaration}
      (fresh : (m.path, name) ∉ seen) (declares : declared m name = .unnamed)
      (stars : m.reexports.stars = earlier ++ specifier :: later)
      (passed : ∀ s ∈ earlier ++ [specifier], result
        (project.searchStar tree limit steps name m (seen ++ [(m.path, name)]) s) cache = .ok none)
      (again : ∀ s ∈ earlier, result
        (project.searchStar tree larger more name m (seen ++ [(m.path, name)]) s) cache = .ok none)
      (leads : project.Leads tree cache m specifier target)
      (cut : project.CutOff tree cache limit steps name target (seen ++ [(m.path, name)]))
      (ends : result
        (project.searchAlias tree larger more name target (seen ++ [(m.path, name)])) cache =
          ending)
      (counts : passing ending ≠ .ok none) :
      Overtakes project tree cache limit larger (steps + 1) (more + 1) name m seen ending
  | through {steps more : Nat} {name other specifier : String} {m target : Module}
      {seen : List Link} {ending : Except Failure AliasDeclaration}
      (fresh : (m.path, name) ∉ seen) (declares : declared m name = .elsewhere specifier other)
      (leads : project.Leads tree cache m specifier target)
      (rest : Overtakes project tree cache limit larger steps more other target
        (seen ++ [(m.path, name)]) ending) :
      Overtakes project tree cache limit larger (steps + 1) (more + 1) name m seen ending
  | renamed {steps more : Nat} {name other : String} {m : Module} {seen : List Link}
      {ending : Except Failure AliasDeclaration}
      (fresh : (m.path, name) ∉ seen) (declares : declared m name = .renamed other)
      (rest : Overtakes project tree cache limit larger steps more other m
        (seen ++ [(m.path, name)]) ending) :
      Overtakes project tree cache limit larger (steps + 1) (more + 1) name m seen ending
  | star {steps more : Nat} {name specifier : String} {m target : Module} {seen : List Link}
      {earlier later : List String} {ending : Except Failure AliasDeclaration}
      (fresh : (m.path, name) ∉ seen) (declares : declared m name = .unnamed)
      (stars : m.reexports.stars = earlier ++ specifier :: later)
      (passed : ∀ s ∈ earlier, result
        (project.searchStar tree limit steps name m (seen ++ [(m.path, name)]) s) cache = .ok none)
      (again : ∀ s ∈ earlier, result
        (project.searchStar tree larger more name m (seen ++ [(m.path, name)]) s) cache = .ok none)
      (leads : project.Leads tree cache m specifier target)
      (rest : Overtakes project tree cache limit larger steps more name target
        (seen ++ [(m.path, name)]) ending) :
      Overtakes project tree cache limit larger (steps + 1) (more + 1) name m seen ending

variable {project : Project} {tree : Tree} {cache : Cache} {limit larger steps more : Nat}
  {name other specifier : String} {m target : Module} {seen : List Link}

theorem result_searchStar_of_leads (h : project.Leads tree cache m specifier target) :
    result (project.searchStar tree limit steps name m seen specifier) cache =
      passing (result (project.searchAlias tree limit steps name target seen) cache) := by
  obtain ⟨path, hfind, hread⟩ := h
  rw [result_searchStar_of_find? hfind, hread]
  rfl

theorem result_searchThrough_of_leads (h : project.Leads tree cache m specifier target) :
    result (project.searchThrough tree limit steps m seen specifier other) cache =
      result (project.searchAlias tree limit steps other target seen) cache := by
  rw [result_searchThrough, targetOf_eq_ok_iff.mpr h]
  rfl

/-- What a star re-export comes to depends on the bound only by the search in its module. -/
theorem result_searchStar_congr
    (h : ∀ target, project.Leads tree cache m specifier target →
      result (project.searchAlias tree larger more name target seen) cache =
        result (project.searchAlias tree limit steps name target seen) cache) :
    result (project.searchStar tree larger more name m seen specifier) cache =
      result (project.searchStar tree limit steps name m seen specifier) cache := by
  cases hfind : project.find? tree m.path specifier with
  | error failure => rw [result_searchStar, result_searchStar, hfind]; rfl
  | ok found =>
      cases found with
      | none => rw [result_searchStar, result_searchStar, hfind]; rfl
      | some path =>
          rw [result_searchStar_of_find? hfind, result_searchStar_of_find? hfind]
          cases hread : cache.source tree path with
          | error failure => rfl
          | ok target => exact congrArg passing (h target ⟨path, hfind, hread⟩)

/-- A search that its bound does not cut off ends in the same way with every larger bound. -/
theorem result_searchAlias_of_not_cutOff (hle : steps ≤ more)
    (h : ¬ project.CutOff tree cache limit steps name m seen) :
    result (project.searchAlias tree larger more name m seen) cache =
      result (project.searchAlias tree limit steps name m seen) cache := by
  induction steps generalizing name m seen more with
  | zero =>
      have hmem : (m.path, name) ∈ seen := Decidable.byContradiction fun hfresh => h (.bound hfresh)
      rw [searchAlias_of_mem hmem, searchAlias_of_mem hmem]
  | succ steps ih =>
      obtain ⟨more, rfl⟩ : ∃ n, more = n + 1 := Nat.exists_eq_succ_of_ne_zero (by omega)
      replace hle : steps ≤ more := by omega
      by_cases hmem : (m.path, name) ∈ seen
      · rw [searchAlias_of_mem hmem, searchAlias_of_mem hmem]
      rw [searchAlias_of_notMem hmem, searchAlias_of_notMem hmem]
      cases hdeclared : declared m name with
      | here body => rfl
      | elsewhere specifier other =>
          dsimp only
          rw [result_searchThrough, result_searchThrough]
          cases htarget : project.targetOf tree cache m specifier with
          | error failure => rfl
          | ok target =>
              have hleads := targetOf_eq_ok_iff.mp htarget
              exact ih hle fun hcut => h (.through hmem hdeclared hleads hcut)
      | renamed other => exact ih hle fun hcut => h (.renamed hmem hdeclared hcut)
      | unnamed =>
          dsimp only
          rw [result_searchStars, result_searchStars]
          refine congrArg (Except.bind · _) (result_firstSuccess_congr
            (steady_searchStar_searchAlias limit steps name m _)
            (steady_searchStar_searchAlias larger more name m _) ?_)
          intro earlier specifier later hstars hpassed
          refine result_searchStar_congr fun target hleads => ih hle fun hcut => ?_
          exact h (.star hmem hdeclared hstars hpassed hleads hcut)

theorem result_searchStars_of_first {earlier later : List String}
    (stars : m.reexports.stars = earlier ++ specifier :: later)
    (passed : ∀ s ∈ earlier, result
      (project.searchStar tree limit steps name m seen s) cache = .ok none)
    (leads : project.Leads tree cache m specifier target)
    (counts : passing (result (project.searchAlias tree limit steps name target seen) cache) ≠
      .ok none) :
    result (project.searchStars tree limit steps name m seen) cache =
      result (project.searchAlias tree limit steps name target seen) cache := by
  have hstar : result (project.searchStar tree limit steps name m seen specifier) cache =
      passing (result (project.searchAlias tree limit steps name target seen) cache) :=
    result_searchStar_of_leads leads
  rw [result_searchStars, stars, result_firstSuccess_of_first
    (steady_searchStar_searchAlias limit steps name m seen) passed (by rwa [hstar]), hstar,
    passing_eq_map counts]
  cases result (project.searchAlias tree limit steps name target seen) cache <;> rfl

/-- What overtakes a search is no error that a star re-export passes over. -/
theorem Overtakes.counts {ending : Except Failure AliasDeclaration}
    (h : project.Overtakes tree cache limit larger steps more name m seen ending) :
    passing ending ≠ .ok none := by
  induction h with
  | here fresh declares stars passed again leads cut ends counts => exact counts
  | through fresh declares leads rest ih => exact ih
  | renamed fresh declares rest ih => exact ih
  | star fresh declares stars passed again leads rest ih => exact ih

/-- What overtakes a search is what it comes to with the larger bound. -/
theorem Overtakes.result_eq {ending : Except Failure AliasDeclaration}
    (h : project.Overtakes tree cache limit larger steps more name m seen ending) :
    result (project.searchAlias tree larger more name m seen) cache = ending := by
  induction h with
  | here fresh declares stars passed again leads cut ends counts =>
      subst ends
      rw [searchAlias_of_notMem fresh, declares]
      exact result_searchStars_of_first stars again leads counts
  | through fresh declares leads rest ih =>
      rw [searchAlias_of_notMem fresh, declares]
      exact (result_searchThrough_of_leads leads).trans ih
  | renamed fresh declares rest ih =>
      rw [searchAlias_of_notMem fresh, declares]
      exact ih
  | star fresh declares stars passed again leads rest ih =>
      rw [searchAlias_of_notMem fresh, declares]
      have hcounts := rest.counts
      rw [← ih] at hcounts
      exact (result_searchStars_of_first stars again leads hcounts).trans ih

/-- A star re-export that only the smaller bound passes over was cut off. -/
theorem cutOff_of_no_longer_passed (hle : steps ≤ more)
    (passed : result (project.searchStar tree limit steps name m seen specifier) cache = .ok none)
    (counts : result (project.searchStar tree larger more name m seen specifier) cache ≠
      .ok none) :
    ∃ target, project.Leads tree cache m specifier target ∧
      project.CutOff tree cache limit steps name target seen := by
  refine Classical.byContradiction fun hnone => counts ?_
  refine (result_searchStar_congr fun target hleads => ?_).trans passed
  exact result_searchAlias_of_not_cutOff hle fun hcut => hnone ⟨target, hleads, hcut⟩

theorem exists_first_of_searchStars {found : AliasDeclaration}
    (h : result (project.searchStars tree limit steps name m seen) cache = .ok found) :
    ∃ earlier specifier later target, m.reexports.stars = earlier ++ specifier :: later ∧
      (∀ s ∈ earlier, result (project.searchStar tree limit steps name m seen s) cache =
        .ok none) ∧
      project.Leads tree cache m specifier target ∧
      result (project.searchAlias tree limit steps name target seen) cache = .ok found := by
  rcases result_searchStars_cases project tree cache limit steps name m seen with
    ⟨failure, -, hresult⟩ | ⟨earlier, specifier, later, target, hstars, hpassed, hleads, hresult⟩
  · rw [hresult] at h
    cases h
  · rw [hresult] at h
    exact ⟨earlier, specifier, later, target, hstars, hpassed, hleads, h⟩

/-- With a larger bound a search finds the same declaration along the same links, or ends in a
star re-export that was cut off. -/
theorem result_larger_or_overtakes {found : AliasDeclaration} (hle : steps ≤ more)
    (h : result (project.searchAlias tree limit steps name m seen) cache = .ok found) :
    result (project.searchAlias tree larger more name m seen) cache = .ok found ∨
      project.Overtakes tree cache limit larger steps more name m seen
        (result (project.searchAlias tree larger more name m seen) cache) := by
  induction steps generalizing name m seen more with
  | zero =>
      rw [searchAlias_zero] at h
      split at h <;> cases h
  | succ steps ih =>
      obtain ⟨more, rfl⟩ : ∃ n, more = n + 1 := Nat.exists_eq_succ_of_ne_zero (by omega)
      replace hle : steps ≤ more := by omega
      by_cases hmem : (m.path, name) ∈ seen
      · rw [searchAlias_of_mem hmem] at h
        cases h
      rw [searchAlias_of_notMem hmem] at h ⊢
      cases hdeclared : declared m name with
      | here body =>
          rw [hdeclared] at h
          exact Or.inl h
      | elsewhere specifier other =>
          rw [hdeclared] at h
          dsimp only at h ⊢
          cases htarget : project.targetOf tree cache m specifier with
          | error failure =>
              rw [result_searchThrough, htarget] at h
              cases h
          | ok target =>
              have hleads := targetOf_eq_ok_iff.mp htarget
              rw [result_searchThrough_of_leads hleads] at h ⊢
              exact (ih hle h).imp_right (.through hmem hdeclared hleads)
      | renamed other =>
          rw [hdeclared] at h
          exact (ih hle h).imp_right (.renamed hmem hdeclared)
      | unnamed =>
          rw [hdeclared] at h
          dsimp only at h ⊢
          obtain ⟨earlier, specifier, later, target, hstars, hpassed, hleads, hfound⟩ :=
            exists_first_of_searchStars h
          rcases passed_or_first
            (project.searchStar tree larger more name m (seen ++ [(m.path, name)])) cache earlier
            with hagain | ⟨front, overtaker, back, rfl, hagain, hcounts⟩
          · rcases ih hle hfound with hsame | hover
            · left
              rw [result_searchStars_of_first hstars hagain hleads (by rw [hsame]; simp [passing])]
              exact hsame
            · right
              rw [result_searchStars_of_first hstars hagain hleads hover.counts]
              exact .star hmem hdeclared hstars hpassed hagain hleads hover
          · -- One of the re-exports that were passed over comes first with the larger bound.
            right
            have hover := hpassed overtaker (by simp)
            obtain ⟨target', hleads', hcut⟩ := cutOff_of_no_longer_passed hle hover hcounts
            rw [result_searchStar_of_leads hleads'] at hcounts
            have hstars' : m.reexports.stars = front ++ overtaker :: (back ++ specifier :: later) := by
              rw [hstars, List.append_assoc, List.cons_append]
            rw [result_searchStars_of_first hstars' hagain hleads' hcounts]
            refine .here hmem hdeclared hstars' (fun s hs => hpassed s ?_) hagain hleads' hcut rfl
              hcounts
            rw [List.append_cons]
            exact List.mem_append_left back hs

/-- The declaration of a type alias that is visible in a module, with another bound on the
steps. -/
def findAliasWithin (project : Project) (tree : Tree) (limit : Nat) (name : String) (m : Module)
    (seen : List Link) : Resolving AliasDeclaration :=
  project.searchAlias tree limit (limit - seen.length) name m seen

theorem findAliasWithin_stepLimit (project : Project) (tree : Tree) (name : String) (m : Module)
    (seen : List Link) :
    project.findAliasWithin tree stepLimit name m seen = project.findAlias tree name m seen := rfl

/-- Whether two searches found the same declaration, perhaps along other links. -/
def SameDeclaration (found again : AliasDeclaration) : Prop :=
  again.module = found.module ∧ again.name = found.name ∧ again.body = found.body

/-- Whether every larger bound on the steps keeps the declaration that a search finds. -/
def BoundMonotone (project : Project) (tree : Tree) (cache : Cache) (name : String) (m : Module)
    (seen : List Link) : Prop :=
  ∀ found, result (project.findAlias tree name m seen) cache = .ok found →
    ∀ larger, stepLimit ≤ larger →
      ∃ again, result (project.findAliasWithin tree larger name m seen) cache = .ok again ∧
        SameDeclaration found again

/-- Every larger bound keeps the declaration that a search finds, if and only if no star
re-export that was cut off and passed over for it leads to anything else. -/
theorem boundMonotone_iff (project : Project) (tree : Tree) (cache : Cache) (name : String)
    (m : Module) (seen : List Link) :
    project.BoundMonotone tree cache name m seen ↔
      ∀ found, result (project.findAlias tree name m seen) cache = .ok found →
        ∀ larger, stepLimit ≤ larger →
          ∀ ending, project.Overtakes tree cache stepLimit larger (stepLimit - seen.length)
            (larger - seen.length) name m seen ending →
              ∃ again, ending = .ok again ∧ SameDeclaration found again := by
  constructor
  · intro h found hfound larger hlarger ending hover
    obtain ⟨again, hagain, hsame⟩ := h found hfound larger hlarger
    exact ⟨again, hover.result_eq.symm.trans hagain, hsame⟩
  · intro h found hfound larger hlarger
    rcases result_larger_or_overtakes (Nat.sub_le_sub_right hlarger seen.length) hfound with
      hsame | hover
    · exact ⟨found, hsame, rfl, rfl, rfl⟩
    · exact h found hfound larger hlarger _ hover

/-- Specifiers that rename each name to the one after it. -/
def renamedInTurn : List Char → List Char
  | a :: b :: rest => b :: " as ".toList ++ a :: ',' :: renamedInTurn (b :: rest)
  | _ => []

/-- A module that leads from `a` through sixteen names to a last declaration. -/
def barrel (last : List Char) : List Char :=
  "export \x7b".toList ++
    renamedInTurn
      ['a', 'b', 'c', 'd', 'e', 'f', 'g', 'h', 'i', 'j', 'k', 'l', 'm', 'n', 'o', 'p'] ++
    "\x7d;".toList ++ last

/-- A re-export of `a` from another file under the last of the names. -/
def onward (file : Char) : List Char :=
  "export \x7ba as p\x7d".toList ++ " from \"./".toList ++ [file, '"']

/-- A star re-export. -/
def starExport (file : List Char) : List Char :=
  "export * ".toList ++ "from \"./".toList ++ file ++ ['"', ';']

/-- The text of a module with a far declaration of `a` and then a near one. -/
def farAndNear : List Char := starExport ['1'] ++ starExport "near".toList

/-- Files in which the far declaration of `a` takes sixty-five steps. -/
def farAndNearTree : Tree :=
  let source (name : String) (text : List Char) : Place × Node :=
    ([name], .file (Text.Utf8.encode text))
  ⟨[], [source "index.ts" farAndNear,
    source "1.ts" (barrel (onward '2')),
    source "2.ts" (barrel (onward '3')),
    source "3.ts" (barrel (onward '4')),
    source "4.ts" (barrel ("type p = ".toList ++ "\"x.deep\"".toList)),
    source "near.ts" ("type a = ".toList ++ "\"x.near\"".toList)], .usual⟩

/-- Where a declaration of `a` is found with a bound on the steps. -/
def foundAt? (limit : Nat) : Option (List String) :=
  (result (findAliasWithin ⟨⟨.top, []⟩, []⟩ farAndNearTree limit "a"
    (Module.ofText ⟨.top, ["index.ts"]⟩ farAndNear) []) .empty).toOption.map fun found =>
      found.module.path.names

theorem exists_found_of_foundAt? {limit : Nat} {names : List String}
    (h : foundAt? limit = some names) :
    ∃ found, result (findAliasWithin ⟨⟨.top, []⟩, []⟩ farAndNearTree limit "a"
        (Module.ofText ⟨.top, ["index.ts"]⟩ farAndNear) []) .empty = .ok found ∧
      found.module.path.names = names := by
  obtain ⟨found, hfound, hnames⟩ := Option.map_eq_some_iff.mp h
  refine ⟨found, ?_, hnames⟩
  revert hfound
  cases result (findAliasWithin ⟨⟨.top, []⟩, []⟩ farAndNearTree limit "a"
    (Module.ofText ⟨.top, ["index.ts"]⟩ farAndNear) []) .empty with
  | error failure => exact fun h => nomatch h
  | ok again => exact fun h => congrArg Except.ok (Option.some.inj h)

/-- The far declaration comes first, but the bound cuts it off, and the near one is found
instead. -/
theorem not_boundMonotone_farAndNear :
    ¬ BoundMonotone ⟨⟨.top, []⟩, []⟩ farAndNearTree .empty "a"
      (Module.ofText ⟨.top, ["index.ts"]⟩ farAndNear) [] := by
  have hfound : foundAt? stepLimit = some ["near.ts"] ∧ foundAt? 65 = some ["4.ts"] := by
    decide +kernel
  obtain ⟨near, hnear, hnearAt⟩ := exists_found_of_foundAt? hfound.1
  obtain ⟨far, hfar, hfarAt⟩ := exists_found_of_foundAt? hfound.2
  intro hmonotone
  obtain ⟨again, hagain, hmodule, -⟩ := hmonotone near hnear 65 (by decide)
  rw [hfar] at hagain
  cases hagain
  rw [← hmodule, hfarAt] at hnearAt
  exact absurd hnearAt (by decide)

end Project

end PluginContract.Resolution
