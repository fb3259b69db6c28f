import Mathlib.Data.List.Chain
import PluginContract.Proofs.Contract.EventReduction
import PluginContract.Proofs.Resolution.Bound
import PluginContract.Proofs.Script.Wrapping

/-!
# Chains of names that supported events are read through

A name leads to another one by an alias whose body is a name, by a named import, by a named
re-export, or by a local export under another name. Every step of a search, and so every name
that is followed, extends the list of links that were met, and that list never grows past the
bound. So a chain of names is followed to its end as long as it holds no more links than the
bound, and a chain that comes back within the bound is reported as a cycle.
-/

namespace PluginContract.Resolution

open Files Source

namespace Project

/-- One step of a search, which goes on as given. -/
def searchStep (project : Project) (tree : Tree)
    (next : String → Module → Resolving AliasDeclaration) (name : String) (m : Module)
    (seen : List Link) : Resolving AliasDeclaration :=
  let reach (path : Path) (other : String) : Resolving AliasDeclaration := do
    let target ← getModule tree path
    next other target
  let star (specifier : String) : Resolving (Option AliasDeclaration) := do
    match ← searchAlias.liftExcept (project.find? tree m.path specifier) with
    | none => return none
    | some path => orNothing (reach path name)
  if (m.path, name) ∈ seen then reject (.cycle (seen ++ [(m.path, name)]))
  else if stepLimit ≤ seen.length then reject (.tooDeep name stepLimit m.path)
  else
    match declared m name with
    | .here body => return ⟨name, m, body, seen ++ [(m.path, name)]⟩
    | .elsewhere specifier other => do
        let path ← searchAlias.liftExcept (project.require tree m.path specifier)
        reach path other
    | .renamed other => next other m
    | .unnamed => do
        match ← firstSuccess star m.reexports.stars with
        | some found => return found
        | none => reject (.aliasNotFound name m.path)

/-- A search goes on with one link more, as long as the link is new and the bound is not met. -/
theorem findAlias_eq_searchStep (project : Project) (tree : Tree) (name : String) (m : Module)
    (seen : List Link) :
    project.findAlias tree name m seen =
      project.searchStep tree
        (fun other target => project.findAlias tree other target (seen ++ [(m.path, name)]))
        name m seen := by
  rw [searchStep]
  dsimp only
  split
  · rename_i hmem
    exact searchAlias_of_mem hmem
  · rename_i hmem
    rw [findAlias]
    split
    · rename_i hfull
      rw [Nat.sub_eq_zero_of_le hfull, searchAlias_zero, if_neg (mt List.contains_iff_mem.mp hmem)]
    · rename_i hroom
      have hsteps : stepLimit - seen.length =
          stepLimit - (seen ++ [(m.path, name)]).length + 1 := by
        rw [List.length_append, List.length_singleton]
        omega
      rw [hsteps, searchAlias_of_notMem hmem]
      rfl

end Project

end PluginContract.Resolution

namespace PluginContract.Contract

open Text Files Script Source Resolution

/-- What a name in a module leads to without star re-exports, by the entry of the module that comes
first. -/
inductive NameStep (project : Project) (tree : Tree) (cache : Cache) (m : Module) (name : String) :
    Module → String → Prop
  | aliased {body : List Char} (entry : m.typeAliases.get? name = some body)
      (isName : isName (stripParens body) = true) :
      NameStep project tree cache m name m (String.ofList (stripParens body))
  | imported {specifier other : String} {target : Module}
      (noAlias : m.typeAliases.get? name = none)
      (entry : m.imports.named.get? name = some ⟨specifier, other⟩)
      (leads : project.Leads tree cache m specifier target) :
      NameStep project tree cache m name target other
  | reexported {specifier other : String} {target : Module}
      (noAlias : m.typeAliases.get? name = none) (noImport : m.imports.named.get? name = none)
      (entry : m.reexports.named.get? name = some ⟨specifier, .name other⟩)
      (leads : project.Leads tree cache m specifier target) :
      NameStep project tree cache m name target other
  | renamed {other : String}
      (noAlias : m.typeAliases.get? name = none) (noImport : m.imports.named.get? name = none)
      (noReexport : ∀ specifier other,
        m.reexports.named.get? name ≠ some ⟨specifier, .name other⟩)
      (entry : m.localExports.get? name = some other) (differs : other ≠ name) :
      NameStep project tree cache m name m other

/-- The links of a chain of such steps, from a name in a module to another one. -/
inductive NameChain (project : Project) (tree : Tree) (cache : Cache) :
    Module → String → List Link → Module → String → Prop
  | here (m : Module) (name : String) : NameChain project tree cache m name [(m.path, name)] m name
  | step {m target last : Module} {name other final : String} {links : List Link}
      (first : NameStep project tree cache m name target other)
      (rest : NameChain project tree cache target other links last final) :
      NameChain project tree cache m name ((m.path, name) :: links) last final

/-- A reduction without any bound on the names that it follows, with the links met after each name
and with what it ends in. -/
inductive Reduces (project : Project) (tree : Tree) :
    List Char → Module → List Link → Cache → List (List Link) →
      Except Failure (List String) × Cache → Prop
  | read {e : List Char} {m : Module} {seen : List Link} {cache : Cache}
      (notName : isName (stripParens e) = false) :
      Reduces project tree e m seen cache [] (reduction (stripParens e) m, cache)
  | fails {e : List Char} {m : Module} {seen : List Link} {cache after : Cache}
      {failure : Failure} (name : isName (stripParens e) = true)
      (search : outcome (project.findAlias tree (String.ofList (stripParens e)) m seen) cache =
        (.error failure, after)) :
      Reduces project tree e m seen cache [] (.error failure, after)
  | follow {e : List Char} {m : Module} {seen : List Link} {cache middle : Cache}
      {found : AliasDeclaration} {trace : List (List Link)}
      {ending : Except Failure (List String) × Cache} (name : isName (stripParens e) = true)
      (search : outcome (project.findAlias tree (String.ofList (stripParens e)) m seen) cache =
        (.ok found, middle))
      (rest : Reduces project tree found.body found.module found.seen middle trace ending) :
      Reduces project tree e m seen cache (found.seen :: trace) ending

/-- Whether a list of links goes on with links that are new, within the bound. -/
def Extends (seen more : List Link) : Prop :=
  ∃ walk, walk ≠ [] ∧ more = seen ++ walk ∧ Project.Fresh seen walk ∧ more.length ≤ stepLimit

variable {project : Project} {tree : Tree} {cache : Cache} {e body : List Char}
  {m target last : Module} {name other final : String} {seen links : List Link}

section Termination

/-- A name that is followed adds links. -/
theorem extends_of_found {found : AliasDeclaration} {after : Cache}
    (h : outcome (project.findAlias tree name m seen) cache = (.ok found, after)) :
    Extends seen found.seen := by
  obtain ⟨walk, hwalk⟩ :=
    (Project.findAlias_followsSources project tree cache name m seen).found found after h
  refine ⟨walk, ?_, hwalk.trace, hwalk.fresh, hwalk.bounded⟩
  rintro rfl
  cases hwalk.starts

theorem Extends.length_lt {more : List Link} (h : Extends seen more) :
    seen.length < more.length := by
  obtain ⟨walk, hne, rfl, -, -⟩ := h
  rw [List.length_append]
  have := List.length_pos_iff.mpr hne
  omega

theorem Extends.length_le {more : List Link} (h : Extends seen more) :
    more.length ≤ stepLimit := by
  obtain ⟨walk, -, -, -, hbound⟩ := h
  exact hbound

/-- With enough names left, a reduction is one without a bound on the names. -/
theorem exists_reduces {names : Nat} (hpos : 0 < names) (hnames : stepLimit < seen.length + names) :
    ∃ trace, Reduces project tree e m seen cache trace
        (outcome (eventsWithin project tree names e m seen) cache) ∧
      (seen :: trace).IsChain Extends := by
  induction names generalizing e m seen cache with
  | zero => exact absurd hpos (Nat.lt_irrefl 0)
  | succ names ih =>
      cases hname : isName (stripParens e) with
      | false =>
          rw [outcome_eventsWithin_of_not_name hname]
          exact ⟨[], .read hname, .singleton seen⟩
      | true =>
          rw [eventsWithin_of_name hname, outcome_bind]
          rcases hsearch : outcome (project.findAlias tree (String.ofList (stripParens e)) m seen)
            cache with ⟨failure | found, middle⟩
          · exact ⟨[], .fails hname hsearch, .singleton seen⟩
          · have hextends := extends_of_found hsearch
            have hlonger := hextends.length_lt
            have hbound := hextends.length_le
            have hmore : ∃ trace, Reduces project tree found.body found.module found.seen middle
                trace (outcome (eventsWithin project tree names found.body found.module found.seen)
                  middle) ∧ (found.seen :: trace).IsChain Extends := ih (by omega) (by omega)
            obtain ⟨trace, hreduces, hchain⟩ := hmore
            exact ⟨found.seen :: trace, .follow hname hsearch hreduces, .cons_cons hextends hchain⟩

/-- A reduction ends in one way only. -/
theorem Reduces.unique {trace trace' : List (List Link)}
    {ending ending' : Except Failure (List String) × Cache}
    (h : Reduces project tree e m seen cache trace ending)
    (h' : Reduces project tree e m seen cache trace' ending') :
    trace = trace' ∧ ending = ending' := by
  induction h generalizing trace' ending' with
  | read notName =>
      cases h' with
      | read => exact ⟨rfl, rfl⟩
      | fails name' | follow name' =>
          rw [notName] at name'
          cases name'
  | fails name search =>
      cases h' with
      | read notName =>
          rw [name] at notName
          cases notName
      | fails name' search' =>
          cases search.symm.trans search'
          exact ⟨rfl, rfl⟩
      | follow name' search' => cases search.symm.trans search'
  | follow name search rest ih =>
      cases h' with
      | read notName =>
          rw [name] at notName
          cases notName
      | fails name' search' => cases search.symm.trans search'
      | follow name' search' rest' =>
          cases search.symm.trans search'
          obtain ⟨rfl, rfl⟩ := ih rest'
          exact ⟨rfl, rfl⟩

theorem exists_reduces_resolveEvents (project : Project) (tree : Tree) (e : List Char) (m : Module)
    (seen : List Link) (cache : Cache) :
    ∃ trace, Reduces project tree e m seen cache trace
        (outcome (resolveEvents project tree e m seen) cache) ∧
      (seen :: trace).IsChain Extends :=
  exists_reduces (Nat.succ_pos stepLimit) (by omega)

theorem outcome_resolveEvents_of_reduces {trace : List (List Link)}
    {ending : Except Failure (List String) × Cache}
    (h : Reduces project tree e m seen cache trace ending) :
    outcome (resolveEvents project tree e m seen) cache = ending := by
  obtain ⟨trace', h', -⟩ := exists_reduces_resolveEvents project tree e m seen cache
  exact (h'.unique h).2

end Termination

section Following

/-- The events of a name in a module. -/
def eventsOfName (project : Project) (tree : Tree) (name : String) (m : Module)
    (seen : List Link) : Resolving (List String) :=
  project.findAlias tree name m seen >>= fun found =>
    resolveEvents project tree found.body found.module found.seen

theorem outcome_resolveEvents_of_name (h : isName (stripParens e) = true) :
    outcome (resolveEvents project tree e m seen) cache =
      outcome (eventsOfName project tree (String.ofList (stripParens e)) m seen) cache := by
  rw [eventsOfName, outcome_bind]
  rcases hsearch : outcome (project.findAlias tree (String.ofList (stripParens e)) m seen) cache
    with ⟨failure | found, middle⟩
  · exact outcome_resolveEvents_of_reduces (.fails h hsearch)
  · obtain ⟨trace, hrest, -⟩ :=
      exists_reduces_resolveEvents project tree found.body found.module found.seen middle
    exact outcome_resolveEvents_of_reduces (.follow h hsearch hrest)

theorem steady_eventsWithin (names : Nat) (e : List Char) (m : Module) (seen : List Link) :
    Steady tree (eventsWithin project tree names e m seen) := by
  cases hname : isName (stripParens e) with
  | false =>
      constructor
      · intro cache
        rw [outcome_eventsWithin_of_not_name hname]
      · intro cache other _
        rw [result, result, outcome_eventsWithin_of_not_name hname,
          outcome_eventsWithin_of_not_name hname]
  | true =>
      rw [eventsWithin_of_name hname]
      cases names with
      | zero => exact .reject _
      | succ names =>
          exact .bind (Project.steady_searchAlias _ m seen) fun found =>
            steady_eventsWithin names found.body found.module found.seen

theorem steady_resolveEvents (e : List Char) (m : Module) (seen : List Link) :
    Steady tree (resolveEvents project tree e m seen) :=
  steady_eventsWithin (stepLimit + 1) e m seen

theorem result_eventsOfName :
    result (eventsOfName project tree name m seen) cache =
      (result (project.findAlias tree name m seen) cache).bind fun found =>
        result (resolveEvents project tree found.body found.module found.seen) cache :=
  result_bind (Project.steady_searchAlias name m seen)
    (fun found => steady_resolveEvents found.body found.module found.seen) cache

/-- At a link that was met before, the events of a name are a cycle. -/
theorem result_eventsOfName_of_mem (h : (m.path, name) ∈ seen) :
    result (eventsOfName project tree name m seen) cache =
      .error (.contract (.cycle (seen ++ [(m.path, name)]))) := by
  rw [result_eventsOfName, Project.findAlias_eq_searchStep, Project.searchStep, if_pos h]
  rfl

/-- At the bound, a new link is one too many. -/
theorem result_eventsOfName_of_full (h : (m.path, name) ∉ seen)
    (hfull : stepLimit ≤ seen.length) :
    result (eventsOfName project tree name m seen) cache =
      .error (.contract (.tooDeep name stepLimit m.path)) := by
  rw [result_eventsOfName, Project.findAlias_eq_searchStep, Project.searchStep, if_neg h,
    if_pos hfull]
  rfl

/-- At a new link within the bound, a search goes by what the module declares. -/
theorem findAlias_of_new (h : (m.path, name) ∉ seen) (hroom : seen.length < stepLimit) :
    project.findAlias tree name m seen =
      match declared m name with
      | .here body => return ⟨name, m, body, seen ++ [(m.path, name)]⟩
      | .elsewhere specifier other =>
          project.searchThrough tree stepLimit (stepLimit - (seen ++ [(m.path, name)]).length) m
            (seen ++ [(m.path, name)]) specifier other
      | .renamed other => project.findAlias tree other m (seen ++ [(m.path, name)])
      | .unnamed =>
          project.searchStars tree stepLimit (stepLimit - (seen ++ [(m.path, name)]).length) name m
            (seen ++ [(m.path, name)]) := by
  rw [Project.findAlias_eq_searchStep, Project.searchStep, if_neg h,
    if_neg (Nat.not_le_of_lt hroom)]
  rfl

/-- The declaration of a name that ends a chain is read as it stands. -/
theorem result_eventsOfName_of_declared (h : (m.path, name) ∉ seen)
    (hroom : seen.length < stepLimit) (hbody : m.typeAliases.get? name = some body) :
    result (eventsOfName project tree name m seen) cache =
      result (resolveEvents project tree body m (seen ++ [(m.path, name)])) cache := by
  have hdeclared : declared m name = .here body := by rw [declared, hbody]
  rw [result_eventsOfName, findAlias_of_new h hroom, hdeclared]
  rfl

theorem result_findAlias_elsewhere {specifier : String} (h : (m.path, name) ∉ seen)
    (hroom : seen.length < stepLimit) (hdeclared : declared m name = .elsewhere specifier other)
    (leads : project.Leads tree cache m specifier target) :
    result (project.findAlias tree name m seen) cache =
      result (project.findAlias tree other target (seen ++ [(m.path, name)])) cache := by
  rw [findAlias_of_new h hroom, hdeclared]
  exact Project.result_searchThrough_of_leads leads

/-- A step of a chain adds its link and goes on. -/
theorem NameStep.result_eq (step : NameStep project tree cache m name target other)
    (h : (m.path, name) ∉ seen) (hroom : seen.length < stepLimit) :
    result (eventsOfName project tree name m seen) cache =
      result (eventsOfName project tree other target (seen ++ [(m.path, name)])) cache := by
  cases step with
  | aliased entry isName =>
      rw [result_eventsOfName_of_declared h hroom entry]
      exact congrArg Prod.fst (outcome_resolveEvents_of_name isName)
  | @imported specifier other target noAlias entry leads =>
      have hdeclared : declared m name = .elsewhere specifier other := by
        rw [declared, noAlias, entry]
      rw [result_eventsOfName, result_eventsOfName,
        result_findAlias_elsewhere h hroom hdeclared leads]
  | @reexported specifier other target noAlias noImport entry leads =>
      have hdeclared : declared m name = .elsewhere specifier other := by
        rw [declared, noAlias, noImport, entry]
      rw [result_eventsOfName, result_eventsOfName,
        result_findAlias_elsewhere h hroom hdeclared leads]
  | renamed noAlias noImport noReexport entry differs =>
      have hdeclared : declared m name = .renamed other := by
        rw [declared, noAlias, noImport]
        dsimp only
        split
        · rename_i specifier given hreexport
          exact absurd hreexport (noReexport specifier given)
        · rw [entry]
          exact if_neg differs
      rw [result_eventsOfName, result_eventsOfName, findAlias_of_new h hroom, hdeclared]

end Following

section Running

theorem not_isName_of_union {t : List Char} {bodies : List (List Char)}
    (h : LiteralUnion t bodies) :
    isName t = false := by
  apply Bool.eq_false_iff.mpr
  intro hname
  have hnone := stringLiterals_of_isName hname
  rw [h.stringLiterals_eq, List.map_eq_nil_iff] at hnone
  exact h.ne_nil hnone

theorem outcome_resolveEvents_of_union {bodies : List (List Char)}
    (h : LiteralUnion (stripParens body) bodies) :
    outcome (resolveEvents project tree body m seen) cache =
      (.ok (distinct (bodies.map fun body => String.ofList (unescape body))), cache) := by
  rw [← reduction_of_union h m]
  exact outcome_resolveEvents_of_reduces (.read (not_isName_of_union h))

theorem uncons_fresh {link : Link} (h : Project.Fresh seen (link :: links)) :
    link ∉ seen ∧ Project.Fresh (seen ++ [link]) links := by
  obtain ⟨hlink, hlinks⟩ := List.nodup_cons.mp h.nodup
  refine ⟨h.unseen link List.mem_cons_self, hlinks, fun other hother hmem => ?_⟩
  rcases List.mem_append.mp hmem with hseen | hsame
  · exact h.unseen other (List.mem_cons_of_mem link hother) hseen
  · rw [List.mem_singleton.mp hsame] at hother
    exact hlink hother

theorem length_concat_add (link : Link) :
    (seen ++ [link]).length + links.length = seen.length + (link :: links).length := by
  rw [List.length_append, List.length_singleton, List.length_cons]
  omega

/-- A chain within the bound is followed to the union at its end. -/
theorem NameChain.result_of_le {bodies : List (List Char)}
    (chain : NameChain project tree cache m name links last final)
    (hfresh : Project.Fresh seen links) (hbound : seen.length + links.length ≤ stepLimit)
    (hbody : last.typeAliases.get? final = some body)
    (hunion : LiteralUnion (stripParens body) bodies) :
    result (eventsOfName project tree name m seen) cache =
      .ok (distinct (bodies.map fun body => String.ofList (unescape body))) := by
  induction chain generalizing seen with
  | here m name =>
      obtain ⟨hnew, -⟩ := uncons_fresh hfresh
      rw [result_eventsOfName_of_declared hnew hbound hbody]
      exact congrArg Prod.fst (outcome_resolveEvents_of_union hunion)
  | step first rest ih =>
      obtain ⟨hnew, hrest⟩ := uncons_fresh hfresh
      rw [← length_concat_add] at hbound
      rw [first.result_eq hnew (by rw [List.length_append, List.length_singleton] at hbound; omega)]
      exact ih hrest hbound hbody

/-- A chain that goes past the bound is given up at its first link there. -/
theorem NameChain.result_of_gt
    (chain : NameChain project tree cache m name links last final)
    (hfresh : Project.Fresh seen links) (hseen : seen.length ≤ stepLimit)
    (hbound : stepLimit < seen.length + links.length) :
    ∃ path beyond, links[stepLimit - seen.length]? = some (path, beyond) ∧
      result (eventsOfName project tree name m seen) cache =
        .error (.contract (.tooDeep beyond stepLimit path)) := by
  induction chain generalizing seen with
  | here m name =>
      obtain ⟨hnew, -⟩ := uncons_fresh hfresh
      have hfull : stepLimit ≤ seen.length := Nat.le_of_lt_succ hbound
      exact ⟨m.path, name, by rw [Nat.sub_eq_zero_of_le hfull]; rfl,
        result_eventsOfName_of_full hnew hfull⟩
  | @step m target last name other final links first rest ih =>
      obtain ⟨hnew, hrest⟩ := uncons_fresh hfresh
      rcases Nat.lt_or_ge seen.length stepLimit with hroom | hfull
      · rw [← length_concat_add] at hbound
        have hlength : (seen ++ [(m.path, name)]).length = seen.length + 1 := by
          rw [List.length_append, List.length_singleton]
        obtain ⟨path, beyond, hover, hresult⟩ := ih hrest (by omega) hbound
        refine ⟨path, beyond, ?_, (first.result_eq hnew hroom).trans hresult⟩
        rw [← hover, hlength, show stepLimit - seen.length = stepLimit - (seen.length + 1) + 1 by
          omega, List.getElem?_cons_succ]
      · exact ⟨m.path, name, by rw [Nat.sub_eq_zero_of_le hfull]; rfl,
          result_eventsOfName_of_full hnew hfull⟩

/-- A chain that comes back to one of its links within the bound is a cycle. -/
theorem NameChain.result_of_mem {again : Module} {back : String}
    (chain : NameChain project tree cache m name links last final)
    (hfresh : Project.Fresh seen links) (hbound : seen.length + links.length ≤ stepLimit)
    (step : NameStep project tree cache last final again back)
    (hmem : (again.path, back) ∈ seen ++ links) :
    result (eventsOfName project tree name m seen) cache =
      .error (.contract (.cycle (seen ++ (links ++ [(again.path, back)])))) := by
  induction chain generalizing seen with
  | here m name =>
      obtain ⟨hnew, -⟩ := uncons_fresh hfresh
      rw [step.result_eq hnew hbound, result_eventsOfName_of_mem hmem, List.append_assoc]
  | step first rest ih =>
      obtain ⟨hnew, hrest⟩ := uncons_fresh hfresh
      rw [← length_concat_add] at hbound
      rw [first.result_eq hnew (by rw [List.length_append, List.length_singleton] at hbound; omega),
        ih hrest hbound step (by rwa [List.append_assoc]), List.append_assoc]
      rfl

/-- Whether supported events are reduced along names without end, and the bound on the links that
are met is the only one. -/
structure BoundIsExact (project : Project) (tree : Tree) : Prop where
  /-- A search goes on with one link more each time, as long as the links are new and within the
  bound. -/
  searches : ∀ name m seen, project.findAlias tree name m seen =
    project.searchStep tree
      (fun other target => project.findAlias tree other target (seen ++ [(m.path, name)]))
      name m seen
  /-- Every reduction ends, and each name that it follows extends the links met within the bound. -/
  ends : ∀ e m seen cache, ∃ trace,
    Reduces project tree e m seen cache trace
      (outcome (resolveEvents project tree e m seen) cache) ∧
    (seen :: trace).IsChain Extends
  /-- The union at the end of a chain is read if and only if the chain is within the bound. -/
  union : ∀ {cache e m links last final body bodies}, isName (stripParens e) = true →
    NameChain project tree cache m (String.ofList (stripParens e)) links last final →
    links.Nodup → last.typeAliases.get? final = some body →
    LiteralUnion (stripParens body) bodies →
      if links.length ≤ stepLimit then
        result (resolveEvents project tree e m []) cache =
          .ok (distinct (bodies.map fun body => String.ofList (unescape body)))
      else ∃ path name, links[stepLimit]? = some (path, name) ∧
        result (resolveEvents project tree e m []) cache =
          .error (.contract (.tooDeep name stepLimit path))
  /-- A chain that comes back to a link within the bound is a cycle. -/
  cycle : ∀ {cache e m links last final again back}, isName (stripParens e) = true →
    NameChain project tree cache m (String.ofList (stripParens e)) links last final →
    links.Nodup → links.length ≤ stepLimit →
    NameStep project tree cache last final again back → (again.path, back) ∈ links →
      result (resolveEvents project tree e m []) cache =
        .error (.contract (.cycle (links ++ [(again.path, back)])))

theorem boundIsExact (project : Project) (tree : Tree) : BoundIsExact project tree where
  searches := project.findAlias_eq_searchStep tree
  ends := exists_reduces_resolveEvents project tree
  union := by
    intro cache e m links last final body bodies hname chain hnodup hbody hunion
    have hfresh : Project.Fresh [] links := ⟨hnodup, fun _ _ => List.not_mem_nil⟩
    have hresult : result (resolveEvents project tree e m []) cache =
        result (eventsOfName project tree (String.ofList (stripParens e)) m []) cache :=
      congrArg Prod.fst (outcome_resolveEvents_of_name hname)
    rw [hresult]
    split
    · rename_i hle
      exact chain.result_of_le hfresh (by simpa using hle) hbody hunion
    · rename_i hgt
      exact chain.result_of_gt hfresh (Nat.zero_le stepLimit) (by simpa using hgt)
  cycle := by
    intro cache e m links last final again back hname chain hnodup hle step hmem
    have hfresh : Project.Fresh [] links := ⟨hnodup, fun _ _ => List.not_mem_nil⟩
    exact (congrArg Prod.fst (outcome_resolveEvents_of_name hname)).trans
      (chain.result_of_mem hfresh (by simpa using hle) step (by simpa using hmem))

end Running

section Ladder

/-- The names of a ladder, one more letter on each rung. -/
def rung (k : Nat) : List Char := List.replicate (k + 1) 'a'

/-- The aliases of a ladder: each rung leads to the one below, and the lowest to a literal. -/
def rungs : Nat → Entries (List Char)
  | 0 => [(String.ofList (rung 0), "'a'".toList)]
  | n + 1 => (String.ofList (rung (n + 1)), rung n) :: rungs n

/-- A module that declares a ladder and nothing else. -/
def ladder (n : Nat) : Module where
  path := ⟨.top, ["a.ts"]⟩
  text := []
  imports := .empty
  reexports := .empty
  typeAliases := rungs n
  localExports := []

/-- The links down a ladder. -/
def down : Nat → List Link
  | 0 => [(⟨.top, ["a.ts"]⟩, String.ofList (rung 0))]
  | k + 1 => (⟨.top, ["a.ts"]⟩, String.ofList (rung (k + 1))) :: down k

theorem rung_inj {k l : Nat} (h : String.ofList (rung k) = String.ofList (rung l)) : k = l := by
  have hlength := congrArg List.length (String.ofList_injective h)
  simpa [rung] using hlength

theorem get?_rungs_zero (n : Nat) :
    (rungs n).get? (String.ofList (rung 0)) = some "'a'".toList := by
  induction n with
  | zero => exact if_pos rfl
  | succ n ih =>
      rw [rungs, Entries.get?, if_neg, ih]
      exact fun h => absurd (rung_inj h) (Nat.succ_ne_zero n)

theorem get?_rungs_succ {k n : Nat} (h : k < n) :
    (rungs n).get? (String.ofList (rung (k + 1))) = some (rung k) := by
  induction n with
  | zero => exact absurd h (Nat.not_lt_zero k)
  | succ n ih =>
      rw [rungs, Entries.get?]
      by_cases hkn : k = n
      · rw [hkn, if_pos rfl]
      · rw [if_neg, ih (by omega)]
        exact fun heq => hkn (by have := rung_inj heq; omega)

theorem isName_rung (k : Nat) : isName (rung k) = true := by
  have hstart : isNameStart 'a' = true := by decide
  have hchar : isNameChar 'a' = true := by decide
  rw [rung, List.replicate_succ, isName, hstart]
  simp [hchar]

theorem stripParens_rung (k : Nat) : stripParens (rung k) = rung k := by
  have hname := isName_rung k
  refine stripParens_wrapped (balanced_words fun c hc => Or.inl (isNameChar_of_isName hname c hc))
    (solid_of_isName hname) ?_ 0
  intro hhead
  cases hhead

theorem chain_ladder {k n : Nat} (h : k ≤ n) :
    NameChain project tree cache (ladder n) (String.ofList (rung k)) (down k) (ladder n)
      (String.ofList (rung 0)) := by
  induction k with
  | zero => exact .here (ladder n) _
  | succ k ih =>
      have hstep : NameStep project tree cache (ladder n) (String.ofList (rung (k + 1))) (ladder n)
          (String.ofList (stripParens (rung k))) :=
        .aliased (get?_rungs_succ h) (by rw [stripParens_rung, isName_rung])
      rw [stripParens_rung] at hstep
      exact .step hstep (ih (by omega))

theorem length_down (k : Nat) : (down k).length = k + 1 := by
  induction k with
  | zero => rfl
  | succ k ih => rw [down, List.length_cons, ih]

theorem nodup_down (k : Nat) : (down k).Nodup := by
  have hle {k l : Nat} {path : Path} (h : (path, String.ofList (rung l)) ∈ down k) : l ≤ k := by
    induction k with
    | zero => exact (rung_inj (Prod.mk.inj (List.mem_singleton.mp h)).2).le
    | succ k ih =>
        rcases List.mem_cons.mp h with h | h
        · exact (rung_inj (Prod.mk.inj h).2).le
        · exact (ih h).trans (Nat.le_succ k)
  induction k with
  | zero => exact List.pairwise_singleton _ _
  | succ k ih => exact List.nodup_cons.mpr ⟨fun h => absurd (hle h) (by omega), ih⟩

/-- A ladder is read if and only if it has no more rungs than the bound. -/
theorem ladder_read_iff (project : Project) (tree : Tree) (cache : Cache) (n : Nat) :
    (∃ events, result (resolveEvents project tree (rung n) (ladder n) []) cache = .ok events) ↔
      n + 1 ≤ stepLimit := by
  have hresult : result (resolveEvents project tree (rung n) (ladder n) []) cache =
      result (eventsOfName project tree (String.ofList (rung n)) (ladder n) []) cache := by
    have hname : isName (stripParens (rung n)) = true := by rw [stripParens_rung, isName_rung]
    have houtcome : outcome (resolveEvents project tree (rung n) (ladder n) []) cache =
        outcome (eventsOfName project tree (String.ofList (stripParens (rung n))) (ladder n) [])
          cache := outcome_resolveEvents_of_name hname
    rw [stripParens_rung] at houtcome
    exact congrArg Prod.fst houtcome
  have hchain : NameChain project tree cache (ladder n) (String.ofList (rung n)) (down n) (ladder n)
      (String.ofList (rung 0)) := chain_ladder (Nat.le_refl n)
  have hfresh : Project.Fresh [] (down n) := ⟨nodup_down n, fun _ _ => List.not_mem_nil⟩
  rw [hresult]
  constructor
  · rintro ⟨events, hevents⟩
    refine Nat.le_of_not_lt fun hlt => ?_
    obtain ⟨path, beyond, -, herror⟩ := hchain.result_of_gt hfresh (Nat.zero_le stepLimit)
      (by rw [length_down]; simpa using hlt)
    cases hevents.symm.trans herror
  · intro hle
    have hquoted : Quoted '\'' "a".toList := .plain (by decide) (by decide) .nil
    have hliteral : Balanced .brackets false ("'a'".toList ++ []) :=
      .literal (terminated_quoted (Or.inr rfl) hquoted) .nil
    have hstrip : stripParens "'a'".toList = "'a'".toList :=
      stripParens_wrapped hliteral (solid_between (by decide) (by decide) "a".toList) (by decide) 0
    have hunion : LiteralUnion (stripParens "'a'".toList) ["a".toList] := by
      rw [hstrip]
      exact .plain .nil (.last (Or.inr rfl) hquoted (.gap .nil))
    exact ⟨_, hchain.result_of_le hfresh (by rw [length_down]; simpa using hle)
      (get?_rungs_zero n) hunion⟩

end Ladder

end PluginContract.Contract
