import PluginContract.Contract.Events
import PluginContract.Proofs.Resolution.Steps
import PluginContract.Proofs.Script.LiteralUnion

/-!
# Types that supported events are read from

An expression reaches a type by following names to their declarations. The reduction of
supported events reads the literals of the type that it reaches, whatever else that type
holds. So it reads unions of string literals only, if no other type that it can reach holds
a string literal.
-/

namespace PluginContract.Contract

open Text Files Script Source Resolution

/-- The types that an expression in a module stands for: its own, without parentheses around
it, and if that is a name, those of the declaration that the name refers to. The cache is
that of the run. -/
inductive Reaches (project : Project) (tree : Tree) :
    List Char → Module → List Link → Cache → List Char → Module → Cache → Prop
  | here {e : List Char} {m : Module} {seen : List Link} {cache : Cache} :
      Reaches project tree e m seen cache (stripParens e) m cache
  | follow {e t : List Char} {m target : Module} {seen : List Link}
      {cache middle after : Cache} {found : AliasDeclaration}
      (name : isName (stripParens e) = true)
      (search : outcome (project.findAlias tree (String.ofList (stripParens e)) m seen) cache =
        (.ok found, middle))
      (rest : Reaches project tree found.body found.module found.seen middle t target after) :
      Reaches project tree e m seen cache t target after

/-- Whether supported events are read from unions of string literals only, and completely. -/
structure ReadsOnlyUnions (project : Project) (tree : Tree) (e : List Char) (m : Module)
    (seen : List Link) (cache : Cache) : Prop where
  /-- The events are the members of a union that the expression reaches. -/
  members : ∀ events after,
    outcome (resolveEvents project tree e m seen) cache = (.ok events, after) →
      ∃ t target bodies, Reaches project tree e m seen cache t target after ∧
        LiteralUnion t bodies ∧
        events = distinct (bodies.map fun body => String.ofList (unescape body))
  /-- Any other type that is no name is rejected. -/
  rejects : ∀ t target after, Reaches project tree e m seen cache t target after →
    isName t = false → (∀ bodies, ¬ LiteralUnion t bodies) →
      outcome (resolveEvents project tree e m seen) cache =
        (.error (.contract (.eventsNotLiterals (String.ofList t) target.path)), after)

/-- What becomes of a type that is no name. -/
def reduction (t : List Char) (m : Module) : Except Failure (List String) :=
  if (stringLiterals t).isEmpty then
    .error (.contract (.eventsNotLiterals (String.ofList t) m.path))
  else .ok (distinct ((stringLiterals t).map String.ofList))

variable {project : Project} {tree : Tree} {e t : List Char} {m target : Module}
  {seen : List Link} {cache after : Cache}

theorem outcome_eventsWithin_of_not_name (h : isName (stripParens e) = false) (names : Nat) :
    outcome (eventsWithin project tree names e m seen) cache =
      (reduction (stripParens e) m, cache) := by
  rw [eventsWithin.eq_def, reduction]
  dsimp only
  cases (stringLiterals (stripParens e)).isEmpty with
  | true =>
      rw [h]
      rfl
  | false => rfl

theorem eventsWithin_of_name (h : isName (stripParens e) = true) (names : Nat) :
    eventsWithin project tree names e m seen =
      match names with
      | 0 => reject (.tooDeep (String.ofList (stripParens e)) stepLimit m.path)
      | names + 1 =>
          project.findAlias tree (String.ofList (stripParens e)) m seen >>= fun found =>
            eventsWithin project tree names found.body found.module found.seen := by
  rw [eventsWithin.eq_def]
  dsimp only
  rw [stringLiterals_of_isName h, h]
  rfl

/-- With enough names left, an expression is reduced to what becomes of the type that it
reaches. Each name takes a step of the search at least, so the bound on steps ends the names. -/
theorem outcome_eventsWithin_of_reaches
    (h : Reaches project tree e m seen cache t target after) (ht : isName t = false)
    {names : Nat} (hpos : 0 < names) (hnames : stepLimit < seen.length + names) :
    outcome (eventsWithin project tree names e m seen) cache = (reduction t target, after) := by
  induction h generalizing names with
  | here => exact outcome_eventsWithin_of_not_name ht names
  | @follow e t m target seen cache middle after found name search rest ih =>
      obtain ⟨names, rfl⟩ := Nat.exists_eq_add_of_lt hpos
      rw [Nat.zero_add, eventsWithin_of_name name, outcome_bind, search]
      have hseen := Project.findAlias_returns _ m seen cache found middle search
      apply ih ht
      · omega
      · omega

theorem reaches_of_outcome_eventsWithin {names : Nat} {events : List String}
    (h : outcome (eventsWithin project tree names e m seen) cache = (.ok events, after)) :
    ∃ t target, Reaches project tree e m seen cache t target after ∧ isName t = false ∧
      reduction t target = .ok events := by
  induction names generalizing e m seen cache with
  | zero =>
      cases hn : isName (stripParens e) with
      | true =>
          rw [eventsWithin_of_name hn] at h
          cases h
      | false =>
          rw [outcome_eventsWithin_of_not_name hn] at h
          obtain ⟨hr, rfl⟩ := Prod.mk.inj h
          exact ⟨stripParens e, m, .here, hn, hr⟩
  | succ names ih =>
      cases hn : isName (stripParens e) with
      | true =>
          rw [eventsWithin_of_name hn] at h
          obtain ⟨found, middle, search, hrest⟩ := outcome_bind_eq_ok_iff.mp h
          obtain ⟨t, target, hreach, ht, hr⟩ := ih hrest
          exact ⟨t, target, .follow hn search hreach, ht, hr⟩
      | false =>
          rw [outcome_eventsWithin_of_not_name hn] at h
          obtain ⟨hr, rfl⟩ := Prod.mk.inj h
          exact ⟨stripParens e, m, .here, hn, hr⟩

theorem outcome_resolveEvents_of_reaches
    (h : Reaches project tree e m seen cache t target after) (ht : isName t = false) :
    outcome (resolveEvents project tree e m seen) cache = (reduction t target, after) :=
  outcome_eventsWithin_of_reaches h ht (Nat.succ_pos stepLimit) (by omega)

/-- The literals of a union are all read, each event once. -/
theorem reduction_of_union {bodies : List (List Char)} (h : LiteralUnion t bodies) (m : Module) :
    reduction t m = .ok (distinct (bodies.map fun body => String.ofList (unescape body))) := by
  have hne : (bodies.map unescape).isEmpty = false := by
    rw [List.isEmpty_eq_false_iff, ne_eq, List.map_eq_nil_iff]
    exact h.ne_nil
  rw [reduction, h.stringLiterals_eq, hne, List.map_map]
  rfl

/-- Supported events are read from unions of string literals only, if and only if every other
type that the expression reaches holds no string literal at all. -/
theorem readsOnlyUnions_iff (project : Project) (tree : Tree) (e : List Char) (m : Module)
    (seen : List Link) (cache : Cache) :
    ReadsOnlyUnions project tree e m seen cache ↔
      ∀ t target after, Reaches project tree e m seen cache t target after →
        (∃ bodies, LiteralUnion t bodies) ∨ stringLiterals t = [] := by
  constructor
  · intro h t target after hreach
    by_cases hu : ∃ bodies, LiteralUnion t bodies
    · exact Or.inl hu
    · right
      cases ht : isName t with
      | true => exact stringLiterals_of_isName ht
      | false =>
          have hrejected := h.rejects t target after hreach ht (not_exists.mp hu)
          rw [outcome_resolveEvents_of_reaches hreach ht, reduction] at hrejected
          split at hrejected
          · rename_i hempty
            exact List.isEmpty_iff.mp hempty
          · cases hrejected
  · intro h
    constructor
    · intro events after hevents
      obtain ⟨t, target, hreach, -, hr⟩ := reaches_of_outcome_eventsWithin hevents
      rcases h t target after hreach with ⟨bodies, hu⟩ | hnone
      · refine ⟨t, target, bodies, hreach, hu, ?_⟩
        rw [reduction_of_union hu] at hr
        exact (Except.ok.inj hr).symm
      · rw [reduction, hnone] at hr
        cases hr
    · intro t target after hreach ht hu
      rcases h t target after hreach with hunion | hnone
      · exact absurd hunion (not_exists.mpr hu)
      · rw [outcome_resolveEvents_of_reaches hreach ht, reduction, hnone]
        rfl

/-- An expression that is neither a name nor a union is read all the same if it holds a
string literal. -/
theorem not_readsOnlyUnions_of_literal (hname : isName (stripParens e) = false)
    (hliteral : stringLiterals (stripParens e) ≠ [])
    (hunion : ∀ bodies, ¬ LiteralUnion (stripParens e) bodies) :
    ¬ ReadsOnlyUnions project tree e m seen cache := by
  intro h
  have hrejected := h.rejects _ _ _ .here hname hunion
  rw [outcome_resolveEvents_of_reaches .here hname, reduction] at hrejected
  split at hrejected
  · rename_i hempty
    exact hliteral (List.isEmpty_iff.mp hempty)
  · cases hrejected

theorem stripParens_genericApplication :
    stripParens "Exclude<All, \"a.b\">".toList = "Exclude<All, \"a.b\">".toList := by
  have htrim : trim "Exclude<All, \"a.b\">".toList = "Exclude<All, \"a.b\">".toList := by
    decide +kernel
  rw [stripParens, htrim, unwrap, dif_neg]
  rintro ⟨hhead, -⟩
  cases hhead

/-- The literal in a generic application is read, although the application may exclude it. -/
theorem not_readsOnlyUnions_genericApplication :
    ¬ ReadsOnlyUnions ⟨⟨.top, []⟩, []⟩
      ⟨[], [(["src"], .directory), (["src", "a.ts"], .file [])], .usual⟩
      "Exclude<All, \"a.b\">".toList (Module.ofText ⟨.top, ["src", "a.ts"]⟩ []) [] .empty := by
  apply not_readsOnlyUnions_of_literal <;> rw [stripParens_genericApplication]
  · decide +kernel
  · decide +kernel
  · intro bodies hu
    exact absurd (hu.startsUnion 'E' rfl) (by decide)

end PluginContract.Contract
