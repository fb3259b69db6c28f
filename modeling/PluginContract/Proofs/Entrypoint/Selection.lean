import Mathlib.Data.List.Perm.Basic
import PluginContract.Entrypoint.Selection
import PluginContract.Proofs.Files.Places
import PluginContract.Proofs.Resolution.Snapshot

/-!
# The choice of the entrypoint

The calls of the preferred function decide if there are any, and those of the other
function decide otherwise. What is chosen, or why nothing is, depends on the calls of the
deciding function alone: on whether there is one of them, and on its type arguments. So
neither calls of the other function beside preferred ones nor the order of the files
matter.
-/

namespace PluginContract.Entrypoint

open Text Files Source Resolution

/-- The calls of a function in modules, in the order of the modules. -/
def callsIn (function : String) (modules : List Module) : List Callsite :=
  modules.flatMap fun m => callsites m function

/-- The places of the calls of a function in modules, one for each call. -/
def placesIn (function : String) (modules : List Module) : List String :=
  modules.flatMap fun m => (callsites m function).map fun c => m.location c.offset

/-- All files can be read, and stand for these modules in a run with this cache. -/
def Reads (tree : Tree) (cache : Cache) (files : List Path) (modules : List Module) : Prop :=
  List.Forall₂ (fun file m => cache.source tree file = .ok m) files modules

/-- Whether it is the calls of this function that decide. -/
def Decides (function : String) (modules : List Module) : Prop :=
  function = preferred ∨ function = alternative ∧ callsIn preferred modules = []

/-- The result of the choice is an entrypoint, or one of three errors, each in just the case that
its name says. -/
structure Selects (modules : List Module) (r : Except Failure Callsite) : Prop where
  chosen : ∀ c, r = .ok c ↔ ∃ function, Decides function modules ∧
    callsIn function modules = [c] ∧ 4 ≤ c.typeArguments.length
  ambiguous : ∀ function places,
    r = .error (.contract (.ambiguousEntrypoint function places)) ↔
      Decides function modules ∧ 2 ≤ (callsIn function modules).length ∧
        places = placesIn function modules
  incomplete : ∀ function place count,
    r = .error (.contract (.incompleteGenerics function place count)) ↔
      Decides function modules ∧ ∃ c, callsIn function modules = [c] ∧
        placesIn function modules = [place] ∧ c.typeArguments.length = count ∧ count < 4
  missing : ∀ files, r = .error (.contract (.entrypointNotFound files)) ↔
    callsIn preferred modules = [] ∧ callsIn alternative modules = [] ∧ files = modules.length

/-- The kind of a failure, if it is a contract error. -/
def kind? : Failure → Option ContractKind
  | .contract error => some error.kind
  | _ => none

/-- A choice, with nothing but the kind left of an error. -/
def verdict (r : Except Failure Callsite) : Except (Option ContractKind) Callsite :=
  r.mapError kind?

/-- A call at another offset. -/
def Callsite.moveTo (c : Callsite) (offset : Nat) : Callsite := { c with offset }

section Sources

variable {tree : Tree} {cache : Cache} {path : Path} {m : Module}

theorem path_source (h : cache.source tree path = .ok m) : m.path = path.resolve tree.home := by
  rw [Cache.source] at h
  split at h
  · rename_i found hfind
    cases h
    rw [Cache.find?] at hfind
    simpa using List.find?_some hfind
  · rw [readModule] at h
    split at h <;> cases h
    rfl

/-- The path of a module stands for it. -/
theorem source_path (h : cache.source tree path = .ok m) : cache.source tree m.path = .ok m := by
  rw [← h, path_source h, Cache.source, Cache.source, Path.resolve_resolve]

end Sources

section Steps

variable {α β : Type} {tree : Tree} {cache : Cache} {files : List Path} {modules : List Module}
  {function : String} {c : Callsite} {m : Module}

theorem steady_mapM {f : α → Resolving β} (hf : ∀ a, Steady tree (f a)) (l : List α) :
    Steady tree (l.mapM f) := by
  induction l with
  | nil => exact .pure []
  | cons a l ih =>
      rw [List.mapM_cons]
      exact .bind (hf a) fun b => .bind ih fun bs => .pure (b :: bs)

theorem result_mapM {f : α → Resolving β} (hf : ∀ a, Steady tree (f a)) {as : List α}
    {bs : List β} (h : List.Forall₂ (fun a b => result (f a) cache = .ok b) as bs) :
    result (as.mapM f) cache = .ok bs := by
  induction h with
  | nil => rfl
  | @cons a b as bs ha _ ih =>
      have hrest (b : β) : Steady tree (as.mapM f >>= fun bs => pure (b :: bs)) :=
        .bind (steady_mapM hf as) fun bs => .pure (b :: bs)
      rw [List.mapM_cons, result_bind (hf a) hrest, ha]
      refine (result_bind (steady_mapM hf as) (fun bs => .pure (b :: bs)) cache).trans ?_
      rw [ih]
      rfl

theorem steady_locationOf (c : Callsite) : Steady tree (locationOf tree c) :=
  .bind (.getModule c.file) fun m => .pure (m.location c.offset)

theorem result_locationOf (h : cache.source tree c.file = .ok m) :
    result (locationOf tree c) cache = .ok (m.location c.offset) := by
  rw [locationOf, result_getModule_bind fun m => .pure (m.location c.offset), h]
  rfl

theorem steady_collect (function : String) (files : List Path) :
    Steady tree (collect tree function files) := by
  induction files with
  | nil => exact .pure []
  | cons file rest ih =>
      exact .bind (.getModule file) fun m => .bind ih fun others =>
        .pure (callsites m function ++ others)

theorem steady_decide? (function : String) (calls : List Callsite) :
    Steady tree (decide? tree function calls) := by
  match calls with
  | [] => exact .pure none
  | [c] =>
      rw [decide?]
      split
      · exact .bind (steady_locationOf c) fun place => .reject _
      · exact .pure (some c)
  | c :: d :: rest =>
      exact .bind (steady_mapM steady_locationOf _) fun places => .reject _

theorem result_collect (h : Reads tree cache files modules) :
    result (collect tree function files) cache = .ok (callsIn function modules) := by
  induction h with
  | nil => rfl
  | @cons file m rest modules hfile _ ih =>
      have hrest (m : Module) : Steady tree (collect tree function rest >>= fun others =>
          pure (callsites m function ++ others)) :=
        .bind (steady_collect function rest) fun others => .pure (callsites m function ++ others)
      rw [collect, result_getModule_bind hrest, hfile]
      refine (result_bind (steady_collect function rest)
        (fun others => .pure (callsites m function ++ others)) cache).trans ?_
      rw [ih]
      rfl

theorem file_of_mem_callsites (h : c ∈ callsites m function) : c.file = m.path := by
  obtain ⟨found, -, hc⟩ := List.mem_filterMap.mp h
  rw [callsiteAt?] at hc
  split at hc
  · cases hc
  dsimp only at hc
  split at hc
  · cases hc
  split at hc
  · obtain ⟨_, -, rfl⟩ := Option.map_eq_some_iff.mp hc
    rfl
  · cases hc

theorem length_placesIn (function : String) (modules : List Module) :
    (placesIn function modules).length = (callsIn function modules).length := by
  simp [placesIn, callsIn, List.length_flatMap]

/-- The calls in modules that can be read are where they are said to be. -/
theorem located (h : Reads tree cache files modules) (function : String) :
    List.Forall₂ (fun c place => result (locationOf tree c) cache = .ok place)
      (callsIn function modules) (placesIn function modules) := by
  induction h with
  | nil => exact .nil
  | @cons file m rest modules hfile _ ih =>
      refine List.rel_append ?_ ih
      refine List.forall₂_map_right_iff.mpr (List.forall₂_same.mpr fun c hc => ?_)
      refine result_locationOf ?_
      rw [file_of_mem_callsites hc]
      exact source_path hfile

end Steps

section Choice

variable {tree : Tree} {cache : Cache} {files : List Path} {modules modules' : List Module}
  {function function' : String} {r r' : Except Failure Callsite}

/-- What the calls of the deciding function come to. -/
inductive Comes (modules : List Module) : Except Failure Callsite → Prop
  | call {function : String} {c : Callsite} (decides : Decides function modules)
      (only : callsIn function modules = [c])
      (full : typeArgumentCount ≤ c.typeArguments.length) : Comes modules (.ok c)
  | short {function place : String} {c : Callsite} (decides : Decides function modules)
      (only : callsIn function modules = [c]) (stands : placesIn function modules = [place])
      (few : c.typeArguments.length < typeArgumentCount) :
      Comes modules
        (.error (.contract (.incompleteGenerics function place c.typeArguments.length)))
  | several {function : String} (decides : Decides function modules)
      (many : 2 ≤ (callsIn function modules).length) :
      Comes modules
        (.error (.contract (.ambiguousEntrypoint function (placesIn function modules))))
  | none (preferred_none : callsIn preferred modules = [])
      (alternative_none : callsIn alternative modules = []) :
      Comes modules (.error (.contract (.entrypointNotFound modules.length)))

section Decision

variable {c : Callsite} {place : String} {places : List String} {calls : List Callsite}

theorem result_decide?_of_full (full : typeArgumentCount ≤ c.typeArguments.length) :
    result (decide? tree function [c]) cache = .ok (some c) := by
  rw [decide?, if_neg (Nat.not_lt.mpr full)]
  rfl

theorem result_decide?_of_short (few : c.typeArguments.length < typeArgumentCount)
    (stands : result (locationOf tree c) cache = .ok place) :
    result (decide? tree function [c]) cache =
      .error (.contract (.incompleteGenerics function place c.typeArguments.length)) := by
  rw [decide?, if_pos few, result_bind (steady_locationOf c) fun place => .reject _, stands]
  rfl

theorem result_decide?_of_several (many : 2 ≤ calls.length)
    (stand : result (calls.mapM (locationOf tree)) cache = .ok places) :
    result (decide? tree function calls) cache =
      .error (.contract (.ambiguousEntrypoint function places)) := by
  match calls with
  | c :: d :: rest =>
      refine
        (result_bind (steady_mapM steady_locationOf _) (fun places => .reject _) cache).trans ?_
      rw [stand]
      rfl

end Decision

/-- The choice among the calls of a function, and what is done if there are none. -/
def chooseOr (tree : Tree) (function : String) (files : List Path)
    (otherwise : Resolving Callsite) : Resolving Callsite := do
  match ← decide? tree function (← collect tree function files) with
  | some c => return c
  | none => otherwise

theorem locate_eq (tree : Tree) (files : List Path) :
    locate tree files = chooseOr tree preferred files
      (chooseOr tree alternative files (reject (.entrypointNotFound files.length))) := rfl

section ChooseOr

variable {otherwise : Resolving Callsite} (steady : Steady tree otherwise)
include steady

theorem steady_otherwise (found : Option Callsite) :
    Steady tree (match found with
      | some c => pure c
      | none => otherwise) := by
  cases found with
  | some c => exact .pure c
  | none => exact steady

theorem steady_chooseOr (function : String) (files : List Path) :
    Steady tree (chooseOr tree function files otherwise) :=
  .bind (steady_collect function files) fun calls =>
    .bind (steady_decide? function calls) (steady_otherwise steady)

theorem result_chooseOr (reads : Reads tree cache files modules) :
    result (chooseOr tree function files otherwise) cache =
      (result (decide? tree function (callsIn function modules)) cache).bind fun found =>
        found.elim (result otherwise cache) .ok := by
  rw [chooseOr, result_bind (steady_collect function files) fun calls =>
    .bind (steady_decide? function calls) (steady_otherwise steady), result_collect reads]
  refine (result_bind (steady_decide? function _) (steady_otherwise steady) cache).trans
    (congrArg _ (funext ?_))
  rintro (_ | c) <;> rfl

end ChooseOr

theorem steady_missing (tree : Tree) (count : Nat) :
    Steady tree (reject (.entrypointNotFound count) : Resolving Callsite) := .reject _

section Locate

variable (reads : Reads tree cache files modules)
include reads

/-- The decision on the deciding calls is the choice, if there are any. -/
theorem result_locate_of_decide? (decides : Decides function modules)
    (h : result (decide? tree function (callsIn function modules)) cache = r.map some) :
    result (locate tree files) cache = r := by
  have missing := steady_missing tree files.length
  rw [locate_eq, result_chooseOr (steady_chooseOr missing alternative files) reads]
  rcases decides with rfl | ⟨rfl, hpreferred⟩
  · rw [h]
    cases r <;> rfl
  · rw [hpreferred, result_chooseOr missing reads, h]
    cases r <;> rfl

theorem result_locate_of_none (preferred_none : callsIn preferred modules = [])
    (alternative_none : callsIn alternative modules = []) :
    result (locate tree files) cache = .error (.contract (.entrypointNotFound modules.length)) := by
  have missing := steady_missing tree files.length
  rw [locate_eq, result_chooseOr (steady_chooseOr missing alternative files) reads,
    result_chooseOr missing reads, preferred_none, alternative_none,
    ← List.Forall₂.length_eq reads]
  rfl

theorem Comes.result_locate_eq (h : Comes modules r) : result (locate tree files) cache = r := by
  cases h with
  | call decides only full =>
      refine result_locate_of_decide? reads decides ?_
      rw [only]
      exact result_decide?_of_full full
  | @short function place c decides only stands few =>
      have h := located reads function
      rw [only, stands] at h
      obtain ⟨hplace, -⟩ := List.forall₂_cons.mp h
      refine result_locate_of_decide? reads decides ?_
      rw [only]
      exact result_decide?_of_short few hplace
  | several decides many =>
      refine result_locate_of_decide? reads decides ?_
      exact result_decide?_of_several many (result_mapM steady_locationOf (located reads _))
  | none preferred_none alternative_none =>
      exact result_locate_of_none reads preferred_none alternative_none

end Locate

theorem Decides.comes (decides : Decides function modules)
    (hsome : callsIn function modules ≠ []) : ∃ r, Comes modules r := by
  match calls : callsIn function modules with
  | [] => exact absurd calls hsome
  | [c] =>
      by_cases few : c.typeArguments.length < typeArgumentCount
      · have length := length_placesIn function modules
        rw [calls] at length
        obtain ⟨place, stands⟩ := List.length_eq_one_iff.mp length
        exact ⟨_, .short decides calls stands few⟩
      · exact ⟨_, .call decides calls (Nat.le_of_not_lt few)⟩
  | c :: d :: rest => exact ⟨_, .several decides (by simp [calls])⟩

theorem exists_comes (modules : List Module) : ∃ r, Comes modules r := by
  by_cases hpreferred : callsIn preferred modules = []
  · by_cases halternative : callsIn alternative modules = []
    · exact ⟨_, .none hpreferred halternative⟩
    · exact Decides.comes (Or.inr ⟨rfl, hpreferred⟩) halternative
  · exact Decides.comes (Or.inl rfl) hpreferred

/-- The choice among files that can be read is what their calls come to. -/
theorem result_locate_eq_iff (reads : Reads tree cache files modules) :
    result (locate tree files) cache = r ↔ Comes modules r := by
  refine ⟨?_, fun h => h.result_locate_eq reads⟩
  rintro rfl
  obtain ⟨r, h⟩ := exists_comes modules
  rwa [h.result_locate_eq reads]

theorem selects_locate (reads : Reads tree cache files modules) :
    Selects modules (result (locate tree files) cache) where
  chosen c := by
    rw [result_locate_eq_iff reads]
    constructor
    · rintro (⟨decides, only, full⟩ | _)
      exact ⟨_, decides, only, full⟩
    · rintro ⟨function, decides, only, full⟩
      exact .call decides only full
  ambiguous function places := by
    rw [result_locate_eq_iff reads]
    constructor
    · rintro (_ | _ | ⟨decides, many⟩ | _)
      exact ⟨decides, many, rfl⟩
    · rintro ⟨decides, many, rfl⟩
      exact .several decides many
  incomplete function place count := by
    rw [result_locate_eq_iff reads]
    constructor
    · rintro (_ | ⟨decides, only, stands, few⟩ | _)
      exact ⟨decides, _, only, stands, rfl, few⟩
    · rintro ⟨decides, c, only, stands, rfl, few⟩
      exact .short decides only stands few
  missing count := by
    rw [result_locate_eq_iff reads]
    constructor
    · rintro (_ | _ | _ | ⟨hpreferred, halternative⟩)
      exact ⟨hpreferred, halternative, rfl⟩
    · rintro ⟨hpreferred, halternative, rfl⟩
      exact .none hpreferred halternative

/-- Where the deciding calls correspond, up to their order, the choices do. -/
theorem verdict_eq_map {tree' : Tree} {cache' : Cache} {files' : List Path}
    {f : Callsite → Callsite} (hf : ∀ c, (f c).typeArguments = c.typeArguments)
    (reads' : Reads tree' cache' files' modules') (h : Comes modules r)
    (correspond : ∀ function, Decides function modules → callsIn function modules ≠ [] →
      Decides function modules' ∧
        (callsIn function modules').Perm ((callsIn function modules).map f))
    (neither : callsIn preferred modules = [] → callsIn alternative modules = [] →
      callsIn preferred modules' = [] ∧ callsIn alternative modules' = []) :
    verdict (result (locate tree' files') cache') = (verdict r).map f := by
  cases h with
  | @call function c decides only full =>
      obtain ⟨decides', calls'⟩ := correspond function decides (by simp [only])
      rw [only, List.map_singleton, List.perm_singleton] at calls'
      have chosen : Comes modules' (.ok (f c)) := .call decides' calls' (by rwa [hf])
      rw [chosen.result_locate_eq reads']
      rfl
  | @short function place c decides only stands few =>
      obtain ⟨decides', calls'⟩ := correspond function decides (by simp [only])
      rw [only, List.map_singleton, List.perm_singleton] at calls'
      have length := length_placesIn function modules'
      rw [calls'] at length
      obtain ⟨place', stands'⟩ := List.length_eq_one_iff.mp length
      have incomplete := Comes.short decides' calls' stands' (by rwa [hf])
      rw [incomplete.result_locate_eq reads']
      rfl
  | @several function decides many =>
      have hsome : callsIn function modules ≠ [] := List.ne_nil_of_length_pos (by omega)
      obtain ⟨decides', calls'⟩ := correspond function decides hsome
      have many' : 2 ≤ (callsIn function modules').length := by
        rwa [calls'.length_eq, List.length_map]
      rw [(Comes.several decides' many').result_locate_eq reads']
      rfl
  | none preferred_none alternative_none =>
      obtain ⟨hpreferred, halternative⟩ := neither preferred_none alternative_none
      rw [(Comes.none hpreferred halternative).result_locate_eq reads']
      rfl

/-- Calls of the other function change nothing beside preferred ones, which may be elsewhere in
their files. -/
theorem verdict_of_preferred {tree' : Tree} {cache' : Cache} {files' : List Path}
    (reads : Reads tree cache files modules) (reads' : Reads tree' cache' files' modules')
    (offset : Callsite → Nat) (hsome : callsIn preferred modules ≠ [])
    (same : callsIn preferred modules' =
      (callsIn preferred modules).map fun c => c.moveTo (offset c)) :
    verdict (result (locate tree' files') cache') =
      (verdict (result (locate tree files) cache)).map fun c => c.moveTo (offset c) := by
  refine verdict_eq_map (fun _ => rfl) reads' ((result_locate_eq_iff reads).mp rfl) ?_
    fun hnone _ => absurd hnone hsome
  rintro function (rfl | ⟨rfl, hnone⟩) -
  · exact ⟨Or.inl rfl, .of_eq same⟩
  · exact absurd hnone hsome

theorem verdict_of_perm {files' : List Path} (reads : Reads tree cache files modules)
    (h : files'.Perm files) :
    verdict (result (locate tree files') cache) = verdict (result (locate tree files) cache) := by
  obtain ⟨modules', reads', hmodules⟩ := List.perm_comp_forall₂ h reads
  have hcalls (function : String) :
      (callsIn function modules').Perm (callsIn function modules) :=
    hmodules.flatMap_right _
  have hnil {function : String} (hnone : callsIn function modules = []) :
      callsIn function modules' = [] := by
    have h := hcalls function
    rwa [hnone, List.perm_nil] at h
  have heq := verdict_eq_map (f := id) (fun _ => rfl) reads'
    ((result_locate_eq_iff reads).mp rfl) ?_ fun hp ha => ⟨hnil hp, hnil ha⟩
  · rw [heq]
    cases verdict (result (locate tree files) cache) <;> rfl
  · intro function decides _
    rw [List.map_id]
    exact ⟨decides.imp_right (And.imp_right hnil), hcalls function⟩

end Choice

/-- The choice of the entrypoint among files that can all be read. -/
theorem locate_selects {tree : Tree} {cache : Cache} {files : List Path} {modules : List Module}
    (reads : Reads tree cache files modules) :
    Selects modules (result (locate tree files) cache) ∧
    (∀ (tree' : Tree) (cache' : Cache) (files' : List Path) (modules' : List Module)
        (offset : Callsite → Nat), Reads tree' cache' files' modules' →
      callsIn preferred modules ≠ [] →
      callsIn preferred modules' =
        (callsIn preferred modules).map (fun c => c.moveTo (offset c)) →
      verdict (result (locate tree' files') cache') =
        (verdict (result (locate tree files) cache)).map fun c => c.moveTo (offset c)) ∧
    ∀ files' : List Path, files'.Perm files →
      verdict (result (locate tree files') cache) =
        verdict (result (locate tree files) cache) :=
  ⟨selects_locate reads,
    fun _ _ _ _ offset reads' hsome same => verdict_of_preferred reads reads' offset hsome same,
    fun _ => verdict_of_perm reads⟩

/-- A tree with one file, and a call of the preferred function in it. -/
def preferredAlone : Tree :=
  ⟨[], [(["a.ts"], .file (Utf8.encode "createPlugin<A,B,C,D>()".toList))], .usual⟩

/-- The same call after a line feed, and a file with a call of the other function. -/
def preferredFirst : Tree :=
  ⟨[], [(["a.ts"], .file (Utf8.encode "\ncreatePlugin<A,B,C,D>()".toList)),
    (["b.ts"], .file (Utf8.encode "createActionsPlugin<E>()".toList))], .usual⟩

theorem locate_selects_preferredAlone :
    let call : Callsite := ⟨preferred, ⟨.top, ["a.ts"]⟩, [['A'], ['B'], ['C'], ['D']], [], 0⟩
    result (locate preferredAlone [⟨.top, ["a.ts"]⟩]) .empty = .ok call ∧
      verdict (result (locate preferredFirst [⟨.top, ["b.ts"]⟩, ⟨.top, ["a.ts"]⟩]) .empty) =
        .ok (call.moveTo 1) := by
  intro call
  have alone : Reads preferredAlone .empty [⟨.top, ["a.ts"]⟩]
      [Module.ofText ⟨.top, ["a.ts"]⟩ "createPlugin<A,B,C,D>()".toList] := .cons rfl .nil
  have first : Reads preferredFirst .empty [⟨.top, ["a.ts"]⟩, ⟨.top, ["b.ts"]⟩]
      [Module.ofText ⟨.top, ["a.ts"]⟩ "\ncreatePlugin<A,B,C,D>()".toList,
        Module.ofText ⟨.top, ["b.ts"]⟩ "createActionsPlugin<E>()".toList] :=
    .cons rfl (.cons rfl .nil)
  have calls : callsIn preferred
      [Module.ofText ⟨.top, ["a.ts"]⟩ "createPlugin<A,B,C,D>()".toList] = [call] := by
    decide +kernel
  obtain ⟨selects, besides, -⟩ := locate_selects alone
  obtain ⟨-, -, reordered⟩ := locate_selects first
  have chosen : result (locate preferredAlone [⟨.top, ["a.ts"]⟩]) .empty = .ok call :=
    (selects.chosen call).mpr ⟨preferred, Or.inl rfl, calls, Nat.le_refl 4⟩
  refine ⟨chosen, ?_⟩
  rw [reordered _ (.swap _ _ _),
    besides _ _ _ _ (fun _ => 1) first (by rw [calls]; simp) (by rw [calls]; decide +kernel),
    chosen]
  rfl

end PluginContract.Entrypoint
