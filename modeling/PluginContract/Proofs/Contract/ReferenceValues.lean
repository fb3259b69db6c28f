import PluginContract.Contract.References
import PluginContract.Proofs.Entries
import PluginContract.Proofs.Noting

/-!
# The values behind references

References are grouped into one request for each module, and what is loaded is handed out again in
the order of the references. Every reference gets the value that the loader gave for its own module
and name, however the references repeat. A request that fails is the last one; a name that is
missing counts only after all modules have been loaded.
-/

namespace PluginContract.Contract

open Files Resolution

section Requests

/-- Whether a list asks once for each module of some references, for the names that are wanted from
it, both in the order in which they first appear. -/
structure Requests (references : List Reference) (wanted : Wanted) : Prop where
  modules : FirstsOf (references.map Reference.module) (wanted.map Prod.fst)
  names : ∀ path names, (path, names) ∈ wanted →
    FirstsOf ((references.filter fun r => r.module = path).map Reference.exported) names

variable {wanted : Wanted} {references : List Reference} {r : Reference} {path : Path}
  {names : List String}

theorem map_fst_add (wanted : Wanted) (r : Reference) :
    (wanted.add r).map Prod.fst =
      if r.module ∈ wanted.map Prod.fst then wanted.map Prod.fst
      else wanted.map Prod.fst ++ [r.module] := by
  induction wanted with
  | nil => rfl
  | cons entry rest ih =>
      obtain ⟨path, names⟩ := entry
      rw [Wanted.add]
      by_cases hpath : path = r.module
      · simp [hpath]
      · rw [if_neg hpath, List.map_cons, ih, List.map_cons]
        by_cases hmem : r.module ∈ rest.map Prod.fst
        · rw [if_pos hmem, if_pos (List.mem_cons_of_mem path hmem)]
        · rw [if_neg hmem, if_neg (List.not_mem_cons_of_ne_of_not_mem (Ne.symm hpath) hmem)]
          rfl

theorem of_concat (references : List Reference) (r : Reference) :
    Wanted.of (references ++ [r]) = (Wanted.of references).add r := by
  rw [Wanted.of, List.foldl_append]
  rfl

/-- The modules of references are wanted once each. -/
theorem map_fst_of (references : List Reference) :
    (Wanted.of references).map Prod.fst = distinct (references.map Reference.module) := by
  induction references using List.reverseRecOn with
  | nil => rfl
  | append_singleton references r ih =>
      rw [of_concat, map_fst_add, ih, List.map_append, List.map_singleton]
      by_cases hmem : r.module ∈ references.map Reference.module
      · rw [if_pos (mem_distinct.mpr hmem), distinct_concat_of_mem hmem]
      · rw [if_neg (mt mem_distinct.mp hmem), distinct_concat_of_notMem hmem]

theorem nodup_map_fst_of (references : List Reference) :
    ((Wanted.of references).map Prod.fst).Nodup := by
  rw [map_fst_of]
  exact nodup_distinct _

/-- One more reference changes what is wanted from its own module and nothing else. -/
theorem mem_add (hnodup : (wanted.map Prod.fst).Nodup) (h : (path, names) ∈ wanted.add r) :
    path ≠ r.module ∧ (path, names) ∈ wanted ∨
      path = r.module ∧ (path ∉ wanted.map Prod.fst ∧ names = [r.exported] ∨
        ∃ before, (path, before) ∈ wanted ∧
          names = if before.contains r.exported then before else before ++ [r.exported]) := by
  induction wanted with
  | nil =>
      obtain ⟨rfl, rfl⟩ : path = r.module ∧ names = [r.exported] := by simpa [Wanted.add] using h
      exact Or.inr ⟨rfl, Or.inl ⟨by simp, rfl⟩⟩
  | cons entry rest ih =>
      obtain ⟨first, before⟩ := entry
      obtain ⟨hfirst, hrest⟩ := List.nodup_cons.mp hnodup
      rw [Wanted.add] at h
      split at h
      · rename_i hmodule
        rcases List.mem_cons.mp h with hentry | hmem
        · obtain ⟨rfl, rfl⟩ := Prod.mk.inj hentry
          exact Or.inr ⟨hmodule, Or.inr ⟨before, List.mem_cons_self, rfl⟩⟩
        · refine Or.inl ⟨fun hpath => hfirst ?_, List.mem_cons_of_mem _ hmem⟩
          exact List.mem_map.mpr ⟨_, hmem, hpath.trans hmodule.symm⟩
      · rename_i hmodule
        rcases List.mem_cons.mp h with hentry | hmem
        · obtain ⟨rfl, rfl⟩ := Prod.mk.inj hentry
          exact Or.inl ⟨hmodule, List.mem_cons_self⟩
        · rcases ih hrest hmem with ⟨hother, hthere⟩ | ⟨rfl, hnew | ⟨before, hthere, hnames⟩⟩
          · exact Or.inl ⟨hother, List.mem_cons_of_mem _ hthere⟩
          · refine Or.inr ⟨rfl, Or.inl ⟨?_, hnew.2⟩⟩
            exact List.not_mem_cons_of_ne_of_not_mem (Ne.symm hmodule) hnew.1
          · exact Or.inr ⟨rfl, Or.inr ⟨before, List.mem_cons_of_mem _ hthere, hnames⟩⟩

/-- The names that references want from a module are wanted once each. -/
theorem names_of (h : (path, names) ∈ Wanted.of references) :
    names = distinct ((references.filter fun r => r.module = path).map Reference.exported) := by
  induction references using List.reverseRecOn generalizing names with
  | nil => cases h
  | append_singleton references r ih =>
      rw [of_concat] at h
      rw [List.filter_append, List.map_append]
      rcases mem_add (nodup_map_fst_of references) h with
        ⟨hother, hthere⟩ | ⟨rfl, ⟨hnew, rfl⟩ | ⟨before, hthere, rfl⟩⟩
      · simp [Ne.symm hother, ih hthere]
      · -- so far nothing is wanted from the module
        have hnone : references.filter (fun other => other.module = r.module) = [] := by
          rw [map_fst_of, mem_distinct] at hnew
          refine List.filter_eq_nil_iff.mpr fun other hother => ?_
          simpa using fun hmodule => hnew (List.mem_map.mpr ⟨other, hother, hmodule⟩)
        simp [hnone, distinct]
      · rw [List.filter_singleton, decide_eq_true rfl, cond_true, List.map_singleton, ih hthere]
        by_cases hmem : r.exported ∈
            (references.filter fun other => other.module = r.module).map Reference.exported
        · rw [if_pos (by simpa [mem_distinct] using hmem), distinct_concat_of_mem hmem]
        · rw [if_neg (by simpa [mem_distinct] using hmem), distinct_concat_of_notMem hmem]

theorem requests_of (references : List Reference) : Requests references (Wanted.of references) where
  modules := by
    rw [map_fst_of]
    exact firstsOf_distinct _
  names path names h := by
    rw [names_of h]
    exact firstsOf_distinct _

end Requests

/-- A request to a loader with the answer to it. -/
structure Call where
  module : Path
  names : List String
  answer : Except Failure (Entries Json)

namespace Call

/-- What a call asks for. -/
def request (call : Call) : Path × List String := (call.module, call.names)

/-- Whether a call comes back with exports. -/
def Returns (call : Call) : Prop := ∃ exports, call.answer = .ok exports

end Call

/-- A loader that notes its calls. -/
def Loader.noted {μ : Type → Type} [Monad μ] (loader : Loader μ) : Loader (Noting Call μ) :=
  fun module names => noting (loader module names) fun answer => ⟨module, names, answer⟩

/-- Whether calls gave a value for the module and the name of a reference. -/
def Gives (calls : List Call) (r : Reference) (value : Json) : Prop :=
  ∃ call ∈ calls, call.module = r.module ∧
    ∃ exports, call.answer = .ok exports ∧ exports.get? r.exported = some value

/-- How the values of references are loaded, by the calls that are made. -/
inductive LoadsValues (references : List Reference) :
    List Call → Except Failure (List Json) → Prop
  /-- Each reference gets the value that was given for it. -/
  | returns {calls : List Call} {values : List Json}
      (asks : Requests references (calls.map Call.request))
      (answered : ∀ call ∈ calls, call.Returns)
      (gives : List.Forall₂ (Gives calls) references values) :
      LoadsValues references calls (.ok values)
  /-- All modules are loaded, and the first reference that gets no value is reported. -/
  | misses {calls : List Call} {before after : List Reference} {r : Reference}
      (asks : Requests references (calls.map Call.request))
      (answered : ∀ call ∈ calls, call.Returns)
      (first : references = before ++ r :: after)
      (gives : ∀ earlier ∈ before, ∃ value, Gives calls earlier value)
      (missing : ∀ value, ¬ Gives calls r value) :
      LoadsValues references calls
        (.error (.contract (.missingExport r.module r.exported r.source)))
  /-- The first call that fails is the last one; the later requests are not made. -/
  | fails {made : List Call} {call : Call} {later : Wanted} {failure : Failure}
      (asks : Requests references ((made ++ [call]).map Call.request ++ later))
      (answered : ∀ earlier ∈ made, earlier.Returns)
      (stops : call.answer = .error failure) :
      LoadsValues references (made ++ [call]) (.error failure)

/-- What comes of requests that are made one after the other, by the answers to them. -/
inductive Answers : Wanted → List Call → Except Failure (List (Path × Entries Json)) → Prop
  | done : Answers [] [] (.ok [])
  | stops {path : Path} {names : List String} {rest : Wanted} {failure : Failure} :
      Answers ((path, names) :: rest) [⟨path, names, .error failure⟩] (.error failure)
  | goesOn {path : Path} {names : List String} {exports : Entries Json} {rest : Wanted}
      {calls : List Call} {result : Except Failure (List (Path × Entries Json))}
      (answers : Answers rest calls result) :
      Answers ((path, names) :: rest) (⟨path, names, .ok exports⟩ :: calls)
        (result.map fun loaded => (path, exports) :: loaded)

section Loading

variable {wanted : Wanted} {calls : List Call} {failure : Failure}
  {loaded : List (Path × Entries Json)} {references : List Reference} {r : Reference} {value : Json}

theorem observes_loadAll {μ : Type → Type} [Monad μ] [LawfulMonad μ] (loader : Loader μ)
    (wanted : Wanted) :
    Observes (fun result calls => Answers wanted calls result) (loadAll loader.noted wanted)
      (loadAll loader wanted) := by
  induction wanted with
  | nil => exact .pure .done
  | cons entry rest ih =>
      obtain ⟨path, names⟩ := entry
      refine .bind (observes_noting _ _) fun answer noted hnoted => ?_
      obtain rfl := hnoted
      cases answer with
      | error failure => exact .pure .stops
      | ok exports =>
          refine .bind ih fun result calls answers => ?_
          cases result <;> exact .pure (by rw [List.append_nil]; exact answers.goesOn)

/-- A failure comes from the call that was made last. -/
theorem Answers.eq_concat (h : Answers wanted calls (.error failure)) :
    ∃ made call later, calls = made ++ [call] ∧
      wanted = (made ++ [call]).map Call.request ++ later ∧
      (∀ earlier ∈ made, earlier.Returns) ∧ call.answer = .error failure := by
  generalize hresult : Except.error failure = result at h
  induction h with
  | done => cases hresult
  | stops =>
      cases hresult
      exact ⟨[], _, _, rfl, rfl, by simp, rfl⟩
  | @goesOn path names exports rest calls result answers ih =>
      obtain rfl : Except.error failure = result := by
        cases result with
        | error other => exact hresult
        | ok loaded => cases hresult
      obtain ⟨made, call, later, rfl, rfl, hmade, hcall⟩ := ih rfl
      refine ⟨⟨path, names, .ok exports⟩ :: made, call, later, rfl, rfl, ?_, hcall⟩
      exact List.forall_mem_cons.mpr ⟨⟨exports, rfl⟩, hmade⟩

/-- If nothing fails all requests are made, and what is loaded are the answers to them. -/
theorem Answers.eq_map (h : Answers wanted calls (.ok loaded)) :
    calls.map Call.request = wanted ∧
      calls.map (fun call => (call.module, call.answer)) =
        loaded.map fun entry => (entry.1, .ok entry.2) := by
  generalize hresult : Except.ok loaded = result at h
  induction h generalizing loaded with
  | done =>
      cases hresult
      exact ⟨rfl, rfl⟩
  | stops => cases hresult
  | @goesOn path names exports rest calls result answers ih =>
      cases result with
      | error failure => cases hresult
      | ok others =>
          obtain rfl : loaded = (path, exports) :: others := Except.ok.inj hresult
          obtain ⟨rfl, hcalls⟩ := ih rfl
          exact ⟨rfl, by rw [List.map_cons, List.map_cons, hcalls]⟩

theorem valueOf_eq_error (h : valueOf loaded r = .error failure) :
    failure = .contract (.missingExport r.module r.exported r.source) := by
  rw [valueOf] at h
  split at h
  · cases h
  · exact (Except.error.inj h).symm

/-- A module that is loaded once has one entry. -/
theorem find?_of_mem {path : Path} {exports : Entries Json}
    (hnodup : (loaded.map Prod.fst).Nodup) (hmem : (path, exports) ∈ loaded) :
    loaded.find? (fun entry => entry.1 = path) = some (path, exports) := by
  induction loaded with
  | nil => cases hmem
  | cons entry rest ih =>
      obtain ⟨hfirst, hrest⟩ := List.nodup_cons.mp hnodup
      rcases List.mem_cons.mp hmem with rfl | hlater
      · exact List.find?_cons_of_pos (decide_eq_true rfl)
      · have hne : entry.1 ≠ path := by
          rintro rfl
          exact hfirst (List.mem_map.mpr ⟨_, hlater, rfl⟩)
        rw [List.find?_cons_of_neg (by simpa using hne)]
        exact ih hrest hlater

theorem valueOf_eq_ok_iff (hnodup : (loaded.map Prod.fst).Nodup) :
    valueOf loaded r = .ok value ↔
      ∃ exports, (r.module, exports) ∈ loaded ∧ exports.get? r.exported = some value := by
  have hfound : valueOf loaded r = .ok value ↔
      ((loaded.find? fun entry => entry.1 = r.module).bind fun entry =>
        entry.2.get? r.exported) = some value := by
    rw [valueOf]
    split
    · rename_i found hfound
      rw [hfound, Except.ok.injEq, Option.some.injEq]
    · rename_i hnone
      rw [hnone]
      exact iff_of_false nofun nofun
  rw [hfound, Option.bind_eq_some_iff]
  constructor
  · rintro ⟨⟨path, exports⟩, hfind, hvalue⟩
    obtain rfl : path = r.module := by simpa using List.find?_some hfind
    exact ⟨exports, List.mem_of_find?_eq_some hfind, hvalue⟩
  · rintro ⟨exports, hmem, hvalue⟩
    exact ⟨_, find?_of_mem hnodup hmem, hvalue⟩

/-- A reference finds among what was loaded the value that the calls gave. -/
theorem valueOf_eq_ok_iff_gives (hnodup : (loaded.map Prod.fst).Nodup)
    (h : calls.map (fun call => (call.module, call.answer)) =
      loaded.map fun entry => (entry.1, .ok entry.2)) :
    valueOf loaded r = .ok value ↔ Gives calls r value := by
  have hmem (exports : Entries Json) :
      (r.module, exports) ∈ loaded ↔
        ∃ call ∈ calls, call.module = r.module ∧ call.answer = .ok exports := by
    have hpair := congrArg (fun pairs => (r.module, Except.ok exports) ∈ pairs) h
    simpa using hpair.symm
  rw [valueOf_eq_ok_iff hnodup]
  constructor
  · rintro ⟨exports, hthere, hvalue⟩
    obtain ⟨call, hcall, hmodule, hanswer⟩ := (hmem exports).mp hthere
    exact ⟨call, hcall, hmodule, exports, hanswer, hvalue⟩
  · rintro ⟨call, hcall, hmodule, exports, hanswer, hvalue⟩
    exact ⟨exports, (hmem exports).mpr ⟨call, hcall, hmodule, hanswer⟩, hvalue⟩

end Loading

section Distributing

variable {ε α β : Type} {f : α → Except ε β} {as : List α}

theorem mapM_eq_ok_iff {bs : List β} :
    as.mapM f = .ok bs ↔ List.Forall₂ (fun a b => f a = .ok b) as bs := by
  induction as generalizing bs with
  | nil => cases bs <;> simp [pure, Except.pure]
  | cons a rest ih =>
      rw [List.mapM_cons, List.forall₂_cons_left_iff]
      cases hfirst : f a with
      | error e => simp [bind, Except.bind]
      | ok b =>
          cases hothers : rest.mapM f with
          | error e => simp [bind, Except.bind, ← ih, hothers]
          | ok others => simp [bind, Except.bind, pure, Except.pure, ← ih, hothers, eq_comm]

/-- The first element that fails gives the failure. -/
theorem exists_of_mapM_eq_error {e : ε} (h : as.mapM f = .error e) :
    ∃ before a after, as = before ++ a :: after ∧ (∀ earlier ∈ before, ∃ b, f earlier = .ok b) ∧
      f a = .error e := by
  induction as with
  | nil => cases h
  | cons a rest ih =>
      rw [List.mapM_cons] at h
      cases hfirst : f a with
      | error other =>
          rw [hfirst] at h
          obtain rfl := Except.error.inj h
          exact ⟨[], a, rest, rfl, by simp, hfirst⟩
      | ok b =>
          cases hothers : rest.mapM f with
          | error other =>
              rw [hfirst, hothers] at h
              obtain rfl := Except.error.inj h
              obtain ⟨before, last, after, rfl, hbefore, hlast⟩ := ih hothers
              exact ⟨a :: before, last, after, rfl, List.forall_mem_cons.mpr ⟨⟨b, hfirst⟩, hbefore⟩,
                hlast⟩
          | ok others =>
              rw [hfirst, hothers] at h
              cases h

end Distributing

section

variable {μ : Type → Type} [Monad μ] [LawfulMonad μ]

/-- What was loaded is handed out to the references in their order. -/
theorem loadsValues_of_answers {references : List Reference} {calls : List Call}
    {loaded : List (Path × Entries Json)}
    (h : Answers (Wanted.of references) calls (.ok loaded)) :
    LoadsValues references calls (references.mapM (valueOf loaded)) := by
  obtain ⟨hrequests, hloaded⟩ := h.eq_map
  have asks : Requests references (calls.map Call.request) := hrequests ▸ requests_of references
  have answered : ∀ call ∈ calls, call.Returns := by
    intro call hcall
    have hpair := List.mem_map_of_mem (f := fun call : Call => (call.module, call.answer)) hcall
    rw [hloaded] at hpair
    obtain ⟨entry, -, hentry⟩ := List.mem_map.mp hpair
    exact ⟨entry.2, (Prod.mk.inj hentry).2.symm⟩
  have hnodup : (loaded.map Prod.fst).Nodup := by
    have hmodules : loaded.map Prod.fst = (Wanted.of references).map Prod.fst := by
      have hfirst := congrArg (List.map Prod.fst) hloaded
      rw [← hrequests]
      simpa [Function.comp_def, Call.request] using hfirst.symm
    rw [hmodules]
    exact nodup_map_fst_of references
  cases hvalues : references.mapM (valueOf loaded) with
  | ok values =>
      refine .returns asks answered ((mapM_eq_ok_iff.mp hvalues).imp fun r value hvalue => ?_)
      exact (valueOf_eq_ok_iff_gives hnodup hloaded).mp hvalue
  | error failure =>
      obtain ⟨before, r, after, hsplit, hbefore, hr⟩ := exists_of_mapM_eq_error hvalues
      obtain rfl := valueOf_eq_error hr
      refine .misses asks answered hsplit (fun earlier hearlier => ?_) fun value hvalue => ?_
      · obtain ⟨value, hvalue⟩ := hbefore earlier hearlier
        exact ⟨value, (valueOf_eq_ok_iff_gives hnodup hloaded).mp hvalue⟩
      · rw [(valueOf_eq_ok_iff_gives hnodup hloaded).mpr hvalue] at hr
        cases hr

/-- Each module of some references is asked for once, and each reference gets the value that the
loader gave for its own module and name; the first failure of a call, or else the first name that is
missing, is what loading fails with. -/
theorem loadReferences_loadsValues (loader : Loader μ) (references : List Reference) :
    Observes (fun result calls => LoadsValues references calls result)
      (loadReferences loader.noted references) (loadReferences loader references) := by
  refine .bind (observes_loadAll loader _) fun result calls answers => ?_
  cases result with
  | error failure =>
      obtain ⟨made, call, later, rfl, hwanted, hmade, hcall⟩ := answers.eq_concat
      refine .pure ?_
      rw [List.append_nil]
      exact .fails (hwanted ▸ requests_of references) hmade hcall
  | ok loaded =>
      refine .pure ?_
      rw [List.append_nil]
      exact loadsValues_of_answers answers

/-- Four references to two modules, with a name that both modules have and one that is wanted
twice. -/
theorem loadReferences_loadsValues_shared :
    let a : Path := ⟨.top, ["a.ts"]⟩
    let b : Path := ⟨.top, ["b.ts"]⟩
    let given (module name : String) : Json := .arr [.str module, .str name]
    let loader : Loader Id := fun module names =>
      .ok (names.map fun name => (name, given module.name name))
    let references : List Reference :=
      [⟨a, "x", "x"⟩, ⟨b, "x", "y"⟩, ⟨a, "z", "z"⟩, ⟨a, "x", "again"⟩]
    let calls : List Call :=
      [⟨a, ["x", "z"], .ok [("x", given "a.ts" "x"), ("z", given "a.ts" "z")]⟩,
        ⟨b, ["x"], .ok [("x", given "b.ts" "x")]⟩]
    let values : List Json :=
      [given "a.ts" "x", given "b.ts" "x", given "a.ts" "z", given "a.ts" "x"]
    loadReferences loader references = .ok values ∧ LoadsValues references calls (.ok values) := by
  intro a b given loader references calls values
  have hrun : (loadReferences loader.noted references).run [] = (.ok values, calls) := rfl
  obtain ⟨hnotes, hforgets⟩ := loadReferences_loadsValues loader references
  obtain ⟨noted, hnoted, hloads⟩ := SatisfiesM_Id_eq.mp (hnotes [])
  rw [hrun] at hnoted hloads
  obtain rfl : calls = noted := hnoted
  exact ⟨(hforgets []).symm, hloads⟩

end

end PluginContract.Contract
