import PluginContract.Proofs.Files.Places
import PluginContract.Proofs.Resolution.Lookups

/-!
# Plain paths and the files that lookups find

A path is plain if it starts at the top with one slash and has no way up in it. Plain paths are
those that resolving leaves as they are, and the plain path of a file is told by the place of the
file. A lookup of a relative specifier finds a plain path. Any other lookup does so just if
the path that the specifier stands for is plain, but for an extension that is added to `..`.
-/

namespace PluginContract.Files

/-- Whether a path starts at the top and has no way up. -/
def Path.IsPlain (p : Path) : Prop := p.root = .top ∧ ".." ∉ p.names

/-- Whether a path is plain and leads to a file. -/
structure Tree.PlainFile (t : Tree) (p : Path) : Prop where
  plain : p.IsPlain
  isFile : t.isFile p = true

section

variable {t : Tree} {p q : Path} {home : List String} {name : String}

theorem Path.isPlain_resolve (home : List String) (p : Path) : (p.resolve home).IsPlain := by
  have hup (names : List String) : ".." ∉ reached [] names := up_notMem_reached (by simp)
  unfold Path.resolve
  split
  · exact ⟨rfl, hup _⟩
  · exact ⟨rfl, hup _⟩

/-- The plain paths are those that resolving leaves as they are. -/
theorem Path.resolve_eq_self_iff : p.resolve home = p ↔ p.IsPlain := by
  constructor
  · intro h
    rw [← h]
    exact Path.isPlain_resolve home p
  · obtain ⟨root, names⟩ := p
    rintro ⟨rfl, hup⟩
    have hnames : Path.collapse names = names :=
      (reached_of_up_notMem hup).trans (List.nil_append names)
    rw [Path.resolve, hnames]

theorem Path.isPlain_withName_iff (h : name ≠ "..") :
    (p.withName name).IsPlain ↔ p.parent.IsPlain := by
  simp [Path.IsPlain, Path.withName, Path.parent, Ne.symm h]

theorem Path.isPlain_child_iff (h : name ≠ "..") : (p.child name).IsPlain ↔ p.IsPlain := by
  simp [Path.IsPlain, Path.child, Ne.symm h]

theorem Path.isPlain_iff_of_name_ne (h : p.name ≠ "..") : p.IsPlain ↔ p.parent.IsPlain := by
  obtain ⟨root, names⟩ := p
  rcases List.eq_nil_or_concat names with rfl | ⟨front, last, rfl⟩
  · exact Iff.rfl
  · have hlast : ".." ≠ last := by simpa [Path.name, eq_comm] using h
    simp [Path.IsPlain, Path.parent, hlast]

/-- A plain path of a file says at which place the file is. -/
theorem Tree.PlainFile.place?_eq (h : t.PlainFile p) : t.place? p = some p.names := by
  obtain ⟨⟨hroot, hup⟩, hfile⟩ := h
  have hstart : t.startOf p = [] := by rw [startOf, hroot]
  cases hplace : t.place? p with
  | none => simp [Tree.isFile, Tree.look?, hplace] at hfile
  | some place =>
      rw [place?, hstart] at hplace
      rw [← reached_of_follow? hplace, reached_of_up_notMem hup, List.nil_append]

theorem Tree.isFile_of_readText {text : List Char} (h : t.readText p = .ok text) :
    t.isFile p = true := by
  rw [readText] at h
  split at h
  · cases h
  cases hlook : t.look? p with
  | none => simp [hlook] at h
  | some node =>
      cases node with
      | directory => simp [hlook] at h
      | file bytes => rw [isFile, hlook]

/-- Plain paths of one file are equal. -/
theorem Tree.PlainFile.eq_of_place?_eq (h : t.PlainFile p) (h' : t.PlainFile q)
    (hplace : t.place? p = t.place? q) : p = q := by
  rw [h.place?_eq, h'.place?_eq] at hplace
  obtain ⟨⟨hroot, -⟩, -⟩ := h
  obtain ⟨⟨hroot', -⟩, -⟩ := h'
  obtain ⟨root, names⟩ := p
  obtain ⟨root', names'⟩ := q
  rw [Path.mk.injEq]
  exact ⟨hroot.trans hroot'.symm, Option.some.inj hplace⟩

end

end PluginContract.Files

namespace PluginContract.Resolution

open Text Files Script Source

/-- A path that is tried for another one. -/
inductive Probed (asked : Path) : Path → Prop
  | exact : Probed asked asked
  | source {extension : String} (mem : extension ∈ sourceExtensions asked.suffix) :
      Probed asked (asked.withSuffix extension)
  | extended {extension : String} (mem : extension ∈ extensions) :
      Probed asked (asked.withName (asked.name ++ extension))
  | index {extension : String} (mem : extension ∈ extensions) :
      Probed asked (asked.child ("index" ++ extension))

/-- Whether a path that is asked for is plain, or the one that is found for it differs in that an
extension was added to a last name `..`. -/
def AsksPlain (asked found : Path) : Prop :=
  asked.IsPlain ∨
    asked.parent.IsPlain ∧ ∃ e ∈ extensions, found = asked.withName (asked.name ++ e)

section Probing

variable {tree : Tree} {asked found : Path}

theorem probed_of_mem_directPaths (h : found ∈ directPaths asked) : Probed asked found := by
  rcases List.mem_cons.mp h with rfl | hmem
  · exact .exact
  · obtain ⟨e, he, rfl⟩ := List.mem_map.mp hmem
    exact .source he

theorem probed_of_mem_extendedPaths (h : found ∈ extendedPaths tree asked) :
    Probed asked found := by
  rcases List.mem_append.mp h with hmem | hmem
  · obtain ⟨e, he, rfl⟩ := List.mem_map.mp hmem
    exact .extended he
  · split at hmem
    · obtain ⟨e, he, rfl⟩ := List.mem_map.mp hmem
      exact .index he
    · cases hmem

theorem probed_of_probe? (h : probe? tree asked = .ok (some found)) :
    tree.checkFile found = .ok true ∧ Probed asked found := by
  rw [probe?] at h
  split at h
  · cases h
  · rename_i hfirst
    obtain rfl := Option.some.inj (Except.ok.inj h)
    obtain ⟨hmem, hcheck⟩ := checkFile_of_firstFile? hfirst
    exact ⟨hcheck, probed_of_mem_directPaths hmem⟩
  · split at h
    · cases h
    · obtain ⟨hmem, hcheck⟩ := checkFile_of_firstFile? h
      exact ⟨hcheck, probed_of_mem_extendedPaths hmem⟩

theorem mem_extensions_of_mem_sourceExtensions {suffix e : String}
    (h : e ∈ sourceExtensions suffix) : e ∈ extensions := by
  unfold sourceExtensions at h
  split_ifs at h <;> revert h <;> revert e <;> decide

/-- No extension makes a way up of a name. -/
theorem append_extension_ne_up {e : String} (he : e ∈ extensions) (s : String) : s ++ e ≠ ".." := by
  intro h
  have hlength : ∀ e ∈ extensions, 3 ≤ e.length := by decide
  have hthree := hlength e he
  have htwo : s.length + e.length = 2 := by rw [← String.length_append, h]; rfl
  omega

theorem name_ne_up_of_mem_sourceExtensions {e : String} (h : e ∈ sourceExtensions asked.suffix) :
    asked.name ≠ ".." := by
  intro hup
  have hsuffix : sourceExtensions asked.suffix = [] := by
    rw [Path.suffix, hup]
    decide +kernel
  rw [hsuffix] at h
  cases h

/-- What is found is plain if and only if what was asked for is, but for an extension of `..`. -/
theorem Probed.isPlain_iff (h : Probed asked found) : found.IsPlain ↔ AsksPlain asked found := by
  have hextended (e : String) (he : e ∈ extensions) :
      (asked.withName (asked.name ++ e)).IsPlain ↔ asked.parent.IsPlain :=
    Path.isPlain_withName_iff (append_extension_ne_up he asked.name)
  have hright : asked.parent.IsPlain ∧
      (∃ e ∈ extensions, found = asked.withName (asked.name ++ e)) → found.IsPlain := by
    rintro ⟨hparent, e, he, rfl⟩
    exact (hextended e he).mpr hparent
  rw [AsksPlain]
  cases h with
  | exact => exact ⟨Or.inl, fun h => h.elim id hright⟩
  | @source e mem =>
      have hplain : (asked.withSuffix e).IsPlain ↔ asked.IsPlain :=
        (Path.isPlain_withName_iff
          (append_extension_ne_up (mem_extensions_of_mem_sourceExtensions mem) _)).trans
        (Path.isPlain_iff_of_name_ne (name_ne_up_of_mem_sourceExtensions mem)).symm
      exact ⟨fun h => Or.inl (hplain.mp h), fun h => h.elim hplain.mpr hright⟩
  | extended mem =>
      have hparent (h : asked.IsPlain) : asked.parent.IsPlain :=
        ⟨h.1, fun hmem => h.2 (List.dropLast_subset _ hmem)⟩
      exact ⟨fun h => Or.inr ⟨(hextended _ mem).mp h, _, mem, rfl⟩,
        fun h => h.elim (fun h => (hextended _ mem).mpr (hparent h)) hright⟩
  | @index e mem =>
      have hplain : (asked.child ("index" ++ e)).IsPlain ↔ asked.IsPlain :=
        Path.isPlain_child_iff (append_extension_ne_up mem _)
      exact ⟨fun h => Or.inl (hplain.mp h), fun h => h.elim hplain.mpr hright⟩

end Probing

namespace Project

/-- Whether the file that a specifier finds is asked for by a plain path, if there is one. -/
def Straight (project : Project) (tree : Tree) (importer : Path) (specifier : String) : Prop :=
  ∀ asked found, project.pathOf? tree importer specifier = .ok (some asked) →
    probe? tree asked = .ok (some found) → AsksPlain asked found

variable {project : Project} {tree : Tree} {importer found : Path} {specifier : String}

theorem find?_eq_ok_some_iff :
    project.find? tree importer specifier = .ok (some found) ↔
      ∃ asked, project.pathOf? tree importer specifier = .ok (some asked) ∧
        probe? tree asked = .ok (some found) := by
  rw [find?]
  rcases project.pathOf? tree importer specifier with failure | _ | asked <;> simp

theorem isFile_of_find? (h : project.find? tree importer specifier = .ok (some found)) :
    tree.isFile found = true := by
  obtain ⟨asked, -, hprobe⟩ := find?_eq_ok_some_iff.mp h
  exact (checkFile_eq_true_iff.mp (probed_of_probe? hprobe).1).2

/-- A lookup that finds a file finds a plain path if and only if it asks for one. -/
theorem isPlain_iff_straight (h : project.find? tree importer specifier = .ok (some found)) :
    found.IsPlain ↔ project.Straight tree importer specifier := by
  obtain ⟨asked, hasked, hprobe⟩ := find?_eq_ok_some_iff.mp h
  rw [(probed_of_probe? hprobe).2.isPlain_iff]
  constructor
  · intro hplain asked' found' hasked' hprobe'
    obtain rfl : asked = asked' :=
      Option.some.inj (Except.ok.inj (hasked.symm.trans hasked'))
    obtain rfl : found = found' := Option.some.inj (Except.ok.inj (hprobe.symm.trans hprobe'))
    exact hplain
  · exact fun hstraight => hstraight asked found hasked hprobe

theorem Straight.plainFile (hstraight : project.Straight tree importer specifier)
    (h : project.find? tree importer specifier = .ok (some found)) : tree.PlainFile found :=
  ⟨(isPlain_iff_straight h).mpr hstraight, isFile_of_find? h⟩

/-- Relative specifiers stand for plain paths. -/
theorem straight_of_relative (h : specifier.toList.head? = some '.') :
    project.Straight tree importer specifier := by
  intro asked found hasked _
  rw [pathOf?_of_relative h] at hasked
  split at hasked
  · cases hasked
  · obtain rfl := Option.some.inj (Except.ok.inj hasked)
    exact Or.inl (Path.isPlain_resolve _ _)

theorem require_eq_ok_iff :
    project.require tree importer specifier = .ok found ↔
      project.find? tree importer specifier = .ok (some found) := by
  rw [require]
  cases project.find? tree importer specifier with
  | error failure => simp [bind, Except.bind]
  | ok path => cases path <;> simp [bind, Except.bind, pure, Except.pure]

/-- A reference stays in its module, or goes to the file of the one specifier that it looks up. -/
theorem reference_cases {m : Module} {e : List Char} {r : Reference}
    (h : project.reference tree e m = .ok r) :
    r.module = m.path ∨ ∃ specifier, referredSpecifier? e m = some specifier ∧
      project.find? tree m.path specifier = .ok (some r.module) := by
  have hthrough {specifier exported source : String}
      (h : (project.require tree m.path specifier).map
        (fun path => Reference.mk path exported source) = .ok r) :
      project.find? tree m.path specifier = .ok (some r.module) := by
    cases hrequire : project.require tree m.path specifier with
    | error failure =>
        rw [hrequire] at h
        cases h
    | ok path =>
        rw [hrequire] at h
        obtain rfl := Except.ok.inj h
        exact Project.require_eq_ok_iff.mp hrequire
  rw [Project.reference] at h
  rw [referredSpecifier?]
  dsimp only at h
  cases hmember : member? (stripAssertions e) with
  | some names =>
      rw [hmember] at h
      dsimp only at h ⊢
      cases hspace : m.imports.namespaces.get? (String.ofList names.1) with
      | none =>
          rw [hspace] at h
          cases h
      | some specifier =>
          rw [hspace] at h
          exact Or.inr ⟨specifier, rfl, hthrough h⟩
  | none =>
      rw [hmember] at h
      dsimp only at h ⊢
      split at h
      · cases h
      rename_i hname
      rw [if_pos (by simpa using hname)]
      cases hnamed : m.imports.named.get? (String.ofList (stripAssertions e)) with
      | some imported =>
          rw [hnamed] at h
          exact Or.inr ⟨imported.source, rfl, hthrough h⟩
      | none =>
          rw [hnamed] at h
          dsimp only at h ⊢
          cases hdefault : m.imports.defaults.get? (String.ofList (stripAssertions e)) with
          | some specifier =>
              rw [hdefault] at h
              exact Or.inr ⟨specifier, rfl, hthrough h⟩
          | none =>
              rw [hdefault] at h
              dsimp only at h
              split at h
              · cases h
              · obtain rfl := Except.ok.inj h
                exact Or.inl rfl

end Project

end PluginContract.Resolution
