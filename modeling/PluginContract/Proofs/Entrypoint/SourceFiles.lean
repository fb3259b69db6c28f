import Mathlib.Data.List.Nodup
import PluginContract.Entrypoint.Discovery
import PluginContract.Proofs.Files.Names
import PluginContract.Proofs.Files.Tree

/-!
# The source files that are found

A file is a source because of its own name and of the directories between it and the place that is
scanned. Which directories that place lies in has no part in it, nor has the order in which the tree
lists its files.
-/

namespace PluginContract.Entrypoint

open Files Text

/-- What is scanned for the sources of a project: `src` if that is a directory, or else all of the
project. -/
inductive ScannedFrom (tree : Tree) (root : Path) (above : Place) : Prop
  | sources (directory : tree.look? (root.child "src") = some .directory)
      (leads : tree.place? (root.child "src") = some above)
  | whole (other : tree.look? (root.child "src") ≠ some .directory)
      (leads : tree.place? root = some above)

/-- What stands before the extension in the name of a test. -/
def testMarks : List String := [".test", ".spec"]

/-- Whether a file name is that of a source. -/
structure SourceName (name : String) : Prop where
  source : ∃ stem ext, stem ≠ "" ∧ ext ∈ sourceSuffixes ∧ name = stem ++ ext
  notDeclaration : ¬ ∃ stem, name = stem ++ ".d.ts"
  notTest : ¬ ∃ stem mark ext,
    mark ∈ testMarks ∧ ext ∈ sourceSuffixes ∧ name = stem ++ (mark ++ ext)

/-- Whether names lead down to a source, through no directory that is excluded. -/
def LeadsToSource (below : List String) : Prop :=
  ∃ directories name, below = directories ++ [name] ∧ SourceName name ∧
    ∀ directory ∈ directories, directory ∉ excludedDirectories

/-- Whether a place holds a file. -/
def HoldsFile (tree : Tree) (place : Place) : Prop := ∃ bytes, tree.node? place = some (.file bytes)

/-- The names below a place that lead to what was found there. -/
def foundBelow (tree : Tree) (root : Path) (above : Place) : List (List String) :=
  (discover tree root).map fun path => path.names.drop above.length

/-- Whether discovery is exact: it finds the sources below the scanned place, each of them once and
in order, and what it finds there depends on nothing but the files below that place. -/
structure DiscoversExactly (tree : Tree) (root : Path) : Prop where
  mem_iff : ∀ path, path ∈ discover tree root ↔
    ∃ above below, ScannedFrom tree root above ∧ path = ⟨.top, above ++ below⟩ ∧
      HoldsFile tree (above ++ below) ∧ LeadsToSource below
  ordered : (discover tree root).Pairwise fun p q => p.names < q.names
  alike : ∀ tree' root' above above', ScannedFrom tree root above →
    ScannedFrom tree' root' above' →
    (∀ below, HoldsFile tree (above ++ below) ↔ HoldsFile tree' (above' ++ below)) →
    foundBelow tree root above = foundBelow tree' root' above'

section Names

variable {name ext : String} {below directories : List String}

theorem toList_suffix_iff : ext.toList <:+ name.toList ↔ ∃ stem, name = stem ++ ext := by
  constructor
  · rintro ⟨stem, hname⟩
    refine ⟨String.ofList stem, String.toList_injective ?_⟩
    rw [String.toList_append, String.toList_ofList, hname]
  · rintro ⟨stem, rfl⟩
    exact ⟨stem.toList, String.toList_append.symm⟩

theorem isExtension_of_mem : ∀ ext ∈ sourceSuffixes, Path.IsExtension ext.toList := by decide

theorem cutSuffix_snd_of_mem (h : ext ∈ sourceSuffixes) :
    (Path.cutSuffix name.toList).2 = ext.toList ↔ ∃ stem, stem ≠ "" ∧ name = stem ++ ext := by
  rw [Path.cutSuffix_snd_eq_iff (isExtension_of_mem ext h)]
  constructor
  · rintro ⟨stem, hstem, hname⟩
    refine ⟨String.ofList stem, ?_, String.toList_injective ?_⟩
    · rintro hempty
      exact hstem (by rw [← String.toList_ofList (l := stem), hempty]; rfl)
    · rw [String.toList_append, String.toList_ofList, hname]
  · rintro ⟨stem, hstem, rfl⟩
    exact ⟨stem.toList, fun hempty => hstem (String.toList_injective hempty),
      String.toList_append⟩

theorem contains_cutSuffix_iff :
    sourceSuffixes.contains (String.ofList (Path.cutSuffix name.toList).2) = true ↔
      ∃ stem ext, stem ≠ "" ∧ ext ∈ sourceSuffixes ∧ name = stem ++ ext := by
  rw [List.contains_iff_mem]
  constructor
  · intro hmem
    have hcut := String.toList_ofList (l := (Path.cutSuffix name.toList).2)
    obtain ⟨stem, hstem, hname⟩ := (cutSuffix_snd_of_mem hmem).mp hcut.symm
    exact ⟨stem, _, hstem, hmem, hname⟩
  · rintro ⟨stem, ext, hstem, hext, hname⟩
    rw [(cutSuffix_snd_of_mem hext).mpr ⟨stem, hstem, hname⟩, String.ofList_toList]
    exact hext

theorem ne_nil_of_mem_testMarks : ∀ mark ∈ testMarks, mark.toList ≠ [] := by decide

/-- A test ending is a mark with an extension after it. -/
theorem exists_of_mem_testEndings : ∀ ending ∈ testEndings,
    ∃ mark ∈ testMarks, Path.IsExtension (Path.cutSuffix ending).2 ∧
      ending = mark.toList ++ (Path.cutSuffix ending).2 := by
  decide

theorem mem_testEndings : ∀ mark ∈ testMarks, ∀ ext ∈ sourceSuffixes,
    (mark ++ ext).toList ∈ testEndings := by
  decide

/-- Among the names with the suffix of a source the test endings find the tests. -/
theorem any_testEndings_iff
    (h : ∃ stem ext, stem ≠ "" ∧ ext ∈ sourceSuffixes ∧ name = stem ++ ext) :
    testEndings.any (fun ending => ending.isSuffixOf name.toList) = true ↔
      ∃ stem mark ext, mark ∈ testMarks ∧ ext ∈ sourceSuffixes ∧ name = stem ++ (mark ++ ext) := by
  rw [List.any_eq_true]
  constructor
  · rintro ⟨ending, hending, hsuffix⟩
    obtain ⟨mark, hmark, hextension, hparts⟩ := exists_of_mem_testEndings ending hending
    obtain ⟨before, hbefore⟩ := List.isSuffixOf_iff_suffix.mp hsuffix
    -- the ending has the extension that the name has, so it is one of a source
    obtain ⟨stem, ext, hstem, hext, hname⟩ := h
    have hcut := (cutSuffix_snd_of_mem hext).mpr ⟨stem, hstem, hname⟩
    have hsplit : name.toList = (before ++ mark.toList) ++ (Path.cutSuffix ending).2 := by
      rw [List.append_assoc, ← hparts, hbefore]
    have hmarked : before ++ mark.toList ≠ [] :=
      List.append_ne_nil_of_right_ne_nil _ (ne_nil_of_mem_testMarks mark hmark)
    rw [(Path.cutSuffix_snd_eq_iff hextension).mpr ⟨_, hmarked, hsplit⟩] at hcut
    rw [hcut, List.append_assoc, ← String.toList_append] at hsplit
    obtain ⟨stem, hname⟩ := toList_suffix_iff.mp ⟨before, hsplit.symm⟩
    exact ⟨stem, mark, ext, hmark, hext, hname⟩
  · rintro ⟨stem, mark, ext, hmark, hext, hname⟩
    refine ⟨(mark ++ ext).toList, mem_testEndings mark hmark ext hext, ?_⟩
    rw [List.isSuffixOf_iff_suffix]
    exact toList_suffix_iff.mpr ⟨stem, hname⟩

theorem isSourceName_iff : isSourceName name = true ↔ SourceName name := by
  have hdeclaration : ".d.ts".toList.isSuffixOf name.toList = true ↔
      ∃ stem, name = stem ++ ".d.ts" := by
    rw [List.isSuffixOf_iff_suffix, toList_suffix_iff]
  rw [isSourceName]
  rw [Bool.and_eq_true, Bool.and_eq_true, contains_cutSuffix_iff, Bool.not_eq_true',
    Bool.not_eq_true', ← Bool.not_eq_true, ← Bool.not_eq_true, hdeclaration]
  constructor
  · rintro ⟨⟨hsource, hother⟩, htest⟩
    exact ⟨hsource, hother, mt (any_testEndings_iff hsource).mpr htest⟩
  · rintro ⟨hsource, hother, htest⟩
    exact ⟨⟨hsource, hother⟩, mt (any_testEndings_iff hsource).mp htest⟩

theorem isSource_iff : isSource below = true ↔ LeadsToSource below := by
  rcases List.eq_nil_or_concat below with rfl | ⟨directories, name, rfl⟩
  · refine iff_of_false Bool.false_ne_true ?_
    rintro ⟨directories, name, hsplit, -⟩
    exact List.append_ne_nil_of_right_ne_nil _ (List.cons_ne_nil _ _) hsplit.symm
  · rw [List.concat_eq_append, isSource, List.getLast?_concat, List.dropLast_concat]
    dsimp only
    rw [Bool.and_eq_true, isSourceName_iff, Bool.not_eq_true', List.any_eq_false]
    simp only [List.contains_iff_mem]
    constructor
    · rintro ⟨hname, hdirectories⟩
      exact ⟨directories, name, rfl, hname, hdirectories⟩
    · rintro ⟨directories', name', hsplit, hname, hdirectories⟩
      obtain ⟨rfl, hlast⟩ := List.append_inj' hsplit rfl
      obtain rfl := List.singleton_inj.mp hlast
      exact ⟨hname, hdirectories⟩

end Names

section Places

variable {tree : Tree} {root path : Path} {above place : Place} {below : List String}

theorem namesBelow?_eq_some_iff : namesBelow? above place = some below ↔ place = above ++ below := by
  induction above generalizing place with
  | nil => exact Option.some_inj
  | cons a above ih =>
      cases place with
      | nil => exact iff_of_false nofun nofun
      | cons b place =>
          rw [namesBelow?, List.cons_append, List.cons.injEq]
          split
          · rename_i hab
            rw [ih, and_iff_right hab.symm]
          · rename_i hab
            exact iff_of_false nofun fun h => hab h.1.symm

theorem place?_scanRoot_eq_some_iff :
    tree.place? (scanRoot tree root) = some above ↔ ScannedFrom tree root above := by
  have hscan : scanRoot tree root =
      if tree.look? (root.child "src") = some .directory then root.child "src" else root := by
    rw [scanRoot, Tree.isDirectory]
    simp only [decide_eq_true_eq]
  rw [hscan]
  constructor
  · intro hplace
    split at hplace
    · rename_i hdirectory
      exact .sources hdirectory hplace
    · rename_i hother
      exact .whole hother hplace
  · rintro (⟨hdirectory, hleads⟩ | ⟨hother, hleads⟩)
    · rwa [if_pos hdirectory]
    · rwa [if_neg hother]

theorem ScannedFrom.unique {other : Place} (h : ScannedFrom tree root above)
    (h' : ScannedFrom tree root other) : above = other :=
  Option.some.inj
    ((place?_scanRoot_eq_some_iff.mpr h).symm.trans (place?_scanRoot_eq_some_iff.mpr h'))

/-- The path to a source below a place. -/
def sourcePath? (above place : Place) : Option Path :=
  match namesBelow? above place with
  | some below => if isSource below then some ⟨.top, place⟩ else none
  | none => none

theorem sourcePath?_eq_some_iff :
    sourcePath? above place = some path ↔
      ∃ below, place = above ++ below ∧ LeadsToSource below ∧ path = ⟨.top, place⟩ := by
  rw [sourcePath?]
  cases hbelow : namesBelow? above place with
  | none =>
      refine iff_of_false nofun ?_
      rintro ⟨below, hplace, -⟩
      rw [namesBelow?_eq_some_iff.mpr hplace] at hbelow
      cases hbelow
  | some below =>
      obtain rfl := namesBelow?_eq_some_iff.mp hbelow
      dsimp only
      split
      · rename_i hsource
        rw [Option.some_inj]
        constructor
        · rintro rfl
          exact ⟨below, rfl, isSource_iff.mp hsource, rfl⟩
        · rintro ⟨_, -, -, rfl⟩
          rfl
      · rename_i hother
        refine iff_of_false nofun ?_
        rintro ⟨below', hplace, hleads, -⟩
        obtain rfl := List.append_cancel_left hplace
        exact hother (isSource_iff.mpr hleads)

theorem discover_of_scannedFrom (h : ScannedFrom tree root above) :
    discover tree root = Path.sort (tree.files.filterMap (sourcePath? above)) := by
  rw [discover]
  rw [place?_scanRoot_eq_some_iff.mpr h]
  rfl

theorem discover_of_not_scannedFrom (h : ∀ above, ¬ ScannedFrom tree root above) :
    discover tree root = [] := by
  rw [discover]
  cases hplace : tree.place? (scanRoot tree root) with
  | none => rfl
  | some above => exact absurd (place?_scanRoot_eq_some_iff.mp hplace) (h above)

theorem mem_discover_of_scannedFrom (h : ScannedFrom tree root above) :
    path ∈ discover tree root ↔
      ∃ below, path = ⟨.top, above ++ below⟩ ∧ HoldsFile tree (above ++ below) ∧
        LeadsToSource below := by
  rw [discover_of_scannedFrom h, Path.sort, (List.mergeSort_perm _ _).mem_iff, List.mem_filterMap]
  constructor
  · rintro ⟨place, hplace, hpath⟩
    obtain ⟨below, rfl, hleads, rfl⟩ := sourcePath?_eq_some_iff.mp hpath
    exact ⟨below, rfl, Tree.mem_files.mp hplace, hleads⟩
  · rintro ⟨below, rfl, hfile, hleads⟩
    exact ⟨above ++ below, Tree.mem_files.mpr hfile,
      sourcePath?_eq_some_iff.mpr ⟨below, rfl, hleads, rfl⟩⟩

theorem mem_discover :
    path ∈ discover tree root ↔
      ∃ above below, ScannedFrom tree root above ∧ path = ⟨.top, above ++ below⟩ ∧
        HoldsFile tree (above ++ below) ∧ LeadsToSource below := by
  constructor
  · intro hpath
    by_cases hscanned : ∃ above, ScannedFrom tree root above
    · obtain ⟨above, hscanned⟩ := hscanned
      obtain ⟨below, hfound⟩ := (mem_discover_of_scannedFrom hscanned).mp hpath
      exact ⟨above, below, hscanned, hfound⟩
    · rw [discover_of_not_scannedFrom (not_exists.mp hscanned)] at hpath
      cases hpath
  · rintro ⟨above, below, hscanned, hfound⟩
    exact (mem_discover_of_scannedFrom hscanned).mpr ⟨below, hfound⟩

theorem pairwise_discover (tree : Tree) (root : Path) :
    (discover tree root).Pairwise fun p q => p.names < q.names := by
  by_cases hscanned : ∃ above, ScannedFrom tree root above
  · obtain ⟨above, hscanned⟩ := hscanned
    rw [discover_of_scannedFrom hscanned]
    apply Path.pairwise_sort
    -- the names of a found path are the place that it was found at
    rw [List.map_filterMap]
    refine tree.nodup_files.filterMap fun place other names hplace hother => ?_
    have hnames {place : Place} (h : names ∈ (sourcePath? above place).map Path.names) :
        names = place := by
      obtain ⟨path, hpath, rfl⟩ := Option.map_eq_some_iff.mp h
      obtain ⟨below, -, -, rfl⟩ := sourcePath?_eq_some_iff.mp hpath
      rfl
    exact (hnames hplace).symm.trans (hnames hother)
  · rw [discover_of_not_scannedFrom (not_exists.mp hscanned)]
    exact .nil

theorem mem_foundBelow (h : ScannedFrom tree root above) :
    below ∈ foundBelow tree root above ↔ HoldsFile tree (above ++ below) ∧ LeadsToSource below := by
  rw [foundBelow, List.mem_map]
  constructor
  · rintro ⟨path, hpath, rfl⟩
    obtain ⟨below, rfl, hfound⟩ := (mem_discover_of_scannedFrom h).mp hpath
    rwa [List.drop_left]
  · intro hfound
    exact ⟨_, (mem_discover_of_scannedFrom h).mpr ⟨below, rfl, hfound⟩, List.drop_left⟩

theorem pairwise_foundBelow (h : ScannedFrom tree root above) :
    (foundBelow tree root above).Pairwise (· < ·) := by
  rw [foundBelow, List.pairwise_map]
  refine (pairwise_discover tree root).imp_of_mem fun {p q} hp hq hpq => ?_
  obtain ⟨below, rfl, -⟩ := (mem_discover_of_scannedFrom h).mp hp
  obtain ⟨other, rfl, -⟩ := (mem_discover_of_scannedFrom h).mp hq
  rw [List.drop_left, List.drop_left]
  exact Path.lt_of_append_lt hpq

end Places

/-- In every tree just the source files below the scanned place are found, in order. -/
theorem discover_exact (tree : Tree) (root : Path) : DiscoversExactly tree root where
  mem_iff _ := mem_discover
  ordered := pairwise_discover tree root
  alike tree' root' above above' scanned scanned' hfiles := by
    refine Path.eq_of_pairwise_lt (pairwise_foundBelow scanned) (pairwise_foundBelow scanned')
      fun below => ?_
    rw [mem_foundBelow scanned, mem_foundBelow scanned', hfiles]

-- The project lies in directories with excluded names and has one such directory of its own.
example :
    discover
      ⟨[], [(["build"], .directory), (["build", "tests"], .directory),
        (["build", "tests", "src"], .directory), (["build", "tests", "src", "a"], .directory),
        (["build", "tests", "src", "a", "b.mts"], .file []),
        (["build", "tests", "src", "a", "b.spec.ts"], .file []),
        (["build", "tests", "src", "dist"], .directory),
        (["build", "tests", "src", "dist", "b.mts"], .file [])], .usual⟩ ⟨.top, ["build", "tests"]⟩ =
      [⟨.top, ["build", "tests", "src", "a", "b.mts"]⟩] := by
  decide +kernel

end PluginContract.Entrypoint
