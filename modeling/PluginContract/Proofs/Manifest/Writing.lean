import PluginContract.Manifest.File
import PluginContract.Proofs.Files.Tree
import PluginContract.Proofs.Json.Limits

/-!
# Writing a manifest

A manifest takes the place of its path by way of a sibling file. If it does, the
path holds the new text, the sibling is gone and all else is as it was. If the
sibling is not written to its end or cannot take the place of the path, then it
stays, in the place of a file that may have been there.
-/

namespace PluginContract.Manifest

open Files Text

/-- The sibling that a file is written to before it takes its place. -/
def interim (path : Path) : Path := path.withSuffix ".tmp"

section

variable {path : Path}

theorem names_eq_of_name (h : path.name ≠ "") : path.names = path.names.dropLast ++ [path.name] := by
  rcases List.eq_nil_or_concat path.names with hn | ⟨front, last, hn⟩
  · exact absurd (by rw [Path.name, hn]; rfl) h
  · rw [List.concat_eq_append] at hn
    rw [Path.name, hn, List.dropLast_concat]
    simp

theorem getLast?_of_name (h : path.name ≠ "") : path.names.getLast?.toList = [path.name] := by
  rw [names_eq_of_name h]
  simp

theorem withName_name_interim (path : Path) :
    path.withName (interim path).name = interim path := by
  simp [interim, Path.withSuffix, Path.withName, Path.name]

theorem withName_name (h : path.name ≠ "") : path.withName path.name = path := by
  rw [Path.withName, ← names_eq_of_name h]

/-- The text of a path is no shorter than that of its parent. -/
theorem size_parent_le (h : path.name ≠ "") :
    path.parent.toString.utf8ByteSize ≤ path.toString.utf8ByteSize := by
  have hpos : path.name.utf8ByteSize ≠ 0 := by rwa [ne_eq, String.utf8ByteSize_eq_zero_iff]
  have hle : ("/".intercalate path.names.dropLast).utf8ByteSize + path.name.utf8ByteSize ≤
      ("/".intercalate path.names).utf8ByteSize := by
    rw [names_eq_of_name h, List.dropLast_concat]
    by_cases hfront : path.names.dropLast = []
    · simp [hfront]
    · rw [String.intercalate_append_of_ne_nil hfront (List.cons_ne_nil _ _),
        String.intercalate_singleton, String.utf8ByteSize_append, String.utf8ByteSize_append]
      omega
  have hempty : ¬ path.names.isEmpty = true := by
    rw [names_eq_of_name h]
    simp
  have hroot : path.parent.root = path.root := rfl
  have hnames : path.parent.names = path.names.dropLast := rfl
  rw [Path.toString, Path.toString, hroot, hnames]
  cases path.root with
  | here =>
      dsimp only
      rw [if_neg hempty]
      split
      · exact Nat.one_le_iff_ne_zero.mpr fun hzero => by omega
      · omega
  | top =>
      simp only [String.utf8ByteSize_append]
      omega
  | twoSlashes =>
      simp only [String.utf8ByteSize_append]
      omega

/-- The directory of a path that the system follows is followed too. -/
theorem admits_parent {tree : Tree} (hn : path.name ≠ "") (h : tree.Admits path) :
    tree.Admits path.parent := by
  refine ⟨?_, (size_parent_le hn).trans h.text,
    fun name hname => h.names name (List.dropLast_subset _ hname)⟩
  have hnull := h.noNull
  rw [Path.holdsNull, List.any_eq_false] at hnull ⊢
  exact fun name hname => hnull name (List.dropLast_subset _ hname)

/-- The place of a name in the directory of a path. -/
theorem place?_withName {t : Tree} {parent : Place} {name : String}
    (leads : t.follow? (t.startOf path) path.names.dropLast = some parent)
    (directory : t.node? parent = some .directory) (h : name ≠ "..") :
    t.place? (path.withName name) = some (parent ++ [name]) := by
  have hstart : t.startOf (path.withName name) = t.startOf path := rfl
  rw [Tree.place?, hstart, Path.withName, Tree.follow?_append, leads, Option.bind_some,
    Tree.follow?_cons_of_directory directory, if_neg h]
  rfl

theorem name_interim_ne_up (path : Path) : (interim path).name ≠ ".." := by
  intro h
  have hname : (interim path).name =
      String.ofList (Path.cutSuffix path.name.toList).1 ++ ".tmp" := by
    simp [interim, Path.withSuffix, Path.withName, Path.name]
  rw [hname] at h
  have hlength := congrArg (fun s => s.toList.length) h
  simp [String.toList_append] at hlength

/-- A path is its own sibling if their names are the same. -/
theorem interim_eq_of_name (hn : path.name ≠ "") (h : (interim path).name = path.name) :
    interim path = path :=
  calc interim path = path.withName (interim path).name := (withName_name_interim path).symm
    _ = path.withName path.name := by rw [h]
    _ = path := withName_name hn

end

section

variable {made : Tree} {source target q : Place} {bytes : Utf8.Bytes}

/-- The tree in which a sibling with a new content has taken the place of a file. -/
def moved (made : Tree) (source target : Place) (bytes : Utf8.Bytes) : Tree :=
  (if source = target then made.set source (.file bytes)
    else (made.set source (.file bytes)).remove source).set target (.file bytes)

theorem node?_moved (hw : made.WellFormed) (hs : source ≠ []) (ht : target ≠ [])
    (hd : made.node? source ≠ some .directory) :
    (moved made source target bytes).node? q =
      if q = target then some (.file bytes) else if q = source then none else made.node? q := by
  rw [moved, Tree.node?_set ht]
  split
  · rfl
  · rename_i hqt
    by_cases he : source = target
    · rw [if_pos he, Tree.node?_set hs, if_neg (he ▸ hqt), if_neg (he ▸ hqt)]
    · rw [if_neg he, Tree.node?_remove hs]
      by_cases hqs : q = source
      · rw [if_pos hqs, if_pos (hqs ▸ List.prefix_rfl)]
      · rw [if_neg hqs]
        split
        · -- nothing stands below what is no directory
          rename_i hp
          by_contra hq
          exact hd (hw.directory_of_prefix hp (Ne.symm hqs) (Ne.symm hq))
        · rw [Tree.node?_set hs, if_neg hqs]

theorem directory_moved (hw : made.WellFormed) (hs : source ≠ []) (ht : target ≠ [])
    (hd : made.node? source ≠ some .directory) (hd' : made.node? target ≠ some .directory)
    (hq : made.node? q = some .directory) :
    (moved made source target bytes).node? q = some .directory := by
  rw [node?_moved hw hs ht hd, if_neg, if_neg, hq]
  · rintro rfl
    exact hd hq
  · rintro rfl
    exact hd' hq

theorem limits_moved (made : Tree) (source target : Place) (bytes : Utf8.Bytes) :
    (moved made source target bytes).limits = made.limits := by
  rw [moved, Tree.limits_set]
  split
  · exact Tree.limits_set made source _
  · exact Tree.limits_set made source _

theorem home_moved (made : Tree) (source target : Place) (bytes : Utf8.Bytes) :
    (moved made source target bytes).home = made.home := by
  rw [moved, Tree.home_set]
  split
  · exact Tree.home_set made source _
  · exact Tree.home_set made source _

end

/-- What an update leaves in place of a tree when the file of a path takes new content: the path
holds it, its parent directories are there, its sibling is gone, and all else is as it was. -/
structure Replaced (before after : Tree) (path : Path) (bytes : Utf8.Bytes) : Prop where
  holds : after.look? path = some (.file bytes)
  parent : after.isDirectory path.parent = true
  gone : interim path ≠ path → after.look? (interim path) = none
  others : ∀ place node, before.node? place = some node → after.place? path ≠ some place →
    after.place? (interim path) ≠ some place → after.node? place = some node
  fresh : ∀ place, before.node? place = none → after.node? place ≠ none →
    after.place? path = some place ∨
      after.node? place = some .directory ∧
        ∃ k, after.place? ⟨path.root, path.names.take k⟩ = some place

section

variable {tree made after : Tree} {path : Path} {parent target : Place} {bytes : Utf8.Bytes}

/-- A file takes the place of a path: the directories above it are made, and neither its sibling,
from which the file moves, nor the path itself is a directory. -/
structure TakesPlace (tree made after : Tree) (path : Path) (parent : Place)
    (bytes : Utf8.Bytes) : Prop where
  directories : tree.Made made (tree.startOf path) path.names.dropLast parent
  sibling : made.node? (parent ++ [(interim path).name]) ≠ some .directory
  itself : made.node? (parent ++ [path.name]) ≠ some .directory
  moves : after = moved made (parent ++ [(interim path).name]) (parent ++ [path.name]) bytes

namespace TakesPlace

variable (h : TakesPlace tree made after path parent bytes)
include h

theorem node?_eq (q : Place) : after.node? q =
    if q = parent ++ [path.name] then some (.file bytes)
    else if q = parent ++ [(interim path).name] then none else made.node? q := by
  rw [h.moves]
  exact node?_moved h.directories.wellFormed (by simp) (by simp) h.sibling

theorem directory (q : Place) (hq : made.node? q = some .directory) :
    after.node? q = some .directory := by
  rw [h.moves]
  exact directory_moved h.directories.wellFormed (by simp) (by simp) h.sibling h.itself hq

theorem startOf_eq : after.startOf path = tree.startOf path := by
  rw [Tree.startOf, Tree.startOf, h.moves, home_moved, h.directories.home]

theorem limits_eq : after.limits = tree.limits := by
  rw [h.moves, limits_moved, h.directories.limits]

/-- Names lead where they led in the tree with the directories. -/
theorem leads {names : List String} {q : Place}
    (hq : made.follow? (tree.startOf path) names = some q) :
    after.follow? (after.startOf path) names = some q := by
  rw [h.startOf_eq]
  exact Tree.follow?_mono h.directory hq

theorem place?_eq (hn : path.name ≠ "") (hup : path.name ≠ "..") :
    after.place? path = some (parent ++ [path.name]) := by
  rw [← place?_withName (h.leads h.directories.leads) (h.directory _ h.directories.directory) hup,
    withName_name hn]

theorem place?_interim : after.place? (interim path) = some (parent ++ [(interim path).name]) := by
  rw [← place?_withName (h.leads h.directories.leads) (h.directory _ h.directories.directory)
    (name_interim_ne_up path), withName_name_interim]

/-- A tree stays well-formed when a file takes its place in it. -/
theorem wellFormed : after.WellFormed := by
  constructor
  · intro place last hthere
    apply h.directory
    rw [h.node?_eq] at hthere
    split at hthere
    · rename_i he
      obtain ⟨rfl, -⟩ := List.append_inj' he rfl
      exact h.directories.directory
    · split at hthere
      · exact absurd rfl hthere
      · exact h.directories.wellFormed.above place last hthere
  · have hhome : after.home = made.home := by rw [h.moves, home_moved]
    rw [hhome]
    exact h.directory _ h.directories.wellFormed.home

/-- Besides the file, only directories on the way to it are new. -/
theorem fresh {q : Place} (hbefore : tree.node? q = none) (hafter : after.node? q ≠ none) :
    q = parent ++ [path.name] ∨
      after.node? q = some .directory ∧
        ∃ k, after.place? ⟨path.root, path.names.take k⟩ = some q := by
  rw [h.node?_eq] at hafter
  split at hafter
  · rename_i he
    exact Or.inl he
  split at hafter
  · exact absurd rfl hafter
  obtain ⟨hdirectory, k, hk⟩ := h.directories.fresh q hbefore hafter
  refine Or.inr ⟨h.directory _ hdirectory, min k (path.names.length - 1), ?_⟩
  rw [List.dropLast_eq_take, List.take_take] at hk
  exact h.leads hk

/-- A file that takes the place of a path replaces what the path held. -/
theorem replaced (hn : path.name ≠ "") (hup : path.name ≠ "..") :
    Replaced tree after path bytes := by
  have hplace := h.place?_eq hn hup
  constructor
  case holds =>
    rw [Tree.look?, hplace, Option.bind_some, h.node?_eq, if_pos rfl]
  case parent =>
    have hlook : after.look? path.parent = some .directory := by
      have hparent : after.place? path.parent = some parent := h.leads h.directories.leads
      rw [Tree.look?, hparent, Option.bind_some]
      exact h.directory _ h.directories.directory
    rw [Tree.isDirectory, hlook]
    rfl
  case gone =>
    intro hne
    rw [Tree.look?, h.place?_interim, Option.bind_some, h.node?_eq, if_neg, if_pos rfl]
    intro he
    exact hne (interim_eq_of_name hn (by simpa using he))
  case others =>
    intro place node hbefore hp hi
    rw [hplace, ne_eq, Option.some.injEq, eq_comm] at hp
    rw [h.place?_interim, ne_eq, Option.some.injEq, eq_comm] at hi
    rw [h.node?_eq, if_neg hp, if_neg hi]
    exact h.directories.keeps place node hbefore
  case fresh =>
    intro place hbefore hafter
    refine (h.fresh hbefore hafter).imp_left ?_
    rintro rfl
    exact hplace

end TakesPlace

/-- Whether nothing can take the place of a path: the system refuses the path, it ends in `..`, or
it leads to a directory. -/
def Blocked (tree : Tree) (path : Path) (target : Place) : Prop :=
  tree.refusal? path ≠ none ∨ path.name = ".." ∨ tree.node? target = some .directory

/-- The content of a manifest's file. -/
def manifestBytes (manifest : Entries Json) : Utf8.Bytes :=
  Utf8.encode (Json.indented 0 (.obj manifest) ++ ['\n'])

/-- As much of a manifest as can be written. -/
def writtenBytes (manifest : Entries Json) : Utf8.Bytes := Utf8.encode (manifestText manifest).text

theorem whole_manifestText (manifest : Entries Json) :
    (manifestText manifest).whole = (Json.obj manifest).fits := by
  rw [manifestText, Json.Printout.whole_andThen, Json.whole_printed, Json.Printout.whole_all,
    Bool.and_true]

/-- A manifest with short integers is written to its end. -/
theorem writtenBytes_eq {manifest : Entries Json} (h : (Json.obj manifest).fits = true) :
    writtenBytes manifest = manifestBytes manifest := by
  rw [writtenBytes, manifestText, Json.printed_eq 0 [] _ h]
  rfl

section Moves

variable {source : Place} (hs : made.node? source ≠ some .directory) (hsource : source ≠ [])
include hs hsource

theorem directories_set_file (bytes : Utf8.Bytes) (q : Place) :
    (made.set source (.file bytes)).node? q = some .directory ↔ made.node? q = some .directory := by
  rw [Tree.node?_set hsource]
  split
  · rename_i he
    exact iff_of_false (by simp) (he ▸ hs)
  · rfl

/-- A new file makes no difference to what the system refuses. -/
theorem refusal?_set_file (bytes : Utf8.Bytes) :
    (made.set source (.file bytes)).refusal? path = made.refusal? path :=
  Tree.refusal?_congr (directories_set_file hs hsource bytes) (Tree.limits_set _ _ _)
    (Tree.home_set _ _ _) path

theorem moveFile_of_blocked (h : Blocked made path target) (bytes : Utf8.Bytes) :
    ∃ fault, moveFile (made.set source (.file bytes)) source target path bytes =
      (made.set source (.file bytes), .error fault) := by
  rw [moveFile, refusal?_set_file hs hsource]
  split
  · exact ⟨_, rfl⟩
  · rename_i hnone
    split
    · exact ⟨_, rfl⟩
    · rename_i hup
      have hd : made.node? target = some .directory :=
        (h.resolve_left fun hrefused => hrefused hnone).resolve_left hup
      rw [(directories_set_file hs hsource bytes target).mpr hd]
      exact ⟨_, rfl⟩

theorem moveFile_of_not_blocked (h : ¬ Blocked made path target) (bytes : Utf8.Bytes) :
    moveFile (made.set source (.file bytes)) source target path bytes =
      (moved made source target bytes, .ok ()) := by
  obtain ⟨hrefused, h⟩ := not_or.mp h
  obtain ⟨hup, hd⟩ := not_or.mp h
  rw [moveFile, refusal?_set_file hs hsource, not_not.mp hrefused]
  dsimp only
  rw [if_neg hup]
  split
  · rename_i hdirectory
    exact absurd ((directories_set_file hs hsource bytes target).mp hdirectory) hd
  · rfl

end Moves

/-- How the writing of a manifest can go. -/
inductive Write (tree : Tree) (path : Path) (manifest : Entries Json) :
    Tree × Except WriteFault Unit → Prop
  | stopped {made : Tree} {fault : WriteFault} (h : tree.makeParent path = (made, .error fault)) :
      Write tree path manifest (made, .error fault)
  | unnamed {made : Tree} {target : Place} (h : tree.makeParent path = (made, .ok target))
      (hn : path.name = "") : Write tree path manifest (made, .error .noName)
  | refused {made : Tree} {target : Place} {fault : PathFault}
      (h : tree.makeParent path = (made, .ok target))
      (hr : made.refusal? (interim path) = some fault) :
      Write tree path manifest (made, .error (.refused fault))
  | taken {made : Tree} {target : Place} (h : tree.makeParent path = (made, .ok target))
      (hd : made.node? (target.dropLast ++ [(interim path).name]) = some .directory) :
      Write tree path manifest (made, .error .isDirectory)
  /-- The sibling is written, as far as that goes, and stays. -/
  | left {made : Tree} {target : Place} {fault : WriteFault}
      (h : tree.makeParent path = (made, .ok target)) (hn : path.name ≠ "")
      (hr : made.refusal? (interim path) = none)
      (hb : (Json.obj manifest).fits = true → Blocked made path target)
      (hs : made.node? (target.dropLast ++ [(interim path).name]) ≠ some .directory) :
      Write tree path manifest
        (made.set (target.dropLast ++ [(interim path).name]) (.file (writtenBytes manifest)),
          .error fault)
  | done {made : Tree} {target : Place} (h : tree.makeParent path = (made, .ok target))
      (hn : path.name ≠ "") (hfits : (Json.obj manifest).fits = true)
      (hb : ¬ Blocked made path target)
      (hs : made.node? (target.dropLast ++ [(interim path).name]) ≠ some .directory) :
      Write tree path manifest
        (moved made (target.dropLast ++ [(interim path).name]) target (manifestBytes manifest),
          .ok ())

theorem write_writeManifest (tree : Tree) (path : Path) (manifest : Entries Json) :
    Write tree path manifest (writeManifest tree path manifest) := by
  rw [writeManifest]
  split
  · rename_i made fault h
    exact .stopped h
  rename_i made target h
  split
  · rename_i hn
    exact .unnamed h hn
  rename_i hn
  dsimp only
  split
  · rename_i fault hr
    exact .refused h hr
  rename_i hr
  split
  · rename_i hd
    exact .taken h hd
  rename_i hd
  have hsource : target.dropLast ++ [(interim path).name] ≠ [] := by simp
  rw [whole_manifestText]
  split
  · rename_i hfits
    by_cases hb : Blocked made path target
    · obtain ⟨fault, hmove⟩ := moveFile_of_blocked hd hsource hb (writtenBytes manifest)
      exact hmove ▸ .left h hn hr (fun _ => hb) hd
    · have hmove := moveFile_of_not_blocked hd hsource hb (writtenBytes manifest)
      have hdone := Write.done h hn hfits hb hd
      rw [← writtenBytes_eq hfits] at hdone
      exact hmove ▸ hdone
  · rename_i hfits
    exact .left h hn hr (fun h => absurd h hfits) hd

end

end PluginContract.Manifest
