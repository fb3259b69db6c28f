import Mathlib.Data.String.Basic
import PluginContract.Proofs.Files.Places
import PluginContract.Proofs.Json.LineEnds
import PluginContract.Proofs.Manifest.Writing
import PluginContract.Proofs.Text.Utf8

/-!
# A written manifest is read back

A manifest with short integers can be written at a path that the system follows, if no file
stands above it and neither the path nor its sibling leads to a directory, once all directories
above it are there. Reading then gives the manifest back with its order of keys, and writing that
again gives the same bytes.
-/

namespace PluginContract.Text

theorem joinCarriageReturns_eq_self {t : List Char} (h : '\r' ∉ t) : joinCarriageReturns t = t := by
  induction t with
  | nil => rfl
  | cons c t ih =>
      obtain ⟨hc, ht⟩ := List.ne_and_not_mem_of_not_mem_cons h
      rw [joinCarriageReturns, ih ht]
      · rintro rest rfl
        exact absurd rfl hc
      · rintro rfl
        exact hc rfl

end PluginContract.Text

namespace PluginContract.Manifest

open Files Text

/-- A path at which a file can stand once the directories above it are there: the system follows it
and its sibling, no file stands above it, and neither of the two leads to a directory. -/
structure FilePath (tree : Tree) (path : Path) : Prop where
  admits : tree.Admits path
  admitsSibling : tree.Admits (interim path)
  ancestors : ∀ k < path.names.length, ∀ bytes,
    tree.node? (reached (tree.startOf path) (path.names.take k)) ≠ some (.file bytes)
  itself : ¬ tree.BecomesDirectory path (tree.destination path)
  sibling : ¬ tree.BecomesDirectory path (tree.destination (interim path))

theorem ofString_name_ne_empty {written : String} (h : (Path.ofString written).names ≠ []) :
    (Path.ofString written).name ≠ "" := by
  obtain ⟨last, hlast⟩ : ∃ last, (Path.ofString written).names.getLast? = some last :=
    Option.isSome_iff_exists.mp (by simpa using h)
  have hmem := List.mem_of_getLast? hlast
  rw [Path.name, hlast, Option.getD_some]
  simp only [Path.ofString, List.mem_map, List.mem_filter] at hmem
  obtain ⟨chars, ⟨-, hchars⟩, rfl⟩ := hmem
  intro hempty
  rw [String.ofList_eq_empty_iff] at hempty
  simp [hempty] at hchars

namespace FilePath

variable {tree made after : Tree} {path : Path} {bytes : Utf8.Bytes}

/-- A path to a file has a last name. -/
theorem names_ne_nil (hw : tree.WellFormed) (h : FilePath tree path) : path.names ≠ [] := by
  intro hn
  refine h.itself (Or.inl ?_)
  rw [Tree.destination, hn]
  exact hw.startOf path

theorem name_ne_up (hw : tree.WellFormed) (h : FilePath tree path) : path.name ≠ ".." := by
  intro hup
  have hlast : path.names.getLast? = some ".." := by
    have hne : path.name ≠ "" := by
      rw [hup]
      decide
    rw [names_eq_of_name hne, hup]
    simp
  exact h.itself (Tree.becomesDirectory_of_up hw hlast)

theorem destination_interim (tree : Tree) (path : Path) :
    tree.destination (interim path) =
      reached (tree.startOf path) path.names.dropLast ++ [(interim path).name] := by
  have hnames : (interim path).names = path.names.dropLast ++ [(interim path).name] := by
    conv_lhs => rw [← withName_name_interim path]
    rfl
  have hstart : tree.startOf (interim path) = tree.startOf path := rfl
  rw [Tree.destination, hstart, hnames, reached_concat, if_neg (name_interim_ne_up path)]

theorem destination_eq (hw : tree.WellFormed) (hn : path.name ≠ "") (h : FilePath tree path) :
    tree.destination path = reached (tree.startOf path) path.names.dropLast ++ [path.name] := by
  rw [Tree.destination, names_eq_of_name hn, reached_concat, if_neg (h.name_ne_up hw)]
  simp

/-- The directories above a path to a file can be made, and then it is free for a file. -/
theorem exists_made (hw : tree.WellFormed) (hn : path.name ≠ "") (h : FilePath tree path) :
    ∃ made, tree.makeParent path = (made, .ok (tree.destination path)) ∧
      tree.Made made (tree.startOf path) path.names.dropLast
        (reached (tree.startOf path) path.names.dropLast) ∧
      made.node? (tree.destination path) ≠ some .directory ∧
      made.node? (tree.destination (interim path)) ≠ some .directory := by
  have hnames := h.names_ne_nil hw
  have hlength := List.length_pos_iff.mpr hnames
  have hparent := admits_parent hn h.admits
  obtain ⟨made, hmade⟩ : ∃ made, tree.makeDirectories (tree.startOf path) path.names.dropLast =
      (made, .ok (reached (tree.startOf path) path.names.dropLast)) := by
    refine Tree.exists_makeDirectories_eq_ok hparent.names fun k hk bytes => ?_
    rw [List.length_dropLast] at hk
    rw [List.dropLast_eq_take, List.take_take, Nat.min_eq_left hk]
    exact h.ancestors k (by omega) bytes
  have hm := Tree.made_of_makeDirectories hw (hw.startOf path) hmade
  refine ⟨made, ?_, hm, ?_, ?_⟩
  · rw [h.destination_eq hw hn, Tree.makeParent, if_neg (by simp [hparent.noNull]),
      if_neg (Nat.not_lt.mpr hparent.text), hmade, getLast?_of_name hn]
    rfl
  · exact mt (Tree.becomesDirectory_of_made hnames hm) h.itself
  · exact mt (Tree.becomesDirectory_of_made hnames hm) h.sibling

/-- A file can take its place again. -/
theorem of_takesPlace (hw : tree.WellFormed) (hn : path.name ≠ "") (h : FilePath tree path)
    (ht : TakesPlace tree made after path (reached (tree.startOf path) path.names.dropLast) bytes) :
    FilePath after path := by
  have hnode := ht.node?_eq
  rw [← h.destination_eq hw hn, ← destination_interim] at hnode
  have hstart := ht.startOf_eq
  have hpath : after.destination path = tree.destination path := by
    rw [Tree.destination, Tree.destination, hstart]
  have hinterim : after.destination (interim path) = tree.destination (interim path) := by
    rw [destination_interim, destination_interim, hstart]
  have hthrough (q : Place) : after.LeadsThrough path q → tree.LeadsThrough path q := by
    rw [Tree.LeadsThrough, hstart]
    exact id
  constructor
  case admits => exact h.admits.of_limits ht.limits_eq
  case admitsSibling => exact h.admitsSibling.of_limits ht.limits_eq
  case ancestors =>
    intro k hk bytes hfile
    rw [hstart, hnode] at hfile
    split at hfile
    · rename_i he
      exact h.itself (Or.inr ⟨k, hk, he⟩)
    · split at hfile
      · cases hfile
      · exact h.ancestors k hk _ (Tree.file_of_made ht.directories hfile)
  case itself =>
    rintro (hdirectory | hleads)
    · rw [hpath, hnode, if_pos rfl] at hdirectory
      cases hdirectory
    · exact h.itself (Or.inr (hthrough _ (hpath ▸ hleads)))
  case sibling =>
    rintro (hdirectory | hleads)
    · rw [hinterim, hnode] at hdirectory
      split at hdirectory
      · cases hdirectory
      · rw [if_pos rfl] at hdirectory
        cases hdirectory
    · exact h.sibling (Or.inr (hthrough _ (hinterim ▸ hleads)))

/-- A manifest with short integers can be written at a path to a file, and then it can be written
there again. -/
theorem exists_written (hw : tree.WellFormed) (hn : path.name ≠ "") (h : FilePath tree path)
    {manifest : Entries Json} (hfits : (Json.obj manifest).fits = true) :
    ∃ after, writeManifest tree path manifest = (after, .ok ()) ∧ after.WellFormed ∧
      FilePath after path ∧ after.look? path = some (.file (manifestBytes manifest)) := by
  obtain ⟨made, hparent, hm, hd, hs⟩ := h.exists_made hw hn
  have htarget := h.destination_eq hw hn
  have hsource : (tree.destination path).dropLast ++ [(interim path).name] =
      tree.destination (interim path) := by
    rw [htarget, List.dropLast_concat, destination_interim]
  have hfree : ¬ Blocked made path (tree.destination path) := by
    refine not_or.mpr ⟨?_, not_or.mpr ⟨h.name_ne_up hw, hd⟩⟩
    exact not_not.mpr (h.admits.of_limits hm.limits).refusal?
  have hwrite := write_writeManifest tree path manifest
  generalize hresult : writeManifest tree path manifest = result at hwrite
  cases hwrite with
  | stopped hstop => cases hparent.symm.trans hstop
  | unnamed hunnamed hempty => exact absurd hempty hn
  | refused hmade hr =>
      cases hparent.symm.trans hmade
      cases (h.admitsSibling.of_limits hm.limits).refusal?.symm.trans hr
  | taken htaken hdirectory =>
      cases hparent.symm.trans htaken
      exact absurd (hsource ▸ hdirectory) hs
  | left hleft _ _ hb _ =>
      cases hparent.symm.trans hleft
      exact absurd (hb hfits) hfree
  | done hdone _ _ _ _ =>
      cases hparent.symm.trans hdone
      rw [hsource]
      have ht : TakesPlace tree made _ path _ (manifestBytes manifest) :=
        ⟨hm, destination_interim tree path ▸ hs, htarget ▸ hd, rfl⟩
      rw [← destination_interim, ← htarget] at ht
      exact ⟨_, rfl, ht.wellFormed, h.of_takesPlace hw hn ht,
        (ht.replaced hn (h.name_ne_up hw)).holds⟩

end FilePath

/-- The bytes of a manifest are read as the manifest. -/
theorem readManifest_eq_ok {tree : Tree} {path : Path} {manifest : Entries Json}
    (hm : Json.Plain (.obj manifest)) (hfits : (Json.obj manifest).fits = true)
    (hr : tree.refusal? path = none)
    (h : tree.look? path = some (.file (manifestBytes manifest))) :
    readManifest tree path = .ok manifest := by
  have hreturn : '\r' ∉ Json.indented 0 (.obj manifest) ++ ['\n'] := by
    simp [Json.return_notMem_indented hm]
  have htext : tree.readText path = .ok (Json.indented 0 (.obj manifest) ++ ['\n']) := by
    rw [Tree.readText, hr, h]
    dsimp only
    rw [manifestBytes, Utf8.decode_encode]
    dsimp only
    rw [joinCarriageReturns_eq_self hreturn]
  have hread : Json.read? (Json.indented 0 (.obj manifest) ++ ['\n']) = .ok (.obj manifest) :=
    Json.read?_indented_append hm hfits (by simp [Json.Reader.isGap])
  rw [readManifest, htext]
  dsimp only
  rw [hread]

/-- Whether a manifest that is written at a path can be read there and written again: the first
write succeeds, reading gives the manifest back, and writing that gives the same bytes. -/
def RoundTrips (tree : Tree) (path : Path) (manifest : Entries Json) : Prop :=
  ∃ after bytes, writeManifest tree path manifest = (after, .ok ()) ∧
    after.look? path = some (.file bytes) ∧ readManifest after path = .ok manifest ∧
    ∃ again, writeManifest after path manifest = (again, .ok ()) ∧
      again.look? path = some (.file bytes)

/-- A manifest without floating-point numbers and long integers comes back from any path at which a
file can stand, whatever stood there before. -/
theorem roundTrips_of_filePath {tree : Tree} (hw : tree.WellFormed) {written : String}
    (hp : FilePath tree (.ofString written)) {manifest : Entries Json}
    (hm : Json.Plain (.obj manifest)) (hfits : (Json.obj manifest).fits = true) :
    RoundTrips tree (.ofString written) manifest := by
  have hn := ofString_name_ne_empty (hp.names_ne_nil hw)
  obtain ⟨after, hwrite, hw', hp', hlook⟩ := hp.exists_written hw hn hfits
  obtain ⟨again, hagain, -, -, hlook'⟩ := hp'.exists_written hw' hn hfits
  exact ⟨after, _, hwrite, hlook, readManifest_eq_ok hm hfits hp'.admits.refusal? hlook, again,
    hagain, hlook'⟩

/-- A manifest with a quote, a line separator and an empty object, where an old file stands. -/
theorem roundTrips_of_filePath_overOld :
    let tree : Tree :=
      { home := ["w"]
        nodes := [(["w"], .directory), (["w", "old"], .directory),
          (["w", "old", "m.json"], .file [0])] }
    let manifest : Entries Json :=
      [("na\"me", .str "a\u2028\n"), ("commands", .obj []), ("list", .arr [.int (-12), .null])]
    tree.WellFormed ∧ FilePath tree (.ofString "old//./m.json") ∧ Json.Plain (.obj manifest) ∧
      (Json.obj manifest).fits = true ∧ RoundTrips tree (.ofString "old//./m.json") manifest := by
  intro tree manifest
  have hw : tree.WellFormed := Tree.wellFormed_of_nodes (by decide +kernel) rfl
  have hnames : Path.ofString "old//./m.json" = ⟨.here, ["old", "m.json"]⟩ := by decide +kernel
  have hp : FilePath tree (.ofString "old//./m.json") := by
    rw [hnames]
    constructor
    case admits => constructor <;> decide +kernel
    case admitsSibling => constructor <;> decide +kernel
    case ancestors =>
      have hdirectories : ∀ k < 2, tree.node? (reached ["w"] (["old", "m.json"].take k)) =
          some .directory := by decide +kernel
      intro k hk bytes hfile
      cases (hdirectories k hk).symm.trans hfile
    case itself => decide +kernel
    case sibling => decide +kernel
  have hm : Json.Plain (.obj manifest) := by
    refine .obj (by decide) ?_
    simp only [manifest, List.forall_mem_cons]
    refine ⟨.str _, .obj (by decide) (by simp), .arr ?_, by simp⟩
    simp only [List.forall_mem_cons]
    exact ⟨.int _, .null, by simp⟩
  have hfits : (Json.obj manifest).fits = true := by decide +kernel
  exact ⟨hw, hp, hm, hfits, roundTrips_of_filePath hw hp hm hfits⟩

/-- Whether a path is free for a file in a tree as it stands: no file is above it, and neither it
nor its sibling is a directory. -/
structure FreeNow (tree : Tree) (path : Path) : Prop where
  ancestors : ∀ k < path.names.length, tree.isFile ⟨path.root, path.names.take k⟩ = false
  itself : tree.isDirectory path = false
  sibling : tree.isDirectory (interim path) = false

namespace RoundTrips

variable {tree : Tree} {path : Path} {manifest : Entries Json}

theorem exists_done (h : RoundTrips tree path manifest) :
    ∃ made target, tree.makeParent path = (made, .ok target) ∧ path.name ≠ "" ∧
      (Json.obj manifest).fits = true ∧ ¬ Blocked made path target := by
  obtain ⟨after, bytes, hwritten, -⟩ := h
  have hwrite := write_writeManifest tree path manifest
  rw [hwritten] at hwrite
  cases hwrite with
  | done hmade hn hfits hb _ => exact ⟨_, _, hmade, hn, hfits, hb⟩

/-- A manifest that is written has no long integer. -/
theorem fits (h : RoundTrips tree path manifest) : (Json.obj manifest).fits = true := by
  obtain ⟨made, target, -, -, hfits, -⟩ := h.exists_done
  exact hfits

/-- A manifest is written only to a path that the system follows. -/
theorem admitted (hw : tree.WellFormed) (h : RoundTrips tree path manifest) :
    path.holdsNull = false ∧ path.toString.utf8ByteSize ≤ tree.limits.path ∧
      path.name.utf8ByteSize ≤ tree.limits.name := by
  obtain ⟨made, target, hmade, hn, -, hb⟩ := h.exists_done
  obtain ⟨parent, -, hm⟩ := Tree.made_of_makeParent hw hmade
  have hstart : made.startOf path = tree.startOf path := by
    rw [Tree.startOf, Tree.startOf, hm.home]
  have hfollowed : made.refusal? path = none := not_not.mp (not_or.mp hb).1
  have hleads : made.follow? (made.startOf path) path.names.dropLast = some parent :=
    hstart ▸ hm.leads
  have hsizes := Tree.sizes_of_refusal? hfollowed
    (names_eq_of_name hn ▸ rfl : path.names = path.names.dropLast ++ [path.name]) hleads
    hm.directory
  rwa [hm.limits] at hsizes

end RoundTrips

/-- A slash stands between two names. -/
theorem length_le_size_intercalate (names : List String) :
    names.length ≤ ("/".intercalate names).utf8ByteSize + 1 := by
  induction names with
  | nil => exact Nat.zero_le _
  | cons name rest ih =>
      cases rest with
      | nil => simp
      | cons next rest =>
          have hslash : "/".utf8ByteSize = 1 := rfl
          rw [String.intercalate_cons_cons, String.utf8ByteSize_append,
            String.utf8ByteSize_append, List.length_cons]
          omega

/-- A tree with nothing in it. -/
def emptyTree : Tree := { home := [], nodes := [] }

theorem wellFormed_emptyTree : emptyTree.WellFormed :=
  Tree.wellFormed_of_nodes (by simp [emptyTree]) rfl

theorem node?_emptyTree {place : Place} (h : place ≠ []) : emptyTree.node? place = none := by
  rw [Tree.node?_of_ne_nil h]
  rfl

theorem isFile_emptyTree (path : Path) : emptyTree.isFile path = false := by
  have hfile (place : Place) (bytes : Utf8.Bytes) :
      emptyTree.node? place ≠ some (.file bytes) := by
    by_cases h : place = []
    · simp [h]
    · simp [node?_emptyTree h]
  unfold Tree.isFile Tree.look?
  split
  · rename_i bytes hlook
    obtain ⟨place, -, hplace⟩ := Option.bind_eq_some_iff.mp hlook
    exact absurd hplace (hfile place bytes)
  · rfl

theorem isDirectory_emptyTree {first : String} (h : first ≠ "..") (rest : List String) :
    emptyTree.isDirectory ⟨.here, first :: rest⟩ = false := by
  have hfirst : emptyTree.node? [first] = none := node?_emptyTree (by simp)
  have hfollow : emptyTree.follow? [] (first :: rest) = emptyTree.follow? [first] rest := by
    rw [Tree.follow?_cons_of_directory rfl, if_neg h]
    rfl
  have hlook : emptyTree.look? ⟨.here, first :: rest⟩ = none := by
    change (emptyTree.follow? [] (first :: rest)).bind emptyTree.node? = none
    rw [hfollow]
    cases rest with
    | nil => exact hfirst
    | cons next rest =>
        rw [Tree.follow?, hfirst, if_neg (by simp)]
        rfl
  rw [Tree.isDirectory, hlook]
  rfl

/-- A path that does not start with a way up is free where there is nothing. -/
theorem freeNow_emptyTree {first : String} (h : first ≠ "..") (rest : List String) :
    FreeNow emptyTree ⟨.here, first :: rest⟩ := by
  refine ⟨fun k _ => isFile_emptyTree _, isDirectory_emptyTree h rest, ?_⟩
  rw [← withName_name_interim]
  cases rest with
  | nil => exact isDirectory_emptyTree (name_interim_ne_up _) []
  | cons next rest => exact isDirectory_emptyTree h _

/-- A name that is too long is free, and yet nothing is written to it. -/
theorem unwritable_of_longName {name : String} (h : 255 < name.utf8ByteSize) :
    FreeNow emptyTree ⟨.here, [name]⟩ ∧ ¬ RoundTrips emptyTree ⟨.here, [name]⟩ [] := by
  constructor
  · refine freeNow_emptyTree ?_ []
    rintro rfl
    exact absurd h (by decide)
  · intro hround
    exact Nat.not_le.mpr h (hround.admitted wellFormed_emptyTree).2.2

/-- So is a path of too many names. -/
theorem unwritable_of_longPath {rest : List String} (h : 4095 < rest.length) :
    FreeNow emptyTree ⟨.here, "a" :: rest⟩ ∧ ¬ RoundTrips emptyTree ⟨.here, "a" :: rest⟩ [] := by
  refine ⟨freeNow_emptyTree (by decide) rest, fun hround => ?_⟩
  have htext : ("/".intercalate ("a" :: rest)).utf8ByteSize ≤ 4095 :=
    (hround.admitted wellFormed_emptyTree).2.1
  have hnames := length_le_size_intercalate ("a" :: rest)
  rw [List.length_cons] at hnames
  omega

/-- Where there is nothing yet, a manifest does not come back from each path that is free: a path
through itself becomes a directory when those above it are made, an integer may be too long, and
the system refuses the null character, a name that is too long and a path that is too long. -/
theorem not_roundTrips_unwritable :
    emptyTree.WellFormed ∧
      ∀ attempt ∈ [
        (Path.ofString "a/../a", ([] : Entries Json)),
        (⟨.here, ["a"]⟩, [("n", .int (Decimal.tenTo Json.mostDigits))]),
        (⟨.here, ["\x00"]⟩, []),
        (⟨.here, [String.ofList (List.replicate 256 'a')]⟩, []),
        (⟨.here, List.replicate 4097 "a"⟩, [])],
        FreeNow emptyTree attempt.1 ∧ Json.Plain (.obj attempt.2) ∧
          ¬ RoundTrips emptyTree attempt.1 attempt.2 := by
  have hempty : Json.Plain (.obj []) := .obj (by decide) (by simp)
  refine ⟨wellFormed_emptyTree, ?_⟩
  simp only [List.forall_mem_cons]
  refine ⟨?throughItself, ?longInteger, ?null, ?longName, ?longPath, by simp⟩
  case throughItself =>
    refine ⟨⟨fun k _ => isFile_emptyTree _, by decide +kernel, by decide +kernel⟩, hempty, ?_⟩
    rintro ⟨after, bytes, hwritten, -⟩
    have hfails : (writeManifest emptyTree (.ofString "a/../a") []).2 = .error .isDirectory := by
      decide +kernel
    rw [hwritten] at hfails
    cases hfails
  case longInteger =>
    have hplain : Json.Plain (.obj [("n", .int (Decimal.tenTo Json.mostDigits))]) :=
      .obj (List.nodup_cons.mpr ⟨List.not_mem_nil, List.nodup_nil⟩)
        (List.forall_mem_singleton.mpr (.int _))
    refine ⟨freeNow_emptyTree (by decide) [], hplain, fun hround => ?_⟩
    have hshort := Json.fits_obj_iff.mp hround.fits _ List.mem_cons_self
    rw [Json.fits, Json.isShort, decide_eq_true_iff, Int.natAbs_natCast] at hshort
    exact Nat.lt_irrefl _ hshort
  case null =>
    refine ⟨freeNow_emptyTree (by decide) [], hempty, fun hround => ?_⟩
    cases (hround.admitted wellFormed_emptyTree).1
  case longName =>
    have hsize : 255 < (String.ofList (List.replicate 256 'a')).utf8ByteSize := by
      rw [String.utf8ByteSize_ofList]
      decide +kernel
    obtain ⟨hfree, hround⟩ := unwritable_of_longName hsize
    exact ⟨hfree, hempty, hround⟩
  case longPath =>
    have hlength : 4095 < (List.replicate 4096 "a").length := by
      rw [List.length_replicate]
      decide
    rw [List.replicate_succ]
    obtain ⟨hfree, hround⟩ := unwritable_of_longPath hlength
    exact ⟨hfree, hempty, hround⟩

end PluginContract.Manifest
