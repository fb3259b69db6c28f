import Mathlib.Data.List.Nodup
import Mathlib.Data.List.TakeWhile
import PluginContract.Proofs.Entries
import PluginContract.Proofs.Files.Names
import PluginContract.Proofs.Files.Places
import PluginContract.Proofs.Resolution.AliasTables
import PluginContract.Proofs.Resolution.Lookups

/-!
# The order of path aliases

The first alias that fits a specifier decides what the specifier refers to, also where the path
that it makes leads to no file. So the order of a table plays no part exactly if the aliases that
fit one specifier all make the same path of it, or paths with the null character, which lead to no
file. Where two of them do not, a file at one of the two paths tells the orders apart.
-/

namespace PluginContract.Resolution

open Text Files

/-- An alias of a configuration file: its pattern, the target that counts, and other targets. -/
structure PathAlias where
  pattern : String
  target : String
  others : List String
deriving DecidableEq, Repr

namespace PathAlias

/-- An alias as it stands in a configuration file. -/
def entry (a : PathAlias) : String × Json :=
  (a.pattern, .arr (.str a.target :: a.others.map .str))

/-- The prefix of specifiers that an alias stands for. -/
def name (a : PathAlias) : String := dropWildcard a.pattern

/-- The directory of an alias, from the root of the project. -/
def directory (a : PathAlias) : String := dropWildcard a.target

/-- The path that an alias makes of a specifier, if it fits. -/
def path? (root : Path) (a : PathAlias) (specifier : List Char) : Option Path :=
  (Project.afterAlias? a.name specifier).map fun rest =>
    (root.join (Path.ofString a.directory)).join (Path.ofString (String.ofList rest))

end PathAlias

/-- The aliases of a configuration file, of which no two stand for the same prefix. -/
structure AliasTable where
  list : List PathAlias
  nodup_names : (list.map PathAlias.name).Nodup

namespace AliasTable

/-- The source file that a specifier in a file refers to, in a project with a table of aliases. -/
def found (aliases : AliasTable) (root : Path) (tree : Tree) (importer : Path)
    (specifier : String) : Except Failure (Option Path) :=
  match readAliases (aliases.list.map PathAlias.entry) with
  | .ok entries => Project.find? ⟨root, entries⟩ tree importer specifier
  | .error fault => .error (.malformedAliases fault)

/-- An alias with the longest prefix among those that fit a specifier, with the path that it
makes. -/
structure MostSpecific (aliases : AliasTable) (root : Path) (specifier : List Char)
    (a : PathAlias) (path : Path) : Prop where
  mem : a ∈ aliases.list
  fits : a.path? root specifier = some path
  longest : ∀ b ∈ aliases.list, (b.path? root specifier).isSome →
    b.name.toList.length ≤ a.name.toList.length

/-- Whether nothing depends on the order of a table: with the same aliases in any order all
specifiers refer to the same files, and the most specific alias decides. -/
structure OrderIrrelevant (aliases : AliasTable) (root : Path) : Prop where
  permuted : ∀ other : AliasTable, other.list.Perm aliases.list → ∀ tree importer specifier,
    other.found root tree importer specifier = aliases.found root tree importer specifier
  specific : ∀ tree importer (specifier : String) a path,
    specifier.toList ≠ [] → specifier.toList.head? ≠ some '.' →
      aliases.MostSpecific root specifier.toList a path →
        aliases.found root tree importer specifier = probe? tree path

/-- Whether paths stand for the same file in every tree: they are equal, or no file is at either of
them, both having the null character, and each of them has a name or neither has one. -/
def StandAlike (p q : Path) : Prop :=
  p = q ∨ p.holdsNull = true ∧ q.holdsNull = true ∧ (p.name = "" ↔ q.name = "")

/-- Whether aliases that fit the same specifier make paths of it that stand for the same file. A
specifier that starts with a point is relative and none of them is asked. -/
def OverlapsAgree (aliases : AliasTable) (root : Path) : Prop :=
  ∀ specifier : List Char, specifier.head? ≠ some '.' → ∀ a ∈ aliases.list, ∀ b ∈ aliases.list,
    ∀ p q, a.path? root specifier = some p → b.path? root specifier = some q → StandAlike p q

section Found

variable (aliases : AliasTable)

/-- A table is read as it stands. -/
theorem readAliases_entries :
    readAliases (aliases.list.map PathAlias.entry) =
      .ok (aliases.list.map fun a => (a.name, a.directory)) := by
  have hfold (list : List PathAlias) (gathered : Entries String) :
      (list.map PathAlias.entry).foldlM addAlias gathered =
        .ok ((list.map fun a => (a.name, a.directory)).foldl
          (fun entries pair => entries.put pair.1 pair.2) gathered) := by
    induction list generalizing gathered with
    | nil => rfl
    | cons a rest ih => exact ih (gathered.put a.name a.directory)
  have hkeys : (Entries.keys (aliases.list.map fun a => (a.name, a.directory))).Nodup := by
    rw [Entries.keys, List.map_map]
    exact aliases.nodup_names
  rw [readAliases_eq_foldlM, hfold]
  exact congrArg Except.ok (Entries.ofPairs_eq_self hkeys)

/-- The first alias that fits makes the path of a specifier. -/
theorem aliasedPath?_eq (root : Path) (specifier : List Char) :
    (Project.mk root (aliases.list.map fun a => (a.name, a.directory))).aliasedPath? specifier =
      aliases.list.findSome? fun a => a.path? root specifier := by
  rw [Project.aliasedPath?, List.findSome?_map]
  rfl

theorem found_eq (root : Path) (tree : Tree) (importer : Path) (specifier : String) :
    aliases.found root tree importer specifier =
      Project.find? ⟨root, aliases.list.map fun a => (a.name, a.directory)⟩ tree importer
        specifier := by
  rw [found, aliases.readAliases_entries]

variable {aliases} {root path : Path} {tree : Tree} {importer : Path} {specifier : String}

/-- What a specifier that is not relative stands for, by the first alias that fits. -/
theorem pathOf?_eq (hne : specifier.toList ≠ []) (hrelative : specifier.toList.head? ≠ some '.') :
    Project.pathOf? ⟨root, aliases.list.map fun a => (a.name, a.directory)⟩ tree importer
        specifier =
      match aliases.list.findSome? fun a => a.path? root specifier.toList with
      | some path => .ok (some path)
      | none =>
          .ok (if specifier.toList.head? = some '/' then some (Path.ofString specifier) else none) := by
  rw [Project.pathOf?.eq_def]
  split
  · exact absurd ‹_› hne
  · rename_i rest heq
    rw [heq] at hrelative
    exact absurd rfl hrelative
  · cases hfirst : aliases.list.findSome? fun a => a.path? root specifier.toList with
    | none => simp only [aliasedPath?_eq, hfirst]
    | some path => simp only [aliasedPath?_eq, hfirst]

/-- Where an alias fits, the path of the first one that does is tried. -/
theorem found_of_findSome? (hne : specifier.toList ≠ [])
    (hrelative : specifier.toList.head? ≠ some '.')
    (h : (aliases.list.findSome? fun a => a.path? root specifier.toList) = some path) :
    aliases.found root tree importer specifier = probe? tree path := by
  rw [found_eq, Project.find?, pathOf?_eq hne hrelative, h]

theorem found_of_findSome?_eq_none (hne : specifier.toList ≠ [])
    (hrelative : specifier.toList.head? ≠ some '.')
    (h : (aliases.list.findSome? fun a => a.path? root specifier.toList) = none) :
    aliases.found root tree importer specifier =
      if specifier.toList.head? = some '/' then probe? tree (Path.ofString specifier)
      else .ok none := by
  rw [found_eq, Project.find?, pathOf?_eq hne hrelative, h]
  split_ifs <;> rfl

/-- Where no alias is asked, the aliases do not matter. -/
theorem found_of_not_asked (other : AliasTable)
    (h : specifier.toList = [] ∨ specifier.toList.head? = some '.') :
    other.found root tree importer specifier = aliases.found root tree importer specifier := by
  rw [found_eq, found_eq, Project.find?, Project.find?]
  rcases h with hnil | hpoint
  · rw [Project.pathOf?.eq_def, Project.pathOf?.eq_def, hnil]
  · rw [Project.pathOf?_of_relative hpoint, Project.pathOf?_of_relative hpoint]

end Found

section Null

variable {tree : Tree} {p q found : Path}

/-- What is tried for a path with the null character has it too. -/
theorem holdsNull_of_mem_directPaths (h : p.holdsNull = true) (hq : q ∈ directPaths p) :
    q.holdsNull = true := by
  rcases List.mem_cons.mp hq with rfl | hmem
  · exact h
  · obtain ⟨e, he, rfl⟩ := List.mem_map.mp hmem
    refine Path.holdsNull_withSuffix h (fun hnull => ?_) e
    unfold sourceExtensions at he
    split_ifs at he with hjs hjsx hmjs hcjs
    · exact absurd (hjs ▸ hnull) (by decide)
    · exact absurd (hjsx ▸ hnull) (by decide)
    · exact absurd (hmjs ▸ hnull) (by decide)
    · exact absurd (hcjs ▸ hnull) (by decide)
    · cases he

theorem holdsNull_of_mem_extendedPaths (h : p.holdsNull = true) (hq : q ∈ extendedPaths tree p) :
    q.holdsNull = true := by
  rcases List.mem_append.mp hq with hmem | hmem
  · obtain ⟨e, he, rfl⟩ := List.mem_map.mp hmem
    refine Path.holdsNull_withName h fun hnull => ?_
    rw [String.toList_append]
    exact List.mem_append_left _ hnull
  · split at hmem
    · obtain ⟨e, he, rfl⟩ := List.mem_map.mp hmem
      exact Path.holdsNull_child_iff.mpr (Or.inl h)
    · cases hmem

theorem checkFile_of_holdsNull (h : p.holdsNull = true) : tree.checkFile p = .ok false := by
  have hrefused : tree.refusal? p = some .null := if_pos h
  rw [Tree.checkFile, hrefused]

/-- No file is found for a path with the null character. -/
theorem probe?_of_holdsNull (h : p.holdsNull = true) :
    probe? tree p = if p.name = "" then .error .pathWithoutName else .ok none := by
  have hdirect : firstFile? tree (directPaths p) = .ok none :=
    firstFile?_eq_ok_none_iff.mpr fun q hq =>
      checkFile_of_holdsNull (holdsNull_of_mem_directPaths h hq)
  have hextended : firstFile? tree (extendedPaths tree p) = .ok none :=
    firstFile?_eq_ok_none_iff.mpr fun q hq =>
      checkFile_of_holdsNull (holdsNull_of_mem_extendedPaths h hq)
  rw [probe?, hdirect, hextended]

theorem StandAlike.probe?_eq (h : StandAlike p q) (tree : Tree) : probe? tree p = probe? tree q := by
  rcases h with rfl | ⟨hp, hq, hnames⟩
  · rfl
  · simp only [probe?_of_holdsNull hp, probe?_of_holdsNull hq, hnames]

end Null

section Agreeing

variable {aliases : AliasTable} {root path : Path} {tree : Tree} {importer : Path}
  {specifier : String}

/-- Where the aliases that fit agree, the path of any of them is tried. -/
theorem found_eq_of_agree (h : aliases.OverlapsAgree root) (hne : specifier.toList ≠ [])
    (hpoint : specifier.toList.head? ≠ some '.') {a : PathAlias} (ha : a ∈ aliases.list)
    (hpath : a.path? root specifier.toList = some path) :
    aliases.found root tree importer specifier = probe? tree path := by
  cases hfirst : aliases.list.findSome? fun a => a.path? root specifier.toList with
  | none =>
      rw [List.findSome?_eq_none_iff.mp hfirst a ha] at hpath
      cases hpath
  | some first =>
      obtain ⟨b, hb, hbpath⟩ := List.exists_of_findSome?_eq_some hfirst
      rw [found_of_findSome? hne hpoint hfirst]
      exact (h _ hpoint b hb a ha first path hbpath hpath).probe?_eq tree

theorem orderIrrelevant_of_overlapsAgree (h : aliases.OverlapsAgree root) :
    aliases.OrderIrrelevant root where
  permuted other hperm tree importer specifier := by
    by_cases hasked : specifier.toList = [] ∨ specifier.toList.head? = some '.'
    · exact found_of_not_asked other hasked
    obtain ⟨hne, hpoint⟩ := not_or.mp hasked
    cases hfirst : other.list.findSome? fun a => a.path? root specifier.toList with
    | none =>
        have hnone : (aliases.list.findSome? fun a => a.path? root specifier.toList) = none := by
          rw [List.findSome?_eq_none_iff] at hfirst ⊢
          exact fun a ha => hfirst a (hperm.mem_iff.mpr ha)
        rw [found_of_findSome?_eq_none hne hpoint hfirst,
          found_of_findSome?_eq_none hne hpoint hnone]
    | some path =>
        obtain ⟨a, ha, hpath⟩ := List.exists_of_findSome?_eq_some hfirst
        rw [found_of_findSome? hne hpoint hfirst,
          found_eq_of_agree h hne hpoint (hperm.mem_iff.mp ha) hpath]
  specific tree importer specifier a path hne hpoint ha :=
    found_eq_of_agree h hne hpoint ha.mem ha.fits

end Agreeing

end AliasTable

section Below

/-- A name that a specifier can go on with: at least one letter. -/
def letters (n : Nat) : List Char := List.replicate (n + 1) 'q'

theorem eq_of_mem_letters {n : Nat} {c : Char} (h : c ∈ letters n) : c = 'q' :=
  List.eq_of_mem_replicate h

theorem letters_notMem {n : Nat} {c : Char} (h : c ≠ 'q') : c ∉ letters n :=
  fun hmem => h (eq_of_mem_letters hmem)

theorem exists_bound (size : String → Nat) (names : List String) :
    ∃ n, ∀ name ∈ names, size name ≤ n := by
  induction names with
  | nil => exact ⟨0, nofun⟩
  | cons name names ih =>
      obtain ⟨n, hn⟩ := ih
      refine ⟨max (size name) n, List.forall_mem_cons.mpr ⟨Nat.le_max_left _ _, ?_⟩⟩
      exact fun other hother => Nat.le_trans (hn other hother) (Nat.le_max_right _ _)

/-- Some name is longer than all of a list. -/
theorem exists_letters_notMem (names : List String) :
    ∃ n, String.ofList (letters n) ∉ names := by
  obtain ⟨n, hn⟩ := exists_bound (fun name => name.toList.length) names
  refine ⟨n, fun hmem => ?_⟩
  have hle := hn _ hmem
  rw [String.toList_ofList, letters, List.length_replicate] at hle
  omega

theorem fieldsFrom_append (separator : Char) (current u v : List Char) :
    fieldsFrom separator current (u ++ separator :: v) =
      fieldsFrom separator current u ++ fields separator v := by
  induction u generalizing current with
  | nil => simp only [List.nil_append, fieldsFrom, if_true, fields, List.singleton_append]
  | cons c u ih =>
      rw [List.cons_append, fieldsFrom, fieldsFrom]
      split
      · exact congrArg (current.reverse :: ·) (ih [])
      · exact ih (c :: current)

theorem fieldsFrom_of_notMem {separator : Char} {u : List Char} (h : separator ∉ u)
    (current : List Char) : fieldsFrom separator current u = [current.reverse ++ u] := by
  induction u generalizing current with
  | nil => rw [fieldsFrom, List.append_nil]
  | cons c u ih =>
      obtain ⟨hc, hu⟩ := not_or.mp (mt List.mem_cons.mpr h)
      rw [fieldsFrom, if_neg (Ne.symm hc), ih hu, List.reverse_cons, List.append_assoc]
      rfl

theorem rootOf_of_head? {t : List Char} (h : t.head? ≠ some '/') : Path.rootOf t = .here := by
  cases t with
  | nil => rfl
  | cons c t =>
      have hc : c ≠ '/' := fun heq => h (congrArg some heq)
      unfold Path.rootOf
      split
      · exact absurd (List.cons.inj ‹_›).1 hc
      · exact absurd (List.cons.inj ‹_›).1 hc
      · exact absurd (List.cons.inj ‹_›).1 hc
      · rfl

/-- A rest of a specifier that goes on with a name leads to that name below. -/
theorem ofString_below {rest : List Char} (h : rest.head? ≠ some '/') (n : Nat) :
    Path.ofString (String.ofList (if rest.isEmpty then letters n else rest ++ '/' :: letters n)) =
      (Path.ofString (String.ofList rest)).child (String.ofList (letters n)) := by
  have hslash : '/' ∉ letters n := letters_notMem (by decide)
  have hname : (!(letters n).isEmpty && letters n != ['.']) = true := by
    simp [letters, List.replicate_succ]
  cases rest with
  | nil =>
      have hhead : (letters n).head? ≠ some '/' := fun heq => hslash (List.mem_of_mem_head? heq)
      simp only [List.isEmpty_nil, if_true, Path.ofString, Path.child, String.toList_ofList, fields,
        fieldsFrom_of_notMem hslash, rootOf_of_head? hhead, List.reverse_nil, List.nil_append,
        List.filter_cons, hname]
      rfl
  | cons c rest =>
      have hhead : ((c :: rest) ++ '/' :: letters n).head? ≠ some '/' := h
      simp only [List.isEmpty_cons, Bool.false_eq_true, if_false, Path.ofString, Path.child,
        String.toList_ofList, fields, fieldsFrom_append, rootOf_of_head? hhead, rootOf_of_head? h,
        fieldsFrom_of_notMem hslash, List.reverse_nil, List.nil_append, List.filter_append,
        List.map_append, List.filter_cons, hname]
      rfl

theorem afterAlias?_below {name : String} {specifier rest : List Char} {n : Nat}
    (h : Project.afterAlias? name specifier = some rest) :
    rest.head? ≠ some '/' ∧ Project.afterAlias? name (specifier ++ '/' :: letters n) =
      some (if rest.isEmpty then letters n else rest ++ '/' :: letters n) := by
  have hletters : (letters n).dropWhile (· == '/') = letters n := rfl
  unfold Project.afterAlias? at h ⊢
  split at h
  · rename_i heq
    obtain rfl := Option.some.inj h
    have hmore : after? name.toList (name.toList ++ '/' :: letters n) = some ('/' :: letters n) :=
      after?_eq_some_iff.mpr rfl
    rw [after?_eq_some_iff.mp heq, List.append_nil, hmore]
    exact ⟨nofun, congrArg some hletters⟩
  · rename_i more heq
    obtain rfl := Option.some.inj h
    have hmore : after? name.toList (specifier ++ '/' :: letters n) =
        some ('/' :: (more ++ '/' :: letters n)) := by
      rw [after?_eq_some_iff, after?_eq_some_iff.mp heq, List.append_assoc]
      rfl
    rw [hmore]
    refine ⟨fun hhead => ?_, ?_⟩
    · have hnot := List.head?_dropWhile_not (· == '/') more
      rw [hhead] at hnot
      cases hnot
    · change some ((more ++ '/' :: letters n).dropWhile (· == '/')) = _
      rw [List.dropWhile_append]
      rfl
  · cases h

theorem join_child {p q : Path} (h : q.root = .here) (name : String) :
    p.join (q.child name) = (p.join q).child name := by
  simp only [Path.join, Path.child, h, List.append_assoc]

theorem PathAlias.path?_below {a : PathAlias} {root path : Path} {specifier : List Char}
    (h : a.path? root specifier = some path) (n : Nat) :
    a.path? root (specifier ++ '/' :: letters n) =
      some (path.child (String.ofList (letters n))) := by
  obtain ⟨rest, hrest, rfl⟩ := Option.map_eq_some_iff.mp h
  obtain ⟨hhead, hafter⟩ := afterAlias?_below (n := n) hrest
  have hroot : (Path.ofString (String.ofList rest)).root = .here := by
    rw [Path.ofString, String.toList_ofList]
    exact rootOf_of_head? hhead
  rw [PathAlias.path?, hafter, Option.map_some, ofString_below hhead, join_child hroot]

/-- Only the empty prefix fits an empty specifier. -/
theorem PathAlias.name_of_path?_nil {a : PathAlias} {root path : Path}
    (h : a.path? root [] = some path) : a.name = "" := by
  obtain ⟨rest, hrest, -⟩ := Option.map_eq_some_iff.mp h
  have hafter : ∃ more, after? a.name.toList [] = some more := by
    unfold Project.afterAlias? at hrest
    split at hrest
    · exact ⟨_, ‹_›⟩
    · exact ⟨_, ‹_›⟩
    · cases hrest
  obtain ⟨more, hmore⟩ := hafter
  exact String.toList_eq_nil_iff.mp (List.append_eq_nil_iff.mp (after?_eq_some_iff.mp hmore).symm).1

end Below

section Telling

theorem mem_reached {x : String} {place : Place} {names : List String}
    (h : x ∈ reached place names) : x ∈ place ∨ x ∈ names := by
  induction names generalizing place with
  | nil => exact Or.inl h
  | cons name names ih =>
      rw [reached_cons] at h
      rcases ih h with hplace | hnames
      · split at hplace
        · exact Or.inl (List.dropLast_subset _ hplace)
        · rcases List.mem_append.mp hplace with hold | hnew
          · exact Or.inl hold
          · exact Or.inr (List.mem_cons.mpr (Or.inl (List.mem_singleton.mp hnew)))
      · exact Or.inr (List.mem_cons_of_mem _ hnames)

/-- A name that is none of a path's own can be that of a file below it. -/
theorem exists_checkFile_child {p : Path} {name : String} (hname : name ∉ p.names)
    (hup : name ≠ "..") (hnull : (p.child name).holdsNull = false) :
    ∃ tree : Tree, tree.checkFile (p.child name) = .ok true := by
  -- A file system has its limits, and there is one that takes these names.
  obtain ⟨limit, hlimit⟩ := exists_bound String.utf8ByteSize (p.child name).names
  let empty : Tree :=
    { home := [], nodes := [], limits := ⟨limit, (p.child name).toString.utf8ByteSize⟩ }
  have hnode (place : Place) (hne : place ≠ []) : empty.node? place = none := by
    rw [Tree.node?_of_ne_nil hne]
    rfl
  have hfile (place : Place) (bytes : Text.Utf8.Bytes) :
      empty.node? place ≠ some (.file bytes) := by
    by_cases hne : place = []
    · simp [hne]
    · simp [hnode place hne]
  have hstart : empty.startOf p = [] := by
    rw [Tree.startOf]
    split <;> rfl
  obtain ⟨made, hok⟩ : ∃ made, empty.makeDirectories [] p.names =
      (made, .ok (reached [] p.names)) :=
    Tree.exists_makeDirectories_eq_ok
      (fun other hother => hlimit other (List.mem_append_left _ hother)) fun _ _ _ => hfile _ _
  have hmade : empty.Made made (empty.startOf p) p.names (reached [] p.names) := by
    rw [hstart]
    exact Tree.made_of_makeDirectories (Tree.wellFormed_of_nodes (by simp [empty]) rfl) rfl hok
  -- The directories that were made have the names of the path only.
  have hnew : made.node? (reached [] p.names ++ [name]) = none := by
    by_contra hsome
    obtain ⟨-, k, hk⟩ := hmade.fresh _ (hnode _ (by simp)) hsome
    have hmem : name ∈ reached [] (p.names.take k) := by
      rw [← hstart, Tree.reached_of_follow? hk]
      simp
    rcases mem_reached hmem with hnil | htake
    · cases hnil
    · exact hname (List.mem_of_mem_take htake)
  have hadmits : empty.Admits (p.child name) := ⟨hnull, Nat.le_refl _, hlimit⟩
  have hlimits : (made.set (reached [] p.names ++ [name]) (.file [])).limits = empty.limits := by
    rw [Tree.limits_set, hmade.limits]
  exact ⟨_, checkFile_eq_true_iff.mpr
    ⟨(hadmits.of_limits hlimits).refusal?, hmade.isFile_set_child hnew hup []⟩⟩

@[simp] theorem name_child (p : Path) (name : String) : (p.child name).name = name := by
  simp [Path.name, Path.child]

theorem child_injective {p q : Path} {name : String} (h : p.child name = q.child name) : p = q := by
  obtain ⟨hroot, hnames⟩ := Files.Path.mk.inj h
  cases p
  cases q
  exact congrArg₂ Files.Path.mk hroot (List.append_cancel_right hnames)

@[simp] theorem name_withName (p : Path) (name : String) : (p.withName name).name = name := by
  simp [Path.name, Path.withName]

theorem sourceExtensions_letters (p : Path) (n : Nat) :
    sourceExtensions (p.child (String.ofList (letters n))).suffix = [] := by
  have hwhole : (letters n).reverse.takeWhile (· != '.') = (letters n).reverse :=
    List.takeWhile_eq_self_iff.mpr fun c hc => by
      rw [eq_of_mem_letters (List.mem_reverse.mp hc)]
      decide
  have hcut : (Path.cutSuffix (letters n)).2 = [] := by
    rw [Path.cutSuffix, hwhole, List.reverse_reverse]
    simp
  rw [Path.suffix, name_child, String.toList_ofList, hcut]
  decide +kernel

theorem point_mem_of_extension : ∀ e ∈ extensions, '.' ∈ e.toList := by decide +kernel

theorem extended_ne_letters {e : String} (he : e ∈ extensions) (pre : String) (n : Nat) :
    pre ++ e ≠ String.ofList (letters n) := by
  intro heq
  have hmem : '.' ∈ letters n := by
    rw [← String.toList_ofList (l := letters n), ← heq, String.toList_append]
    exact List.mem_append_right _ (point_mem_of_extension e he)
  exact letters_notMem (by decide) hmem

/-- What is found for a path whose name has no point is the path itself, or a file that has another
name. -/
theorem eq_or_name_ne_of_probe? {tree : Tree} {p found : Path} {n : Nat}
    (h : probe? tree (p.child (String.ofList (letters n))) = .ok (some found)) :
    found = p.child (String.ofList (letters n)) ∨ found.name ≠ String.ofList (letters n) := by
  rw [probe?, directPaths, sourceExtensions_letters] at h
  split at h
  · cases h
  · rename_i hfirst
    obtain rfl := Option.some.inj (Except.ok.inj h)
    exact Or.inl (List.mem_singleton.mp (checkFile_of_firstFile? hfirst).1)
  · right
    split at h
    · cases h
    · rcases List.mem_append.mp (checkFile_of_firstFile? h).1 with hextended | hindex
      · obtain ⟨e, he, rfl⟩ := List.mem_map.mp hextended
        rw [name_withName]
        exact extended_ne_letters he _ n
      · split at hindex
        · obtain ⟨e, he, rfl⟩ := List.mem_map.mp hindex
          rw [name_child]
          exact extended_ne_letters he _ n
        · cases hindex

end Telling

namespace AliasTable

variable {aliases : AliasTable} {root : Path}

/-- The table with one alias moved to the front. -/
theorem exists_perm_first {a : PathAlias} (ha : a ∈ aliases.list) :
    ∃ other : AliasTable, other.list.Perm aliases.list ∧ other.list.head? = some a := by
  have hperm := List.perm_cons_erase ha
  have hnodup := (hperm.map PathAlias.name).nodup_iff.mp aliases.nodup_names
  exact ⟨⟨a :: aliases.list.erase a, hnodup⟩, hperm.symm, rfl⟩

theorem eq_of_name_eq {a b : PathAlias} (ha : a ∈ aliases.list) (hb : b ∈ aliases.list)
    (h : a.name = b.name) : a = b :=
  List.inj_on_of_nodup_map aliases.nodup_names ha hb h

/-- Where order is irrelevant any alias that fits decides. -/
theorem found_eq_probe? (h : aliases.OrderIrrelevant root) {a : PathAlias} (ha : a ∈ aliases.list)
    {specifier : String} {path : Path} (hne : specifier.toList ≠ [])
    (hrelative : specifier.toList.head? ≠ some '.')
    (hpath : a.path? root specifier.toList = some path) (tree : Tree) (importer : Path) :
    aliases.found root tree importer specifier = probe? tree path := by
  obtain ⟨other, hperm, hfirst⟩ := exists_perm_first ha
  rw [← h.permuted other hperm]
  obtain ⟨rest, hrest⟩ := List.head?_eq_some_iff.mp hfirst
  apply found_of_findSome? hne hrelative
  rw [hrest, List.findSome?_cons, hpath]

/-- Where order is irrelevant a path to which a file can lead is made by all aliases that fit. -/
theorem eq_of_orderIrrelevant (h : aliases.OrderIrrelevant root) {specifier : List Char}
    (hrelative : specifier.head? ≠ some '.') {a b : PathAlias} (ha : a ∈ aliases.list)
    (hb : b ∈ aliases.list) {p q : Path} (hp : a.path? root specifier = some p)
    (hq : b.path? root specifier = some q) (hnull : p.holdsNull = false) : p = q := by
  -- A file below the first path is found through its alias, so also through the other one.
  obtain ⟨n, hn⟩ := exists_letters_notMem p.names
  have hletters {c : Char} (hc : c ≠ 'q') : c ∉ (String.ofList (letters n)).toList := by
    rw [String.toList_ofList]
    exact letters_notMem hc
  have hup : String.ofList (letters n) ≠ ".." := by
    intro heq
    exact hletters (by decide : '.' ≠ 'q') (heq ▸ by decide)
  have hchild : (p.child (String.ofList (letters n))).holdsNull = false := by
    apply Bool.eq_false_iff.mpr
    intro hchild
    obtain ⟨name, hmem, hname⟩ := Path.holdsNull_iff.mp hchild
    rcases List.mem_append.mp hmem with hold | hnew
    · exact absurd (Path.holdsNull_iff.mpr ⟨name, hold, hname⟩) (by simp [hnull])
    · exact hletters (by decide : '\x00' ≠ 'q') (List.mem_singleton.mp hnew ▸ hname)
  obtain ⟨tree, hfile⟩ := exists_checkFile_child hn hup hchild
  let below := String.ofList (specifier ++ '/' :: letters n)
  have hbelow : below.toList = specifier ++ '/' :: letters n := String.toList_ofList
  have hne : below.toList ≠ [] := by
    rw [hbelow]
    exact List.append_ne_nil_of_right_ne_nil _ (List.cons_ne_nil _ _)
  have hpoint : below.toList.head? ≠ some '.' := by
    rw [hbelow]
    cases specifier with
    | nil => exact fun heq => absurd (Option.some.inj heq) (by decide)
    | cons c rest => exact hrelative
  have hfirst := found_eq_probe? h ha hne hpoint (hbelow ▸ PathAlias.path?_below hp n) tree root
  have hsecond := found_eq_probe? h hb hne hpoint (hbelow ▸ PathAlias.path?_below hq n) tree root
  have hprobe : probe? tree (p.child (String.ofList (letters n))) =
      .ok (some (p.child (String.ofList (letters n)))) := by
    rw [probe?, directPaths, firstFile?, hfile]
  rw [hfirst, hprobe] at hsecond
  rcases eq_or_name_ne_of_probe? hsecond.symm with heq | hname
  · exact child_injective heq
  · exact absurd (name_child p _) hname

theorem overlapsAgree_of_orderIrrelevant (h : aliases.OrderIrrelevant root) :
    aliases.OverlapsAgree root := by
  intro specifier hrelative a ha b hb p q hp hq
  cases hnull : p.holdsNull with
  | false => exact Or.inl (eq_of_orderIrrelevant h hrelative ha hb hp hq hnull)
  | true =>
      cases hnull' : q.holdsNull with
      | false => exact Or.inl (eq_of_orderIrrelevant h hrelative hb ha hq hp hnull').symm
      | true =>
          by_cases hempty : specifier = []
          · -- Both aliases stand for the empty prefix, so they are one alias.
            subst hempty
            obtain rfl := eq_of_name_eq ha hb
              ((PathAlias.name_of_path?_nil hp).trans (PathAlias.name_of_path?_nil hq).symm)
            exact Or.inl (Option.some.inj (hp.symm.trans hq))
          obtain ⟨specifier, rfl⟩ : ∃ s : String, s.toList = specifier :=
            ⟨String.ofList specifier, String.toList_ofList⟩
          have hfirst := found_eq_probe? h ha hempty hrelative hp { home := [], nodes := [] } root
          have hsecond := found_eq_probe? h hb hempty hrelative hq { home := [], nodes := [] } root
          rw [hfirst, probe?_of_holdsNull hnull, probe?_of_holdsNull hnull'] at hsecond
          refine Or.inr ⟨hnull, hnull', ?_⟩
          split_ifs at hsecond with hpname hqname <;> simp_all

/-- Nothing depends on the order of a table if and only if the aliases that fit one specifier all
make paths of it that stand for the same file. -/
theorem orderIrrelevant_iff (aliases : AliasTable) (root : Path) :
    aliases.OrderIrrelevant root ↔ aliases.OverlapsAgree root :=
  ⟨overlapsAgree_of_orderIrrelevant, orderIrrelevant_of_overlapsAgree⟩

/-- A table in which one alias stands for names below the other one. -/
def nested : AliasTable where
  list := [⟨"@/*", "src/*", []⟩, ⟨"@/types/*", "types/*", []⟩]
  nodup_names := by decide +kernel

/-- The same table with the more specific alias first. -/
def nestedSpecificFirst : AliasTable where
  list := [⟨"@/types/*", "types/*", []⟩, ⟨"@/*", "src/*", []⟩]
  nodup_names := by decide +kernel

/-- A tree with one file, which the more specific alias leads to. -/
def typesTree : Tree where
  home := []
  nodes := [(["p"], .directory), (["p", "types"], .directory), (["p", "types", "x.ts"], .file [])]

/-- The more general alias decides where it comes first, though it leads to no file. -/
theorem not_orderIrrelevant_nested :
    nested.found ⟨.top, ["p"]⟩ typesTree ⟨.top, ["p", "src", "a.ts"]⟩ "@/types/x" = .ok none ∧
      nestedSpecificFirst.found ⟨.top, ["p"]⟩ typesTree ⟨.top, ["p", "src", "a.ts"]⟩ "@/types/x" =
        .ok (some ⟨.top, ["p", "types", "x.ts"]⟩) ∧
      ¬ nested.OrderIrrelevant ⟨.top, ["p"]⟩ := by
  have hgeneral : nested.found ⟨.top, ["p"]⟩ typesTree ⟨.top, ["p", "src", "a.ts"]⟩ "@/types/x" =
      .ok none := by decide +kernel
  have hspecific : nestedSpecificFirst.found ⟨.top, ["p"]⟩ typesTree ⟨.top, ["p", "src", "a.ts"]⟩
      "@/types/x" = .ok (some ⟨.top, ["p", "types", "x.ts"]⟩) := by decide +kernel
  refine ⟨hgeneral, hspecific, fun h => ?_⟩
  have hsame := h.permuted nestedSpecificFirst (List.Perm.swap _ _ _) typesTree
    ⟨.top, ["p", "src", "a.ts"]⟩ "@/types/x"
  rw [hgeneral, hspecific] at hsame
  cases hsame

end AliasTable

end PluginContract.Resolution
