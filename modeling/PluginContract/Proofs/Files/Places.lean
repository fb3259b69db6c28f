import PluginContract.Proofs.Files.Tree

/-!
# The places that paths lead to

Names lead to a place once everything on the way is a directory, whatever is there now.
If no file stands on the way the missing directories can be made, and then just those
places are new directories that the names lead through.
-/

namespace PluginContract.Files

/-- The place that names lead to from another place, once all on the way is there. -/
def reached (place : Place) (names : List String) : Place :=
  names.foldl (fun here name => if name = ".." then here.dropLast else here ++ [name]) place

section

variable {place q : Place} {names : List String}

@[simp] theorem reached_nil (place : Place) : reached place [] = place := rfl

theorem reached_cons (place : Place) (name : String) (names : List String) :
    reached place (name :: names) =
      reached (if name = ".." then place.dropLast else place ++ [name]) names := rfl

theorem reached_concat (place : Place) (names : List String) (name : String) :
    reached place (names ++ [name]) =
      if name = ".." then (reached place names).dropLast else reached place names ++ [name] := by
  rw [reached, List.foldl_append]
  rfl

theorem up_notMem_reached (h : ".." ∉ place) : ".." ∉ reached place names := by
  induction names generalizing place with
  | nil => exact h
  | cons name names ih =>
      rw [reached_cons]
      refine ih ?_
      split
      · exact fun hmem => h (List.dropLast_subset place hmem)
      · rename_i hname
        simpa [h] using Ne.symm hname

/-- Without a way up names lead just where they say. -/
theorem reached_of_up_notMem (h : ".." ∉ names) : reached place names = place ++ names := by
  induction names generalizing place with
  | nil => rw [reached_nil, List.append_nil]
  | cons name names ih =>
      obtain ⟨hname, hrest⟩ := not_or.mp (List.mem_cons.not.mp h)
      rw [reached_cons, if_neg (Ne.symm hname), ih hrest, List.append_assoc]
      rfl

/-- Names lead to a place through each place above it, unless they start below that. -/
theorem reached_of_prefix (h : q <+: reached place names) :
    q <+: place ∨ ∃ k ≤ names.length, reached place (names.take k) = q := by
  induction names using List.reverseRecOn with
  | nil => exact Or.inl h
  | append_singleton names name ih =>
      have hlength : (names ++ [name]).length = names.length + 1 := by simp
      have hnext (hq : q <+: reached place names) :
          q <+: place ∨ ∃ k ≤ (names ++ [name]).length,
            reached place ((names ++ [name]).take k) = q := by
        refine (ih hq).imp_right ?_
        rintro ⟨k, hk, rfl⟩
        exact ⟨k, by omega, by rw [List.take_append_of_le_length hk]⟩
      rw [reached_concat] at h
      split at h
      · exact hnext (h.trans (List.dropLast_prefix _))
      · rename_i hup
        rcases List.prefix_concat_iff.mp h with rfl | hq
        · refine Or.inr ⟨(names ++ [name]).length, Nat.le_refl _, ?_⟩
          rw [List.take_length, reached_concat, if_neg hup]
        · exact hnext hq

end

/-- An absolute path stays as it is, wherever it is read from. -/
theorem Path.resolve_resolve (home home' : List String) (p : Path) :
    (p.resolve home).resolve home' = p.resolve home := by
  have htwice (names : List String) :
      Path.collapse (Path.collapse names) = Path.collapse names :=
    reached_of_up_notMem (up_notMem_reached (by simp))
  cases hroot : p.root <;> simp only [Path.resolve, hroot, htwice]

namespace Tree

variable {t t' : Tree} {place q : Place} {names : List String} {path : Path}

theorem reached_of_follow? (h : t.follow? place names = some q) : reached place names = q := by
  induction names generalizing place with
  | nil => exact Option.some.inj h
  | cons name rest ih =>
      rw [follow?] at h
      split at h
      · rw [reached_cons]
        exact ih h
      · cases h

/-- Where no file stands on the way and no name is too long, directories can be made. -/
theorem exists_makeDirectories_eq_ok
    (hnames : ∀ name ∈ names, name.utf8ByteSize ≤ t.limits.name)
    (h : ∀ k ≤ names.length, ∀ bytes, t.node? (reached place (names.take k)) ≠ some (.file bytes)) :
    ∃ t', t.makeDirectories place names = (t', .ok (reached place names)) := by
  induction names generalizing t place with
  | nil => exact ⟨t, rfl⟩
  | cons name rest ih =>
      obtain ⟨hname, hlater⟩ := List.forall_mem_cons.mp hnames
      have hrest (k : Nat) (hk : k ≤ rest.length) (bytes : Text.Utf8.Bytes) :
          t.node? (reached (if name = ".." then place.dropLast else place ++ [name])
            (rest.take k)) ≠ some (.file bytes) := by
        have hnext := h (k + 1) (by simpa using hk) bytes
        rwa [List.take_succ_cons, reached_cons] at hnext
      rw [makeDirectories, reached_cons]
      split
      · rename_i hup
        rw [if_pos hup] at hrest
        exact ih hlater hrest
      · rename_i hup
        rw [if_neg hup] at hrest
        rw [if_neg (Nat.not_lt.mpr hname)]
        dsimp only
        split
        · exact ih hlater hrest
        · rename_i bytes hfile
          exact absurd hfile (hrest 0 (Nat.zero_le _) bytes)
        · -- a new directory is no file
          refine ih (by rwa [limits_set]) fun k hk bytes => ?_
          rw [node?_set (by simp)]
          split
          · simp
          · exact hrest k hk bytes

/-- The place that a path leads to once the directories above it are there. -/
def destination (t : Tree) (p : Path) : Place := reached (t.startOf p) p.names

/-- A place that a path leads through on its way. -/
def LeadsThrough (t : Tree) (p : Path) (place : Place) : Prop :=
  ∃ k < p.names.length, reached (t.startOf p) (p.names.take k) = place

/-- Whether a place is a directory once the directories above a path have been made. -/
def BecomesDirectory (t : Tree) (p : Path) (place : Place) : Prop :=
  t.node? place = some .directory ∨ t.LeadsThrough p place

instance (t : Tree) (p : Path) (place : Place) : Decidable (t.LeadsThrough p place) :=
  inferInstanceAs (Decidable (∃ k < p.names.length, reached (t.startOf p) (p.names.take k) = place))

instance (t : Tree) (p : Path) (place : Place) : Decidable (t.BecomesDirectory p place) :=
  inferInstanceAs (Decidable (_ ∨ _))

theorem WellFormed.startOf (hw : t.WellFormed) (p : Path) :
    t.node? (t.startOf p) = some .directory := by
  unfold Tree.startOf
  split
  · exact hw.home
  · rfl

/-- A path that ends in `..` leads to a directory. -/
theorem becomesDirectory_of_up (hw : t.WellFormed) (h : path.names.getLast? = some "..") :
    t.BecomesDirectory path (t.destination path) := by
  obtain ⟨front, hfront⟩ := List.getLast?_eq_some_iff.mp h
  have hdestination : t.destination path = (reached (t.startOf path) front).dropLast := by
    rw [destination, hfront, reached_concat, if_pos rfl]
  rw [hdestination]
  rcases reached_of_prefix (List.dropLast_prefix (reached (t.startOf path) front)) with
    hstart | ⟨k, hk, hreached⟩
  · -- the path leads out of the directory where it starts
    left
    have hdirectory := hw.startOf path
    by_cases he : (reached (t.startOf path) front).dropLast = t.startOf path
    · rw [he, hdirectory]
    · exact hw.directory_of_prefix hstart he (by rw [hdirectory]; exact Option.some_ne_none _)
  · right
    refine ⟨k, ?_, ?_⟩
    · rw [hfront]
      simpa using Nat.lt_succ_of_le hk
    · rw [hfront, List.take_append_of_le_length hk, hreached]

/-- The directories that are there once those above a path have been made. -/
theorem becomesDirectory_of_made (hn : path.names ≠ [])
    (h : t.Made t' (t.startOf path) path.names.dropLast place)
    (hd : t'.node? q = some .directory) : t.BecomesDirectory path q := by
  cases hq : t.node? q with
  | some node =>
      left
      rw [hq, ← h.keeps q node hq, hd]
  | none =>
      obtain ⟨-, k, hk⟩ := h.fresh q hq (by rw [hd]; exact Option.some_ne_none _)
      refine Or.inr ⟨min k (path.names.length - 1), ?_, ?_⟩
      · have := List.length_pos_iff.mpr hn
        omega
      · rw [← reached_of_follow? hk, List.dropLast_eq_take, List.take_take]

/-- A file with a new name in the directory of a path is found there. -/
theorem Made.isFile_set_child {name : String} (h : t.Made t' (t.startOf path) path.names place)
    (hnew : t'.node? (place ++ [name]) = none) (hup : name ≠ "..") (bytes : Text.Utf8.Bytes) :
    (t'.set (place ++ [name]) (.file bytes)).isFile (path.child name) = true := by
  have hne : place ++ [name] ≠ [] := by simp
  have hstart : (t'.set (place ++ [name]) (.file bytes)).startOf (path.child name) =
      t.startOf path := by
    rw [Tree.startOf, Tree.startOf, home_set, h.home, Path.child]
  have hkept (q : Place) (hq : t'.node? q = some .directory) :
      (t'.set (place ++ [name]) (.file bytes)).node? q = some .directory := by
    have hother : q ≠ place ++ [name] := by
      rintro rfl
      cases hnew.symm.trans hq
    rw [node?_set hne, if_neg hother, hq]
  have hplace : (t'.set (place ++ [name]) (.file bytes)).place? (path.child name) =
      some (place ++ [name]) := by
    rw [place?, hstart, Path.child, follow?_append, follow?_mono hkept h.leads, Option.bind_some,
      follow?_cons_of_directory (hkept _ h.directory), if_neg hup]
    rfl
  rw [isFile, look?, hplace, Option.bind_some, node?_set hne, if_pos rfl]

/-- What was no file is none once directories have been made. -/
theorem file_of_made {bytes : Text.Utf8.Bytes}
    (h : t.Made t' (t.startOf path) path.names.dropLast place)
    (hf : t'.node? q = some (.file bytes)) : t.node? q = some (.file bytes) := by
  cases hq : t.node? q with
  | some node => rw [← h.keeps q node hq, hf]
  | none =>
      obtain ⟨hd, -⟩ := h.fresh q hq (by rw [hf]; exact Option.some_ne_none _)
      rw [hf] at hd
      cases hd

end Tree

end PluginContract.Files
