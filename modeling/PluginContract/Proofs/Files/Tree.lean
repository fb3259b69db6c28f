import Mathlib.Data.List.Induction
import PluginContract.Files.Tree

/-!
# What becomes of the places of a tree

Setting a place and removing one are told by what every place holds afterwards.
Making directories keeps whatever is there, and the only new places are the
directories that the names lead through. Whether the system refuses a path is told by
the directories alone.
-/

namespace PluginContract.Files

namespace Tree

variable {t t' : Tree} {place other : Place} {names : List String} {name : String} {node : Node}

@[simp] theorem node?_nil (t : Tree) : t.node? [] = some .directory := rfl

theorem node?_of_ne_nil (h : place ≠ []) :
    t.node? place = (t.nodes.find? fun entry => entry.1 == place).map Prod.snd := by
  rw [node?, if_neg (by simpa using h)]

theorem node?_set (h : place ≠ []) :
    (t.set place node).node? other = if other = place then some node else t.node? other := by
  by_cases ho : other = []
  · subst ho
    rw [if_neg h.symm]
    rfl
  · rw [node?_of_ne_nil ho, node?_of_ne_nil ho, set, if_neg (by simpa using h), List.find?_append]
    by_cases he : other = place
    · subst he
      have hnone : (t.nodes.filter fun entry => entry.1 != other).find?
          (fun entry => entry.1 == other) = none := by
        simp
      simp [hnone]
    · -- the entries of another place are neither filtered out nor added
      have hsame : (t.nodes.filter fun entry => entry.1 != place).find?
          (fun entry => entry.1 == other) = t.nodes.find? fun entry => entry.1 == other := by
        rw [List.find?_filter]
        congr 1
        funext entry
        by_cases hentry : entry.1 = other
        · simp [hentry, he]
        · simp [hentry]
      have hne : (place == other) = false := by simpa using Ne.symm he
      simp [hsame, hne, he]

/-- What is there stays when something is put to a free place. -/
theorem node?_set_of_none (hnone : t.node? place = none) (new : Node)
    (h : t.node? other = some node) : (t.set place new).node? other = some node := by
  have hne : place ≠ [] := by
    rintro rfl
    cases hnone
  rw [node?_set hne, if_neg, h]
  rintro rfl
  rw [hnone] at h
  cases h

theorem node?_remove (h : place ≠ []) :
    (t.remove place).node? other = if place <+: other then none else t.node? other := by
  by_cases ho : other = []
  · subst ho
    rw [if_neg (by simpa using h)]
    rfl
  · rw [node?_of_ne_nil ho, node?_of_ne_nil ho, remove, List.find?_filter]
    by_cases hp : place <+: other
    · rw [if_pos hp, Option.map_eq_none_iff, List.find?_eq_none]
      intro entry _ hentry
      have hpre : place.isPrefixOf other = true := List.isPrefixOf_iff_prefix.mpr hp
      have hboth : place.isPrefixOf entry.1 = false ∧ entry.1 = other := by simpa using hentry
      rw [hboth.2, hpre] at hboth
      cases hboth.1
    · rw [if_neg hp]
      congr 2
      funext entry
      by_cases hentry : entry.1 = other
      · have hnot : place.isPrefixOf other = false := by
          rw [← Bool.not_eq_true, List.isPrefixOf_iff_prefix]
          exact hp
        simp [hentry, hnot]
      · simp [hentry]

/-- A tree in which directories stand above everything that there is, as they do in every file
system. -/
structure WellFormed (t : Tree) : Prop where
  above : ∀ place name, t.node? (place ++ [name]) ≠ none → t.node? place = some .directory
  home : t.node? t.home = some .directory

theorem wellFormed_of_nodes
    (h : ∀ entry ∈ t.nodes, t.node? entry.1.dropLast = some .directory)
    (hh : t.node? t.home = some .directory) : t.WellFormed := by
  refine ⟨fun place name hs => ?_, hh⟩
  have hne : place ++ [name] ≠ [] := by simp
  rw [node?_of_ne_nil hne, ne_eq, Option.map_eq_none_iff, ← ne_eq, Option.ne_none_iff_exists'] at hs
  obtain ⟨entry, hentry⟩ := hs
  have hplace : entry.1 = place ++ [name] := by simpa using List.find?_some hentry
  have habove := h entry (List.mem_of_find?_eq_some hentry)
  rwa [hplace, List.dropLast_concat] at habove

theorem WellFormed.dropLast (hw : t.WellFormed) (h : t.node? place = some .directory) :
    t.node? place.dropLast = some .directory := by
  rcases List.eq_nil_or_concat place with rfl | ⟨front, last, rfl⟩
  · exact h
  · rw [List.concat_eq_append] at h ⊢
    rw [List.dropLast_concat]
    exact hw.above front last (by rw [h]; exact Option.some_ne_none _)

/-- What stands properly below a place stands below a directory. -/
theorem WellFormed.directory_of_prefix (hw : t.WellFormed) (hp : place <+: other)
    (hne : place ≠ other) (h : t.node? other ≠ none) : t.node? place = some .directory := by
  obtain ⟨more, rfl⟩ := hp
  induction more using List.reverseRecOn with
  | nil => exact absurd (List.append_nil place).symm hne
  | append_singleton more last ih =>
      rw [← List.append_assoc] at h
      have habove := hw.above (place ++ more) last h
      by_cases hm : more = []
      · rwa [hm, List.append_nil] at habove
      · refine ih ?_ (by rw [habove]; exact Option.some_ne_none _)
        intro he
        exact hm (List.append_right_eq_self.mp he.symm)

theorem follow?_cons_of_directory (h : t.node? place = some .directory) :
    t.follow? place (name :: names) =
      t.follow? (if name = ".." then place.dropLast else place ++ [name]) names := by
  rw [follow?, if_pos h]

theorem follow?_append (more : List String) :
    t.follow? place (names ++ more) =
      (t.follow? place names).bind fun reached => t.follow? reached more := by
  induction names generalizing place with
  | nil => rfl
  | cons name rest ih =>
      rw [List.cons_append, follow?, follow?]
      split
      · exact ih
      · rfl

/-- Where all directories stay names lead where they led. -/
theorem follow?_mono
    (hd : ∀ q, t.node? q = some .directory → t'.node? q = some .directory)
    (h : t.follow? place names = some other) : t'.follow? place names = some other := by
  induction names generalizing place with
  | nil => exact h
  | cons name rest ih =>
      rw [follow?] at h ⊢
      split at h
      · rename_i hp
        rw [if_pos (hd _ hp)]
        exact ih h
      · cases h

/-- What comes of making the directories that names lead through. -/
structure Made (t t' : Tree) (place : Place) (names : List String) (reached : Place) : Prop where
  wellFormed : t'.WellFormed
  home : t'.home = t.home
  limits : t'.limits = t.limits
  keeps : ∀ q node, t.node? q = some node → t'.node? q = some node
  leads : t'.follow? place names = some reached
  directory : t'.node? reached = some .directory
  /-- Only directories are new, and the names lead through them. -/
  fresh : ∀ q, t.node? q = none → t'.node? q ≠ none →
    t'.node? q = some .directory ∧ ∃ k, t'.follow? place (names.take k) = some q

@[simp] theorem home_set (t : Tree) (place : Place) (node : Node) :
    (t.set place node).home = t.home := by
  unfold set
  split <;> rfl

@[simp] theorem limits_set (t : Tree) (place : Place) (node : Node) :
    (t.set place node).limits = t.limits := by
  unfold set
  split <;> rfl

theorem WellFormed.set_directory (hw : t.WellFormed) (hp : t.node? place = some .directory) :
    (t.set (place ++ [name]) .directory).WellFormed := by
  have hne : place ++ [name] ≠ [] := by simp
  have hdirectory : ∀ q, t.node? q = some .directory →
      (t.set (place ++ [name]) .directory).node? q = some .directory := by
    intro q hq
    rw [node?_set hne]
    split
    · rfl
    · exact hq
  constructor
  · intro q last h
    apply hdirectory
    rw [node?_set hne] at h
    split at h
    · rename_i he
      obtain ⟨rfl, -⟩ := List.append_inj' he rfl
      exact hp
    · exact hw.above q last h
  · rw [home_set]
    exact hdirectory _ hw.home

/-- A first name that leads to a directory comes before names that lead on from there. -/
theorem Made.cons {first : Tree} {next reached : Place}
    (hp : t.node? place = some .directory)
    (hname : next = if name = ".." then place.dropLast else place ++ [name])
    (hhome : first.home = t.home) (hlimits : first.limits = t.limits)
    (hkeeps : ∀ q node, t.node? q = some node → first.node? q = some node)
    (hfresh : ∀ q, t.node? q = none → first.node? q ≠ none → q = next)
    (hnext : first.node? next = some .directory)
    (h : Made first t' next names reached) : Made t t' place (name :: names) reached := by
  have hfollow (more : List String) :
      t'.follow? place (name :: more) = t'.follow? next more := by
    rw [follow?_cons_of_directory (h.keeps _ _ (hkeeps _ _ hp)), hname]
  refine ⟨h.wellFormed, h.home.trans hhome, h.limits.trans hlimits,
    fun q node hq => h.keeps q node (hkeeps q node hq), (hfollow names).trans h.leads, h.directory,
    fun q hnone hsome => ?_⟩
  cases hq : first.node? q with
  | none =>
      obtain ⟨hdirectory, k, hk⟩ := h.fresh q hq hsome
      exact ⟨hdirectory, k + 1, (hfollow _).trans hk⟩
  | some node =>
      obtain rfl : q = next := hfresh q hnone (by rw [hq]; exact Option.some_ne_none _)
      exact ⟨h.keeps q _ hnext, 1, hfollow []⟩

theorem made_of_makeDirectories (hw : t.WellFormed) (hp : t.node? place = some .directory)
    (h : t.makeDirectories place names = (t', .ok other)) : Made t t' place names other := by
  induction names generalizing t place with
  | nil =>
      obtain ⟨rfl, rfl⟩ := by simpa [makeDirectories] using h
      exact ⟨hw, rfl, rfl, fun _ _ => id, rfl, hp, fun q hn hs => absurd hn hs⟩
  | cons name rest ih =>
      rw [makeDirectories] at h
      by_cases hup : name = ".."
      · rw [if_pos hup] at h
        exact .cons hp (if_pos hup).symm rfl rfl (fun _ _ => id) (fun q hn hs => absurd hn hs)
          (hw.dropLast hp) (ih hw (hw.dropLast hp) h)
      · rw [if_neg hup] at h
        have hne : place ++ [name] ≠ [] := by simp
        split at h
        · cases h
        dsimp only at h
        split at h
        · -- the directory is there already
          rename_i hthere
          exact .cons hp (if_neg hup).symm rfl rfl (fun _ _ => id) (fun q hn hs => absurd hn hs)
            hthere (ih hw hthere h)
        · cases h
        · rename_i hnone
          have hset : (t.set (place ++ [name]) .directory).node? (place ++ [name]) =
              some .directory := by
            rw [node?_set hne, if_pos rfl]
          refine .cons hp (if_neg hup).symm (home_set _ _ _) (limits_set _ _ _)
            (fun q node => node?_set_of_none hnone _) ?_ hset (ih (hw.set_directory hp) hset h)
          intro q hn hs
          rw [node?_set hne] at hs
          split at hs
          · assumption
          · exact absurd hn hs

/-- Where names lead when all that stands in their way is made. -/
theorem made_of_makeParent {path : Path} (hw : t.WellFormed)
    (h : t.makeParent path = (t', .ok place)) :
    ∃ parent, place = parent ++ path.names.getLast?.toList ∧
      Made t t' (t.startOf path) path.names.dropLast parent := by
  have hstart : t.node? (t.startOf path) = some .directory := by
    unfold startOf
    split
    · exact hw.home
    · rfl
  unfold makeParent at h
  split at h
  · cases h
  split at h
  · cases h
  rcases hm : t.makeDirectories (t.startOf path) path.names.dropLast with ⟨tree, fault | parent⟩
  · rw [hm] at h
    cases h
  · rw [hm] at h
    obtain ⟨rfl, hplace⟩ := Prod.mk.inj h
    exact ⟨parent, (Except.ok.inj hplace).symm, made_of_makeDirectories hw hstart hm⟩

section Refusals

variable (directories : ∀ q, t'.node? q = some .directory ↔ t.node? q = some .directory)
  (limits : t'.limits = t.limits)
include directories limits

theorem meetsLong_congr (place : Place) (names : List String) :
    t'.meetsLong place names = t.meetsLong place names := by
  induction names generalizing place with
  | nil => rfl
  | cons name rest ih => simp only [meetsLong, directories, limits, ih]

/-- Trees with the same directories refuse the same paths. -/
theorem refusal?_congr (home : t'.home = t.home) (p : Path) : t'.refusal? p = t.refusal? p := by
  have hstart : t'.startOf p = t.startOf p := by rw [startOf, startOf, home]
  rw [refusal?, refusal?, limits, hstart, meetsLong_congr directories limits]

end Refusals

/-- A name that is too long is met in the directory that the names before it lead to. -/
theorem meetsLong_of_follow? (leads : t.follow? place names = some other)
    (directory : t.node? other = some .directory) (long : t.limits.name < name.utf8ByteSize) :
    t.meetsLong place (names ++ [name]) = true := by
  induction names generalizing place with
  | nil =>
      obtain rfl := Option.some.inj leads
      simp [meetsLong, directory, long]
  | cons first rest ih =>
      rw [follow?] at leads
      split at leads
      · rename_i hplace
        rw [List.cons_append, meetsLong, ih leads, hplace]
        simp
      · cases leads

/-- The bounds that a path keeps which the system follows, if its last name stands in a directory. -/
theorem sizes_of_refusal? {p : Path} (h : t.refusal? p = none) (hnames : p.names = names ++ [name])
    (leads : t.follow? (t.startOf p) names = some place)
    (directory : t.node? place = some .directory) :
    p.holdsNull = false ∧ p.toString.utf8ByteSize ≤ t.limits.path ∧
      name.utf8ByteSize ≤ t.limits.name := by
  unfold refusal? at h
  split at h
  · cases h
  rename_i hnull
  split at h
  · cases h
  rename_i hlong
  simp only [Bool.or_eq_true, decide_eq_true_eq, not_or, Nat.not_lt] at hlong
  refine ⟨by simpa using hnull, hlong.1, ?_⟩
  by_contra hname
  exact hlong.2 (hnames ▸ meetsLong_of_follow? leads directory (Nat.lt_of_not_le hname))

/-- A path that the system follows, wherever that leads. -/
structure Admits (t : Tree) (p : Path) : Prop where
  noNull : p.holdsNull = false
  text : p.toString.utf8ByteSize ≤ t.limits.path
  names : ∀ name ∈ p.names, name.utf8ByteSize ≤ t.limits.name

theorem meetsLong_of_forall_le (h : ∀ name ∈ names, name.utf8ByteSize ≤ t.limits.name)
    (place : Place) : t.meetsLong place names = false := by
  induction names generalizing place with
  | nil => rfl
  | cons name rest ih =>
      obtain ⟨hname, hrest⟩ := List.forall_mem_cons.mp h
      rw [meetsLong, ih hrest, decide_eq_false (Nat.not_lt.mpr hname), Bool.or_self, Bool.and_false]

theorem Admits.of_limits {p : Path} (h : t.Admits p) (hlimits : t'.limits = t.limits) :
    t'.Admits p :=
  ⟨h.noNull, hlimits ▸ h.text, hlimits ▸ h.names⟩

theorem Admits.refusal? {p : Path} (h : t.Admits p) : t.refusal? p = none := by
  simp [Tree.refusal?, h.noNull, Nat.not_lt.mpr h.text, meetsLong_of_forall_le h.names]

/-- The files are listed by what the places hold. -/
theorem mem_files : place ∈ t.files ↔ ∃ bytes, t.node? place = some (.file bytes) := by
  rw [files, List.mem_filter, mem_distinct]
  constructor
  · rintro ⟨-, hfile⟩
    split at hfile
    · rename_i bytes hbytes
      exact ⟨bytes, hbytes⟩
    · cases hfile
  · rintro ⟨bytes, hbytes⟩
    refine ⟨?_, by rw [hbytes]⟩
    have hne : place ≠ [] := by
      rintro rfl
      cases hbytes
    rw [node?_of_ne_nil hne] at hbytes
    obtain ⟨entry, hentry, -⟩ := Option.map_eq_some_iff.mp hbytes
    have hplace : entry.1 = place := by simpa using List.find?_some hentry
    exact List.mem_map.mpr ⟨entry, List.mem_of_find?_eq_some hentry, hplace⟩

theorem nodup_files (t : Tree) : t.files.Nodup := (nodup_distinct _).filter _

end Tree

end PluginContract.Files
