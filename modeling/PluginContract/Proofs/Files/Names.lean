import Mathlib.Data.List.Lex
import Mathlib.Data.List.TakeWhile
import Mathlib.Data.String.Basic
import PluginContract.Files.Path

/-!
# The names in paths

A name has a suffix if something stands before its last point and something after it. Paths are
sorted name by name, so a list of distinct ones has just one order.
-/

namespace PluginContract.Files

namespace Path

section Suffix

variable {name stem ext e : List Char}

/-- Whether a text is a point with a word after it. -/
def IsExtension (e : List Char) : Prop := e.head? = some '.' ∧ e.tail ≠ [] ∧ '.' ∉ e.tail

instance (e : List Char) : Decidable (IsExtension e) := inferInstanceAs (Decidable (_ ∧ _))

theorem cutSuffix_of_notMem (h : '.' ∉ name) : cutSuffix name = (name, []) := by
  have hall : name.reverse.takeWhile (· != '.') = name.reverse := by
    rw [List.takeWhile_eq_self_iff]
    intro c hc
    rw [bne_iff_ne]
    rintro rfl
    exact h (List.mem_reverse.mp hc)
  simp [cutSuffix, hall]

/-- What is cut is told by the last point. -/
theorem cutSuffix_append (h : '.' ∉ ext) :
    cutSuffix (stem ++ '.' :: ext) =
      if ext = [] ∨ stem = [] then (stem ++ '.' :: ext, []) else (stem, '.' :: ext) := by
  have htail : ((stem ++ '.' :: ext).reverse.takeWhile (· != '.')).reverse = ext := by
    have hext : ∀ c ∈ ext.reverse, (c != '.') = true := by
      intro c hc
      rw [bne_iff_ne]
      rintro rfl
      exact h (List.mem_reverse.mp hc)
    rw [List.reverse_append, List.reverse_cons, List.append_assoc,
      List.takeWhile_append_of_pos hext]
    simp
  have hstem : (stem ++ '.' :: ext).take ((stem ++ '.' :: ext).length - ext.length - 1) = stem := by
    have hlength : (stem ++ '.' :: ext).length - ext.length - 1 = stem.length := by
      rw [List.length_append, List.length_cons]
      omega
    rw [hlength, List.take_left]
  have hshort : ext.length ≠ stem.length + (ext.length + 1) := by omega
  rw [cutSuffix, htail, hstem]
  simp [hshort]

theorem exists_last_point (h : '.' ∈ name) : ∃ stem ext, name = stem ++ '.' :: ext ∧ '.' ∉ ext := by
  obtain ⟨after, before, hsplit, hafter⟩ := List.eq_append_cons_of_mem (List.mem_reverse.mpr h)
  refine ⟨before.reverse, after.reverse, ?_, by simpa using hafter⟩
  rw [← List.reverse_reverse name, hsplit]
  simp

/-- A name is what it is cut into. -/
theorem cutSuffix_fst_append_snd (name : List Char) :
    (cutSuffix name).1 ++ (cutSuffix name).2 = name := by
  by_cases h : '.' ∈ name
  · obtain ⟨stem, ext, rfl, hext⟩ := exists_last_point h
    rw [cutSuffix_append hext]
    split
    · exact List.append_nil _
    · rfl
  · rw [cutSuffix_of_notMem h, List.append_nil]

/-- A name has an extension as its suffix if it ends in it and does not consist of it. -/
theorem cutSuffix_snd_eq_iff (h : IsExtension e) :
    (cutSuffix name).2 = e ↔ ∃ stem, stem ≠ [] ∧ name = stem ++ e := by
  obtain ⟨hpoint, hword, hplain⟩ := h
  obtain ⟨ext, rfl⟩ : ∃ ext, e = '.' :: ext := by
    cases e with
    | nil => cases hpoint
    | cons c ext => exact ⟨ext, by rw [Option.some.inj hpoint]⟩
  rw [List.tail_cons] at hword hplain
  constructor
  · intro hcut
    by_cases hname : '.' ∈ name
    · obtain ⟨stem, last, rfl, hlast⟩ := exists_last_point hname
      rw [cutSuffix_append hlast] at hcut
      split at hcut
      · cases hcut
      · rename_i hboth
        rw [← hcut]
        exact ⟨stem, (not_or.mp hboth).2, rfl⟩
    · rw [cutSuffix_of_notMem hname] at hcut
      cases hcut
  · rintro ⟨stem, hstem, rfl⟩
    rw [cutSuffix_append hplain, if_neg (not_or.mpr ⟨hword, hstem⟩)]

end Suffix

section Null

variable {p : Path} {name : String}

theorem holdsNull_iff : p.holdsNull = true ↔ ∃ name ∈ p.names, '\x00' ∈ name.toList := by
  simp [holdsNull]

theorem holdsNull_child_iff :
    (p.child name).holdsNull = true ↔ p.holdsNull = true ∨ '\x00' ∈ name.toList := by
  simp [holdsNull, child]

/-- The null character stays in a path when its name is replaced, unless the old name alone has it. -/
theorem holdsNull_withName (h : p.holdsNull = true)
    (hname : '\x00' ∈ p.name.toList → '\x00' ∈ name.toList) :
    (p.withName name).holdsNull = true := by
  obtain ⟨other, hmem, hnull⟩ := holdsNull_iff.mp h
  rcases List.eq_nil_or_concat p.names with hnil | ⟨front, last, hnames⟩
  · rw [hnil] at hmem
    cases hmem
  rw [List.concat_eq_append] at hnames
  have hwith : (p.withName name).names = front ++ [name] := by
    rw [withName, hnames, List.dropLast_concat]
  have hlast : p.name = last := by simp [Path.name, hnames]
  rw [holdsNull_iff, hwith]
  rw [hnames] at hmem
  rcases List.mem_append.mp hmem with hfront | hother
  · exact ⟨other, List.mem_append_left _ hfront, hnull⟩
  · obtain rfl := List.mem_singleton.mp hother
    exact ⟨name, by simp, hname (hlast ▸ hnull)⟩

theorem holdsNull_withSuffix (h : p.holdsNull = true) (hsuffix : '\x00' ∉ p.suffix.toList)
    (e : String) : (p.withSuffix e).holdsNull = true := by
  refine holdsNull_withName h fun hnull => ?_
  rw [suffix, String.toList_ofList] at hsuffix
  rw [← cutSuffix_fst_append_snd p.name.toList, List.mem_append] at hnull
  rw [String.toList_append, String.toList_ofList]
  exact List.mem_append_left _ (hnull.resolve_right hsuffix)

end Null

section Order

variable {p q : List String} {paths : List Path}

theorem namesLe_iff : namesLe p q = true ↔ p = q ∨ p < q := by
  induction p generalizing q with
  | nil =>
      cases q with
      | nil => simp [namesLe]
      | cons b more => simp [namesLe, List.nil_lt_cons]
  | cons a rest ih =>
      cases q with
      | nil => simp [namesLe]
      | cons b more =>
          rw [namesLe, List.cons_lt_cons_iff, List.cons.injEq]
          by_cases hab : a = b
          · subst hab
            simp [ih]
          · simp [hab]

theorem namesLe_iff_le : namesLe p q = true ↔ p ≤ q := namesLe_iff.trans le_iff_eq_or_lt.symm

/-- Different paths are sorted strictly. -/
theorem pairwise_sort (h : (paths.map Path.names).Nodup) :
    (sort paths).Pairwise fun p q => p.names < q.names := by
  have hsorted : (sort paths).Pairwise fun p q => namesLe p.names q.names = true := by
    refine List.pairwise_mergeSort (fun p q r hpq hqr => ?_) (fun p q => ?_) paths
    · exact namesLe_iff_le.mpr ((namesLe_iff_le.mp hpq).trans (namesLe_iff_le.mp hqr))
    · rw [Bool.or_eq_true, namesLe_iff_le, namesLe_iff_le]
      exact le_total p.names q.names
  have hnodup : ((sort paths).map Path.names).Nodup :=
    ((List.mergeSort_perm paths _).map Path.names).nodup_iff.mpr h
  refine (hsorted.and (List.pairwise_map.mp hnodup)).imp fun {p q} hpq => ?_
  exact (namesLe_iff.mp hpq.1).resolve_left hpq.2

/-- Lists that are sorted strictly are equal as soon as they have the same members. -/
theorem eq_of_pairwise_lt {l l' : List (List String)} (h : l.Pairwise (· < ·))
    (h' : l'.Pairwise (· < ·)) (hmem : ∀ p, p ∈ l ↔ p ∈ l') : l = l' := by
  have hnodup {l : List (List String)} (h : l.Pairwise (· < ·)) : l.Nodup :=
    h.imp fun hpq => ne_of_lt hpq
  refine List.Perm.eq_of_pairwise (fun p q _ _ hpq hqp => ?_) h h'
    ((List.perm_ext_iff_of_nodup (hnodup h) (hnodup h')).mpr hmem)
  exact absurd hqp (lt_asymm hpq)

/-- Names in front of both do not count. -/
theorem lt_of_append_lt {above : List String} (h : above ++ p < above ++ q) : p < q := by
  rcases lt_trichotomy p q with hpq | rfl | hqp
  · exact hpq
  · exact absurd h (lt_irrefl _)
  · exact absurd h (lt_asymm (List.append_left_lt hqp))

end Order

end Path

end PluginContract.Files
