import PluginContract.Proofs.Script.Excerpts
import PluginContract.Proofs.Script.Plain
import PluginContract.Proofs.Script.Views

/-!
# What a masked script shows is code

A masked script shows the first and the last character of a literal, and these are quotes or
slashes. So any other character that it shows, and that is no blank, stands in code.
-/

namespace PluginContract.Script

open Text Region

variable {t name : List Char} {c : Char} {i j n : Nat}

/-- A regular expression ends with a slash. -/
theorem getElem?_of_regexLength? {inClass : Bool} (h : regexLength? inClass t = some n) :
    t[n - 1]? = some '/' := by
  fun_induction regexLength? inClass t generalizing n with
  | case1 => cases h
  | case2 => cases h
  | case3 inClass d rest ih =>
      obtain ⟨m, hm, rfl⟩ := Option.map_eq_some_iff.mp h
      have hpos := regexLength?_pos hm
      obtain ⟨k, rfl⟩ := Nat.exists_eq_succ_of_ne_zero (Nat.ne_of_gt hpos)
      exact ih hm
  | case4 => cases h
  | case5 inClass c rest _ _ hslash =>
      obtain rfl := Option.some.inj h
      have hc : c = '/' := by simpa using (Bool.and_eq_true_iff.mp hslash).1
      rw [hc]
      rfl
  | case6 inClass c rest _ _ _ nextClass =>
      rename_i ih
      obtain ⟨m, hm, rfl⟩ := Option.map_eq_some_iff.mp h
      have hpos := regexLength?_pos hm
      obtain ⟨k, rfl⟩ := Nat.exists_eq_succ_of_ne_zero (Nat.ne_of_gt hpos)
      exact ih hm

/-- What closes a literal is its quote, or the slash of a regular expression. -/
theorem not_isPlain_of_closing (hc : t[j]? = some c) (hrole : roleAt t j = .closing) :
    isPlain c = false := by
  have hj : j < t.length := (List.getElem?_eq_some_iff.mp hc).1
  have hplaced := placed_roleAt hj
  rw [hrole] at hplaced
  cases hplaced with
  | @closing i hs hn ho hi =>
      have hb := regionsAt_of_stop hs (Nat.lt_trans hi hj)
      rcases ho with ⟨q, hq, hquote, he⟩ | ⟨-, he⟩
      · obtain ⟨-, -, -, hleft⟩ := literalEnd?_bounds hb hq hquote he
        rcases inLiteral_step (inLiteral_regionsAt hb hq hquote he hi (Nat.le_refl j))
          (t.take j).reverse c (t.drop (j + 1)) with hinside | ⟨-, hcloses⟩
        · rw [← regionsAt_succ hc, hleft hj] at hinside
          cases hinside
        · simp [isPlain, hcloses]
      · rw [regexEnd?] at he
        split at he
        · obtain ⟨n, hn, rfl⟩ := Option.map_eq_some_iff.mp he
          have hslash := getElem?_of_regexLength? hn
          have hpos := regexLength?_pos hn
          rw [List.getElem?_drop, show i + 1 + (n - 1) = i + n by omega, hc] at hslash
          obtain rfl := Option.some.inj hslash
          decide
        · cases he

theorem not_isPlain_of_opening (hc : t[j]? = some c) (hrole : roleAt t j = .opening) :
    isPlain c = false := by
  have hnil : regionsAt t j = [] := by
    apply regionsAt_of_isSeen
    rw [hrole]
    rfl
  apply Bool.eq_false_iff.mpr
  intro hplain
  rw [roleAt, hnil, regionsAt_succ_of_nil hnil hc, opened?_of_isPlain hplain] at hrole
  cases hrole

/-- A plain character of a masked script that is no blank is a code character of the script. -/
theorem code_of_getElem?_mask (h : (mask t)[j]? = some c) (hplain : isPlain c = true)
    (hblank : isBlank c = false) : t[j]? = some c ∧ roleAt t j = .code := by
  have hj : j < t.length := by
    have := (List.getElem?_eq_some_iff.mp h).1
    rwa [length_mask] at this
  have hd : t[j]? = some t[j] := List.getElem?_eq_getElem hj
  have hshown : (roleAt t j).shown t[j] = c :=
    Option.some.inj ((getElem?_mask hd).symm.trans h)
  have hnot (hhidden : blanked t[j] = c) : False := by
    rcases blanked_eq t[j] with heq | heq
    · rw [← hhidden, heq] at hblank
      cases hblank
    · rw [← hhidden, heq] at hblank
      cases hblank
  cases hrole : roleAt t j with
  | code =>
      rw [hrole, Role.shown_code] at hshown
      rw [hd, hshown]
      exact ⟨rfl, rfl⟩
  | opening =>
      rw [hrole, Role.shown_opening] at hshown
      rw [← hshown, not_isPlain_of_opening hd hrole] at hplain
      cases hplain
  | closing =>
      rw [hrole, Role.shown_closing] at hshown
      rw [← hshown, not_isPlain_of_closing hd hrole] at hplain
      cases hplain
  | content =>
      rw [hrole] at hshown
      exact (hnot hshown).elim
  | comment =>
      rw [hrole] at hshown
      exact (hnot hshown).elim

/-- A name in a masked script is a name in the script. -/
theorem prefix_drop_of_mask (hname : ∀ c ∈ name, isNameChar c = true)
    (h : name <+: (mask t).drop i) : name <+: t.drop i := by
  rw [List.prefix_iff_getElem?] at h ⊢
  intro k hk
  have hc := hname _ (List.getElem_mem hk)
  have hmask := h k hk
  rw [List.getElem?_drop] at hmask ⊢
  exact (code_of_getElem?_mask hmask (isPlain_of_isNameChar hc) (not_isBlank_of_isNameChar hc)).1

end PluginContract.Script
