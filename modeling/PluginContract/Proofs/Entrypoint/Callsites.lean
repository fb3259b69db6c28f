import PluginContract.Entrypoint.Callsite
import PluginContract.Proofs.Text.Search
import PluginContract.Proofs.Text.Words

/-!
# Where the calls of a function stand

The calls of a function in a module are told from the places alone: a call is found wherever
its form stands in the masked text, right after no name and no dot, and with no declaration
before it. No call is missed for another, since no name starts within a name and the angle
bracket after it.
-/

namespace PluginContract.Entrypoint

open Text Script Source

/-- A function name: characters of an identifier, and at least one. -/
def IsFunctionName (name : List Char) : Prop := name ≠ [] ∧ ∀ c ∈ name, isNameChar c = true

theorem isFunctionName_createPlugin : IsFunctionName "createPlugin".toList :=
  ⟨by decide, List.all_eq_true.mp (by decide)⟩

/-- Nothing but blanks stands from an offset on before a character at a later offset. -/
def BlanksUpTo (s : List Char) (i : Nat) (c : Char) (j : Nat) : Prop :=
  ∃ gap rest, s.drop i = gap ++ c :: rest ∧ gap.all isBlank = true ∧ j = i + gap.length

/-- The form of a call with type arguments stands at an offset of a script: the name, a pair of
angle brackets and a pair of round brackets, with blanks and comments between them. -/
structure CallAt (t name : List Char) (start angle angleEnd parenthesis parenthesisEnd : Nat) :
    Prop where
  named : name <+: (mask t).drop start
  opensAngle : BlanksUpTo (mask t) (start + name.length) '<' angle
  closesAngle : matching? t angle '<' '>' = some angleEnd
  opensParenthesis : BlanksUpTo (mask t) (angleEnd + 1) '(' parenthesis
  closesParenthesis : matching? t parenthesis '(' ')' = some parenthesisEnd

/-- The character before a place, if there is one, continues neither a name nor a member access. -/
def Detached (before : Option Char) : Prop := ∀ c ∈ before, isNameChar c = false ∧ c ≠ '.'

/-- The call whose name and brackets stand at these offsets. -/
def callOf (m : Module) (function : String)
    (start angle angleEnd parenthesis parenthesisEnd : Nat) : Callsite where
  function
  file := m.path
  typeArguments := split .angled [','] (slice m.text (angle + 1) angleEnd)
  arguments := splitCommas (slice m.text (parenthesis + 1) parenthesisEnd)
  offset := start

section Pattern

variable {name t s : List Char} {before : Option Char} {i j value length : Nat} {c : Char}

theorem blanksUpTo_iff (hc : isBlank c = false) :
    BlanksUpTo s i c j ↔ j = i + ((s.drop i).takeWhile isBlank).length ∧ s[j]? = some c := by
  constructor
  · rintro ⟨gap, rest, hdrop, hgap, rfl⟩
    rw [hdrop, List.takeWhile_append_of_pos (List.all_eq_true.mp hgap), List.takeWhile_cons, hc,
      if_neg Bool.false_ne_true, List.append_nil, ← List.getElem?_drop, hdrop]
    simp
  · rintro ⟨rfl, hj⟩
    have hsplit : (s.drop i).takeWhile isBlank ++ (s.drop i).dropWhile isBlank = s.drop i :=
      List.takeWhile_append_dropWhile
    rw [← List.getElem?_drop] at hj
    have hrest : ((s.drop i).dropWhile isBlank).head? = some c := by
      rw [← hsplit, List.getElem?_append_right (by simp)] at hj
      simpa [hsplit, List.head?_eq_getElem?] using hj
    obtain ⟨rest, hrest⟩ := List.head?_eq_some_iff.mp hrest
    exact ⟨_, rest, by rw [← hrest, hsplit], List.all_takeWhile, rfl⟩

theorem keyword?_eq_some_iff {rest : List Char} :
    keyword? name before t = some rest ↔ Detached before ∧ t = name ++ rest := by
  have hdetached : Detached before ↔ ¬ (before.any fun c => isNameChar c || c == '.') = true := by
    cases before <;> simp [Detached]
  rw [keyword?, hdetached]
  split
  · rename_i hany
    simp [hany]
  · rename_i hany
    rw [after?_eq_some_iff]
    exact (and_iff_right hany).symm

/-- The pattern of a call reads a name, blanks and an angle bracket. -/
theorem namePattern_eq_some_iff :
    namePattern name before t = some (value, length) ↔
      Detached before ∧ ∃ gap rest, t = name ++ (gap ++ '<' :: rest) ∧ gap.all isBlank = true ∧
        value = (name ++ gap).length ∧ length = value + 1 := by
  have hangle : isBlank '<' = false := by decide
  constructor
  · intro h
    rw [namePattern] at h
    split at h
    · cases h
    · rename_i after hkeyword
      obtain ⟨hbefore, rfl⟩ := keyword?_eq_some_iff.mp hkeyword
      split at h
      · rename_i rest htrim
        obtain ⟨gap, rfl, hgap⟩ := (trimStart_eq_cons_iff hangle).mp htrim
        obtain ⟨rfl, rfl⟩ := Prod.mk.inj (Option.some.inj h)
        refine ⟨hbefore, gap, rest, rfl, hgap, ?_, ?_⟩
        · simp only [List.length_append, List.length_cons]
          omega
        · simp only [List.length_append, List.length_cons]
          omega
      · cases h
  · rintro ⟨hbefore, gap, rest, rfl, hgap, rfl, rfl⟩
    rw [namePattern, keyword?_eq_some_iff.mpr ⟨hbefore, rfl⟩]
    dsimp only
    rw [(trimStart_eq_cons_iff hangle).mpr ⟨gap, rfl, hgap⟩]
    simp only [List.length_append, List.length_cons, Option.some.injEq, Prod.mk.injEq]
    omega

/-- No call starts within the name of another, or between that and its angle bracket. -/
theorem separate_namePattern (hname : IsFunctionName name) : (namePattern name).Separate := by
  intro before u v hu value length hmatch hlt
  obtain ⟨-, gap, rest, ht, hgap, rfl, rfl⟩ := namePattern_eq_some_iff.mp hmatch
  apply Option.eq_none_iff_forall_not_mem.mpr
  rintro ⟨value', length'⟩ hmatch'
  obtain ⟨hbefore, gap', rest', rfl, -⟩ := namePattern_eq_some_iff.mp hmatch'
  obtain ⟨hne, hchars⟩ := hname
  rcases List.append_eq_append_iff.mp ht with ⟨w, rfl, -⟩ | ⟨w, rfl, hw⟩
  · -- the second name would start within the first, right after one of its characters
    obtain ⟨hlast, -⟩ := hbefore _ (List.getLast?_eq_some_getLast hu)
    rw [hchars _ (List.mem_append_left w (List.getLast_mem hu))] at hlast
    cases hlast
  · -- the second name would start with a blank, or with the angle bracket
    obtain ⟨c, name, rfl⟩ := List.exists_cons_of_ne_nil hne
    have hc : isNameChar c = true := hchars c List.mem_cons_self
    rcases List.append_eq_append_iff.mp hw with ⟨x, rfl, hx⟩ | ⟨x, rfl, hx⟩
    · cases x with
      | nil =>
          obtain ⟨rfl, -⟩ := List.cons.inj hx
          exact absurd hc (by decide)
      | cons d x =>
          obtain ⟨rfl, -⟩ := List.cons.inj hx
          simp only [List.length_append, List.length_cons] at hlt
          omega
    · cases x with
      | nil =>
          obtain ⟨rfl, -⟩ := List.cons.inj hx
          exact absurd hc (by decide)
      | cons d x =>
          obtain ⟨rfl, -⟩ := List.cons.inj hx
          have hblank := List.all_eq_true.mp hgap c (by simp)
          rw [not_isBlank_of_isNameChar hc] at hblank
          cases hblank

end Pattern

section Callsites

variable {m : Module} {function : String} {call : Callsite} {found : Found Nat}

theorem callsiteAt?_eq_some_iff :
    callsiteAt? m (mask m.text) function found = some call ↔
      isDeclared (mask m.text) found.start = false ∧ ∃ angleEnd parenthesis parenthesisEnd,
        matching? m.text (found.start + found.value) '<' '>' = some angleEnd ∧
        BlanksUpTo (mask m.text) (angleEnd + 1) '(' parenthesis ∧
        matching? m.text parenthesis '(' ')' = some parenthesisEnd ∧
        callOf m function found.start (found.start + found.value) angleEnd parenthesis
          parenthesisEnd = call := by
  have hparenthesis : isBlank '(' = false := by decide
  rw [callsiteAt?]
  cases hdeclared : isDeclared (mask m.text) found.start with
  | true => simp
  | false =>
      rw [if_neg Bool.false_ne_true]
      dsimp only
      cases hangle : matching? m.text (found.start + found.value) '<' '>' with
      | none => simp
      | some angleEnd =>
          dsimp only
          constructor
          · intro h
            split at h
            · rename_i hopen
              obtain ⟨parenthesisEnd, hend, rfl⟩ := Option.map_eq_some_iff.mp h
              exact ⟨rfl, angleEnd, _, parenthesisEnd, rfl,
                (blanksUpTo_iff hparenthesis).mpr ⟨rfl, hopen⟩, hend, rfl⟩
            · cases h
          · rintro ⟨-, _, _, parenthesisEnd, ⟨⟩, hopens, hend, rfl⟩
            obtain ⟨rfl, hopen⟩ := (blanksUpTo_iff hparenthesis).mp hopens
            rw [if_pos hopen, hend]
            rfl

/-- The calls of a function are those forms of a call that stand detached and undeclared. -/
theorem mem_callsites_iff (hname : IsFunctionName function.toList) :
    call ∈ callsites m function ↔ ∃ start angle angleEnd parenthesis parenthesisEnd,
      CallAt m.text function.toList start angle angleEnd parenthesis parenthesisEnd ∧
      Detached ((mask m.text).take start).getLast? ∧ isDeclared (mask m.text) start = false ∧
      callOf m function start angle angleEnd parenthesis parenthesisEnd = call := by
  rw [callsites, List.mem_filterMap]
  constructor
  · rintro ⟨found, hfound, hcall⟩
    obtain ⟨u, v, hmask, -, hstart, hmatch⟩ :=
      (Pattern.mem_findAll_iff (separate_namePattern hname)).mp hfound
    obtain ⟨hbefore, gap, rest, rfl, hgap, hvalue, -⟩ := namePattern_eq_some_iff.mp hmatch
    obtain ⟨hdeclared, angleEnd, parenthesis, parenthesisEnd, hangle, hopens, hend, hcall⟩ :=
      callsiteAt?_eq_some_iff.mp hcall
    have hdrop : (mask m.text).drop found.start = function.toList ++ (gap ++ '<' :: rest) := by
      rw [hmask, hstart, List.drop_left]
    refine ⟨found.start, found.start + found.value, angleEnd, parenthesis, parenthesisEnd,
      ⟨?_, ⟨gap, rest, ?_, hgap, ?_⟩, hangle, hopens, hend⟩, ?_, hdeclared, hcall⟩
    · rw [hdrop]
      exact List.prefix_append _ _
    · rw [← List.drop_drop, hdrop, List.drop_left]
    · rw [hvalue, List.length_append]
      omega
    · rwa [hmask, hstart, List.take_left]
  · rintro ⟨start, angle, angleEnd, parenthesis, parenthesisEnd, hat, hbefore, hdeclared, hcall⟩
    obtain ⟨after, hnamed⟩ := hat.named
    obtain ⟨gap, rest, hgap, hblank, hangle⟩ := hat.opensAngle
    have hdrop : (mask m.text).drop start = function.toList ++ (gap ++ '<' :: rest) := by
      rw [← List.drop_drop, ← hnamed, List.drop_left] at hgap
      rw [← hnamed, hgap]
    have hvalue : start + (function.toList ++ gap).length = angle := by
      rw [hangle, List.length_append]
      omega
    refine ⟨⟨start, (function.toList ++ gap).length + 1, (function.toList ++ gap).length⟩, ?_, ?_⟩
    · refine (Pattern.mem_findAll_iff (separate_namePattern hname)).mpr
        ⟨(mask m.text).take start, (mask m.text).drop start, ?_, ?_, ?_, ?_⟩
      · rw [List.take_append_drop]
      · rw [hdrop]
        simp
      · have hlt : start < (mask m.text).length := by
          apply Nat.lt_of_not_le
          intro hle
          rw [List.drop_eq_nil_of_le hle] at hdrop
          simp at hdrop
        rw [List.length_take]
        exact (Nat.min_eq_left (Nat.le_of_lt hlt)).symm
      · exact namePattern_eq_some_iff.mpr ⟨hbefore, gap, rest, hdrop, hblank, rfl, rfl⟩
    · refine callsiteAt?_eq_some_iff.mpr ⟨hdeclared, angleEnd, parenthesis, parenthesisEnd, ?_,
        hat.opensParenthesis, hat.closesParenthesis, ?_⟩
      · rw [hvalue]
        exact hat.closesAngle
      · rw [hvalue]
        exact hcall

/-- The calls of a function are reported in source order. -/
theorem pairwise_callsites (m : Module) (function : String) :
    (callsites m function).Pairwise fun c d => c.offset < d.offset := by
  refine List.Pairwise.filterMap _ ?_ (Pattern.pairwise_findFrom _ 0 0 none (mask m.text))
  intro f g hlt c hc d hd
  obtain ⟨-, _, _, _, -, -, -, rfl⟩ := callsiteAt?_eq_some_iff.mp hc
  obtain ⟨-, _, _, _, -, -, -, rfl⟩ := callsiteAt?_eq_some_iff.mp hd
  exact hlt

end Callsites

end PluginContract.Entrypoint
