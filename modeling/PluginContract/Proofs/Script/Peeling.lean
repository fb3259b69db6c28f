import PluginContract.Proofs.Script.Assertions
import PluginContract.Proofs.Text.Search

/-!
# Peeling assertions off an expression

Each way of peeling takes an expression that asserts something about a reference to another such
expression, and leaves it as it is or makes it shorter. The outermost layer is always peeled. So
peeling comes to an end at the reference itself.
-/

namespace PluginContract.Script

open Text Region

variable {core e t type word : List Char}

/-- A way of peeling keeps assertions about a reference, and peels something off or nothing. -/
def Peels (core : List Char) (f : List Char → List Char) : Prop :=
  ∀ t, Asserts core t → Asserts core (f t) ∧ (f t = t ∨ (f t).length < t.length)

namespace Peels

variable {f g : List Char → List Char}

theorem length_le (hf : Peels core f) (h : Asserts core t) : (f t).length ≤ t.length := by
  rcases (hf t h).2 with heq | hlt
  · exact Nat.le_of_eq (congrArg List.length heq)
  · exact Nat.le_of_lt hlt

theorem comp (hg : Peels core g) (hf : Peels core f) : Peels core fun t => g (f t) := by
  intro t h
  obtain ⟨hfirst, hor⟩ := hf t h
  obtain ⟨hsecond, hor'⟩ := hg (f t) hfirst
  refine ⟨hsecond, ?_⟩
  rcases hor' with heq | hlt
  · dsimp only
    rwa [heq]
  · exact Or.inr (Nat.lt_of_lt_of_le hlt (hf.length_le h))

/-- What is left as it is by two ways of peeling is so by each. -/
theorem comp_eq_self (hg : Peels core g) (hf : Peels core f) (h : Asserts core t)
    (heq : g (f t) = t) : f t = t ∧ g t = t := by
  rcases (hf t h).2 with hfirst | hlt
  · rw [hfirst] at heq
    exact ⟨hfirst, heq⟩
  · have hle := hg.length_le (hf t h).1
    rw [heq] at hle
    exact absurd hlt (Nat.not_lt_of_le hle)

end Peels

/-- Balanced code that starts with a parenthesis closes it, whatever comes after the code. -/
theorem Balanced.exists_matching? {commas : Bool} (h : Balanced .brackets commas e)
    (hhead : e.head? = some '(') (rest : List Char) :
    ∃ k < e.length, matching? (e ++ rest) 0 '(' ')' = some k := by
  cases h with
  | nil => cases hhead
  | plain plain other comma balanced =>
      obtain rfl := Option.some.inj hhead
      cases other.1
  | arrow balanced => cases hhead
  | literal terminated balanced =>
      obtain ⟨q, inside, rfl, hquote, -⟩ := terminated.exists_cons
      obtain rfl := Option.some.inj hhead
      cases hquote
  | @bracket _ opens closes inside more pair inner arrow balanced =>
      obtain rfl := Option.some.inj hhead
      obtain rfl := Option.some.inj pair
      refine ⟨inside.length + 1, by simp, ?_⟩
      rw [List.cons_append, List.append_assoc]
      exact matching?_round inner (more ++ rest)

section Parentheses

variable (hcore : Referent core)
include hcore

/-- A parenthesis that an expression closes is not closed by the end of a longer text. -/
theorem Asserts.matching?_ne (h : Asserts core e) (hhead : e.head? = some '(') {rest : List Char}
    (hrest : rest ≠ []) :
    matching? (e ++ rest) 0 '(' ')' ≠ some ((e ++ rest).length - 1) := by
  obtain ⟨k, hk, hmatch⟩ := (h.balanced hcore).exists_matching? hhead rest
  have hpos := List.length_pos_iff.mpr hrest
  rw [hmatch, List.length_append]
  intro heq
  have hlast := Option.some.inj heq
  omega

/-- Parentheses around a whole expression are its outermost layer. -/
theorem Asserts.of_wrapped (h : Asserts core t) (hhead : t.head? = some '(')
    (hmatch : matching? t 0 '(' ')' = some (t.length - 1)) :
    ∃ e, t = '(' :: (e ++ [')']) ∧ Asserts core e := by
  cases h with
  | bare =>
      exact absurd (List.mem_of_mem_head? hhead) (hcore.notMem (by decide) (by decide))
  | parens inner => exact ⟨_, rfl, inner⟩
  | nonNull inner =>
      rw [(inner.solid hcore).head?_append] at hhead
      exact absurd hmatch (inner.matching?_ne hcore hhead (List.cons_ne_nil _ _))
  | typed inner isWord isType =>
      rw [(inner.solid hcore).head?_append] at hhead
      exact absurd hmatch (inner.matching?_ne hcore hhead (List.cons_ne_nil _ _))
  | angled isType inner => cases hhead

theorem peels_unwrap : Peels core unwrap := by
  intro t h
  induction t using unwrap.induct with
  | case1 t hwrapped ih =>
      obtain ⟨e, rfl, inner⟩ := h.of_wrapped hcore hwrapped.1 hwrapped.2
      rw [trim_inside_parens (inner.solid hcore)] at ih
      obtain ⟨hunwrap, hor⟩ := ih inner
      rw [unwrap_parens (inner.balanced hcore) (inner.solid hcore)]
      refine ⟨hunwrap, Or.inr ?_⟩
      rw [List.length_cons, List.length_append]
      rcases hor with heq | hlt
      · rw [heq]
        omega
      · omega
  | case2 t hwrapped =>
      rw [unwrap, dif_neg hwrapped]
      exact ⟨h, Or.inl rfl⟩

theorem Asserts.stripParens_eq (h : Asserts core t) : stripParens t = unwrap t := by
  rw [stripParens, trim_of_solid (h.solid hcore)]

theorem peels_stripParens : Peels core stripParens := by
  intro t h
  rw [h.stripParens_eq hcore]
  exact peels_unwrap hcore t h

theorem stripParens_parens_ne (inner : Asserts core e) :
    stripParens ('(' :: (e ++ [')'])) ≠ '(' :: (e ++ [')']) := by
  have hle := (peels_unwrap hcore).length_le inner
  rw [inner.parens.stripParens_eq hcore, unwrap_parens (inner.balanced hcore) (inner.solid hcore)]
  intro heq
  rw [heq, List.length_cons, List.length_append] at hle
  omega

end Parentheses

section NonNull

variable (hcore : Referent core)
include hcore

/-- A non-null mark at the end of an expression is a layer of it. -/
theorem Asserts.of_getLast? (h : Asserts core t) (hlast : t.getLast? = some '!') :
    ∃ e, t = e ++ ['!'] ∧ Asserts core e := by
  induction h with
  | bare => exact absurd (List.mem_of_getLast? hlast) (hcore.notMem (by decide) (by decide))
  | parens inner ih => simp [List.getLast?_cons] at hlast
  | nonNull inner ih => exact ⟨_, rfl, inner⟩
  | @typed e word type inner isWord isType ih =>
      have hmark : type.getLast? = some '!' := by
        rwa [isType.solid.getLast?_of_suffix ⟨e ++ ' ' :: (word ++ [' ']), by simp⟩] at hlast
      exact absurd (List.mem_of_getLast? hmark) (isType.text.notMem (by decide) (by decide))
  | @angled e type isType inner ih =>
      have hmark : e.getLast? = some '!' := by
        rwa [(inner.solid hcore).getLast?_of_suffix ⟨'<' :: (type ++ ['>']), by simp⟩] at hlast
      obtain ⟨e, rfl, inner'⟩ := ih hmark
      exact ⟨'<' :: (type ++ '>' :: e), by simp, .angled isType inner'⟩

theorem Asserts.dropNonNull_eq (inner : Asserts core e) : dropNonNull (e ++ ['!']) = e := by
  rw [dropNonNull, if_pos List.getLast?_concat, List.dropLast_concat,
    trimEnd_of_solid (inner.solid hcore)]

theorem peels_dropNonNull : Peels core dropNonNull := by
  intro t h
  by_cases hlast : t.getLast? = some '!'
  · obtain ⟨e, rfl, inner⟩ := h.of_getLast? hcore hlast
    rw [inner.dropNonNull_eq hcore]
    exact ⟨inner, Or.inr (by simp)⟩
  · rw [dropNonNull, if_neg hlast]
    exact ⟨h, Or.inl rfl⟩

end NonNull

section Angled

variable (hcore : Referent core)
include hcore

/-- A type in angle brackets before an expression is a layer of it. -/
theorem Asserts.of_head? (h : Asserts core t) (hhead : t.head? = some '<') :
    ∃ type e, t = '<' :: (type ++ '>' :: e) ∧ AssertedType type ∧ Asserts core e := by
  induction h with
  | bare =>
      exact absurd (List.mem_of_mem_head? hhead) (hcore.notMem (by decide) (by decide))
  | parens inner ih => cases hhead
  | nonNull inner ih =>
      rw [(inner.solid hcore).head?_append] at hhead
      obtain ⟨type, e, rfl, isType, inner'⟩ := ih hhead
      exact ⟨type, e ++ ['!'], by simp, isType, inner'.nonNull⟩
  | @typed e word named inner isWord isNamed ih =>
      rw [(inner.solid hcore).head?_append] at hhead
      obtain ⟨type, e, rfl, isType, inner'⟩ := ih hhead
      exact ⟨type, e ++ ' ' :: (word ++ ' ' :: named), by simp, isType,
        inner'.typed isWord isNamed⟩
  | angled isType inner => exact ⟨_, _, rfl, isType, inner⟩

theorem Asserts.dropAngled_eq (inner : Asserts core e) (isType : AssertedType type) :
    dropAngled ('<' :: (type ++ '>' :: e)) = e := by
  have harrow : type.getLast? ≠ some '=' := fun hlast =>
    isType.text.notMem (by decide) (by decide) (List.mem_of_getLast? hlast)
  have hclose := matching?_of_balanced Pairing.proper_angled isType.text.balanced_angled
    (fun _ => harrow) [] e
  rw [List.nil_append, List.length_nil, Nat.zero_add, Nat.add_comm] at hclose
  have hdrop : ('<' :: (type ++ '>' :: e)).drop (type.length + 1 + 1) = e := by
    rw [List.drop_succ_cons, ← List.drop_drop, List.drop_left]
    rfl
  rw [dropAngled, if_pos (by rfl), hclose]
  dsimp only
  rw [hdrop, trim_of_solid (inner.solid hcore)]

theorem peels_dropAngled : Peels core dropAngled := by
  intro t h
  by_cases hhead : t.head? = some '<'
  · obtain ⟨type, e, rfl, isType, inner⟩ := h.of_head? hcore hhead
    rw [inner.dropAngled_eq hcore isType]
    refine ⟨inner, Or.inr ?_⟩
    rw [List.length_cons, List.length_append, List.length_cons]
    omega
  · rw [dropAngled, if_neg hhead]
    exact ⟨h, Or.inl rfl⟩

end Angled

section Words

variable {before : Option Char} {u v : List Char} {b d : Char}

/-- An assertion word matches between blanks only. -/
theorem exists_of_assertionWord {value : Unit} {length : Nat}
    (h : assertionWord before t = some (value, length)) :
    ∃ b word d rest, isBlank b = true ∧ isBlank d = true ∧ word ∈ assertionWords ∧
      t = (b :: (word ++ [d])) ++ rest ∧ length = word.length + 2 := by
  rw [assertionWord.eq_def] at h
  split at h
  · rename_i b rest
    split at h
    · rename_i hb
      split at h
      · rename_i d after has
        split at h
        · rename_i hd
          obtain rfl := after?_eq_some_iff.mp has
          obtain ⟨-, rfl⟩ := Prod.mk.inj (Option.some.inj h)
          exact ⟨b, "as".toList, d, after, hb, hd, List.mem_cons_self, by simp, rfl⟩
        · cases h
      · rename_i d after hsatisfies _
        split at h
        · rename_i hd
          obtain rfl := after?_eq_some_iff.mp hsatisfies
          obtain ⟨-, rfl⟩ := Prod.mk.inj (Option.some.inj h)
          exact ⟨b, "satisfies".toList, d, after, hb, hd,
            List.mem_cons_of_mem _ List.mem_cons_self, by simp, rfl⟩
        · cases h
      · cases h
    · cases h
  · cases h

theorem assertionWord_mark (hb : isBlank b = true) (hd : isBlank d = true)
    (hword : word ∈ assertionWords) (rest : List Char) :
    assertionWord before ((b :: (word ++ [d])) ++ rest) = some ((), word.length + 2) := by
  simp only [assertionWords, List.mem_cons, List.not_mem_nil, or_false] at hword
  rcases hword with rfl | rfl
  · simp [assertionWord, hb, hd, after?]
  · simp [assertionWord, hb, hd, after?]

variable (hcore : Referent core)
include hcore

/-- The match of an assertion word in an expression does not reach past its end. -/
theorem Asserts.length_le_of_assertionWord {x c rest : List Char} {value : Unit} {length : Nat}
    (h : Asserts core (x ++ c)) (hc : c ≠ [])
    (hmatch : assertionWord before (c ++ ' ' :: rest) = some (value, length)) :
    length ≤ c.length := by
  obtain ⟨b, word, d, more, hb, hd, hword, heq, rfl⟩ := exists_of_assertionWord hmatch
  obtain ⟨b', c, rfl⟩ := List.exists_cons_of_ne_nil hc
  obtain ⟨rfl, hrest⟩ := List.cons.inj heq
  have hblock : c ++ ' ' :: rest = [] ++ (word ++ d :: more) := by
    rw [List.nil_append, List.append_cons word]
    exact hrest
  rcases word_in_append hword hblock with ⟨r, rfl, -⟩ | ⟨r, hnil, -⟩
  · cases r with
    | nil =>
        rw [List.nil_append, List.append_nil] at h
        exact absurd rfl (h.ne_word_end hcore hb hword x)
    | cons _ r =>
        simp only [List.nil_append, List.length_cons, List.length_append]
        omega
  · cases c <;> cases hnil

/-- What stands before a reported assertion word outside of all brackets is left. -/
theorem Asserts.dropAssertion_cases (h : Asserts core t) :
    dropAssertion t = t ∧ ((assertionWord.findAll t).find? fun found =>
        depth (t.take found.start) = 0) = none ∨
      Asserts core (dropAssertion t) ∧ (dropAssertion t).length < t.length := by
  rw [dropAssertion, mask_plain (h.plain hcore)]
  split
  · rename_i found hfound
    obtain ⟨u, v, rfl, hv, -, hstart, hmatch⟩ :=
      Pattern.exists_of_mem_findFrom (List.mem_of_find?_eq_some hfound)
    have hdepth := List.find?_some hfound
    rw [hstart, Nat.zero_add, List.take_left, decide_eq_true_eq] at hdepth
    obtain ⟨b, word, d, rest, hb, hd, hword, rfl, -⟩ := exists_of_assertionWord hmatch
    have hbefore := h.before_word hcore hb hd hword rfl hdepth
    rw [hstart, Nat.zero_add, List.take_left, trim_of_solid (hbefore.solid hcore)]
    refine Or.inr ⟨hbefore, ?_⟩
    rw [List.length_append]
    exact Nat.lt_add_of_pos_right (List.length_pos_iff.mpr hv)
  · rename_i hnone
    exact Or.inl ⟨rfl, hnone⟩

theorem peels_dropAssertion : Peels core dropAssertion := by
  intro t h
  rcases h.dropAssertion_cases hcore with ⟨heq, -⟩ | ⟨hshorter, hlt⟩
  · rw [heq]
    exact ⟨h, Or.inl rfl⟩
  · exact ⟨hshorter, Or.inr hlt⟩

theorem dropAssertion_typed_ne (inner : Asserts core e) (isWord : word ∈ assertionWords)
    (isType : AssertedType type) :
    dropAssertion (e ++ ' ' :: (word ++ ' ' :: type)) ≠ e ++ ' ' :: (word ++ ' ' :: type) := by
  have hmark : ' ' :: (word ++ ' ' :: type) = (' ' :: (word ++ [' '])) ++ type := by simp
  have hmem : ⟨0 + e.length, word.length + 2, ()⟩ ∈
      assertionWord.findAll (e ++ ' ' :: (word ++ ' ' :: type)) := by
    refine Pattern.mem_findFrom_of_clear (List.cons_ne_nil _ _) (Nat.zero_le _) ?_ ?_
    · rintro x c value length rfl hc hmatch
      exact inner.length_le_of_assertionWord hcore hc hmatch
    · rw [hmark]
      exact assertionWord_mark (by decide) (by decide) isWord type
  rcases (inner.typed isWord isType).dropAssertion_cases hcore with ⟨-, hnone⟩ | ⟨-, hlt⟩
  · have hdepth := List.find?_eq_none.mp hnone _ hmem
    rw [Nat.zero_add, List.take_left, (inner.level hcore).whole] at hdepth
    exact absurd rfl hdepth
  · intro heq
    rw [heq] at hlt
    exact Nat.lt_irrefl _ hlt

end Words

section Peel

variable (hcore : Referent core)
include hcore

theorem peels_peel : Peels core peel :=
  ((peels_dropAssertion hcore).comp (peels_dropAngled hcore)).comp
    ((peels_dropNonNull hcore).comp (peels_stripParens hcore))

/-- An expression from which nothing is peeled has no layer. -/
theorem Asserts.eq_of_peel (h : Asserts core t) (heq : peel t = t) : t = core := by
  have hfirst := (peels_dropNonNull hcore).comp (peels_stripParens hcore)
  have hsecond := (peels_dropAssertion hcore).comp (peels_dropAngled hcore)
  obtain ⟨hinner, houter⟩ := hsecond.comp_eq_self hfirst h heq
  obtain ⟨hparens, hnonNull⟩ :=
    (peels_dropNonNull hcore).comp_eq_self (peels_stripParens hcore) h hinner
  obtain ⟨hangled, htyped⟩ :=
    (peels_dropAssertion hcore).comp_eq_self (peels_dropAngled hcore) h houter
  -- Whichever layer is the outermost one, the way that peels it changes the expression.
  cases h with
  | bare => rfl
  | parens inner => exact absurd hparens (stripParens_parens_ne hcore inner)
  | nonNull inner =>
      rw [inner.dropNonNull_eq hcore] at hnonNull
      simp at hnonNull
  | typed inner isWord isType =>
      exact absurd htyped (dropAssertion_typed_ne hcore inner isWord isType)
  | @angled e type isType inner =>
      rw [inner.dropAngled_eq hcore isType] at hangled
      have hlength := congrArg List.length hangled
      rw [List.length_cons, List.length_append, List.length_cons] at hlength
      omega

/-- All layers are peeled off, one after the other. -/
theorem Asserts.peelAll_eq (h : Asserts core t) : peelAll t = core := by
  -- What is left is shorter and asserts something of the same reference, or nothing was peeled.
  induction t using peelAll.induct with
  | case1 t hlt ih =>
      rw [peelAll, if_pos hlt]
      exact ih (peels_peel hcore t h).1
  | case2 t hlt =>
      have heq := (peels_peel hcore t h).2.resolve_right hlt
      rw [peelAll, if_neg hlt, heq]
      exact h.eq_of_peel hcore heq

theorem Asserts.stripAssertions_eq (h : Asserts core t) : stripAssertions t = core := by
  rw [stripAssertions, trim_of_solid (h.solid hcore), h.peelAll_eq hcore]

end Peel

end PluginContract.Script
