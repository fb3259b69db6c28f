import PluginContract.Proofs.Script.Wrapping
import PluginContract.Proofs.Text.Occurrences

/-!
# Expressions in assertions

An identifier, or a member of a namespace, may stand in parentheses, before a non-null mark,
before the words `as` and `satisfies` with a type, and behind a type in angle brackets, in any
order and number. In such an expression an assertion word stands outside of all parentheses only
where one of these layers ends. What comes before it is an expression of the same kind.
-/

namespace PluginContract.Script

open Text Region

/-- Whether a word occurs only as a part of longer ones. -/
def LacksWord (word t : List Char) : Prop :=
  ∀ u v, t = u ++ (word ++ v) →
    (∃ c ∈ u.getLast?, isNameChar c = true) ∨ ∃ c ∈ v.head?, isNameChar c = true

instance (word t : List Char) : Decidable (LacksWord word t) :=
  decidable_of_iff
    (∀ i ∈ List.range (t.length + 1), word <+: t.drop i →
      (t.take i).getLast?.any isNameChar ∨ (t.drop (i + word.length)).head?.any isNameChar)
    (by
      simp only [List.mem_range, Option.any_eq_true]
      constructor
      · rintro h u v rfl
        have hstart := h u.length (by rw [List.length_append]; omega)
        rw [List.drop_left, List.take_left, ← List.drop_drop, List.drop_left, List.drop_left]
          at hstart
        exact hstart (List.prefix_append word v)
      · rintro h i - ⟨v, hv⟩
        rw [← List.drop_drop, ← hv, List.drop_left]
        exact h (t.take i) v (by rw [hv, List.take_append_drop]))

/-- A character of a type that is no bracket. -/
def isTypeChar (c : Char) : Bool := isNameChar c || isBlank c || ['.', ',', '|', '&'].contains c

/-- The text of a type: such characters, and brackets and angle brackets that are closed by their
own closers. -/
inductive TypeText : List Char → Prop
  | nil : TypeText []
  | char {c : Char} {rest : List Char} (char : isTypeChar c = true) (after : TypeText rest) :
      TypeText (c :: rest)
  | bracket {opens closes : Char} {inside rest : List Char}
      (pair : Pairing.angled opens = some closes) (inner : TypeText inside)
      (after : TypeText rest) : TypeText (opens :: (inside ++ closes :: rest))

/-- The words that assert a type. -/
def assertionWords : List (List Char) := ["as".toList, "satisfies".toList]

/-- A type that an assertion may name. -/
structure AssertedType (t : List Char) : Prop where
  text : TypeText t
  solid : Solid t
  lacks : ∀ word ∈ assertionWords, LacksWord word t

/-- What a reference is written as: a name, or a member of a namespace. -/
inductive Referent : List Char → Prop
  | name {name : List Char} (isName : Text.isName name = true) : Referent name
  | member {space member : List Char} (isSpace : isName space = true)
      (isMember : isName member = true) : Referent (space ++ '.' :: member)

/-- An expression that asserts something about another one, in any number of layers. -/
inductive Asserts (core : List Char) : List Char → Prop
  | bare : Asserts core core
  | parens {e : List Char} (inner : Asserts core e) : Asserts core ('(' :: (e ++ [')']))
  | nonNull {e : List Char} (inner : Asserts core e) : Asserts core (e ++ ['!'])
  | typed {e word type : List Char} (inner : Asserts core e) (isWord : word ∈ assertionWords)
      (isType : AssertedType type) : Asserts core (e ++ ' ' :: (word ++ ' ' :: type))
  | angled {e type : List Char} (isType : AssertedType type) (inner : Asserts core e) :
      Asserts core ('<' :: (type ++ '>' :: e))

section Depth

variable {t u v : List Char} {c : Char}

@[simp] theorem depth_nil : depth [] = 0 := rfl

@[simp] theorem depth_cons (c : Char) (t : List Char) :
    depth (c :: t) = depthChange c + depth t := rfl

theorem depth_append (u v : List Char) : depth (u ++ v) = depth u + depth v := by
  induction u with
  | nil => simp
  | cons c u ih => rw [List.cons_append, depth_cons, ih, depth_cons, Int.add_assoc]

/-- A text that closes all brackets that it opens, and no others. -/
structure Level (t : List Char) : Prop where
  whole : depth t = 0
  start : ∀ {u v}, t = u ++ v → 0 ≤ depth u

theorem level_nil : Level [] := by
  refine ⟨rfl, fun h => ?_⟩
  obtain ⟨rfl, -⟩ := List.append_eq_nil_iff.mp h.symm
  exact Int.le_refl 0

theorem Level.append (hu : Level u) (hv : Level v) : Level (u ++ v) := by
  refine ⟨by rw [depth_append, hu.whole, hv.whole]; rfl, fun {x y} h => ?_⟩
  rcases List.append_eq_append_iff.mp h with ⟨w, rfl, hw⟩ | ⟨w, hw, -⟩
  · rw [depth_append, hu.whole, Int.zero_add]
    exact hv.start hw
  · exact hu.start hw

theorem level_singleton (h : depthChange c = 0) : Level [c] := by
  refine ⟨by rw [depth_cons, h]; rfl, fun {x y} heq => ?_⟩
  cases x with
  | nil => exact Int.le_refl 0
  | cons d x =>
      obtain ⟨rfl, hx⟩ := List.cons.inj heq
      obtain ⟨rfl, -⟩ := List.append_eq_nil_iff.mp hx.symm
      rw [depth_cons, h]
      exact Int.le_refl 0

theorem Level.cons (h : depthChange c = 0) (ht : Level t) : Level (c :: t) :=
  (level_singleton h).append ht

theorem Level.bracket {opens closes : Char} (hopens : depthChange opens = 1)
    (hcloses : depthChange closes = -1) (ht : Level t) : Level (opens :: (t ++ [closes])) := by
  constructor
  · rw [depth_cons, depth_append, ht.whole, hopens, depth_cons, hcloses]
    rfl
  · intro x y h
    cases x with
    | nil => exact Int.le_refl 0
    | cons d x =>
        obtain ⟨rfl, hx⟩ := List.cons.inj h
        rw [depth_cons, hopens]
        rcases List.append_eq_append_iff.mp hx with ⟨w, rfl, hw⟩ | ⟨w, hw, -⟩
        · cases w with
          | nil =>
              rw [List.append_nil, ht.whole]
              decide
          | cons e w =>
              obtain ⟨rfl, hrest⟩ := List.cons.inj hw
              obtain ⟨rfl, -⟩ := List.append_eq_nil_iff.mp hrest.symm
              rw [depth_append, ht.whole, depth_cons, hcloses]
              decide
        · have := ht.start hw
          omega

end Depth

section Types

variable {t u v inside rest : List Char} {c opens closes : Char}

theorem isPlain_of_isTypeChar (h : isTypeChar c = true) : isPlain c = true := by
  simp only [isTypeChar, Bool.or_eq_true, List.contains_iff_mem] at h
  rcases h with (hname | hblank) | hsign
  · exact isPlain_of_isNameChar hname
  · exact isPlain_of_isBlank hblank
  · have hsigns : ['.', ',', '|', '&'].all isPlain = true := by decide
    exact List.all_eq_true.mp hsigns c hsign

theorem noBracket_brackets (h : isTypeChar c = true) : Pairing.brackets.NoBracket c :=
  Pairing.among_brackets.noBracket_of_check (by decide) h

theorem noBracket_angled (h : isTypeChar c = true) : Pairing.angled.NoBracket c :=
  Pairing.among_angled.noBracket_of_check (by decide) h

/-- The pairs of brackets in types. -/
theorem angled_cases (h : Pairing.angled opens = some closes) :
    (opens = '<' ∧ closes = '>') ∨
      Pairing.brackets opens = some closes ∧ depthChange opens = 1 ∧ depthChange closes = -1 := by
  have hpair := Pairing.among_angled h
  simp only [Pairing.bracketPairs, List.mem_cons, Prod.mk.injEq, List.not_mem_nil, or_false]
    at hpair
  rcases hpair with hpair | ⟨rfl, rfl⟩ | ⟨rfl, rfl⟩ | ⟨rfl, rfl⟩
  · exact Or.inl hpair
  all_goals exact Or.inr ⟨rfl, rfl, rfl⟩

/-- A sign that is no bracket may stand before balanced code. -/
theorem balanced_sign (hc : isUnpaired Pairing.bracketPairs c = true)
    (h : Balanced .brackets true t) : Balanced .brackets true (c :: t) := by
  have hsign : Balanced .brackets true [c] :=
    Pairing.among_brackets.balanced_of_all (by simp [hc])
  exact hsign.append h

namespace TypeText

theorem forall_mem (h : TypeText t) :
    ∀ c ∈ t, isTypeChar c = true ∨ ∃ pair ∈ ('<', '>') :: Pairing.bracketPairs,
      c = pair.1 ∨ c = pair.2 := by
  induction h with
  | nil => simp
  | char char after ih => exact List.forall_mem_cons.mpr ⟨Or.inl char, ih⟩
  | bracket pair inner after ihInner ih =>
      have hpair := Pairing.among_angled pair
      refine List.forall_mem_cons.mpr ⟨Or.inr ⟨_, hpair, Or.inl rfl⟩, ?_⟩
      exact List.forall_mem_append.mpr
        ⟨ihInner, List.forall_mem_cons.mpr ⟨Or.inr ⟨_, hpair, Or.inr rfl⟩, ih⟩⟩

theorem append (hu : TypeText u) (hv : TypeText v) : TypeText (u ++ v) := by
  induction hu with
  | nil => exact hv
  | char char after ih => exact .char char ih
  | bracket pair inner after _ ih =>
      rw [List.cons_append, List.append_assoc]
      exact .bracket pair inner ih

theorem of_all (h : t.all isTypeChar = true) : TypeText t := by
  induction t with
  | nil => exact .nil
  | cons c t ih =>
      obtain ⟨hc, ht⟩ := Bool.and_eq_true_iff.mp h
      exact .char hc (ih ht)

theorem plain (h : TypeText t) : Plain t := by
  refine List.all_eq_true.mpr fun c hc => ?_
  rcases h.forall_mem c hc with hchar | ⟨pair, hpair, hc⟩
  · exact isPlain_of_isTypeChar hchar
  · have hplain : ∀ pair ∈ ('<', '>') :: Pairing.bracketPairs,
        isPlain pair.1 = true ∧ isPlain pair.2 = true := by decide
    rcases hc with rfl | rfl
    · exact (hplain pair hpair).1
    · exact (hplain pair hpair).2

theorem notMem {d : Char} (h : TypeText t) (hd : isTypeChar d = false)
    (hpairs : ∀ pair ∈ ('<', '>') :: Pairing.bracketPairs, pair.1 ≠ d ∧ pair.2 ≠ d) : d ∉ t := by
  intro hmem
  rcases h.forall_mem d hmem with hchar | ⟨pair, hpair, hc⟩
  · rw [hd] at hchar
    cases hchar
  · rcases hc with rfl | rfl
    · exact (hpairs pair hpair).1 rfl
    · exact (hpairs pair hpair).2 rfl

theorem balanced_angled (h : TypeText t) : Balanced .angled true t := by
  induction h with
  | nil => exact .nil
  | char char after ih =>
      exact .plain (isPlain_of_isTypeChar char) (noBracket_angled char) (fun _ => rfl) ih
  | bracket pair inner after ihInner ih =>
      refine .bracket pair ihInner (fun _ hlast => ?_) ih
      exact inner.notMem (by decide) (by decide) (List.mem_of_getLast? hlast)

theorem balanced_brackets (h : TypeText t) : Balanced .brackets true t := by
  induction h with
  | nil => exact .nil
  | char char after ih =>
      exact .plain (isPlain_of_isTypeChar char) (noBracket_brackets char) (fun _ => rfl) ih
  | bracket pair inner after ihInner ih =>
      rcases angled_cases pair with ⟨rfl, rfl⟩ | ⟨hpair, -, -⟩
      · exact balanced_sign (by decide) (ihInner.append (balanced_sign (by decide) ih))
      · refine .bracket hpair ihInner ?_ ih
        rintro rfl
        exact absurd (Pairing.among_brackets hpair) (by simp [Pairing.bracketPairs])

theorem level (h : TypeText t) : Level t := by
  induction h with
  | nil => exact level_nil
  | char char after ih =>
      exact .cons (noBracket_brackets char).depthChange_eq ih
  | @bracket opens closes inside rest pair inner after ihInner ih =>
      rcases angled_cases pair with ⟨rfl, rfl⟩ | ⟨-, hopens, hcloses⟩
      · exact .cons rfl (ihInner.append (.cons rfl ih))
      · have hlevel := (ihInner.bracket hopens hcloses).append ih
        rwa [List.cons_append, List.append_assoc] at hlevel

end TypeText

end Types

section Referents

variable {core : List Char}

theorem Referent.forall_mem (h : Referent core) : ∀ c ∈ core, isNameChar c = true ∨ c = '.' := by
  cases h with
  | name isName => exact fun c hc => Or.inl (isNameChar_of_isName isName c hc)
  | member isSpace isMember =>
      exact List.forall_mem_append.mpr
        ⟨fun c hc => Or.inl (isNameChar_of_isName isSpace c hc), List.forall_mem_cons.mpr
          ⟨Or.inr rfl, fun c hc => Or.inl (isNameChar_of_isName isMember c hc)⟩⟩

theorem Referent.notMem (h : Referent core) {d : Char} (hd : isNameChar d = false)
    (hdot : d ≠ '.') : d ∉ core := by
  intro hmem
  rcases h.forall_mem d hmem with hname | heq
  · rw [hd] at hname
    cases hname
  · exact hdot heq

theorem Referent.isTypeChar (h : Referent core) : ∀ c ∈ core, isTypeChar c = true := by
  intro c hc
  rcases h.forall_mem c hc with hname | rfl
  · rw [Script.isTypeChar, hname]
    rfl
  · rfl

theorem Referent.solid (h : Referent core) : Solid core := by
  cases h with
  | name isName => exact solid_of_isName isName
  | member isSpace isMember =>
      exact (solid_of_isName isSpace).append (solid_of_isName isMember) ['.']

/-- A reference could stand in a type. -/
theorem Referent.text (h : Referent core) : TypeText core :=
  .of_all (List.all_eq_true.mpr h.isTypeChar)

/-- An assertion word with the type after it could itself stand in a type. -/
theorem AssertedType.text_after {word type : List Char} (h : AssertedType type)
    (isWord : word ∈ assertionWords) : TypeText (' ' :: (word ++ ' ' :: type)) := by
  have hwords : ∀ word ∈ assertionWords, word.all isTypeChar = true := by decide
  exact .char (by decide) ((TypeText.of_all (hwords word isWord)).append
    (.char (by decide) h.text))

namespace Asserts

variable {t : List Char} (hcore : Referent core)
include hcore

theorem solid (h : Asserts core t) : Solid t := by
  induction h with
  | bare => exact hcore.solid
  | parens inner ih => exact solid_between (by decide) (by decide) _
  | nonNull inner ih => exact ih.append (solid_singleton (by decide)) []
  | @typed e word type inner isWord isType ih =>
      have hall := ih.append isType.solid (' ' :: (word ++ [' ']))
      rwa [List.cons_append, List.append_assoc] at hall
  | @angled e type isType inner ih =>
      have hall := (solid_singleton (by decide : isBlank '<' = false)).append ih (type ++ ['>'])
      rwa [List.append_assoc] at hall

theorem plain (h : Asserts core t) : Plain t := by
  have hsign (c : Char) (hc : isPlain c = true) : Plain [c] := by simp [Plain, hc]
  induction h with
  | bare => exact hcore.text.plain
  | parens inner ih => exact (hsign '(' (by decide)).append (ih.append (hsign ')' (by decide)))
  | nonNull inner ih => exact ih.append (hsign '!' (by decide))
  | typed inner isWord isType ih => exact ih.append (isType.text_after isWord).plain
  | angled isType inner ih =>
      exact (hsign '<' (by decide)).append
        (isType.text.plain.append ((hsign '>' (by decide)).append ih))

theorem balanced (h : Asserts core t) : Balanced .brackets true t := by
  induction h with
  | bare => exact hcore.text.balanced_brackets
  | parens inner ih => exact .bracket rfl ih nofun .nil
  | nonNull inner ih => exact ih.append (balanced_sign (by decide) .nil)
  | typed inner isWord isType ih => exact ih.append (isType.text_after isWord).balanced_brackets
  | angled isType inner ih =>
      exact balanced_sign (by decide)
        (isType.text.balanced_brackets.append (balanced_sign (by decide) ih))

theorem level (h : Asserts core t) : Level t := by
  induction h with
  | bare => exact hcore.text.level
  | parens inner ih => exact ih.bracket rfl rfl
  | nonNull inner ih => exact ih.append (level_singleton rfl)
  | typed inner isWord isType ih => exact ih.append (isType.text_after isWord).level
  | angled isType inner ih => exact .cons rfl (isType.text.level.append (.cons rfl ih))

end Asserts

end Referents

section Marks

variable {core t u v rest word type : List Char} {b d : Char}

/-- No assertion word holds a blank, and each ends in the same letter. -/
theorem not_isBlank_of_mem_word (hword : word ∈ assertionWords) :
    ∀ c ∈ word, isBlank c = false := by
  have hwords : ∀ word ∈ assertionWords, (word.all fun c => !isBlank c) = true := by decide
  intro c hc
  simpa using List.all_eq_true.mp (hwords word hword) c hc

theorem getLast?_word (hword : word ∈ assertionWords) : word.getLast? = some 's' := by
  have hwords : ∀ word ∈ assertionWords, word.getLast? = some 's' := by decide
  exact hwords word hword

/-- An assertion word stands before a blank that is written, or after it. -/
theorem word_in_append {x y : List Char} (hword : word ∈ assertionWords)
    (h : x ++ ' ' :: y = u ++ (word ++ rest)) :
    (∃ r, x = u ++ (word ++ r) ∧ rest = r ++ ' ' :: y) ∨
      ∃ v, u = x ++ ' ' :: v ∧ y = v ++ (word ++ rest) := by
  refine block_in_append_cons ?_ ?_ h
  · rintro rfl
    cases getLast?_word hword
  · exact fun hmem => absurd (not_isBlank_of_mem_word hword ' ' hmem) (by decide)

namespace AssertedType

/-- In a type no assertion word stands apart from other words. -/
theorem ne_of_apart (h : AssertedType type) (hword : word ∈ assertionWords)
    (hu : ∀ c ∈ u.getLast?, isBlank c = true) (hv : ∀ c ∈ v.head?, isBlank c = true) :
    type ≠ u ++ (word ++ v) := by
  intro heq
  rcases h.lacks word hword u v heq with ⟨c, hc, hname⟩ | ⟨c, hc, hname⟩
  · rw [not_isNameChar_of_isBlank (hu c hc)] at hname
    cases hname
  · rw [not_isNameChar_of_isBlank (hv c hc)] at hname
    cases hname

/-- No assertion word stands between blanks in a type. -/
theorem ne_word_between (h : AssertedType type) (hb : isBlank b = true) (hd : isBlank d = true)
    (hword : word ∈ assertionWords) (u rest : List Char) :
    type ≠ u ++ ((b :: (word ++ [d])) ++ rest) := by
  have hne := h.ne_of_apart (u := u ++ [b]) (v := d :: rest) hword (by simp [hb]) (by simp [hd])
  simpa using hne

end AssertedType

theorem notMem_mark {c : Char} (hb : isBlank b = true) (hd : isBlank d = true)
    (hword : word ∈ assertionWords) (hblank : isBlank c = false) (hname : isNameChar c = false) :
    c ∉ b :: (word ++ [d]) := by
  have hnames : ∀ word ∈ assertionWords, word.all isNameChar = true := by decide
  have hne : c ∉ word := by
    intro hmem
    rw [List.all_eq_true.mp (hnames word hword) c hmem] at hname
    cases hname
  have hcb : c ≠ b := (ne_of_check hb hblank).symm
  have hcd : c ≠ d := (ne_of_check hd hblank).symm
  simp [hcb, hcd, hne]

/-- The last character before a place is the last one after any character before it. -/
theorem isBlank_last {x : List Char} {c : Char} (hb : isBlank b = true)
    (h : u ++ [b] = x ++ c :: v) : ∀ e ∈ v.getLast?, isBlank e = true := by
  intro e he
  have hlast := congrArg List.getLast? h
  rw [List.getLast?_concat, List.getLast?_append, List.getLast?_cons, Option.mem_def.mp he] at hlast
  obtain rfl := Option.some.inj hlast
  exact hb

/-- An assertion word between blanks is the one that a type is asserted with, or it stands in what
is asserted. -/
theorem AssertedType.word_places {e word' : List Char} (h : AssertedType type)
    (isWord : word' ∈ assertionWords) (hb : isBlank b = true) (hd : isBlank d = true)
    (hword : word ∈ assertionWords) (hend : e ≠ u ++ b :: word)
    (ht : e ++ ' ' :: (word' ++ ' ' :: type) = u ++ ((b :: (word ++ [d])) ++ rest)) :
    e = u ∨ ∃ r, e = u ++ ((b :: (word ++ [d])) ++ r) := by
  have hmark : e ++ ' ' :: (word' ++ ' ' :: type) = (u ++ [b]) ++ (word ++ d :: rest) := by
    rw [ht]
    simp
  rcases word_in_append hword hmark with ⟨r, he, hr⟩ | ⟨v, hu, htype⟩
  · cases r with
    | nil =>
        rw [List.append_nil, List.append_assoc] at he
        exact absurd he hend
    | cons c r =>
        obtain ⟨rfl, -⟩ := List.cons.inj hr
        refine Or.inr ⟨r, ?_⟩
        rw [he]
        simp
  · rcases word_in_append hword htype with ⟨r, hv, -⟩ | ⟨v', rfl, htype'⟩
    · rcases List.eq_nil_or_concat v with rfl | ⟨v, c, rfl⟩
      · exact Or.inl (List.append_inj' hu rfl).1.symm
      · -- A blank would stand in the word that is written there.
        have hblank : isBlank c = true := isBlank_last hb hu c (by simp)
        have hmem : c ∈ word' := by
          rw [hv]
          simp
        rw [not_isBlank_of_mem_word isWord c hmem] at hblank
        cases hblank
    · have hstart : u ++ [b] = (e ++ ' ' :: word') ++ ' ' :: v' := by
        rw [hu]
        simp
      exact absurd htype' (h.ne_of_apart (v := d :: rest) hword
        (isBlank_last hb hstart) (by simp [hd]))

namespace Asserts

variable (hcore : Referent core)
include hcore

/-- An expression does not end in an assertion word after a blank. -/
theorem ne_word_end (h : Asserts core t) (hb : isBlank b = true) (hword : word ∈ assertionWords)
    (u : List Char) : t ≠ u ++ b :: word := by
  intro heq
  have hlast : t.getLast? = some 's' := by
    rw [heq, List.getLast?_append, List.getLast?_cons, getLast?_word hword]
    rfl
  induction h generalizing u with
  | bare =>
      have hmem : b ∈ u ++ b :: word := List.mem_append_right u List.mem_cons_self
      rw [← heq] at hmem
      exact hcore.notMem (not_isNameChar_of_isBlank hb) (ne_of_check hb (by decide)) hmem
  | parens inner ih => simp [List.getLast?_cons] at hlast
  | nonNull inner ih => simp at hlast
  | @typed e word' type inner isWord isType ih =>
      have hblock : (e ++ ' ' :: word') ++ ' ' :: type = (u ++ [b]) ++ (word ++ []) := by
        rw [List.append_assoc, List.cons_append, heq, List.append_nil, List.append_assoc]
        rfl
      rcases word_in_append hword hblock with
        ⟨r, -, hr⟩ | ⟨v, hu, htype⟩
      · cases r <;> cases hr
      · exact isType.ne_of_apart (v := []) hword (isBlank_last hb hu) nofun htype
  | @angled e type isType inner ih =>
      cases u with
      | nil => exact ne_of_check hb (by decide) (List.cons.inj heq).1.symm
      | cons c u =>
          have hrest : type ++ '>' :: e = u ++ ((b :: word) ++ []) := by
            rw [List.append_nil]
            exact (List.cons.inj heq).2
          have hsign : '>' ∉ b :: word := fun hmem =>
            notMem_mark hb hb hword (by decide) (by decide) (List.mem_append_left [b] hmem)
          rcases block_in_append_cons (List.cons_ne_nil b word) hsign hrest with
            ⟨r, -, hr⟩ | ⟨v, -, he⟩
          · cases r <;> cases hr
          · rw [List.append_nil] at he
            refine ih v he ?_
            rw [he, List.getLast?_append, List.getLast?_cons, getLast?_word hword]
            rfl

/-- What comes before an assertion word outside of all parentheses is an expression as well. -/
theorem before_word (h : Asserts core t) (hb : isBlank b = true) (hd : isBlank d = true)
    (hword : word ∈ assertionWords) (ht : t = u ++ ((b :: (word ++ [d])) ++ rest))
    (hdepth : depth u = 0) : Asserts core u := by
  have hne : b :: (word ++ [d]) ≠ [] := List.cons_ne_nil b _
  have hnotMem (c : Char) (hblank : isBlank c = false) (hname : isNameChar c = false) :
      c ∉ b :: (word ++ [d]) := notMem_mark hb hd hword hblank hname
  induction h generalizing u rest with
  | bare =>
      have hmem : b ∈ u ++ ((b :: (word ++ [d])) ++ rest) := by simp
      rw [← ht] at hmem
      exact absurd hmem (hcore.notMem (not_isNameChar_of_isBlank hb) (ne_of_check hb (by decide)))
  | @parens e inner ih =>
      cases u with
      | nil => exact absurd (List.cons.inj ht).1.symm (ne_of_check hb (by decide))
      | cons c u =>
          obtain ⟨rfl, hrest⟩ := List.cons.inj ht
          rcases block_in_append_cons hne (hnotMem ')' (by decide) (by decide)) hrest with
            ⟨r, he, -⟩ | ⟨v, -, hv⟩
          · -- Inside the parentheses the depth is positive.
            have hstart := (inner.level hcore).start he
            rw [depth_cons, show depthChange '(' = 1 from rfl] at hdepth
            omega
          · cases v <;> cases hv
  | @nonNull e inner ih =>
      rcases block_in_append_cons hne (hnotMem '!' (by decide) (by decide)) ht with
        ⟨r, he, -⟩ | ⟨v, -, hv⟩
      · exact ih he hdepth
      · cases v <;> cases hv
  | typed inner isWord isType ih =>
      rcases isType.word_places isWord hb hd hword (inner.ne_word_end hcore hb hword u) ht with
        rfl | ⟨r, he⟩
      · exact inner
      · exact ih he hdepth
  | @angled e type isType inner ih =>
      cases u with
      | nil => exact absurd (List.cons.inj ht).1.symm (ne_of_check hb (by decide))
      | cons c u =>
          obtain ⟨rfl, hrest⟩ := List.cons.inj ht
          rcases block_in_append_cons hne (hnotMem '>' (by decide) (by decide)) hrest with
            ⟨r, htype, -⟩ | ⟨v, rfl, he⟩
          · exact absurd htype (isType.ne_word_between hb hd hword u r)
          · rw [depth_cons, depth_append, depth_cons, isType.text.level.whole,
              show depthChange '<' = 0 from rfl, show depthChange '>' = 0 from rfl] at hdepth
            exact .angled isType (ih he (by simpa using hdepth))

end Asserts

end Marks

end PluginContract.Script
