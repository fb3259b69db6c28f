import PluginContract.Proofs.Script.LiteralLoop

/-!
# Template literals

A template holds text and interpolations, an interpolation holds code, and code holds literals
and brackets, templates among them, to any depth. Whatever stands in its interpolations, a template
is closed by its own backtick.
-/

namespace PluginContract.Script

open Text

/-- What a text is a piece of. -/
inductive Form
  /-- Code with the brackets of a pairing. Commas stand between brackets only, unless they are
  allowed everywhere. -/
  | code (pairing : Pairing) (commas : Bool)
  /-- The inside of a template literal. -/
  | template

/-- The texts of each form. Code has its brackets closed by their own closers, and no slash apart
from those in literals; an arrow closes no angle bracket. A backtick, a backslash and the start of
an interpolation stand in the text of a template only after a backslash. -/
inductive Formed : Form → List Char → Prop
  | nil {pairing : Pairing} {commas : Bool} : Formed (.code pairing commas) []
  | plain {pairing : Pairing} {commas : Bool} {c : Char} {rest : List Char}
      (plain : isPlain c = true) (other : pairing.NoBracket c) (comma : c = ',' → commas = true)
      (more : Formed (.code pairing commas) rest) : Formed (.code pairing commas) (c :: rest)
  | arrow {pairing : Pairing} {commas : Bool} {rest : List Char}
      (more : Formed (.code pairing commas) rest) :
      Formed (.code pairing commas) ('=' :: '>' :: rest)
  | string {pairing : Pairing} {commas : Bool} {quote : Char} {inside rest : List Char}
      (text : quote = '"' ∨ quote = '\'') (quoted : Quoted quote inside)
      (more : Formed (.code pairing commas) rest) :
      Formed (.code pairing commas) (quote :: (inside ++ quote :: rest))
  | template {pairing : Pairing} {commas : Bool} {inside rest : List Char}
      (inner : Formed .template inside) (more : Formed (.code pairing commas) rest) :
      Formed (.code pairing commas) (backtick :: (inside ++ backtick :: rest))
  | bracket {pairing : Pairing} {commas : Bool} {opens closes : Char} {inside rest : List Char}
      (pair : pairing opens = some closes) (inner : Formed (.code pairing true) inside)
      (arrow : closes = '>' → inside.getLast? ≠ some '=')
      (more : Formed (.code pairing commas) rest) :
      Formed (.code pairing commas) (opens :: (inside ++ closes :: rest))
  | empty : Formed .template []
  | text {c : Char} {rest : List Char} (other : c ≠ backtick ∧ c ≠ '\\')
      (brace : c = '$' → rest.head? ≠ some '\x7b') (more : Formed .template rest) :
      Formed .template (c :: rest)
  | escaped {c : Char} {rest : List Char} (more : Formed .template rest) :
      Formed .template ('\\' :: c :: rest)
  | interpolation {code rest : List Char} (inner : Formed (.code .brackets true) code)
      (more : Formed .template rest) :
      Formed .template ('$' :: '\x7b' :: (code ++ '\x7d' :: rest))

/-- Plain code without brackets may come first. -/
theorem Pairing.Among.formed_append {pairing : Pairing} {pairs : List (Char × Char)} {commas : Bool}
    {u rest : List Char} (h : pairing.Among pairs)
    (hu : u.all (fun c => isUnpaired pairs c && (commas || c != ',')) = true)
    (more : Formed (.code pairing commas) rest) : Formed (.code pairing commas) (u ++ rest) := by
  induction u with
  | nil => exact more
  | cons c u ih =>
      simp only [List.all_cons, isUnpaired, Bool.and_eq_true, Bool.or_eq_true, bne_iff_ne,
        List.all_eq_true] at hu
      obtain ⟨⟨⟨hplain, hpairs⟩, hcomma⟩, hu⟩ := hu
      refine .plain hplain (h.noBracket hpairs)
        (fun heq => hcomma.resolve_right fun hne => hne heq) (ih ?_)
      simpa only [isUnpaired, Bool.and_eq_true, Bool.or_eq_true, bne_iff_ne,
        List.all_eq_true] using hu

/-- Text of a template without what an escape or an interpolation starts with may come first. -/
theorem Formed.text_append {u rest : List Char}
    (hu : u.all (fun c => c != backtick && c != '\\' && c != '$') = true)
    (more : Formed .template rest) : Formed .template (u ++ rest) := by
  induction u with
  | nil => exact more
  | cons c u ih =>
      rw [List.all_cons, Bool.and_eq_true, Bool.and_eq_true, Bool.and_eq_true, bne_iff_ne,
        bne_iff_ne, bne_iff_ne] at hu
      obtain ⟨⟨⟨hquote, hescape⟩, hdollar⟩, hu⟩ := hu
      exact .text ⟨hquote, hescape⟩ (fun hc => absurd hc hdollar) (ih hu)

/-- Whether the inside of a template is read up to the backtick after it, wherever it stands. -/
def ReadsToBacktick (inside : List Char) : Prop :=
  ∀ before after, literalStop (before ++ (inside ++ backtick :: after)) backtick before.length =
    before.length + inside.length

namespace ReadsToBacktick

variable {rest : List Char}

theorem empty : ReadsToBacktick [] := by
  intro before after
  refine literalStop_quote ?_ (by decide)
  rw [List.nil_append, List.getElem?_append_right (Nat.le_refl _), Nat.sub_self]
  rfl

/-- What is read from further on is read to the same backtick. -/
theorem prepend (h : ReadsToBacktick rest) (front : List Char)
    (hfront : ∀ before after,
      literalStop (before ++ (front ++ (rest ++ backtick :: after))) backtick before.length =
        literalStop (before ++ (front ++ (rest ++ backtick :: after))) backtick
          (before.length + front.length)) : ReadsToBacktick (front ++ rest) := by
  intro before after
  have hrest := h (before ++ front) after
  rw [List.append_assoc, List.length_append] at hrest
  rw [List.append_assoc, hfront, hrest, List.length_append, Nat.add_assoc]

theorem text (h : ReadsToBacktick rest) {c : Char} (hother : c ≠ backtick ∧ c ≠ '\\')
    (hbrace : c = '$' → rest.head? ≠ some '\x7b') : ReadsToBacktick (c :: rest) := by
  refine h.prepend [c] fun before after => literalStop_succ (by simp) hother.2 hother.1 ?_
  rintro ⟨-, hdollar, hnext⟩
  rw [List.getElem?_append_right (Nat.le_succ _), Nat.succ_sub (Nat.le_refl _),
    Nat.sub_self] at hnext
  cases rest with
  | nil => cases hnext
  | cons d rest => exact hbrace hdollar hnext

theorem escaped (h : ReadsToBacktick rest) (c : Char) : ReadsToBacktick ('\\' :: c :: rest) :=
  h.prepend ['\\', c] fun _ _ => literalStop_escape (by simp)

theorem interpolation (h : ReadsToBacktick rest) {code : List Char}
    (hcode : Balanced .brackets true code) :
    ReadsToBacktick ('$' :: '\x7b' :: (code ++ '\x7d' :: rest)) := by
  have hproper : (Pairing.brackets.also '\x7b' '\x7d').Proper := by
    rw [Pairing.also_curly]
    exact Pairing.proper_brackets
  rw [← Pairing.also_curly] at hcode
  have hfront := h.prepend ('$' :: '\x7b' :: (code ++ ['\x7d'])) fun before after => by
    have hmatching := matching?_of_balanced hproper hcode nofun (before ++ ['$'])
      (rest ++ backtick :: after)
    have htext : before ++ (('$' :: '\x7b' :: (code ++ ['\x7d'])) ++ (rest ++ backtick :: after)) =
        (before ++ ['$']) ++ '\x7b' :: (code ++ '\x7d' :: (rest ++ backtick :: after)) := by simp
    rw [List.length_append, List.length_singleton, ← htext] at hmatching
    rw [literalStop_interpolation (by simp) (by simp), hmatching]
    dsimp only
    congr 1
    simp only [List.length_cons, List.length_append, List.length_nil]
    omega
  simpa using hfront

end ReadsToBacktick

theorem ReadsToBacktick.literalEnd?_eq {inside : List Char} (h : ReadsToBacktick inside)
    (before after : List Char) :
    literalEnd? (before ++ backtick :: (inside ++ backtick :: after)) before.length =
      some (before.length + 1 + inside.length) := by
  have hopening : (before ++ backtick :: (inside ++ backtick :: after))[before.length]? =
      some backtick := by simp
  have hstop := h (before ++ [backtick]) after
  rw [List.append_assoc, List.length_append, List.length_singleton, List.singleton_append] at hstop
  rw [literalEnd?_eq_literalStop hopening, hstop]

/-- A template that is read up to its own backtick is terminated. -/
theorem ReadsToBacktick.terminated {inside : List Char} (h : ReadsToBacktick inside) :
    Terminated (backtick :: (inside ++ [backtick])) where
  quote := ⟨backtick, rfl, rfl⟩
  ends before rest := by
    rw [List.cons_append, List.append_assoc, List.singleton_append, h.literalEnd?_eq]
    simp only [Option.map_some, List.length_cons, List.length_append, List.length_nil,
      Option.some.injEq]
    omega

/-- What a text of each form is to the scan. -/
def Form.Holds : Form → List Char → Prop
  | code pairing commas, u => Balanced pairing commas u
  | template, u => ReadsToBacktick u

theorem Formed.holds {form : Form} {u : List Char} (h : Formed form u) : form.Holds u := by
  induction h with
  | nil => exact Balanced.nil
  | plain plain other comma _ ih => exact Balanced.plain plain other comma ih
  | arrow _ ih => exact Balanced.arrow ih
  | string text quoted _ ih =>
      have hliteral := Balanced.literal (terminated_quoted text quoted) ih
      simpa [Form.Holds] using hliteral
  | template _ _ ihInner ih =>
      have hliteral := Balanced.literal ihInner.terminated ih
      simpa [Form.Holds] using hliteral
  | bracket pair _ arrow _ ihInner ih => exact Balanced.bracket pair ihInner arrow ih
  | empty => exact ReadsToBacktick.empty
  | text other brace _ ih => exact ReadsToBacktick.text ih other brace
  | escaped _ ih => exact ReadsToBacktick.escaped ih _
  | interpolation _ _ ihInner ih => exact ReadsToBacktick.interpolation ih ihInner

theorem Formed.balanced {pairing : Pairing} {commas : Bool} {u : List Char}
    (h : Formed (.code pairing commas) u) : Balanced pairing commas u := h.holds

/-- A template literal ends at its own backtick, whatever stands in it, before it and after it. -/
theorem literalEnd?_template {inside : List Char} (h : Formed .template inside)
    (before after : List Char) :
    literalEnd? (before ++ backtick :: (inside ++ backtick :: after)) before.length =
      some (before.length + 1 + inside.length) := by
  have hreads : ReadsToBacktick inside := h.holds
  exact hreads.literalEnd?_eq before after

/-- Braces, quotes and a backtick in literals, in brackets and in a template within a template. -/
theorem literalEnd?_template_nested :
    let inside := "x \\` $\x7bf(\x7bk: '\x7d`'\x7d, `y $\x7b\"`\"\x7d`)\x7d $".toList
    Formed .template inside ∧
      literalEnd? ("a / ".toList ++ backtick :: (inside ++ backtick :: " \x7d` /".toList)) 4 =
        some (4 + 1 + inside.length) := by
  have hpairs : Pairing.brackets.Among Pairing.bracketPairs := Pairing.among_brackets
  have hinner : Formed .template
      ("y ".toList ++ '$' :: '\x7b' :: (('"' :: ([backtick] ++ ['"'])) ++ ['\x7d'])) :=
    .text_append (by decide) (.interpolation
      (.string (.inl rfl) (.plain (by decide) (by decide) .nil) .nil) .empty)
  have hobject : Formed (.code .brackets true)
      ("k: ".toList ++ '\'' :: (['\x7d', backtick] ++ ['\''])) :=
    hpairs.formed_append (by decide) (.string (.inr rfl)
      (.plain (by decide) (by decide) (.plain (by decide) (by decide) .nil)) .nil)
  have hcall : Formed (.code .brackets true) ("f".toList ++ '(' ::
      (('\x7b' :: (("k: ".toList ++ '\'' :: (['\x7d', backtick] ++ ['\''])) ++
        '\x7d' :: (", ".toList ++ backtick :: (("y ".toList ++ '$' :: '\x7b' ::
          (('"' :: ([backtick] ++ ['"'])) ++ ['\x7d'])) ++ [backtick])))) ++ [')'])) :=
    hpairs.formed_append (by decide) (.bracket rfl
      (.bracket rfl hobject nofun (hpairs.formed_append (by decide) (.template hinner .nil)))
      nofun .nil)
  have hformed : Formed .template
      "x \\` $\x7bf(\x7bk: '\x7d`'\x7d, `y $\x7b\"`\"\x7d`)\x7d $".toList :=
    .text_append (u := "x ".toList) (by decide) (.escaped (.text (by decide) (by decide)
      (.interpolation hcall
        (.text (by decide) (by decide) (.text (by decide) (by decide) .empty)))))
  exact ⟨hformed, literalEnd?_template hformed "a / ".toList " \x7d` /".toList⟩

end PluginContract.Script
