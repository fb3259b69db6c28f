import PluginContract.Proofs.Script.WrittenTexts
import PluginContract.Proofs.Source.WrittenSpecifiers

/-!
# Written type aliases

A type alias is written with the words `export` and `declare` or without, with type
parameters or without, and with a union of quoted texts whose bars stand on the same line
or on lines of their own. A semicolon ends it, or nothing but the line. A search finds
each alias at its word `type` and nowhere else, since no name in it is that word.
-/

namespace PluginContract.Source

open Text Script

/-- An identifier other than the word `type`. -/
structure ParameterName where
  chars : List Char
  isName : Text.isName chars = true
  notType : chars ≠ "type".toList

/-- A type parameter, perhaps with a bound and with a default. -/
structure TypeParameter where
  name : ParameterName
  bound : Option ParameterName
  default : Option ParameterName

namespace TypeParameter

/-- A name after a word or a sign, if there is one. -/
def clause (word : List Char) (name : Option ParameterName) : List Char :=
  name.elim [] fun name => ' ' :: (word ++ ' ' :: name.chars)

/-- The text of a type parameter. -/
def text (p : TypeParameter) : List Char :=
  p.name.chars ++ (clause "extends".toList p.bound ++ clause ['='] p.default)

/-- What stands between the angle brackets of a list. -/
def inside (parameters : List TypeParameter) : List Char :=
  [',', ' '].intercalate (parameters.map text)

/-- A list of type parameters, or nothing if there are none. -/
def list (parameters : List TypeParameter) : List Char :=
  if parameters.isEmpty then [] else '<' :: (inside parameters ++ ['>'])

end TypeParameter

/-- A member of a union after the first, with the blanks around its bar. -/
structure Alternative where
  before : Blanks
  after : Blanks
  literal : WrittenText

/-- A union of quoted texts, perhaps with a bar before the first, on one line or on several. -/
structure AliasUnion where
  lead : Blanks
  bar : Option Blanks
  first : WrittenText
  others : List Alternative

/-- A type alias as it is written, with the blanks before it. -/
structure WrittenAlias where
  before : Blanks
  exported : Bool
  declared : Bool
  chars : List Char
  isName : Text.isName chars = true
  parameters : List TypeParameter
  union : AliasUnion
  semicolon : Bool

/-- A later member with the inside of its literal filled in. -/
def Alternative.write (fill : List Char → List Char) (a : Alternative) : List Char :=
  a.before.chars ++ '|' :: (a.after.chars ++ a.literal.write fill)

namespace AliasUnion

/-- A union without the blanks before it. -/
def core (fill : List Char → List Char) (u : AliasUnion) : List Char :=
  (u.bar.elim [] fun after => '|' :: after.chars) ++
    (u.first.write fill ++ u.others.flatMap (Alternative.write fill))

/-- A union with the insides of its literals filled in. -/
def write (fill : List Char → List Char) (u : AliasUnion) : List Char :=
  u.lead.chars ++ u.core fill

/-- The text of a union. -/
def text (u : AliasUnion) : List Char := u.write id

end AliasUnion

namespace WrittenAlias

/-- The name of an alias. -/
def name (d : WrittenAlias) : String := String.ofList d.chars

/-- The words before the word `type`. -/
def marks (d : WrittenAlias) : List Char :=
  (if d.exported then "export ".toList else []) ++ if d.declared then "declare ".toList else []

/-- What stands before the word `type`. -/
def front (d : WrittenAlias) : List Char := d.before.chars ++ d.marks

/-- The word `type` with the name. -/
def head (d : WrittenAlias) : List Char := "type".toList ++ ' ' :: d.chars

/-- What stands between the name and the union. -/
def middle (d : WrittenAlias) : List Char := TypeParameter.list d.parameters ++ [' ', '=']

/-- The semicolon at the end, if there is one. -/
def ending (d : WrittenAlias) : List Char := if d.semicolon then [';'] else []

/-- What stands after the name, with the insides of the literals filled in. -/
def back (fill : List Char → List Char) (d : WrittenAlias) : List Char :=
  d.middle ++ (d.union.write fill ++ d.ending)

/-- An alias with the insides of its literals filled in. -/
def write (fill : List Char → List Char) (d : WrittenAlias) : List Char :=
  d.front ++ (d.head ++ d.back fill)

/-- The text of an alias. -/
def text (d : WrittenAlias) : List Char := d.write id

/-- The text of an alias with the insides of its literals blanked out. -/
def masked (d : WrittenAlias) : List Char := d.write (List.map blanked)

/-- The text of a list of aliases. -/
def print (ds : List WrittenAlias) : List Char := ds.flatMap text

end WrittenAlias

section Masking

theorem maskedAs_literal (w : WrittenText) : MaskedAs w.text (w.write (List.map blanked)) :=
  maskedAs_quoted w.isText w.quoted_inside

theorem AliasUnion.maskedAs (u : AliasUnion) : MaskedAs u.text (u.write (List.map blanked)) := by
  have hbar : MaskedAs (u.bar.elim [] fun after => '|' :: after.chars)
      (u.bar.elim [] fun after => '|' :: after.chars) := by
    cases u.bar with
    | none => exact maskedAs_nil
    | some after => exact (maskedAs_plain (u := ['|']) rfl).append after.maskedAs
  have hothers : MaskedAs (u.others.flatMap (Alternative.write id))
      (u.others.flatMap (Alternative.write (List.map blanked))) := by
    induction u.others with
    | nil => exact maskedAs_nil
    | cons a others ih =>
        have hsign : MaskedAs ['|'] ['|'] := maskedAs_plain rfl
        have ha : MaskedAs (a.write id) (a.write (List.map blanked)) :=
          a.before.maskedAs.append (hsign.append (a.after.maskedAs.append
            (maskedAs_literal a.literal)))
        exact ha.append ih
  exact u.lead.maskedAs.append (hbar.append ((maskedAs_literal u.first).append hothers))

namespace TypeParameter

theorem spelled_clause {word : List Char} (hword : Spelled [' ', '='] word)
    (name : Option ParameterName) : Spelled [' ', '='] (clause word name) := by
  cases name with
  | none => exact .nil
  | some name =>
      exact .cons (by simp) (hword.append (.cons (by simp) (.of_isName name.isName)))

theorem spelled_text (p : TypeParameter) : Spelled [' ', '='] p.text :=
  (Spelled.of_isName p.name.isName).append
    ((spelled_clause (.of_isName (by decide)) p.bound).append
      (spelled_clause (.cons (by simp) .nil) p.default))

theorem spelled_inside (parameters : List TypeParameter) :
    Spelled [',', ' ', '='] (inside parameters) := by
  refine Binding.spelled_intercalate (by simp) (by simp) fun t ht => ?_
  obtain ⟨p, -, rfl⟩ := List.mem_map.mp ht
  exact p.spelled_text.mono (by simp)

theorem spelled_list (parameters : List TypeParameter) :
    Spelled [',', ' ', '=', '<', '>'] (list parameters) := by
  rw [list]
  split
  · exact .nil
  · exact .cons (by simp) (((spelled_inside parameters).mono (by simp)).append
      (.cons (by simp) .nil))

end TypeParameter

namespace WrittenAlias

theorem plain_front (d : WrittenAlias) : Plain d.front := by
  refine (plain_of_blanks d.before.isBlank).append (.append ?_ ?_)
  · cases d.exported <;> rfl
  · cases d.declared <;> rfl

theorem plain_head (d : WrittenAlias) : Plain d.head := by
  have hname : Spelled [' '] d.head :=
    (Spelled.of_isName (by decide)).append (.cons (by simp) (.of_isName d.isName))
  exact hname.plain (by decide)

theorem plain_middle (d : WrittenAlias) : Plain d.middle :=
  ((TypeParameter.spelled_list d.parameters).plain (by decide)).append rfl

theorem plain_ending (d : WrittenAlias) : Plain d.ending := by
  rw [ending]
  split <;> rfl

/-- Masking leaves all of an alias but the insides of its literals. -/
theorem maskedAs (d : WrittenAlias) : MaskedAs d.text d.masked :=
  (maskedAs_plain d.plain_front).append ((maskedAs_plain d.plain_head).append
    ((maskedAs_plain d.plain_middle).append
      (d.union.maskedAs.append (maskedAs_plain d.plain_ending))))

theorem mask_print (ds : List WrittenAlias) (tail : Blanks) :
    mask (print ds ++ tail.chars) = ds.flatMap masked ++ tail.chars := by
  have hprint : MaskedAs (print ds) (ds.flatMap masked) := by
    induction ds with
    | nil => exact maskedAs_nil
    | cons d ds ih => exact d.maskedAs.append ih
  have hmask := (hprint.append tail.maskedAs) [] []
  rwa [List.append_nil, maskFrom_nil, List.append_nil] at hmask

end WrittenAlias

end Masking

section Search

variable {rest : List Char} {before : Option Char}

theorem opens_alias : TypeAlias.pattern.Opens 't' :=
  @Pattern.opens_of_keyword? _ _ 't' "ype".toList fun before t h => by
    rw [TypeAlias.pattern, show keyword? "type".toList before t = none from h]
    rfl

/-- No alias starts at another name than the word `type`. -/
theorem aliasPattern_name {name : List Char} (hname : isName name = true)
    (hne : name ≠ "type".toList) (hrest : EndsName rest) (before : Option Char) :
    TypeAlias.pattern before (name ++ rest) = none := by
  rw [TypeAlias.pattern]
  cases hkeyword : keyword? "type".toList before (name ++ rest) with
  | none => rfl
  | some after =>
      rcases after?_append_of_isName hname hrest (by decide) (keyword?_eq_some hkeyword) with
        ⟨heq, -⟩ | ⟨c, hc, hnameChar⟩
      · exact absurd heq hne
      · rw [Option.bind_some, blanks?_of_head? ⟨c, hc, not_isBlank_of_isNameChar hnameChar⟩]
        rfl

/-- Whether nothing or a blank comes before a place. -/
def AfterBlank (before : Option Char) : Prop := ∀ c ∈ before, isBlank c = true

theorem AfterBlank.keyword? (h : AfterBlank before) (word t : List Char) :
    keyword? word before t = after? word t := by
  rw [Text.keyword?, if_neg]
  cases before with
  | none => simp
  | some c =>
      have hblank := h c rfl
      have hname := not_isNameChar_of_isBlank hblank
      have hdot : c ≠ '.' := by
        rintro rfl
        exact absurd hblank (by decide)
      simp [hname, hdot]

/-- An alias is found at its word `type`. -/
theorem aliasPattern_head (d : WrittenAlias) (hbefore : AfterBlank before) (hrest : EndsName rest) :
    TypeAlias.pattern before (d.head ++ rest) = some (d.chars, d.head.length) := by
  have hafter : after? "type".toList (d.head ++ rest) = some (' ' :: (d.chars ++ rest)) := by
    rw [after?_eq_some_iff, WrittenAlias.head, List.append_assoc, List.cons_append]
  have htrim : trimStart (d.chars ++ rest) = d.chars ++ rest := by
    obtain ⟨⟨c, hc, hblank⟩, -⟩ := solid_of_isName d.isName
    refine trimStart_of_head? fun e he => ?_
    rw [List.head?_append, Option.mem_def.mp hc] at he
    exact Option.some.inj he ▸ hblank
  have hblanks : blanks? (' ' :: (d.chars ++ rest)) = some (d.chars ++ rest) := by
    rw [blanks?, if_pos (by decide), htrim]
  rw [TypeAlias.pattern, hbefore.keyword?, hafter, Option.bind_some, hblanks, Option.bind_some,
    name?_append_of_isName d.isName hrest]
  simp

end Search

end PluginContract.Source
