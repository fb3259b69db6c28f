import PluginContract.Proofs.Script.Plain
import PluginContract.Proofs.Script.Balanced
import PluginContract.Proofs.Source.Declarations

/-!
# Printed brace lists

A brace list is read back entry by entry. The words `type` and `as` may stand for
themselves in an entry; its other words tell which of them do.
-/

namespace PluginContract.Source

open Text Script

/-- A text of name characters and some others. -/
def Spelled (others u : List Char) : Prop := ∀ c ∈ u, isNameChar c = true ∨ c ∈ others

namespace Spelled

variable {others more u v : List Char}

theorem nil : Spelled others [] := by
  intro c hc
  cases hc

theorem append (hu : Spelled others u) (hv : Spelled others v) : Spelled others (u ++ v) :=
  List.forall_mem_append.mpr ⟨hu, hv⟩

theorem cons {c : Char} (hc : c ∈ others) (hu : Spelled others u) : Spelled others (c :: u) :=
  List.forall_mem_cons.mpr ⟨Or.inr hc, hu⟩

theorem mono (h : Spelled others u) (hsub : others ⊆ more) : Spelled more u :=
  fun c hc => (h c hc).imp_right fun hmem => hsub hmem

theorem of_isName (h : isName u = true) : Spelled others u :=
  fun c hc => Or.inl (isNameChar_of_isName h c hc)

/-- What holds of name characters and of the others holds of all of the text. -/
theorem all {p : Char → Prop} (h : Spelled others u) (hname : ∀ c, isNameChar c = true → p c)
    (hothers : ∀ c ∈ others, p c) : ∀ c ∈ u, p c :=
  fun c hc => (h c hc).elim (hname c) (hothers c)

theorem plain (h : Spelled others u) (hothers : others.all isPlain = true) : Plain u :=
  List.all_eq_true.mpr (h.all (fun _ => isPlain_of_isNameChar) (List.all_eq_true.mp hothers))

theorem balanced_of_among {pairing : Pairing} {pairs : List (Char × Char)} {commas : Bool}
    (h : Spelled others u) (hamong : pairing.Among pairs)
    (hpairs : ∀ pair ∈ pairs, isNameChar pair.1 = false ∧ isNameChar pair.2 = false)
    (hothers : others.all (fun c => isUnpaired pairs c && (commas || c != ',')) = true) :
    Balanced pairing commas u := by
  refine hamong.balanced_of_all (List.all_eq_true.mpr
    (h.all (fun c hc => ?_) (List.all_eq_true.mp hothers)))
  rw [isUnpaired_of_isNameChar hc hpairs, bne_iff_ne.mpr (ne_of_isNameChar hc (by decide)),
    Bool.or_true, Bool.and_true]

theorem balanced {commas : Bool} (h : Spelled others u)
    (hothers : others.all (fun c => isUnpaired Pairing.bracketPairs c && (commas || c != ',')) =
      true) : Balanced .brackets commas u :=
  h.balanced_of_among Pairing.among_brackets (by decide) hothers

theorem notMem {d : Char} (h : Spelled others u) (hd : isNameChar d = false)
    (hothers : d ∉ others) : d ∉ u := by
  intro hmem
  rcases h d hmem with hname | hmem
  · rw [hd] at hname
    cases hname
  · exact hothers hmem

end Spelled

theorem spelled_mark (marked : Bool) : Spelled [' '] (mark marked) := by
  cases marked with
  | false => exact .nil
  | true =>
      have htype : Spelled [' '] "type".toList := .of_isName (by decide)
      have hmark : Spelled [' '] ("type".toList ++ [' ']) := htype.append (.cons (by simp) .nil)
      exact hmark

theorem spelled_asName (i : Identifier) : Spelled [' '] i.asName := by
  have has : Spelled [' '] "as".toList := .of_isName (by decide)
  exact .cons (by simp) (has.append (.cons (by simp) (.of_isName i.isName)))

theorem Identifier.solid (i : Identifier) : Solid i.chars := solid_of_isName i.isName

/-- A name as a specifier writes it: an identifier, or a text in quotes without the like inside. -/
inductive WrittenName : List Char → Prop
  | bare {t : List Char} (isName : Text.isName t = true) : WrittenName t
  | quoted {quote : Char} {inside : List Char} (isText : quote = '"' ∨ quote = '\'')
      (noQuote : quote ∉ inside) : WrittenName (quote :: (inside ++ [quote]))

section Entry

variable {t u rest : List Char}

/-- What a class strips is taken away on both sides of a text that holds none of it. -/
theorem trimOf_append {strips : Char → Bool} {v : List Char} (hu : ∀ c ∈ u, strips c = true)
    (hv : ∀ c ∈ v, strips c = true) (ht : ∀ c ∈ t, strips c = false) :
    trimOf strips (u ++ (t ++ v)) = t := by
  have hdrop {u t v : List Char} (hu : ∀ c ∈ u, strips c = true) (ht : ∀ c ∈ t, strips c = false)
      (hne : t ≠ []) : (u ++ (t ++ v)).dropWhile strips = t ++ v := by
    obtain ⟨c, t, rfl⟩ := List.exists_cons_of_ne_nil hne
    rw [List.dropWhile_append_of_pos hu, List.cons_append, List.dropWhile_cons,
      ht c List.mem_cons_self, if_neg Bool.false_ne_true]
  by_cases hne : t = []
  · have hall : ∀ c ∈ u ++ v, strips c = true := List.forall_mem_append.mpr ⟨hu, hv⟩
    rw [hne, List.nil_append, trimOf, ← List.append_nil (u ++ v), List.dropWhile_append_of_pos hall]
    rfl
  · have hreverse {u : List Char} {b : Bool} (h : ∀ c ∈ u, strips c = b) :
        ∀ c ∈ u.reverse, strips c = b := fun c hc => h c (List.mem_reverse.mp hc)
    have hend := hdrop (v := []) (hreverse hv) (hreverse ht) (List.reverse_ne_nil_iff.mpr hne)
    rw [List.append_nil] at hend
    rw [trimOf, hdrop hu ht hne, List.reverse_append, hend, List.reverse_reverse]

theorem unquoted_chars (h : isName rest = true) : Specifier.unquoted rest = rest := by
  suffices htrim : ∀ c ∈ rest, (c == '"' || c == '\'') = false by
    have hunquoted : trimOf (fun c => c == '"' || c == '\'') ([] ++ (rest ++ [])) = rest :=
      trimOf_append nofun nofun htrim
    rwa [List.nil_append, List.append_nil] at hunquoted
  intro c hc
  have hquote := isQuote_of_isNameChar (isNameChar_of_isName h c hc)
  simp only [isQuote, Bool.or_eq_false_iff] at hquote
  rw [Bool.or_eq_false_iff]
  exact hquote.1

/-- A written name is read whole, where no more of it follows. -/
theorem WrittenName.anyName?_append (h : WrittenName t) (hrest : EndsName rest) :
    Specifier.anyName? (t ++ rest) = some (t, rest) := by
  cases h with
  | bare hname =>
      have hread := name?_append_of_isName hname hrest
      have hchars := isNameChar_of_isName hname
      cases t with
      | nil => cases hname
      | cons c t =>
          have hc := hchars c List.mem_cons_self
          have hdouble : c ≠ '"' := ne_of_isNameChar hc (by decide)
          have hsingle : c ≠ '\'' := ne_of_isNameChar hc (by decide)
          rw [List.cons_append] at hread ⊢
          rw [Specifier.anyName?]
          simp [hdouble, hsingle, hread]
  | @quoted quote inside isText noQuote =>
      have hinside : ∀ c ∈ inside, (c != quote) = true := fun c hc =>
        bne_iff_ne.mpr fun heq => noQuote (heq ▸ hc)
      have hquote : ∀ c ∈ (quote :: rest).head?, (c != quote) = false := by simp
      have hshape : quote :: (inside ++ [quote]) ++ rest =
          quote :: (inside ++ quote :: rest) := by simp
      rw [hshape, Specifier.anyName?, if_pos (by simpa using isText),
        dropWhile_append_of_head? hinside hquote, takeWhile_append_of_head? hinside hquote]
      rfl

/-- A name, perhaps with another one after the word `as`. -/
def entryText (given : List Char) (renamed : Option (List Char)) : List Char :=
  given ++ renamed.elim [] fun name => ' ' :: 'a' :: 's' :: ' ' :: name

theorem endsName_renamed (renamed : Option (List Char)) :
    EndsName (renamed.elim [] fun name => ' ' :: 'a' :: 's' :: ' ' :: name) := by
  cases renamed with
  | none => exact endsName_nil
  | some name => exact endsName_cons (by decide) _

theorem renaming?_entryText {renamed : Option (List Char)} (ht : WrittenName t)
    (hrenamed : ∀ u ∈ renamed, WrittenName u) :
    Specifier.renaming? (entryText t renamed) =
      some ⟨Specifier.unquoted t, Specifier.unquoted (renamed.getD t)⟩ := by
  have hread := ht.anyName?_append (endsName_renamed renamed)
  cases renamed with
  | none =>
      rw [Specifier.renaming?, entryText, hread]
      rfl
  | some u =>
      have hafter : after? " as ".toList (' ' :: 'a' :: 's' :: ' ' :: u) = some u :=
        after?_eq_some_iff.mpr rfl
      have hname := (hrenamed u rfl).anyName?_append endsName_nil
      rw [List.append_nil] at hname
      rw [Specifier.renaming?, entryText, hread]
      dsimp only [Option.elim_some]
      rw [hafter]
      dsimp only
      rw [hname]
      rfl

/-- The word `as` and one more name are no specifier. -/
theorem renaming?_as_name (h : WrittenName t) :
    Specifier.renaming? ('a' :: 's' :: ' ' :: t) = none := by
  have hread : Specifier.anyName? ("as".toList ++ ' ' :: t) = some ("as".toList, ' ' :: t) :=
    (WrittenName.bare (by decide)).anyName?_append (endsName_cons (by decide) _)
  have hafter : after? " as ".toList (' ' :: t) = none := by
    rw [Option.eq_none_iff_forall_ne_some]
    intro renamed hrenamed
    have hchars : t = 'a' :: 's' :: ' ' :: renamed :=
      (List.cons.inj (after?_eq_some_iff.mp hrenamed)).2
    cases h with
    | bare hname =>
        have hspace := isNameChar_of_isName hname ' ' (by rw [hchars]; simp)
        exact absurd hspace (by decide)
    | quoted isText =>
        have hquote := (List.cons.inj hchars).1
        rcases isText with rfl | rfl <;> exact absurd hquote (by decide)
  change Specifier.renaming? ("as".toList ++ ' ' :: t) = none
  rw [Specifier.renaming?, hread]
  dsimp only
  rw [hafter]

/-- Where a specifier starts with the word `type` as a name, what comes after it is no specifier. -/
theorem renaming?_of_after?_type {renamed : Option (List Char)} (ht : WrittenName t)
    (hrenamed : ∀ u ∈ renamed, WrittenName u)
    (h : after? "type ".toList (entryText t renamed) = some rest) :
    Specifier.renaming? rest = none := by
  have hword : after? "type".toList (entryText t renamed) = some (' ' :: rest) :=
    after?_eq_some_iff.mpr ((after?_eq_some_iff.mp h).trans rfl)
  cases ht with
  | bare hname =>
      rcases after?_append_of_isName hname (endsName_renamed renamed) (by decide) hword with
        ⟨-, heq⟩ | ⟨c, hc, hnameChar⟩
      · cases renamed with
        | none => cases heq
        | some u =>
            obtain rfl := (List.cons.inj heq).2
            exact renaming?_as_name (hrenamed u rfl)
      · obtain rfl := Option.some.inj hc
        exact absurd hnameChar (by decide)
  | quoted isText =>
      have hquote := (List.cons.inj (after?_eq_some_iff.mp hword)).1
      rcases isText with rfl | rfl <;> exact absurd hquote (by decide)

/-- An entry with single blanks between its words is read as the specifier that it spells. -/
theorem read?_of_respace {part : List Char} {marked : Bool} {renamed : Option (List Char)}
    (hpart : respace part = mark marked ++ entryText t renamed) (ht : WrittenName t)
    (hrenamed : ∀ u ∈ renamed, WrittenName u) :
    Specifier.read? part =
      some ⟨Specifier.unquoted t, Specifier.unquoted (renamed.getD t)⟩ := by
  have hbody := renaming?_entryText ht hrenamed
  rw [Specifier.read?, hpart]
  cases marked with
  | true =>
      have hafter : after? "type ".toList (mark true ++ entryText t renamed) =
          some (entryText t renamed) := after?_eq_some_iff.mpr rfl
      rw [hafter]
      dsimp only
      rw [hbody, Option.orElse_some]
  | false =>
      have hmark : mark false ++ entryText t renamed = entryText t renamed := rfl
      rw [hmark]
      cases hafter : after? "type ".toList (entryText t renamed) with
      | none => exact hbody
      | some rest =>
          dsimp only
          rw [renaming?_of_after?_type ht hrenamed hafter, hbody, Option.orElse_none]

end Entry

namespace Binding

/-- The words of an entry. -/
def words (b : Binding) : List (List Char) :=
  (if b.marked then ["type".toList] else []) ++ b.given.chars ::
    match b.renamed with
    | none => []
    | some name => ["as".toList, name.chars]

theorem text_eq (b : Binding) : b.text = [' '].intercalate b.words := by
  obtain ⟨marked, given, renamed⟩ := b
  cases marked <;> cases renamed <;>
    simp [text, words, mark, Identifier.asName, List.intercalate_cons_cons]

theorem isName_of_mem_words {b : Binding} {u : List Char} (h : u ∈ b.words) :
    isName u = true := by
  obtain ⟨marked, given, renamed⟩ := b
  rcases List.mem_append.mp h with htype | hnames
  · cases marked with
    | false => cases htype
    | true =>
        obtain rfl := List.mem_singleton.mp htype
        decide
  · rcases List.mem_cons.mp hnames with rfl | hrenamed
    · exact given.isName
    · cases renamed with
      | none => cases hrenamed
      | some name =>
          rcases List.mem_cons.mp hrenamed with rfl | hname
          · decide
          · obtain rfl := List.mem_singleton.mp hname
            exact name.isName

theorem respace_text (b : Binding) : respace b.text = b.text := by
  rw [text_eq]
  refine respace_intercalate fun u hu => ?_
  have hname := isName_of_mem_words hu
  exact ⟨ne_nil_of_isName hname, fun c hc =>
    not_isBlank_of_isNameChar (isNameChar_of_isName hname c hc)⟩

/-- An entry without the word `type` before it. -/
def body (b : Binding) : List Char :=
  match b.renamed with
  | none => b.given.chars
  | some name => b.given.chars ++ name.asName

theorem text_eq_body (b : Binding) : b.text = mark b.marked ++ b.body := by
  obtain ⟨marked, given, renamed⟩ := b
  cases renamed with
  | none => exact congrArg _ (List.append_nil _)
  | some name => rfl

theorem body_eq (b : Binding) :
    b.body = entryText b.given.chars (b.renamed.map Identifier.chars) := by
  obtain ⟨marked, given, renamed⟩ := b
  cases renamed with
  | none => exact (List.append_nil _).symm
  | some name => rfl

/-- An entry is read as the specifier that it stands for. -/
theorem read?_text (b : Binding) : Specifier.read? b.text = some b.specifier := by
  have hwritten : ∀ u ∈ b.renamed.map Identifier.chars, WrittenName u := by
    intro u hu
    obtain ⟨name, -, rfl⟩ := Option.map_eq_some_iff.mp hu
    exact .bare name.isName
  have hbound : (b.renamed.map Identifier.chars).getD b.given.chars = b.bound.chars := by
    rw [bound]
    cases b.renamed <;> rfl
  have hrespace := b.respace_text.trans (b.text_eq_body.trans (congrArg _ b.body_eq))
  rw [read?_of_respace hrespace (.bare b.given.isName) hwritten, hbound,
    unquoted_chars b.given.isName, unquoted_chars b.bound.isName]
  rfl

theorem spelled_text (b : Binding) : Spelled [' '] b.text := by
  obtain ⟨marked, given, renamed⟩ := b
  refine (spelled_mark marked).append (.append (.of_isName given.isName) ?_)
  cases renamed with
  | none => exact .nil
  | some name =>
      exact spelled_asName name

theorem solid_text (b : Binding) : Solid b.text := by
  have hbody : Solid b.body := by
    obtain ⟨marked, given, renamed⟩ := b
    cases renamed with
    | none => exact given.solid
    | some name => exact given.solid.append name.solid [' ', 'a', 's', ' ']
  rw [text_eq_body]
  cases b.marked with
  | false => exact hbody
  | true =>
      have htype : Solid "type".toList := solid_of_isName (by decide)
      exact htype.append hbody [' ']

theorem spelled_intercalate {texts : List (List Char)} {others : List Char}
    (hcomma : ',' ∈ others) (hspace : ' ' ∈ others) (h : ∀ t ∈ texts, Spelled others t) :
    Spelled others ([',', ' '].intercalate texts) := by
  induction texts with
  | nil => exact .nil
  | cons t texts ih =>
      obtain ⟨ht, htexts⟩ := List.forall_mem_cons.mp h
      cases texts with
      | nil =>
          rw [List.intercalate_singleton]
          exact ht
      | cons next texts =>
          rw [List.intercalate_cons_cons]
          exact (ht.append (.cons hcomma (.cons hspace .nil))).append (ih htexts)

theorem spelled_inside (bindings : List Binding) : Spelled [',', ' '] (inside bindings) := by
  rw [inside]
  split
  · exact .nil
  · refine .cons (by simp) (.append (spelled_intercalate (by simp) (by simp) ?_) ?_)
    · intro t ht
      obtain ⟨b, -, rfl⟩ := List.mem_map.mp ht
      exact b.spelled_text.mono (by simp)
    · exact .cons (by simp) .nil

theorem splitCommas_inside (bindings : List Binding) :
    splitCommas (inside bindings) = bindings.map text := by
  rw [splitCommas, inside]
  split
  · rename_i hnil
    rw [List.isEmpty_iff.mp hnil]
    rfl
  · have hspace := blank_space Pairing.proper_brackets
    refine split_balanced Pairing.proper_brackets ?_ hspace hspace
    intro t ht
    obtain ⟨b, -, rfl⟩ := List.mem_map.mp ht
    exact ⟨b.spelled_text.balanced (by decide), b.solid_text⟩

/-- A brace list is read as the specifiers that its entries stand for. -/
theorem readList_inside (bindings : List Binding) :
    Specifier.readList (inside bindings) = bindings.map specifier := by
  have hplain : Plain (inside bindings) := (spelled_inside bindings).plain (by decide)
  rw [Specifier.readList, stripComments_plain hplain, splitCommas_inside, List.filterMap_map]
  have hread : Specifier.read? ∘ text = some ∘ specifier := funext read?_text
  rw [hread, List.filterMap_eq_map]

end Binding

end PluginContract.Source
