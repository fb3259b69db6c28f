import PluginContract.Proofs.Script.Wrapping
import PluginContract.Proofs.Source.RoundTrip

/-!
# Written specifier lists

A specifier list is written with any blanks around its words, with a comma after its last
entry or without one, and with identifiers or quoted names on both sides of the word `as`.
It is read entry by entry. Masking leaves all of it but the insides of the quoted names.
-/

namespace PluginContract.Source

open Text Script

/-- Blanks, or nothing. -/
structure Blanks where
  chars : List Char
  isBlank : chars.all Text.isBlank = true

/-- Blanks between two words. -/
structure Gap extends Blanks where
  ne_nil : chars ≠ []

/-- A name of a specifier: an identifier, or a text that is closed by the quote before it and does
not hold that quote. -/
inductive SpecifierName
  | bare (chars : List Char) (isName : Text.isName chars = true)
  | quoted (quote : Char) (inside : List Char) (isText : IsTextQuote quote)
      (noQuote : quote ∉ inside) (closes : Quoted quote inside)

namespace SpecifierName

/-- A name with the inside of its quotes filled in. -/
def write (fill : List Char → List Char) : SpecifierName → List Char
  | bare chars _ => chars
  | quoted quote inside _ _ _ => quote :: (fill inside ++ [quote])

/-- The text of a name. -/
def text (n : SpecifierName) : List Char := n.write id

/-- A name with single blanks in it. -/
def spelling (n : SpecifierName) : List Char := respace n.text

/-- The name that is read, without the quotes around it. -/
def name (n : SpecifierName) : List Char := Specifier.unquoted n.spelling

/-- Whether a name is written in quotes. -/
def isQuoted : SpecifierName → Bool
  | bare .. => false
  | quoted .. => true

end SpecifierName

/-- The word `as` with a name after it. -/
structure Renaming where
  before : Gap
  after : Gap
  name : SpecifierName

/-- The text of the word `as` with a name. -/
def Renaming.write (fill : List Char → List Char) (r : Renaming) : List Char :=
  r.before.chars ++ ("as".toList ++ (r.after.chars ++ r.name.write fill))

/-- The word `type` with the blanks after it. -/
def markText (gap : Option Gap) : List Char :=
  gap.elim [] fun gap => "type".toList ++ gap.chars

/-- An entry of a specifier list, with the blanks around it, and perhaps with the word `type` and
blanks before its names. -/
structure WrittenSpecifier where
  lead : Blanks
  typeGap : Option Gap
  given : SpecifierName
  renamed : Option Renaming
  tail : Blanks

namespace WrittenSpecifier

/-- An entry without the blanks around it. -/
def core (fill : List Char → List Char) (s : WrittenSpecifier) : List Char :=
  markText s.typeGap ++ (s.given.write fill ++ s.renamed.elim [] (Renaming.write fill))

/-- An entry with the insides of its quotes filled in. -/
def write (fill : List Char → List Char) (s : WrittenSpecifier) : List Char :=
  s.lead.chars ++ (s.core fill ++ s.tail.chars)

/-- The names of an entry. -/
def names (s : WrittenSpecifier) : List SpecifierName :=
  s.given :: (s.renamed.map Renaming.name).toList

/-- The specifier that an entry stands for. -/
def specifier (s : WrittenSpecifier) : Specifier :=
  ⟨s.given.name, ((s.renamed.map Renaming.name).getD s.given).name⟩

end WrittenSpecifier

/-- What may stand between the braces of an import or an export: nothing but blanks, or entries with
commas between them and perhaps one more comma. -/
inductive SpecifierList
  | blank (blanks : Blanks)
  | entries (first : WrittenSpecifier) (others : List WrittenSpecifier) (trailing : Option Blanks)

namespace SpecifierList

/-- The entries of a list. -/
def written : SpecifierList → List WrittenSpecifier
  | blank _ => []
  | entries first others _ => first :: others

/-- A list with the insides of its quotes filled in. -/
def write (fill : List Char → List Char) : SpecifierList → List Char
  | blank blanks => blanks.chars
  | entries first others trailing =>
      [','].intercalate ((first :: others).map (WrittenSpecifier.write fill)) ++
        trailing.elim [] fun blanks => ',' :: blanks.chars

/-- The text of a list. -/
def text (l : SpecifierList) : List Char := l.write id

/-- A list with the insides of its quotes blanked out. -/
def masked (l : SpecifierList) : List Char := l.write (List.map blanked)

/-- The names of a list. -/
def names (l : SpecifierList) : List SpecifierName := l.written.flatMap WrittenSpecifier.names

/-- The specifiers that the entries of a list stand for. -/
def specifiers (l : SpecifierList) : List Specifier := l.written.map WrittenSpecifier.specifier

end SpecifierList

section Reading

theorem isBlank_of_isTextQuote {quote : Char} (h : IsTextQuote quote) : isBlank quote = false := by
  rcases h with rfl | rfl <;> decide

theorem WrittenName.ne_nil {t : List Char} (h : WrittenName t) : t ≠ [] := by
  cases h with
  | bare isName => exact ne_nil_of_isName isName
  | quoted => exact List.cons_ne_nil _ _

namespace SpecifierName

theorem writtenName_spelling (n : SpecifierName) : WrittenName n.spelling := by
  cases n with
  | bare chars isName =>
      have hword : ∀ u ∈ [chars], u ≠ [] ∧ ∀ c ∈ u, Text.isBlank c = false :=
        List.forall_mem_singleton.mpr ⟨ne_nil_of_isName isName, fun c hc =>
          not_isBlank_of_isNameChar (isNameChar_of_isName isName c hc)⟩
      have hrespace := respace_intercalate hword
      rw [List.intercalate_singleton] at hrespace
      have hspelling : (bare chars isName).spelling = chars := hrespace
      rw [hspelling]
      exact .bare isName
  | quoted quote inside isText noQuote closes =>
      obtain ⟨mid, hmid, heq⟩ := exists_respace_quoted (isBlank_of_isTextQuote isText) noQuote
      have hspelling : (quoted quote inside isText noQuote closes).spelling =
          quote :: (mid ++ [quote]) := heq
      rw [hspelling]
      exact .quoted isText hmid

theorem spelling_ne_nil (n : SpecifierName) : n.spelling ≠ [] := n.writtenName_spelling.ne_nil

theorem solid_text (n : SpecifierName) : Solid n.text := by
  cases n with
  | bare chars isName => exact solid_of_isName isName
  | quoted quote inside isText =>
      have hblank := isBlank_of_isTextQuote isText
      exact solid_between hblank hblank inside

end SpecifierName

namespace WrittenSpecifier

variable (s : WrittenSpecifier)

theorem respace_core :
    respace (s.core id) = mark s.typeGap.isSome ++
      entryText s.given.spelling ((s.renamed.map Renaming.name).map SpecifierName.spelling) := by
  have hbody : respace (s.given.text ++ s.renamed.elim [] (Renaming.write id)) =
      entryText s.given.spelling
        ((s.renamed.map Renaming.name).map SpecifierName.spelling) := by
    cases s.renamed with
    | none => exact (congrArg respace (List.append_nil _)).trans (List.append_nil _).symm
    | some r =>
        have has : respace ("as".toList ++ (r.after.chars ++ r.name.text)) =
            "as".toList ++ ' ' :: r.name.spelling :=
          respace_append r.after.isBlank r.after.ne_nil (by decide) r.name.spelling_ne_nil
        have hall := respace_append (u := s.given.text) r.before.isBlank r.before.ne_nil
          s.given.spelling_ne_nil (by rw [has]; exact List.cons_ne_nil _ _)
        rw [has] at hall
        exact hall
  rw [core]
  cases s.typeGap with
  | none => exact hbody
  | some gap =>
      have hne : entryText s.given.spelling
          ((s.renamed.map Renaming.name).map SpecifierName.spelling) ≠ [] := by
        simp [entryText, s.given.spelling_ne_nil]
      have htype := respace_append (u := "type".toList) gap.isBlank gap.ne_nil (by decide)
        (by rw [hbody]; exact hne)
      rw [hbody] at htype
      exact (congrArg respace (List.append_assoc _ _ _)).trans htype

/-- An entry is read as the specifier that it stands for. -/
theorem read?_core : Specifier.read? (s.core id) = some s.specifier := by
  have hrenamed : ∀ u ∈ (s.renamed.map Renaming.name).map SpecifierName.spelling,
      WrittenName u := by
    intro u hu
    obtain ⟨name, -, rfl⟩ := Option.map_eq_some_iff.mp hu
    exact name.writtenName_spelling
  rw [read?_of_respace s.respace_core s.given.writtenName_spelling hrenamed, specifier]
  cases s.renamed <;> rfl

theorem solid_core : Solid (s.core id) := by
  have hbody : Solid (s.given.text ++ s.renamed.elim [] (Renaming.write id)) := by
    cases s.renamed with
    | none =>
        have hgiven := s.given.solid_text
        rwa [← List.append_nil s.given.text] at hgiven
    | some r =>
        have h := s.given.solid_text.append r.name.solid_text
          (r.before.chars ++ ("as".toList ++ r.after.chars))
        rwa [List.append_assoc, List.append_assoc] at h
  rw [core]
  cases s.typeGap with
  | none => exact hbody
  | some gap =>
      have htype : Solid "type".toList := solid_of_isName (by decide)
      have h := htype.append hbody gap.chars
      rwa [← List.append_assoc] at h

end WrittenSpecifier

theorem Blanks.balanced (b : Blanks) : Balanced .brackets false b.chars :=
  balanced_words fun c hc => Or.inr (List.all_eq_true.mp b.isBlank c hc)

theorem balanced_of_isName {name : List Char} (h : isName name = true) :
    Balanced .brackets false name :=
  balanced_words fun c hc => Or.inl (isNameChar_of_isName h c hc)

theorem SpecifierName.balanced_text (n : SpecifierName) : Balanced .brackets false n.text := by
  cases n with
  | bare chars isName => exact balanced_of_isName isName
  | quoted quote inside isText noQuote closes =>
      have hliteral : Balanced .brackets false (quote :: (inside ++ [quote]) ++ []) :=
        .literal (terminated_quoted isText closes) .nil
      rwa [List.append_nil] at hliteral

namespace WrittenSpecifier

theorem balanced_core (s : WrittenSpecifier) : Balanced .brackets false (s.core id) := by
  have hmark : Balanced .brackets false (markText s.typeGap) := by
    cases s.typeGap with
    | none => exact .nil
    | some gap => exact (balanced_of_isName (by decide)).append gap.balanced
  refine hmark.append (s.given.balanced_text.append ?_)
  cases s.renamed with
  | none => exact .nil
  | some r =>
      exact r.before.balanced.append ((balanced_of_isName (by decide)).append
        (r.after.balanced.append r.name.balanced_text))

theorem balanced_write (s : WrittenSpecifier) : Balanced .brackets false (s.write id) :=
  s.lead.balanced.append (s.balanced_core.append s.tail.balanced)

theorem trim_write (s : WrittenSpecifier) : trim (s.write id) = s.core id :=
  trim_append s.lead.isBlank s.tail.isBlank s.solid_core

end WrittenSpecifier

namespace SpecifierList

variable (l : SpecifierList)

theorem balanced_pieces (written : List WrittenSpecifier) :
    ∀ piece ∈ written.map (WrittenSpecifier.write id), Balanced .brackets false piece := by
  intro piece hpiece
  obtain ⟨s, -, rfl⟩ := List.mem_map.mp hpiece
  exact s.balanced_write

theorem balanced_text : Balanced .brackets true l.text := by
  cases l with
  | blank blanks => exact blanks.balanced.allow
  | entries first others trailing =>
      have hcomma := balanced_comma Pairing.proper_brackets
      refine (hcomma.intercalate (balanced_pieces (first :: others))).append ?_
      cases trailing with
      | none => exact .nil
      | some blanks => exact hcomma.append blanks.balanced.allow

theorem splitCommas_text : splitCommas l.text = l.written.map (WrittenSpecifier.core id) := by
  cases l with
  | blank blanks =>
      have hnone : ∀ part ∈ ([] : List (List Char)), Balanced .brackets false part := nofun
      have hsplit := splitFrom_commas Pairing.proper_brackets hnone blanks.balanced none
      rw [List.nil_append, List.intercalate_singleton, trim_of_blanks blanks.isBlank] at hsplit
      exact hsplit
  | entries first others trailing =>
      have htrim : ((first :: others).map (WrittenSpecifier.write id)).map trim =
          (first :: others).map (WrittenSpecifier.core id) := by
        rw [List.map_map]
        exact List.map_congr_left fun s _ => s.trim_write
      have hbalanced := balanced_pieces (first :: others)
      refine Eq.trans ?_ htrim
      cases trailing with
      | none =>
          refine (congrArg splitCommas (List.append_nil _)).trans ?_
          refine split_commas Pairing.proper_brackets fun piece hpiece =>
            ⟨hbalanced piece hpiece, ?_⟩
          obtain ⟨s, -, rfl⟩ := List.mem_map.mp hpiece
          rw [s.trim_write]
          exact s.solid_core.ne_nil
      | some blanks =>
          exact split_commas_trailing Pairing.proper_brackets (List.cons_ne_nil _ _) hbalanced
            blanks.isBlank blanks.balanced

/-- A list is read as the specifiers that its entries stand for. -/
theorem readList_text : Specifier.readList l.text = l.specifiers := by
  have hread : Specifier.read? ∘ WrittenSpecifier.core id = some ∘ WrittenSpecifier.specifier :=
    funext WrittenSpecifier.read?_core
  rw [Specifier.readList, l.balanced_text.stripComments_eq Pairing.proper_brackets,
    splitCommas_text, List.filterMap_map, hread, List.filterMap_eq_map]
  rfl

end SpecifierList

end Reading

section Characters

variable {p : Char → Prop} {fill : List Char → List Char}

theorem Blanks.forall_chars (b : Blanks) (hblank : ∀ c, Text.isBlank c = true → p c) :
    ∀ c ∈ b.chars, p c := fun c hc => hblank c (List.all_eq_true.mp b.isBlank c hc)

theorem forall_of_isName {name : List Char} (h : isName name = true)
    (hname : ∀ c, isNameChar c = true → p c) : ∀ c ∈ name, p c :=
  fun c hc => hname c (isNameChar_of_isName h c hc)

variable (hname : ∀ c, isNameChar c = true → p c) (hblank : ∀ c, isBlank c = true → p c)
include hname hblank

/-- What holds of the characters of names, of blanks and of quoted names holds of an entry. -/
theorem WrittenSpecifier.forall_write {s : WrittenSpecifier}
    (hquoted : ∀ n ∈ s.names, n.isQuoted = true → ∀ c ∈ n.write fill, p c) :
    ∀ c ∈ s.write fill, p c := by
  have hwritten (n : SpecifierName) (hn : n ∈ s.names) : ∀ c ∈ n.write fill, p c := by
    cases n with
    | bare chars isName => exact forall_of_isName isName hname
    | quoted => exact hquoted _ hn rfl
  have hmark : ∀ c ∈ markText s.typeGap, p c := by
    cases s.typeGap with
    | none => exact nofun
    | some gap =>
        exact List.forall_mem_append.mpr
          ⟨forall_of_isName (by decide) hname, gap.forall_chars hblank⟩
  have hrenamed : ∀ c ∈ s.renamed.elim [] (Renaming.write fill), p c := by
    cases hr : s.renamed with
    | none => exact nofun
    | some r =>
        simp only [Option.elim_some, Renaming.write, List.forall_mem_append]
        exact ⟨r.before.forall_chars hblank, forall_of_isName (by decide) hname,
          r.after.forall_chars hblank, hwritten r.name (by simp [WrittenSpecifier.names, hr])⟩
  simp only [WrittenSpecifier.write, WrittenSpecifier.core, List.forall_mem_append]
  exact ⟨s.lead.forall_chars hblank, ⟨hmark, hwritten s.given List.mem_cons_self, hrenamed⟩,
    s.tail.forall_chars hblank⟩

/-- What holds of the characters of names, of blanks, of commas and of quoted names holds of a
list. -/
theorem SpecifierList.forall_write (hcomma : p ',') {l : SpecifierList}
    (hquoted : ∀ n ∈ l.names, n.isQuoted = true → ∀ c ∈ n.write fill, p c) :
    ∀ c ∈ l.write fill, p c := by
  cases l with
  | blank blanks => exact blanks.forall_chars hblank
  | entries first others trailing =>
      have hentry : ∀ s ∈ first :: others, ∀ c ∈ s.write fill, p c := fun s hs =>
        s.forall_write hname hblank fun n hn =>
          hquoted n (List.mem_flatMap.mpr ⟨s, hs, hn⟩)
      have hlist (written : List WrittenSpecifier) (h : ∀ s ∈ written, ∀ c ∈ s.write fill, p c) :
          ∀ c ∈ [','].intercalate (written.map (WrittenSpecifier.write fill)), p c := by
        induction written with
        | nil => exact nofun
        | cons s written ih =>
            obtain ⟨hs, hwritten⟩ := List.forall_mem_cons.mp h
            cases written with
            | nil =>
                rw [List.map_singleton, List.intercalate_singleton]
                exact hs
            | cons next written =>
                rw [List.map_cons, List.map_cons, List.intercalate_cons_cons]
                exact List.forall_mem_append.mpr ⟨List.forall_mem_append.mpr
                  ⟨hs, List.forall_mem_singleton.mpr hcomma⟩, ih hwritten⟩
      refine List.forall_mem_append.mpr ⟨hlist _ hentry, ?_⟩
      cases trailing with
      | none => exact nofun
      | some blanks => exact List.forall_mem_cons.mpr ⟨hcomma, blanks.forall_chars hblank⟩

end Characters

section Masking

theorem Blanks.maskedAs (b : Blanks) : MaskedAs b.chars b.chars :=
  maskedAs_plain (plain_of_blanks b.isBlank)

theorem maskedAs_of_isName {name : List Char} (h : isName name = true) : MaskedAs name name :=
  maskedAs_plain (List.all_eq_true.mpr (forall_of_isName h fun _ => isPlain_of_isNameChar))

theorem SpecifierName.maskedAs (n : SpecifierName) :
    MaskedAs n.text (n.write (List.map blanked)) := by
  cases n with
  | bare chars isName => exact maskedAs_of_isName isName
  | quoted quote inside isText noQuote closes => exact maskedAs_quoted isText closes

theorem WrittenSpecifier.maskedAs (s : WrittenSpecifier) :
    MaskedAs (s.write id) (s.write (List.map blanked)) := by
  have hmark : MaskedAs (markText s.typeGap) (markText s.typeGap) := by
    cases s.typeGap with
    | none => exact maskedAs_nil
    | some gap => exact (maskedAs_of_isName (by decide)).append gap.maskedAs
  have hrenamed : MaskedAs (s.renamed.elim [] (Renaming.write id))
      (s.renamed.elim [] (Renaming.write (List.map blanked))) := by
    cases s.renamed with
    | none => exact maskedAs_nil
    | some r =>
        exact r.before.maskedAs.append ((maskedAs_of_isName (by decide)).append
          (r.after.maskedAs.append r.name.maskedAs))
  exact s.lead.maskedAs.append ((hmark.append (s.given.maskedAs.append hrenamed)).append
    s.tail.maskedAs)

/-- Masking takes the insides of the quotes out of a list, and nothing else. -/
theorem SpecifierList.maskedAs (l : SpecifierList) : MaskedAs l.text l.masked := by
  have hcomma : MaskedAs [','] [','] := maskedAs_plain rfl
  have hlist (written : List WrittenSpecifier) :
      MaskedAs ([','].intercalate (written.map (WrittenSpecifier.write id)))
        ([','].intercalate (written.map (WrittenSpecifier.write (List.map blanked)))) := by
    induction written with
    | nil => exact maskedAs_nil
    | cons s written ih =>
        cases written with
        | nil =>
            rw [List.map_singleton, List.map_singleton, List.intercalate_singleton,
              List.intercalate_singleton]
            exact s.maskedAs
        | cons next written =>
            rw [List.map_cons, List.map_cons, List.map_cons, List.map_cons,
              List.intercalate_cons_cons, List.intercalate_cons_cons]
            exact (s.maskedAs.append hcomma).append ih
  cases l with
  | blank blanks => exact blanks.maskedAs
  | entries first others trailing =>
      refine (hlist (first :: others)).append ?_
      cases trailing with
      | none => exact maskedAs_nil
      | some blanks => exact hcomma.append blanks.maskedAs

end Masking

end PluginContract.Source
