import PluginContract.Proofs.Json.RoundTrip
import PluginContract.Text.Character

/-!
# Line ends in printed text

The printer escapes the control characters, so the only line ends in compact text are the
three beyond ASCII, and those stand in it wherever a key or a string has them. Text on
indented lines has line feeds besides, but never a carriage return.
-/

namespace PluginContract.Json

open Text

/-- The line ends that the printer leaves as they are. -/
def isRawLineEnd (c : Char) : Bool := c == '\u0085' || c == '\u2028' || c == '\u2029'

mutual

/-- The keys and strings of a value, in order. -/
def strings : Json → List String
  | arr items => stringsOfItems items
  | obj fields => stringsOfFields fields
  | str value => [value]
  | _ => []

/-- The keys and strings of items. -/
def stringsOfItems : List Json → List String
  | [] => []
  | item :: rest => strings item ++ stringsOfItems rest

/-- The keys and strings of fields. -/
def stringsOfFields : List (String × Json) → List String
  | [] => []
  | (key, item) :: rest => key :: (strings item ++ stringsOfFields rest)

end

theorem isRawLineEnd_iff {c : Char} :
    isRawLineEnd c = true ↔ c.toNat = 0x85 ∨ c.toNat = 0x2028 ∨ c.toNat = 0x2029 := by
  have hchar (d : Char) : c = d ↔ c.toNat = d.toNat := Char.toNat_inj.symm
  simp only [isRawLineEnd, Bool.or_eq_true, beq_iff_eq, hchar, or_assoc]
  rfl

theorem isRawLineEnd_of_ascii {c : Char} (hc : c.toNat < 0x80) : isRawLineEnd c = false := by
  rw [Bool.eq_false_iff, ne_eq, isRawLineEnd_iff]
  omega

/-- Beyond the control characters only the raw line ends end a line. -/
theorem isLineEnd_of_not_control {c : Char} (hc : ¬ c.toNat < 0x20) :
    isLineEnd c = isRawLineEnd c := by
  rw [Bool.eq_iff_iff, isRawLineEnd_iff]
  simp only [isLineEnd, lineEndRanges, CodeRanges.has, List.any_cons, List.any_nil,
    Bool.or_eq_true, Bool.and_eq_true, decide_eq_true_eq, Bool.false_eq_true, or_false]
  omega

theorem isLineEnd_of_printable {c : Char} (hlow : 0x20 ≤ c.toNat) (hhigh : c.toNat < 0x80) :
    isLineEnd c = false := by
  rw [isLineEnd_of_not_control (Nat.not_lt.mpr hlow), isRawLineEnd_of_ascii hhigh]

theorem isLineEnd_of_shortEscape? {c e : Char} (h : Reader.shortEscape? e = some c) :
    isLineEnd e = false := by
  unfold Reader.shortEscape? at h
  split at h
  · rename_i he
    simp only [Bool.or_eq_true, decide_eq_true_eq] at he
    rcases he with (rfl | rfl) | rfl <;> decide
  · repeat' split at h
    all_goals
      first
      | rename_i he
        subst he
        decide
      | cases h

theorem isLineEnd_hexDigit (n : Nat) : isLineEnd (hexDigit (n % 16)) = false := by
  have hdigit : ∀ m, m < 16 → isLineEnd (hexDigit m) = false := by decide
  exact hdigit _ (Nat.mod_lt n (by decide))

theorem any_escaped (c : Char) : (escaped c).any isLineEnd = isRawLineEnd c := by
  rcases escaped_cases c with ⟨h, -, -, hc⟩ | ⟨e, h, -, he, hc⟩ | ⟨h, hc⟩
  · rw [h, List.any_cons, List.any_nil, Bool.or_false, isLineEnd_of_not_control hc]
  · have hascii : c.toNat < 0x80 := by
      rcases hc with rfl | rfl | hc
      · decide
      · decide
      · omega
    rw [h, isRawLineEnd_of_ascii hascii, List.any_cons, List.any_cons, isLineEnd_of_shortEscape? he]
    rfl
  · rw [h, isRawLineEnd_of_ascii (by omega)]
    simp only [unitEscape, List.any_cons, isLineEnd_hexDigit]
    rfl

theorem any_quoted (s : String) : (quoted s).any isLineEnd = s.toList.any isRawLineEnd := by
  have hbody (t : List Char) : (t.flatMap escaped).any isLineEnd = t.any isRawLineEnd := by
    induction t with
    | nil => rfl
    | cons c t ih => rw [List.flatMap_cons, List.any_append, any_escaped, ih, List.any_cons]
  have hquote : isLineEnd '"' = false := rfl
  simp [quoted, hbody, hquote]

theorem any_integerText (n : Int) : (integerText n).any isLineEnd = false := by
  have hdigits (m : Nat) : (Nat.toDigits 10 m).any isLineEnd = false := by
    rw [List.any_eq_false]
    intro c hc
    have hcode := toNat_of_isDigit (isDigit_of_mem_toDigits hc)
    rw [isLineEnd_of_printable (by omega) (by omega)]
    exact Bool.false_ne_true
  unfold integerText
  split
  · rw [List.any_cons, hdigits]
    decide
  · exact hdigits _

/-- Whether a key or a string has a raw line end. -/
def hasRawLineEnd (s : String) : Bool := s.toList.any isRawLineEnd

theorem any_compactItems (items : List Json)
    (h : ∀ v ∈ items, (compact v).any isLineEnd = (strings v).any hasRawLineEnd) :
    (compactItems items).any isLineEnd = (stringsOfItems items).any hasRawLineEnd := by
  induction items with
  | nil => rfl
  | cons item rest ih =>
      obtain ⟨hitem, hrest⟩ := List.forall_mem_cons.mp h
      have htail := ih hrest
      cases rest with
      | nil => simp [compactItems, stringsOfItems, hitem]
      | cons next rest =>
          have hcomma : isLineEnd ',' = false := rfl
          rw [compactItems, stringsOfItems, List.any_append, List.any_append, List.any_cons, hcomma,
            Bool.false_or, hitem, htail]
          exact List.cons_ne_nil next rest

theorem any_compactFields (fields : List (String × Json))
    (h : ∀ field ∈ fields,
      (compact field.2).any isLineEnd = (strings field.2).any hasRawLineEnd) :
    (compactFields fields).any isLineEnd = (stringsOfFields fields).any hasRawLineEnd := by
  induction fields with
  | nil => rfl
  | cons field rest ih =>
      obtain ⟨key, item⟩ := field
      obtain ⟨hitem, hrest⟩ := List.forall_mem_cons.mp h
      have htail := ih hrest
      have hcolon : isLineEnd ':' = false := rfl
      have hkey : (quoted key).any isLineEnd = hasRawLineEnd key := any_quoted key
      dsimp only at hitem
      cases rest with
      | nil => simp [compactFields, stringsOfFields, hitem, hkey, hcolon]
      | cons next rest =>
          have hcomma : isLineEnd ',' = false := rfl
          rw [compactFields, stringsOfFields]
          · simp only [List.any_append, List.any_cons, hcolon, hcomma, Bool.false_or, hitem, hkey,
              htail, Bool.or_assoc]
          · exact List.cons_ne_nil next rest

/-- Compact text has a line end just where a key or a string has a raw one. -/
theorem any_compact {v : Json} (h : Plain v) :
    (compact v).any isLineEnd = (strings v).any hasRawLineEnd := by
  induction h with
  | null => decide
  | bool value => cases value <;> decide
  | int value => exact any_integerText value
  | str value =>
      have hstring : (strings (str value)).any hasRawLineEnd = hasRawLineEnd value := by
        simp [strings]
      exact (any_quoted value).trans hstring.symm
  | @arr items _ ih =>
      have hopen : isLineEnd '[' = false := rfl
      have hclose : isLineEnd ']' = false := rfl
      simp [compact, strings, any_compactItems items ih, hopen, hclose]
  | @obj fields _ _ ih =>
      have hopen : isLineEnd '{' = false := rfl
      have hclose : isLineEnd '}' = false := rfl
      simp [compact, strings, any_compactFields fields ih, hopen, hclose]

theorem return_notMem_of_any {t : List Char} (h : t.any isLineEnd = false) : '\r' ∉ t := by
  intro hmem
  have hnot := List.any_eq_false.mp h '\r' hmem
  exact hnot (by decide)

theorem return_notMem_quoted (s : String) : '\r' ∉ quoted s := by
  have hescaped (c : Char) : '\r' ∉ escaped c := by
    rcases escaped_cases c with ⟨h, -, -, hc⟩ | ⟨e, h, -, he, -⟩ | ⟨h, -⟩
    · rw [h, List.mem_singleton]
      rintro rfl
      exact hc (by decide)
    · apply return_notMem_of_any
      rw [h, List.any_cons, List.any_cons, isLineEnd_of_shortEscape? he]
      rfl
    · apply return_notMem_of_any
      rw [h]
      simp only [unitEscape, List.any_cons, isLineEnd_hexDigit]
      rfl
  simp [quoted, hescaped]

theorem return_notMem_newLine (level : Nat) : '\r' ∉ newLine level := by
  simp [newLine, List.mem_replicate]

section

variable {level : Nat} {close : List Char}

theorem return_notMem_itemsText {items : List Json}
    (h : ∀ v ∈ items, '\r' ∉ Layout.lined.text level v) (hclose : '\r' ∉ close) :
    '\r' ∉ Layout.lined.itemsText level items close := by
  induction items with
  | nil => exact hclose
  | cons item rest ih =>
      obtain ⟨hitem, hrest⟩ := List.forall_mem_cons.mp h
      have hline : '\r' ∉ Layout.lined.newLine level := return_notMem_newLine level
      simp [Layout.itemsText, hline, hitem, ih hrest]

theorem return_notMem_fieldsText {fields : List (String × Json)}
    (h : ∀ field ∈ fields, '\r' ∉ Layout.lined.text level field.2) (hclose : '\r' ∉ close) :
    '\r' ∉ Layout.lined.fieldsText level fields close := by
  induction fields with
  | nil => exact hclose
  | cons field rest ih =>
      obtain ⟨key, item⟩ := field
      obtain ⟨hitem, hrest⟩ := List.forall_mem_cons.mp h
      have hline : '\r' ∉ Layout.lined.newLine level := return_notMem_newLine level
      have hspace : '\r' ∉ Layout.lined.space := by decide
      dsimp only at hitem
      simp [Layout.fieldsText, hline, hspace, return_notMem_quoted, hitem, ih hrest]

end

theorem return_notMem_text {v : Json} (h : Plain v) (level : Nat) :
    '\r' ∉ Layout.lined.text level v := by
  induction h generalizing level with
  | null => simp [Layout.text, atomText]
  | bool value => cases value <;> simp [Layout.text, atomText]
  | int value => exact return_notMem_of_any (any_integerText value)
  | str value => exact return_notMem_quoted value
  | @arr items _ ih =>
      cases items with
      | nil => simp [Layout.text]
      | cons item rest =>
          obtain ⟨hitem, hrest⟩ := List.forall_mem_cons.mp ih
          have hline (level : Nat) : '\r' ∉ Layout.lined.newLine level := return_notMem_newLine level
          have hclose : '\r' ∉ Layout.lined.newLine level ++ [']'] := by simp [hline]
          have hitems := return_notMem_itemsText (fun v hv => hrest v hv (level + 1)) hclose
          simp [Layout.text, hline, hitem, hitems]
  | @obj fields _ _ ih =>
      cases fields with
      | nil => simp [Layout.text]
      | cons field rest =>
          obtain ⟨key, item⟩ := field
          obtain ⟨hitem, hrest⟩ := List.forall_mem_cons.mp ih
          have hline (level : Nat) : '\r' ∉ Layout.lined.newLine level := return_notMem_newLine level
          have hspace : '\r' ∉ Layout.lined.space := by decide
          have hclose : '\r' ∉ Layout.lined.newLine level ++ ['}'] := by simp [hline]
          have hfields := return_notMem_fieldsText (fun v hv => hrest v hv (level + 1)) hclose
          dsimp only at hitem
          simp [Layout.text, hline, hspace, return_notMem_quoted, hitem, hfields]

/-- Text on indented lines has no carriage return. -/
theorem return_notMem_indented {v : Json} (h : Plain v) (level : Nat) :
    '\r' ∉ indented level v := by
  rw [indented_eq h level]
  exact return_notMem_text h level

end PluginContract.Json
