import PluginContract.Proofs.Json.Atoms
import PluginContract.Proofs.Json.Layout
import PluginContract.Proofs.Json.Spelling

/-!
# Documents as they are written

A document keeps its strings as they are spelled and the keys that come again. It may be laid out
with any blanks between its tokens. The reader takes a text to a value if and only if the text lays
out a document of that value.
-/

namespace PluginContract.Json

open Reader Text

/-- A string as it is written between its quotes. -/
@[ext] structure Spelling where
  written : List Char
  spelled : ∃ s, Spells written s

namespace Spelling

/-- The string that is spelled. -/
def text (s : Spelling) : String :=
  String.ofList (((chars? 0 (s.written ++ ['"'])).map Prod.fst).getD [])

/-- The string between its quotes. -/
def token (s : Spelling) : List Char := '"' :: (s.written ++ ['"'])

theorem text_eq (s : Spelling) {u : List Char} (h : Spells s.written u) :
    s.text = String.ofList u := by
  rw [text, h.chars?_append, Option.map_some, Option.getD_some]

theorem spells (s : Spelling) : Spells s.written s.text.toList := by
  obtain ⟨u, hu⟩ := s.spelled
  rwa [s.text_eq hu, String.toList_ofList]

theorem string?_token (s : Spelling) (rest : List Char) :
    string? (s.token ++ rest) = some (s.text, rest) :=
  string?_eq_some_iff.mpr ⟨s.written, by simp [token], s.spells⟩

end Spelling

/-- A value as it is written. -/
inductive Written
  | atom (a : Atom)
  | str (s : Spelling)
  | arr (items : List Written)
  | obj (members : List (Spelling × Written))

mutual

/-- The value that is written. -/
def Written.value : Written → Json
  | .atom a => a.value
  | .str s => .str s.text
  | .arr items => .arr (writtenItems items)
  | .obj members => .obj (Entries.ofPairs (writtenFields members))

/-- The values of items. -/
def writtenItems : List Written → List Json
  | [] => []
  | w :: items => w.value :: writtenItems items

/-- The keys and values of members. -/
def writtenFields : List (Spelling × Written) → List (String × Json)
  | [] => []
  | (key, w) :: members => (key.text, w.value) :: writtenFields members

end

theorem writtenItems_eq (items : List Written) : writtenItems items = items.map Written.value := by
  induction items with
  | nil => rfl
  | cons w items ih => rw [writtenItems, ih, List.map_cons]

theorem writtenFields_eq (members : List (Spelling × Written)) :
    writtenFields members = members.map fun member => (member.1.text, member.2.value) := by
  induction members with
  | nil => rfl
  | cons member members ih => rw [writtenFields, ih, List.map_cons]

/-- A text of blanks. -/
def IsGap (gap : List Char) : Prop := ∀ c ∈ gap, isGap c = true

/-- A part of a document: a value, the items up to a closing bracket, a member, or the members up to
a closing brace. -/
inductive Part
  | value (w : Written)
  | items (items : List Written)
  | member (key : Spelling) (w : Written)
  | members (members : List (Spelling × Written))

/-- Whether a text is a part of a document, with any blanks between its tokens. -/
inductive Lays : Part → List Char → Prop
  | atom (a : Atom) : Lays (.value (.atom a)) a.text
  | str (s : Spelling) : Lays (.value (.str s)) s.token
  | noItems {gap : List Char} (hgap : IsGap gap) : Lays (.value (.arr [])) ('[' :: (gap ++ [']']))
  | arr {gap t : List Char} {items : List Written} (hgap : IsGap gap) (h : Lays (.items items) t) :
      Lays (.value (.arr items)) ('[' :: (gap ++ t))
  | noMembers {gap : List Char} (hgap : IsGap gap) :
      Lays (.value (.obj [])) ('{' :: (gap ++ ['}']))
  | obj {gap t : List Char} {members : List (Spelling × Written)} (hgap : IsGap gap)
      (h : Lays (.members members) t) : Lays (.value (.obj members)) ('{' :: (gap ++ t))
  | lastItem {w : Written} {t gap : List Char} (h : Lays (.value w) t) (hgap : IsGap gap) :
      Lays (.items [w]) (t ++ (gap ++ [']']))
  | moreItems {w : Written} {items : List Written} {t u gap gap' : List Char}
      (h : Lays (.value w) t) (hgap : IsGap gap) (hgap' : IsGap gap') (rest : Lays (.items items) u) :
      Lays (.items (w :: items)) (t ++ (gap ++ ',' :: (gap' ++ u)))
  | member {key : Spelling} {w : Written} {t gap gap' : List Char} (hgap : IsGap gap)
      (hgap' : IsGap gap') (h : Lays (.value w) t) :
      Lays (.member key w) (key.token ++ (gap ++ ':' :: (gap' ++ t)))
  | lastMember {key : Spelling} {w : Written} {t gap : List Char} (h : Lays (.member key w) t)
      (hgap : IsGap gap) : Lays (.members [(key, w)]) (t ++ (gap ++ ['}']))
  | moreMembers {key : Spelling} {w : Written} {members : List (Spelling × Written)}
      {t u gap gap' : List Char} (h : Lays (.member key w) t) (hgap : IsGap gap)
      (hgap' : IsGap gap') (rest : Lays (.members members) u) :
      Lays (.members ((key, w) :: members)) (t ++ (gap ++ ',' :: (gap' ++ u)))

/-- Whether a whole text is a document, blanks around it aside. -/
def Written.LaidOut (w : Written) (text : List Char) : Prop :=
  ∃ gap t gap' : List Char, IsGap gap ∧ IsGap gap' ∧ Lays (.value w) t ∧ text = gap ++ (t ++ gap')

section Gaps

variable {gap t more : List Char} {c : Char}

theorem exists_gap (t : List Char) : ∃ gap, IsGap gap ∧ t = gap ++ skipGap t :=
  ⟨t.takeWhile Reader.isGap, fun _ hc => List.mem_takeWhile_imp hc,
    List.takeWhile_append_dropWhile.symm⟩

theorem exists_gap_cons (h : skipGap t = c :: more) : ∃ gap, IsGap gap ∧ t = gap ++ c :: more := by
  obtain ⟨gap, hgap, ht⟩ := exists_gap t
  exact ⟨gap, hgap, by rwa [h] at ht⟩

theorem skipGap_append_cons (hgap : IsGap gap) (hc : Reader.isGap c = false) (t : List Char) :
    skipGap (gap ++ c :: t) = c :: t := by
  rw [skipGap_append hgap, skipGap_cons_of_not_isGap hc]

theorem endsNumber_of_skipGap (h : skipGap t = c :: more) (hc : c = ',' ∨ c = ']' ∨ c = '}') :
    EndsNumber t := by
  obtain ⟨gap, hgap, rfl⟩ := exists_gap_cons h
  exact endsNumber_append_gap hgap (endsNumber_cons hc more)

theorem endsNumber_of_isGap (h : IsGap t) : EndsNumber t := by
  rw [← List.append_nil t]
  apply endsNumber_append_gap h
  intro c hc
  cases hc

end Gaps

section Starts

variable {part : Part} {t : List Char} {c : Char}

/-- A character that a value or a member starts with. -/
def isStart (c : Char) : Bool := c == '[' || c == '{' || c == '"' || isAtomChar c

theorem isBlank_of_isGap (h : Reader.isGap c = true) : isBlank c = true := by
  simp only [Reader.isGap, Bool.or_eq_true, beq_iff_eq] at h
  rcases h with ((rfl | rfl) | rfl) | rfl <;> decide

theorem not_isBlank_of_isAtomChar (h : isAtomChar c = true) : isBlank c = false := by
  simp only [isAtomChar, Bool.or_eq_true, beq_iff_eq] at h
  rcases h with ((h | rfl) | rfl) | rfl
  · exact not_isBlank_of_isAlphanum h
  · decide
  · decide
  · decide

theorem not_isBlank_of_isStart (h : isStart c = true) : isBlank c = false := by
  simp only [isStart, Bool.or_eq_true, beq_iff_eq] at h
  rcases h with ((rfl | rfl) | rfl) | h
  · decide
  · decide
  · decide
  · exact not_isBlank_of_isAtomChar h

theorem not_isGap_of_isStart (h : isStart c = true) : Reader.isGap c = false := by
  apply Bool.eq_false_iff.mpr
  intro hgap
  have hblank := isBlank_of_isGap hgap
  rw [not_isBlank_of_isStart h] at hblank
  cases hblank

theorem Atom.exists_cons (a : Atom) : ∃ c t, a.text = c :: t ∧ isAtomChar c = true := by
  obtain ⟨c, t, heq⟩ := List.exists_cons_of_ne_nil a.ne_nil
  have hc := List.all_eq_true.mp a.chars c (heq ▸ List.mem_cons_self)
  exact ⟨c, t, heq, hc⟩

/-- The parts of a document start at a token. -/
theorem Lays.exists_cons (h : Lays part t) : ∃ c u, t = c :: u ∧ isStart c = true := by
  induction h with
  | atom a =>
      obtain ⟨c, t, heq, hc⟩ := a.exists_cons
      exact ⟨c, t, heq, by rw [isStart, hc, Bool.or_true]⟩
  | str s => exact ⟨'"', _, rfl, rfl⟩
  | noItems hgap => exact ⟨'[', _, rfl, rfl⟩
  | arr hgap h ih => exact ⟨'[', _, rfl, rfl⟩
  | noMembers hgap => exact ⟨'{', _, rfl, rfl⟩
  | obj hgap h ih => exact ⟨'{', _, rfl, rfl⟩
  | lastItem h hgap ih =>
      obtain ⟨c, u, rfl, hc⟩ := ih
      exact ⟨c, _, rfl, hc⟩
  | moreItems h hgap hgap' rest ih _ =>
      obtain ⟨c, u, rfl, hc⟩ := ih
      exact ⟨c, _, rfl, hc⟩
  | member hgap hgap' h ih => exact ⟨'"', _, rfl, rfl⟩
  | lastMember h hgap ih =>
      obtain ⟨c, u, rfl, hc⟩ := ih
      exact ⟨c, _, rfl, hc⟩
  | moreMembers h hgap hgap' rest ih _ =>
      obtain ⟨c, u, rfl, hc⟩ := ih
      exact ⟨c, _, rfl, hc⟩

theorem Lays.skipGap_append (h : Lays part t) {gap : List Char} (hgap : IsGap gap)
    (rest : List Char) : skipGap (gap ++ (t ++ rest)) = t ++ rest := by
  obtain ⟨c, u, rfl, hc⟩ := h.exists_cons
  exact skipGap_append_cons hgap (not_isGap_of_isStart hc) _

end Starts

/-- Whether the reader takes a text as a part of a document, whatever comes after it. -/
def Part.Reads (fuel : Nat) (t : List Char) : Part → Prop
  | .value w => ∀ rest, EndsNumber rest → value? fuel (t ++ rest) = .ok (w.value, rest)
  | .items ws => ∀ rest, Reader.items? fuel (t ++ rest) = .ok (writtenItems ws, rest)
  | .member key w => ∀ rest, EndsNumber rest → ∃ between after,
      string? (t ++ rest) = some (key.text, between) ∧ skipGap between = ':' :: after ∧
        value? fuel (skipGap after) = .ok (w.value, rest)
  | .members ws => ∀ rest, members? fuel (t ++ rest) = .ok (writtenFields ws, rest)

section Reading

variable {part : Part} {t u gap gap' : List Char} {w : Written} {items : List Written}
  {key : Spelling} {members : List (Spelling × Written)} {fuel : Nat}

theorem reads_atom (a : Atom) (fuel : Nat) : (Part.value (.atom a)).Reads (fuel + 1) a.text := by
  intro rest hrest
  obtain ⟨c, t, heq, hc⟩ := a.exists_cons
  have hread := a.read rest hrest
  rw [heq, List.cons_append] at hread ⊢
  rw [value?_atom _ _ _ (t ++ rest), hread]
  · rfl
  all_goals
    rintro rfl
    cases hc

theorem reads_arr (hlays : Lays (.items items) t) (hgap : IsGap gap)
    (h : (Part.items items).Reads fuel t) :
    (Part.value (.arr items)).Reads (fuel + 1) ('[' :: (gap ++ t)) := by
  intro rest _
  obtain ⟨c, u, rfl, hc⟩ := hlays.exists_cons
  have hskip : skipGap (gap ++ (c :: u ++ rest)) = c :: (u ++ rest) :=
    hlays.skipGap_append hgap rest
  have hclose : c ≠ ']' := by
    rintro rfl
    cases hc
  rw [List.cons_append, List.append_assoc, value?_arr hskip hclose, ← List.cons_append, h rest]
  rfl

theorem reads_obj (hlays : Lays (.members members) t) (hgap : IsGap gap)
    (h : (Part.members members).Reads fuel t) :
    (Part.value (.obj members)).Reads (fuel + 1) ('{' :: (gap ++ t)) := by
  intro rest _
  obtain ⟨c, u, rfl, hc⟩ := hlays.exists_cons
  have hskip : skipGap (gap ++ (c :: u ++ rest)) = c :: (u ++ rest) :=
    hlays.skipGap_append hgap rest
  have hclose : c ≠ '}' := by
    rintro rfl
    cases hc
  rw [List.cons_append, List.append_assoc, value?_obj hskip hclose, ← List.cons_append, h rest]
  rfl

theorem reads_lastItem (h : (Part.value w).Reads fuel t) (hgap : IsGap gap) :
    (Part.items [w]).Reads (fuel + 1) (t ++ (gap ++ [']'])) := by
  intro rest
  have hclose : skipGap (gap ++ ']' :: rest) = ']' :: rest := skipGap_append_cons hgap rfl rest
  have hvalue := h _ (endsNumber_of_skipGap hclose (Or.inr (Or.inl rfl)))
  rw [List.append_assoc, List.append_assoc, List.singleton_append, items?_last hvalue hclose]
  rfl

theorem reads_moreItems (h : (Part.value w).Reads fuel t) (hgap : IsGap gap) (hgap' : IsGap gap')
    (hlays : Lays (.items items) u) (hrest : (Part.items items).Reads fuel u) :
    (Part.items (w :: items)).Reads (fuel + 1) (t ++ (gap ++ ',' :: (gap' ++ u))) := by
  intro rest
  have hcomma := skipGap_append_cons hgap (c := ',') rfl (gap' ++ (u ++ rest))
  have hvalue := h _ (endsNumber_of_skipGap hcomma (Or.inl rfl))
  rw [List.append_assoc, List.append_assoc, List.cons_append, List.append_assoc,
    items?_more hvalue hcomma, hlays.skipGap_append hgap', hrest rest]
  rfl

theorem reads_member (h : (Part.value w).Reads fuel t) (hlays : Lays (.value w) t)
    (hgap : IsGap gap) (hgap' : IsGap gap') :
    (Part.member key w).Reads fuel (key.token ++ (gap ++ ':' :: (gap' ++ t))) := by
  intro rest hrest
  refine ⟨gap ++ ':' :: (gap' ++ (t ++ rest)), gap' ++ (t ++ rest), ?_, ?_, ?_⟩
  · rw [List.append_assoc, key.string?_token]
    simp
  · exact skipGap_append_cons hgap rfl _
  · rw [hlays.skipGap_append hgap']
    exact h rest hrest

theorem reads_lastMember (h : (Part.member key w).Reads fuel t) (hgap : IsGap gap) :
    (Part.members [(key, w)]).Reads (fuel + 1) (t ++ (gap ++ ['}'])) := by
  intro rest
  have hclose : skipGap (gap ++ '}' :: rest) = '}' :: rest := skipGap_append_cons hgap rfl rest
  obtain ⟨between, after, hkey, hcolon, hvalue⟩ :=
    h _ (endsNumber_of_skipGap hclose (Or.inr (Or.inr rfl)))
  rw [List.append_assoc, List.append_assoc, List.singleton_append,
    members?_last hkey hcolon hvalue hclose]
  rfl

theorem reads_moreMembers (h : (Part.member key w).Reads fuel t) (hgap : IsGap gap)
    (hgap' : IsGap gap') (hlays : Lays (.members members) u)
    (hrest : (Part.members members).Reads fuel u) :
    (Part.members ((key, w) :: members)).Reads (fuel + 1) (t ++ (gap ++ ',' :: (gap' ++ u))) := by
  intro rest
  have hcomma := skipGap_append_cons hgap (c := ',') rfl (gap' ++ (u ++ rest))
  obtain ⟨between, after, hkey, hcolon, hvalue⟩ :=
    h _ (endsNumber_of_skipGap hcomma (Or.inl rfl))
  rw [List.append_assoc, List.append_assoc, List.cons_append, List.append_assoc,
    members?_more hkey hcolon hvalue hcomma, hlays.skipGap_append hgap', hrest rest]
  rfl

/-- The parts of a document are read, with fuel for twice their length. -/
theorem Lays.reads (h : Lays part t) : ∀ {fuel}, 2 * t.length ≤ fuel → part.Reads fuel t := by
  -- A step that takes a character leaves fuel for another one that takes none.
  induction h with
  | atom a =>
      intro fuel hfuel
      obtain ⟨c, t, heq, -⟩ := a.exists_cons
      rw [heq, List.length_cons] at hfuel
      obtain ⟨fuel, rfl⟩ := Nat.exists_eq_add_one_of_ne_zero (n := fuel) (by omega)
      exact reads_atom a fuel
  | str s =>
      intro fuel hfuel rest _
      rw [Spelling.token, List.length_cons] at hfuel
      obtain ⟨fuel, rfl⟩ := Nat.exists_eq_add_one_of_ne_zero (n := fuel) (by omega)
      exact value?_str (s.string?_token rest) fuel
  | noItems hgap =>
      intro fuel hfuel rest _
      rw [List.length_cons] at hfuel
      obtain ⟨fuel, rfl⟩ := Nat.exists_eq_add_one_of_ne_zero (n := fuel) (by omega)
      rw [List.cons_append, List.append_assoc, List.singleton_append, value?,
        skipGap_append_cons hgap rfl]
      rfl
  | arr hgap h ih =>
      intro fuel hfuel
      rw [List.length_cons, List.length_append] at hfuel
      obtain ⟨fuel, rfl⟩ := Nat.exists_eq_add_one_of_ne_zero (n := fuel) (by omega)
      exact reads_arr h hgap (ih (by omega))
  | noMembers hgap =>
      intro fuel hfuel rest _
      rw [List.length_cons] at hfuel
      obtain ⟨fuel, rfl⟩ := Nat.exists_eq_add_one_of_ne_zero (n := fuel) (by omega)
      rw [List.cons_append, List.append_assoc, List.singleton_append, value?,
        skipGap_append_cons hgap rfl]
      rfl
  | obj hgap h ih =>
      intro fuel hfuel
      rw [List.length_cons, List.length_append] at hfuel
      obtain ⟨fuel, rfl⟩ := Nat.exists_eq_add_one_of_ne_zero (n := fuel) (by omega)
      exact reads_obj h hgap (ih (by omega))
  | lastItem h hgap ih =>
      intro fuel hfuel
      simp only [List.length_append, List.length_singleton] at hfuel
      obtain ⟨fuel, rfl⟩ := Nat.exists_eq_add_one_of_ne_zero (n := fuel) (by omega)
      exact reads_lastItem (ih (by omega)) hgap
  | moreItems h hgap hgap' rest ih ihrest =>
      intro fuel hfuel
      simp only [List.length_append, List.length_cons] at hfuel
      obtain ⟨fuel, rfl⟩ := Nat.exists_eq_add_one_of_ne_zero (n := fuel) (by omega)
      exact reads_moreItems (ih (by omega)) hgap hgap' rest (ihrest (by omega))
  | member hgap hgap' h ih =>
      intro fuel hfuel
      simp only [List.length_append, List.length_cons] at hfuel
      exact reads_member (ih (by omega)) h hgap hgap'
  | lastMember h hgap ih =>
      intro fuel hfuel
      simp only [List.length_append, List.length_singleton] at hfuel
      obtain ⟨fuel, rfl⟩ := Nat.exists_eq_add_one_of_ne_zero (n := fuel) (by omega)
      exact reads_lastMember (ih (by omega)) hgap
  | moreMembers h hgap hgap' rest ih ihrest =>
      intro fuel hfuel
      simp only [List.length_append, List.length_cons] at hfuel
      obtain ⟨fuel, rfl⟩ := Nat.exists_eq_add_one_of_ne_zero (n := fuel) (by omega)
      exact reads_moreMembers (ih (by omega)) hgap hgap' rest (ihrest (by omega))

/-- A document is read to its value. -/
theorem Written.LaidOut.read?_eq {text : List Char} (h : w.LaidOut text) :
    read? text = .ok w.value := by
  obtain ⟨gap, t, gap', hgap, hgap', hlays, rfl⟩ := h
  have hfuel : 2 * t.length ≤ 2 * (gap ++ (t ++ gap')).length + 2 := by
    simp only [List.length_append]
    omega
  have hvalue : value? _ (t ++ gap') = .ok (w.value, gap') :=
    hlays.reads hfuel gap' (endsNumber_of_isGap hgap')
  have hrest : skipGap gap' = [] := by
    have happend := skipGap_append hgap' []
    rwa [List.append_nil] at happend
  rw [read?, hlays.skipGap_append hgap, hvalue]
  dsimp only
  rw [hrest]
  rfl

end Reading

/-- What the reader takes is part of a document. -/
structure Parsed (fuel : Nat) : Prop where
  value : ∀ {t rest v}, value? fuel t = .ok (v, rest) → EndsNumber rest →
    ∃ w u, t = u ++ rest ∧ Lays (.value w) u ∧ w.value = v
  items : ∀ {t rest items}, Reader.items? fuel t = .ok (items, rest) →
    ∃ ws u, t = u ++ rest ∧ Lays (.items ws) u ∧ writtenItems ws = items
  members : ∀ {t rest fields}, members? fuel t = .ok (fields, rest) →
    ∃ ws u, t = u ++ rest ∧ Lays (.members ws) u ∧ writtenFields ws = fields

section Parsing

variable {fuel : Nat} {t rest : List Char}

theorem exists_token {s : String} (h : string? t = some (s, rest)) :
    ∃ key : Spelling, t = key.token ++ rest ∧ key.text = s := by
  obtain ⟨written, rfl, hspells⟩ := string?_eq_some_iff.mp h
  refine ⟨⟨written, _, hspells⟩, by simp [Spelling.token], ?_⟩
  rw [Spelling.text_eq _ hspells, String.ofList_toList]

theorem value?_parsed (ih : Parsed fuel) {v : Json} (h : value? (fuel + 1) t = .ok (v, rest))
    (hrest : EndsNumber rest) : ∃ w u, t = u ++ rest ∧ Lays (.value w) u ∧ w.value = v := by
  unfold value? at h
  split at h
  · rename_i t
    split at h
    · rename_i after hclose
      obtain ⟨rfl, rfl⟩ := Prod.mk.inj (Except.ok.inj h)
      obtain ⟨gap, hgap, rfl⟩ := exists_gap_cons hclose
      exact ⟨.obj [], _, by simp, .noMembers hgap, rfl⟩
    · obtain ⟨⟨fields, after⟩, hfound, heq⟩ := exists_of_map_eq_ok h
      obtain ⟨rfl, rfl⟩ := Prod.mk.inj heq
      obtain ⟨gap, hgap, ht⟩ := exists_gap t
      obtain ⟨ws, u, hu, hlays, rfl⟩ := ih.members hfound
      exact ⟨.obj ws, '{' :: (gap ++ u), by rw [ht, hu]; simp, .obj hgap hlays, rfl⟩
  · rename_i t
    split at h
    · rename_i after hclose
      obtain ⟨rfl, rfl⟩ := Prod.mk.inj (Except.ok.inj h)
      obtain ⟨gap, hgap, rfl⟩ := exists_gap_cons hclose
      exact ⟨.arr [], _, by simp, .noItems hgap, rfl⟩
    · obtain ⟨⟨items, after⟩, hfound, heq⟩ := exists_of_map_eq_ok h
      obtain ⟨rfl, rfl⟩ := Prod.mk.inj heq
      obtain ⟨gap, hgap, ht⟩ := exists_gap t
      obtain ⟨ws, u, hu, hlays, rfl⟩ := ih.items hfound
      exact ⟨.arr ws, '[' :: (gap ++ u), by rw [ht, hu]; simp, .arr hgap hlays, rfl⟩
  · split at h
    · rename_i s after hfound
      obtain ⟨rfl, rfl⟩ := Prod.mk.inj (Except.ok.inj h)
      obtain ⟨key, ht, rfl⟩ := exists_token hfound
      exact ⟨.str key, key.token, ht, .str key, rfl⟩
    · cases h
  · obtain ⟨a, rfl, rfl⟩ := exists_of_atom? h hrest
    exact ⟨.atom a, a.text, rfl, .atom a, rfl⟩

theorem items?_parsed (ih : Parsed fuel) {items : List Json}
    (h : Reader.items? (fuel + 1) t = .ok (items, rest)) :
    ∃ ws u, t = u ++ rest ∧ Lays (.items ws) u ∧ writtenItems ws = items := by
  unfold Reader.items? at h
  split at h
  · cases h
  · rename_i item between hitem
    split at h
    · rename_i more hcomma
      obtain ⟨⟨items, after⟩, hfound, heq⟩ := exists_of_map_eq_ok h
      obtain ⟨rfl, rfl⟩ := Prod.mk.inj heq
      obtain ⟨w, u, rfl, hlays, rfl⟩ := ih.value hitem (endsNumber_of_skipGap hcomma (Or.inl rfl))
      obtain ⟨gap, hgap, rfl⟩ := exists_gap_cons hcomma
      obtain ⟨gap', hgap', hmore⟩ := exists_gap more
      obtain ⟨ws, u', hu', hlays', rfl⟩ := ih.items hfound
      refine ⟨w :: ws, u ++ (gap ++ ',' :: (gap' ++ u')), ?_, .moreItems hlays hgap hgap' hlays',
        rfl⟩
      rw [hmore, hu']
      simp
    · rename_i after hclose
      obtain ⟨rfl, rfl⟩ := Prod.mk.inj (Except.ok.inj h)
      obtain ⟨w, u, rfl, hlays, rfl⟩ :=
        ih.value hitem (endsNumber_of_skipGap hclose (Or.inr (Or.inl rfl)))
      obtain ⟨gap, hgap, rfl⟩ := exists_gap_cons hclose
      exact ⟨[w], u ++ (gap ++ [']']), by simp, .lastItem hlays hgap, rfl⟩
    · cases h

theorem members?_parsed (ih : Parsed fuel) {fields : List (String × Json)}
    (h : members? (fuel + 1) t = .ok (fields, rest)) :
    ∃ ws u, t = u ++ rest ∧ Lays (.members ws) u ∧ writtenFields ws = fields := by
  unfold members? at h
  split at h
  · cases h
  · rename_i key afterKey hkey
    obtain ⟨key, rfl, rfl⟩ := exists_token hkey
    split at h
    · rename_i afterColon hcolon
      obtain ⟨gap, hgap, rfl⟩ := exists_gap_cons hcolon
      obtain ⟨gap', hgap', hafter⟩ := exists_gap afterColon
      split at h
      · cases h
      · rename_i item between hitem
        split at h
        · rename_i more hcomma
          obtain ⟨⟨fields, after⟩, hfound, heq⟩ := exists_of_map_eq_ok h
          obtain ⟨rfl, rfl⟩ := Prod.mk.inj heq
          obtain ⟨w, u, hu, hlays, rfl⟩ :=
            ih.value hitem (endsNumber_of_skipGap hcomma (Or.inl rfl))
          obtain ⟨last, hlast, rfl⟩ := exists_gap_cons hcomma
          obtain ⟨next, hnext, hmore⟩ := exists_gap more
          obtain ⟨ws, u', hu', hlays', rfl⟩ := ih.members hfound
          refine ⟨(key, w) :: ws, _, ?_,
            .moreMembers (.member hgap hgap' hlays) hlast hnext hlays', rfl⟩
          rw [hafter, hu, hmore, hu']
          simp
        · rename_i after hclose
          obtain ⟨rfl, rfl⟩ := Prod.mk.inj (Except.ok.inj h)
          obtain ⟨w, u, hu, hlays, rfl⟩ :=
            ih.value hitem (endsNumber_of_skipGap hclose (Or.inr (Or.inr rfl)))
          obtain ⟨last, hlast, rfl⟩ := exists_gap_cons hclose
          refine ⟨[(key, w)], _, ?_, .lastMember (.member hgap hgap' hlays) hlast, rfl⟩
          rw [hafter, hu]
          simp
        · cases h
    · cases h

theorem parsed (fuel : Nat) : Parsed fuel := by
  induction fuel with
  | zero =>
      constructor
      all_goals
        intro t rest found h
        cases h
  | succ fuel ih => exact ⟨value?_parsed ih, items?_parsed ih, members?_parsed ih⟩

/-- A text is read to a value if and only if it lays out a document of that value. -/
theorem read?_eq_ok_iff {text : List Char} {v : Json} :
    read? text = .ok v ↔ ∃ w : Written, w.LaidOut text ∧ w.value = v := by
  constructor
  · intro h
    unfold read? at h
    split at h
    · rename_i value rest hvalue
      split at h
      · rename_i hempty
        obtain rfl := Except.ok.inj h
        obtain ⟨gap, hgap, htext⟩ := exists_gap text
        obtain ⟨gap', hgap', hrest⟩ := exists_gap rest
        rw [List.isEmpty_iff.mp hempty, List.append_nil] at hrest
        subst hrest
        obtain ⟨w, u, hu, hlays, hw⟩ := (parsed _).value hvalue (endsNumber_of_isGap hgap')
        exact ⟨w, ⟨gap, u, rest, hgap, hgap', hlays, by rw [← hu]; exact htext⟩, hw⟩
      · cases h
    · cases h
  · rintro ⟨w, hlaid, rfl⟩
    exact hlaid.read?_eq

end Parsing

mutual

/-- A document holds no long integer. -/
theorem Written.fits_value : (w : Written) → w.value.fits = true
  | .atom a => fits_of_atom? (a.read [] fun _ hc => by cases hc)
  | .str _ => rfl
  | .arr items => fits_arr_iff.mpr (fits_of_mem_writtenItems items)
  | .obj members => fits_obj_iff.mpr fun field hfield =>
      fits_of_mem_writtenFields members field (Entries.mem_of_mem_ofPairs hfield)

theorem fits_of_mem_writtenItems :
    (items : List Written) → ∀ v ∈ writtenItems items, v.fits = true
  | [] => fun _ hv => by cases hv
  | w :: items => List.forall_mem_cons.mpr ⟨w.fits_value, fits_of_mem_writtenItems items⟩

theorem fits_of_mem_writtenFields :
    (members : List (Spelling × Written)) → ∀ field ∈ writtenFields members, field.2.fits = true
  | [] => fun _ hfield => by cases hfield
  | (_, w) :: members => List.forall_mem_cons.mpr ⟨w.fits_value, fits_of_mem_writtenFields members⟩

end

/-- What is read has no long integer. -/
theorem fits_of_read? {text : List Char} {v : Json} (h : read? text = .ok v) : v.fits = true := by
  obtain ⟨w, -, rfl⟩ := read?_eq_ok_iff.mp h
  exact w.fits_value

end PluginContract.Json
