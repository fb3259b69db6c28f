import PluginContract.Script.ObjectLiteral
import PluginContract.Proofs.Script.Wrapping

/-!
# Printed object literals

An object literal is printed from its entries: names alone, spreads, and keys with their
values. It is read as just these properties and spreads, each in order, whatever stands
in the brackets and literals of a value and however many parentheses are around it all.
-/

namespace PluginContract.Script

open Text

/-- An expression that may stand between two commas. -/
structure Operand where
  chars : List Char
  balanced : Balanced .brackets false chars
  solid : Solid chars

/-- Some decimal digits. -/
structure Digits where
  chars : List Char
  ne_nil : chars ≠ []
  isDecimal : ∀ c ∈ chars, Text.isDecimal c = true

/-- A property name as it is written: a name, a number with or without decimal places, or a text
between quotes. -/
inductive PropertyKey
  | name (chars : List Char) (isName : Text.isName chars = true)
  | number (whole : Digits) (places : Option Digits)
  | quoted (quote : Char) (inside : List Char) (isText : quote = '"' ∨ quote = '\'')
      (noQuote : quote ∉ inside) (noEscape : '\\' ∉ inside)

namespace PropertyKey

/-- The decimal places of a number, after the point. -/
def fraction (places : Option Digits) : List Char :=
  match places with
  | none => []
  | some digits => '.' :: digits.chars

/-- The text of a property name. -/
def text : PropertyKey → List Char
  | name chars _ => chars
  | number whole places => whole.chars ++ fraction places
  | quoted quote inside _ _ _ => quote :: (inside ++ [quote])

/-- The property name without quotes. -/
def key : PropertyKey → List Char
  | quoted _ inside _ _ _ => inside
  | written => written.text

end PropertyKey

/-- An entry of an object literal as it is written. -/
inductive WrittenEntry
  | shorthand (name : List Char) (isName : Text.isName name = true)
  | spread (operand : Operand)
  | keyed (key : PropertyKey) (value : Operand)

namespace WrittenEntry

/-- The text of an entry. -/
def text : WrittenEntry → List Char
  | shorthand name _ => name
  | spread operand => '.' :: '.' :: '.' :: operand.chars
  | keyed key value => key.text ++ ':' :: ' ' :: value.chars

/-- The property that an entry spells out. -/
def property? : WrittenEntry → Option Property
  | shorthand name _ => some ⟨name, name, true⟩
  | spread _ => none
  | keyed key value => some ⟨key.key, value.chars, false⟩

/-- The operand that an entry spreads. -/
def spread? : WrittenEntry → Option (List Char)
  | spread operand => some operand.chars
  | _ => none

/-- What an entry is read as. -/
def entry : WrittenEntry → ObjectEntry
  | shorthand name _ => .property ⟨name, name, true⟩
  | spread operand => .spread operand.chars
  | keyed key value => .property ⟨key.key, value.chars, false⟩

/-- What stands between the braces, perhaps with a comma after the last entry. -/
def inside (entries : List WrittenEntry) (trailing : Bool) : List Char :=
  [',', ' '].intercalate (entries.map text) ++ if trailing then [','] else []

/-- The text of an object literal. -/
def print (entries : List WrittenEntry) (trailing : Bool) : List Char :=
  '\x7b' :: (inside entries trailing ++ ['\x7d'])

/-- The properties and the spread operands that the entries spell out. -/
def literal (entries : List WrittenEntry) : ObjectLiteral where
  properties := entries.filterMap property?
  spreads := entries.filterMap spread?

end WrittenEntry

section Keys

/-- A character of a key as a masked entry shows it: no colon, and no bracket. -/
def InKey (c : Char) : Prop := c ≠ ':' ∧ depthChange c = 0

theorem inKey_of_isNameChar {c : Char} (h : isNameChar c = true) : InKey c := by
  have hne {d : Char} (hd : isNameChar d = false) : c ≠ d := ne_of_isNameChar h hd
  refine ⟨hne (by decide), ?_⟩
  simp [depthChange, hne (by decide : isNameChar '(' = false),
    hne (by decide : isNameChar '[' = false), hne (by decide : isNameChar '\x7b' = false),
    hne (by decide : isNameChar ')' = false), hne (by decide : isNameChar ']' = false),
    hne (by decide : isNameChar '\x7d' = false)]

namespace Digits

theorem isNameChar (d : Digits) : ∀ c ∈ d.chars, Text.isNameChar c = true :=
  fun c hc => isNameChar_of_isDecimal (d.isDecimal c hc)

theorem head?_append (d : Digits) (rest : List Char) :
    ∃ c ∈ (d.chars ++ rest).head?, Text.isNameChar c = true := by
  refine ⟨d.chars.head d.ne_nil, ?_, d.isNameChar _ (List.head_mem d.ne_nil)⟩
  rw [List.head?_append, List.head?_eq_some_head d.ne_nil]
  rfl

theorem solid (d : Digits) : Solid d.chars := by
  have hblank : ∀ c ∈ d.chars, isBlank c = false := fun c hc =>
    not_isBlank_of_isNameChar (d.isNameChar c hc)
  exact ⟨⟨_, List.head?_eq_some_head d.ne_nil, hblank _ (List.head_mem d.ne_nil)⟩,
    _, List.getLast?_eq_some_getLast d.ne_nil, hblank _ (List.getLast_mem d.ne_nil)⟩

end Digits

namespace PropertyKey

/-- The characters of a number are those of names, and a point. -/
theorem number_chars (whole : Digits) (places : Option Digits) :
    ∀ c ∈ (number whole places).text, isNameChar c = true ∨ c = '.' := by
  intro c hc
  rcases List.mem_append.mp hc with hc | hc
  · exact Or.inl (whole.isNameChar c hc)
  · cases places with
    | none => cases hc
    | some digits =>
        rcases List.mem_cons.mp hc with rfl | hc
        · exact Or.inr rfl
        · exact Or.inl (digits.isNameChar c hc)

theorem isNumberKey_number (whole : Digits) (places : Option Digits) :
    ObjectLiteral.isNumberKey (number whole places).text = true := by
  have hend : ∀ c ∈ (fraction places).head?, isDecimal c = false := by
    intro c hc
    cases places with
    | none => cases hc
    | some digits =>
        obtain rfl := Option.some.inj hc
        decide
  have htake : (whole.chars ++ fraction places).takeWhile isDecimal = whole.chars :=
    takeWhile_append_of_head? whole.isDecimal hend
  have hdrop : (whole.chars ++ fraction places).dropWhile isDecimal = fraction places :=
    dropWhile_append_of_head? whole.isDecimal hend
  obtain ⟨d, more, hwhole⟩ := List.exists_cons_of_ne_nil whole.ne_nil
  rw [ObjectLiteral.isNumberKey, text, htake, hdrop, hwhole]
  cases places with
  | none => rfl
  | some digits =>
      have hplaces : digits.chars.all isDecimal = true := List.all_eq_true.mpr digits.isDecimal
      simp [fraction, digits.ne_nil, hplaces]

theorem balanced (k : PropertyKey) : Balanced .brackets false k.text := by
  have hbalanced {u : List Char} (hu : ∀ c ∈ u, isNameChar c = true ∨ c = '.') :
      Balanced .brackets false u := by
    refine Pairing.among_brackets.balanced_of_all (List.all_eq_true.mpr fun c hc => ?_)
    rcases hu c hc with hname | rfl
    · rw [isUnpaired_of_isNameChar hname (by decide)]
      simpa using ne_of_isNameChar hname (by decide)
    · decide
  cases k with
  | name chars hname => exact hbalanced fun c hc => Or.inl (isNameChar_of_isName hname c hc)
  | number whole places => exact hbalanced (number_chars whole places)
  | quoted quote inside hquote hnone hescape =>
      have hquoted : Balanced .brackets false (quote :: (inside ++ [quote]) ++ []) :=
        .literal (terminated_quoted hquote (quoted_of_notMem hnone hescape)) .nil
      rwa [List.append_nil] at hquoted

theorem solid (k : PropertyKey) : Solid k.text := by
  cases k with
  | name chars hname => exact solid_of_isName hname
  | number whole places =>
      cases places with
      | none =>
          rw [text, fraction, List.append_nil]
          exact whole.solid
      | some digits => exact whole.solid.append digits.solid ['.']
  | quoted quote inside hquote =>
      have hblank : isBlank quote = false := by
        rcases hquote with rfl | rfl <;> decide
      exact solid_between hblank hblank inside

theorem selfContained (k : PropertyKey) : SelfContained k.text :=
  k.balanced.selfContained Pairing.proper_brackets

/-- No colon and no bracket shows in a masked key. -/
theorem inKey_of_mem_mask (k : PropertyKey) : ∀ c ∈ mask k.text, InKey c := by
  have hplain {u : List Char} (hu : ∀ c ∈ u, isNameChar c = true ∨ c = '.') :
      ∀ c ∈ mask u, InKey c := by
    have hmask : mask u = u := by
      refine mask_plain (List.all_eq_true.mpr fun c hc => ?_)
      rcases hu c hc with hname | rfl
      · exact isPlain_of_isNameChar hname
      · decide
    rw [hmask]
    intro c hc
    rcases hu c hc with hname | rfl
    · exact inKey_of_isNameChar hname
    · exact ⟨by decide, rfl⟩
  cases k with
  | name chars hname => exact hplain fun c hc => Or.inl (isNameChar_of_isName hname c hc)
  | number whole places => exact hplain (number_chars whole places)
  | quoted quote inside hquote hnone hescape =>
      have hmask := maskFrom_literal hquote (quoted_of_notMem hnone hescape) [] []
      rw [maskFrom_nil] at hmask
      rw [mask_eq, text, hmask]
      have hends : InKey quote := by
        rcases hquote with rfl | rfl <;> exact ⟨by decide, rfl⟩
      refine List.forall_mem_cons.mpr ⟨hends, List.forall_mem_append.mpr ⟨?_, ?_⟩⟩
      · intro c hc
        obtain ⟨d, -, rfl⟩ := List.mem_map.mp hc
        rcases blanked_eq d with hd | hd <;> rw [hd] <;> exact ⟨by decide, rfl⟩
      · exact List.forall_mem_singleton.mpr hends

/-- A key starts with a quote or a character of names. -/
theorem head?_text (k : PropertyKey) :
    ∃ c ∈ k.text.head?, isNameChar c = true ∨ c = '"' ∨ c = '\'' := by
  cases k with
  | name chars hname =>
      have hne := ne_nil_of_isName hname
      exact ⟨_, List.head?_eq_some_head hne,
        Or.inl (isNameChar_of_isName hname _ (List.head_mem hne))⟩
  | number whole places =>
      obtain ⟨c, hc, hname⟩ := whole.head?_append (fraction places)
      exact ⟨c, hc, Or.inl hname⟩
  | quoted quote inside hquote => exact ⟨quote, rfl, Or.inr hquote⟩

theorem keyName?_of_head? {u : List Char} (hsolid : Solid u)
    (hhead : ∃ c ∈ u.head?, isNameChar c = true)
    (hkey : (isName u || ObjectLiteral.isNumberKey u) = true) :
    ObjectLiteral.keyName? u = some u := by
  obtain ⟨c, hc, hname⟩ := hhead
  have hdouble : c ≠ '"' := ne_of_isNameChar hname (by decide)
  have hsingle : c ≠ '\'' := ne_of_isNameChar hname (by decide)
  rw [ObjectLiteral.keyName?, trim_of_solid hsolid, hkey, Option.mem_def.mp hc]
  simp [hdouble, hsingle]

/-- A key is read as its property name. -/
theorem keyName?_text (k : PropertyKey) : ObjectLiteral.keyName? k.text = some k.key := by
  cases k with
  | name chars hname =>
      have hne := ne_nil_of_isName hname
      have hhead := isNameChar_of_isName hname _ (List.head_mem hne)
      exact keyName?_of_head? (solid_of_isName hname) ⟨_, List.head?_eq_some_head hne, hhead⟩
        (by rw [text, hname, Bool.true_or])
  | number whole places =>
      exact keyName?_of_head? (number whole places).solid (whole.head?_append (fraction places))
        (by rw [isNumberKey_number, Bool.or_true])
  | quoted quote inside hquote hnone hescape =>
      have hlast : (quote :: (inside ++ [quote])).getLast? = some quote := by
        rw [← List.cons_append, List.getLast?_concat]
      rw [ObjectLiteral.keyName?, trim_of_solid (solid _)]
      rcases hquote with rfl | rfl <;> simp [text, key, hlast]

end PropertyKey

end Keys

namespace WrittenEntry

open ObjectLiteral

theorem balanced_text (w : WrittenEntry) : Balanced .brackets false w.text := by
  have hunpaired {u v : List Char} (hu : u.all (fun c => isUnpaired Pairing.bracketPairs c &&
      (false || c != ',')) = true) (hv : Balanced .brackets false v) :
      Balanced .brackets false (u ++ v) :=
    (Pairing.among_brackets.balanced_of_all hu).append hv
  cases w with
  | shorthand name hname => exact (PropertyKey.name name hname).balanced
  | spread operand => exact hunpaired (u := ['.', '.', '.']) (by decide) operand.balanced
  | keyed key value =>
      exact key.balanced.append (hunpaired (u := [':', ' ']) (by decide) value.balanced)

theorem solid_text (w : WrittenEntry) : Solid w.text := by
  cases w with
  | shorthand name hname => exact solid_of_isName hname
  | spread operand =>
      exact (solid_singleton (by decide : isBlank '.' = false)).append operand.solid ['.', '.']
  | keyed key value => exact key.solid.append value.solid [':', ' ']

/-- The colon of a key is the first one outside brackets. -/
theorem firstOutside?_append {nesting : Char → Int} {wanted : Char} {u : List Char}
    (h : ∀ c ∈ u, c ≠ wanted ∧ nesting c = 0) (rest : List Char) :
    firstOutside? nesting wanted 0 (u ++ wanted :: rest) = some u.length := by
  induction u with
  | nil => simp [firstOutside?]
  | cons c u ih =>
      obtain ⟨⟨hc, hnesting⟩, hu⟩ := List.forall_mem_cons.mp h
      rw [List.cons_append, firstOutside?, hnesting, Int.add_zero, ih hu]
      simp [hc]

theorem firstOutside?_eq_none {nesting : Char → Int} {wanted : Char} {u : List Char}
    (h : wanted ∉ u) (depth : Int) : firstOutside? nesting wanted depth u = none := by
  induction u generalizing depth with
  | nil => rfl
  | cons c u ih =>
      obtain ⟨hc, hu⟩ := not_or.mp (mt List.mem_cons.mpr h)
      rw [firstOutside?, ih hu]
      simp [Ne.symm hc]

theorem after?_dots {t : List Char} (h : ∃ c ∈ t.head?, c ≠ '.') :
    after? "...".toList t = none := by
  obtain ⟨c, hc, hne⟩ := h
  obtain ⟨t, rfl⟩ := List.head?_eq_some_iff.mp hc
  exact if_neg (Ne.symm hne)

theorem readEntry_shorthand {name : List Char} (hname : isName name = true) :
    readEntry name = .property ⟨name, name, true⟩ := by
  have hchars := isNameChar_of_isName hname
  have hmask : mask name = name :=
    mask_plain (List.all_eq_true.mpr fun c hc => isPlain_of_isNameChar (hchars c hc))
  have hcolon : ':' ∉ name := fun hmem => ne_of_isNameChar (hchars _ hmem) (by decide) rfl
  have hne := ne_nil_of_isName hname
  have hdots : ∃ c ∈ name.head?, c ≠ '.' :=
    ⟨_, List.head?_eq_some_head hne,
      ne_of_isNameChar (hchars _ (List.head_mem hne)) (by decide)⟩
  rw [readEntry, after?_dots hdots, hmask, firstOutside?_eq_none hcolon]
  simp [hname]

theorem readEntry_keyed (key : PropertyKey) (value : Operand) :
    readEntry (key.text ++ ':' :: ' ' :: value.chars) =
      .property ⟨key.key, value.chars, false⟩ := by
  have hdots : ∃ c ∈ (key.text ++ ':' :: ' ' :: value.chars).head?, c ≠ '.' := by
    obtain ⟨c, hc, hkey⟩ := key.head?_text
    refine ⟨c, by rw [List.head?_append, Option.mem_def.mp hc]; rfl, ?_⟩
    rcases hkey with hname | rfl | rfl
    · exact ne_of_isNameChar hname (by decide)
    · decide
    · decide
  have hvalue := value.balanced.selfContained Pairing.proper_brackets
  have hspace := hvalue.cons (by decide : isPlain ' ' = true)
  have hmask : mask (key.text ++ ':' :: ' ' :: value.chars) =
      mask key.text ++ ':' :: mask (' ' :: value.chars) := by
    rw [key.selfContained.mask_append (hspace.cons (by decide)), hspace.mask_cons (by decide)]
  have htrim : trim ([' '] ++ (value.chars ++ [])) = value.chars :=
    trim_append (by decide) rfl value.solid
  rw [List.append_nil] at htrim
  rw [readEntry, after?_dots hdots, hmask, firstOutside?_append key.inKey_of_mem_mask, length_mask]
  dsimp only
  rw [List.take_left, ← List.drop_drop, List.drop_left, key.keyName?_text]
  dsimp only
  rw [List.drop_one, List.tail_cons]
  exact congrArg (fun chars => ObjectEntry.property ⟨key.key, chars, false⟩) htrim

/-- An entry is read as what it spells out. -/
theorem readEntry_text (w : WrittenEntry) : readEntry w.text = w.entry := by
  cases w with
  | shorthand name hname => exact readEntry_shorthand hname
  | spread operand =>
      have hafter : after? "...".toList ('.' :: '.' :: '.' :: operand.chars) =
          some operand.chars := after?_eq_some_iff.mpr rfl
      rw [text, readEntry, hafter]
      dsimp only
      rw [trim_of_solid operand.solid, entry]
  | keyed key value => exact readEntry_keyed key value

section Literal

variable (entries : List WrittenEntry) (trailing : Bool)

theorem balanced_inside : Balanced .brackets true (inside entries trailing) := by
  have hentries : ∀ t ∈ entries.map text, Balanced .brackets false t := by
    intro t ht
    obtain ⟨w, -, rfl⟩ := List.mem_map.mp ht
    exact w.balanced_text
  refine (balanced_intercalate Pairing.proper_brackets hentries).append ?_
  cases trailing with
  | false => exact .nil
  | true => exact Pairing.among_brackets.balanced_of_all (by decide)

/-- Between the braces stand the texts of the entries, and nothing more but empty parts. -/
theorem splitCommas_inside :
    (splitCommas (inside entries trailing)).filter (fun part => !part.isEmpty) =
      entries.map text := by
  have hparts : ∀ t ∈ entries.map text, Balanced .brackets false t ∧ Solid t := by
    intro t ht
    obtain ⟨w, -, rfl⟩ := List.mem_map.mp ht
    exact ⟨w.balanced_text, w.solid_text⟩
  have hfilter : (entries.map text).filter (fun part => !part.isEmpty) = entries.map text := by
    refine List.filter_eq_self.mpr fun t ht => ?_
    simpa using (hparts t ht).2.ne_nil
  rw [splitCommas, inside]
  cases trailing with
  | false =>
      have hsplit := split_balanced Pairing.proper_brackets hparts blank_nil blank_nil
      rw [List.nil_append] at hsplit
      rw [if_neg Bool.false_ne_true, hsplit, hfilter]
  | true =>
      rw [if_pos rfl]
      cases entries with
      | nil => rfl
      | cons w entries =>
          have hsplit := split_trailing Pairing.proper_brackets (List.cons_ne_nil _ _) hparts
          rw [List.map_cons] at hfilter ⊢
          rw [hsplit, hfilter]

/-- The literal without its braces. -/
theorem body_print : ObjectLiteral.body (print entries trailing) 0 = inside entries trailing := by
  have hinside := balanced_inside entries trailing
  have hproper : (Pairing.brackets.also '\x7b' '\x7d').Proper := by
    rw [Pairing.also_curly]
    exact Pairing.proper_brackets
  have hclose := matching?_of_balanced hproper (by rwa [Pairing.also_curly]) nofun [] []
  rw [List.nil_append, List.length_nil] at hclose
  have hslice : slice ('\x7b' :: (inside entries trailing ++ ['\x7d'])) 1
      (0 + 1 + (inside entries trailing).length) = inside entries trailing := by
    rw [slice, List.drop_one, List.tail_cons, Nat.zero_add, Nat.add_sub_cancel_left, List.take_left]
  rw [ObjectLiteral.body, print, hclose, Option.getD_some, Nat.zero_add, hslice,
    hinside.stripComments_eq Pairing.proper_brackets]

theorem map_readEntry_inside :
    ((splitCommas (inside entries trailing)).filter fun part => !part.isEmpty).map readEntry =
      entries.map entry := by
  rw [splitCommas_inside, List.map_map]
  exact List.map_congr_left fun w _ => w.readEntry_text

/-- An object literal in any number of parentheses is read as the properties and the spreads that
its entries spell out. -/
theorem read?_print (wraps : Nat) :
    ObjectLiteral.read? (wrapped wraps (print entries trailing)) = some (literal entries) := by
  have hinside := balanced_inside entries trailing
  have hprint : Balanced .brackets true (print entries trailing) :=
    .bracket rfl hinside (fun h => absurd h (by decide)) .nil
  have hself : SelfContained (inside entries trailing ++ ['\x7d']) :=
    (hinside.selfContained Pairing.proper_brackets).append (selfContained_singleton (by decide))
  have hmask : mask (print entries trailing) =
      '\x7b' :: mask (inside entries trailing ++ ['\x7d']) := hself.mask_cons (by decide)
  rw [ObjectLiteral.read?, stripParens_wrapped hprint (solid_between (by decide) (by decide) _)
    (by simp [print]), hmask, firstOutside?, if_pos (by decide)]
  simp only [Option.map_some, body_print, map_readEntry_inside]
  rw [List.filterMap_map, List.filterMap_map, literal]
  congr 3 <;> funext w <;> cases w <;> rfl

end Literal

end WrittenEntry

end PluginContract.Script
