import PluginContract.Proofs.Script.Templates

/-!
# Parts joined by commas

However blanks stand around the commas between parts, and whether a comma follows the last one or
not, the parts are what the text is split into. Each part brings its own brackets, literals and
arrows, so that outside of all of them no comma stands but those between the parts.
-/

namespace PluginContract.Script

open Text

/-- Parts written one after another with commas between them, perhaps one more comma at the end, and
blanks anywhere around the parts. -/
inductive Joined : (parts : List (List Char)) → List Char → Prop
  | last {part lead tail : List Char} (hlead : lead.all isBlank = true)
      (htail : tail.all isBlank = true) : Joined [part] (lead ++ (part ++ tail))
  | trailing {part lead tail rest : List Char} (hlead : lead.all isBlank = true)
      (htail : tail.all isBlank = true) (hrest : rest.all isBlank = true) :
      Joined [part] (lead ++ (part ++ (tail ++ ',' :: rest)))
  | more {part lead tail t : List Char} {parts : List (List Char)}
      (hlead : lead.all isBlank = true) (htail : tail.all isBlank = true) (next : Joined parts t) :
      Joined (part :: parts) (lead ++ (part ++ (tail ++ ',' :: t)))

/-- Blanks are balanced, since no bracket is a blank. -/
theorem Pairing.Among.balanced_of_blanks {pairing : Pairing} {pairs : List (Char × Char)}
    (h : pairing.Among pairs)
    (hpairs : ∀ pair ∈ pairs, isBlank pair.1 = false ∧ isBlank pair.2 = false) {u : List Char}
    (hu : u.all isBlank = true) : Balanced pairing false u := by
  refine h.balanced_of_all (List.all_eq_true.mpr fun c hc => ?_)
  have hblank : isBlank c = true := List.all_eq_true.mp hu c hc
  have hcomma : c ≠ ',' := by
    rintro rfl
    revert hblank
    decide
  rw [isUnpaired_of_check (isPlain_of_isBlank hblank) hblank hpairs, Bool.false_or, Bool.true_and,
    bne_iff_ne]
  exact hcomma

section Joined

variable {pairing : Pairing} {part : List Char} {parts : List (List Char)} {t : List Char}

/-- Parts joined are pieces between commas, a last piece without a part among them or not. -/
theorem Joined.exists_pieces
    (hblanks : ∀ {u : List Char}, u.all isBlank = true → Balanced pairing false u)
    (hparts : ∀ part ∈ parts, Balanced pairing false part ∧ Solid part) (h : Joined parts t) :
    ∃ pieces last, t = [','].intercalate (pieces ++ [last]) ∧
      (∀ piece ∈ pieces, Balanced pairing false piece) ∧ Balanced pairing false last ∧
      parts = pieces.map trim ++ if (trim last).isEmpty then [] else [trim last] := by
  induction h with
  | @last part lead tail hlead htail =>
      obtain ⟨hpart, hsolid⟩ := List.forall_mem_singleton.mp hparts
      refine ⟨[], lead ++ (part ++ tail), ?_, nofun,
        (hblanks hlead).append (hpart.append (hblanks htail)), ?_⟩
      · rw [List.nil_append, List.intercalate_singleton]
      · rw [trim_append hlead htail hsolid, if_neg (by simpa using hsolid.ne_nil)]
        rfl
  | @trailing part lead tail rest hlead htail hrest =>
      obtain ⟨hpart, hsolid⟩ := List.forall_mem_singleton.mp hparts
      refine ⟨[lead ++ (part ++ tail)], rest, ?_, ?_, hblanks hrest, ?_⟩
      · rw [List.singleton_append, List.intercalate_cons_cons, List.intercalate_singleton]
        simp
      · exact List.forall_mem_singleton.mpr
          ((hblanks hlead).append (hpart.append (hblanks htail)))
      · rw [trim_of_blanks hrest, List.map_singleton, trim_append hlead htail hsolid]
        rfl
  | @more part lead tail t parts hlead htail _ ih =>
      obtain ⟨⟨hpart, hsolid⟩, hmore⟩ := List.forall_mem_cons.mp hparts
      obtain ⟨pieces, last, heq, hpieces, hlast, hparts⟩ := ih hmore
      refine ⟨(lead ++ (part ++ tail)) :: pieces, last, ?_, ?_, hlast, ?_⟩
      · rw [List.cons_append, List.intercalate_cons_of_ne_nil (by simp), ← heq]
        simp
      · exact List.forall_mem_cons.mpr
          ⟨(hblanks hlead).append (hpart.append (hblanks htail)), hpieces⟩
      · rw [List.map_cons, trim_append hlead htail hsolid, List.cons_append, ← hparts]

/-- Joined parts are split into the parts, if each is code of its own that is trimmed. -/
theorem split_joined (hpairing : pairing = .brackets ∨ pairing = .angled)
    (hparts : ∀ part ∈ parts, part ≠ [] ∧ trim part = part ∧ Formed (.code pairing false) part)
    (h : Joined parts t) : split pairing [','] t = parts := by
  have hblanks {u : List Char} (hu : u.all isBlank = true) : Balanced pairing false u := by
    rcases hpairing with rfl | rfl
    · exact Pairing.among_brackets.balanced_of_blanks (by decide) hu
    · exact Pairing.among_angled.balanced_of_blanks (by decide) hu
  have hproper : pairing.Proper := by
    rcases hpairing with rfl | rfl
    · exact Pairing.proper_brackets
    · exact Pairing.proper_angled
  have hpart (part : List Char) (hmem : part ∈ parts) :
      Balanced pairing false part ∧ Solid part := by
    obtain ⟨hne, htrim, hformed⟩ := hparts part hmem
    have hsolid : Solid (trim part) := solid_trim (by rwa [htrim])
    rw [htrim] at hsolid
    exact ⟨hformed.balanced, hsolid⟩
  obtain ⟨pieces, last, rfl, hpieces, hlast, heq⟩ := h.exists_pieces hblanks hpart
  rw [heq]
  exact splitFrom_commas hproper hpieces hlast none

/-- An arrow in angle brackets, commas and slashes in literals, and a comma at the end. -/
theorem split_joined_arrow :
    let parts := ["Map<(k) => V, `,$\x7b('/')\x7d`>".toList, "\",/\"".toList]
    (∀ part ∈ parts, part ≠ [] ∧ trim part = part ∧ Formed (.code .angled false) part) ∧
      Joined parts " Map<(k) => V, `,$\x7b('/')\x7d`>\t,\n \",/\",\n".toList ∧
      split .angled [','] " Map<(k) => V, `,$\x7b('/')\x7d`>\t,\n \",/\",\n".toList =
        parts := by
  intro parts
  have hpairs : Pairing.angled.Among (('<', '>') :: Pairing.bracketPairs) := Pairing.among_angled
  have hslash : Formed (.code .brackets true) "('/')".toList :=
    @Formed.bracket _ _ '(' ')' "'/'".toList [] rfl
      (@Formed.string _ _ '\'' ['/'] [] (.inr rfl) (.plain (by decide) (by decide) .nil) .nil)
      nofun .nil
  have htemplate : Formed .template ",$\x7b('/')\x7d".toList :=
    @Formed.text_append [','] _ (by decide)
      (@Formed.interpolation "('/')".toList [] hslash .empty)
  have htype : Formed (.code .angled true) " V, `,$\x7b('/')\x7d`".toList :=
    @Pairing.Among.formed_append _ _ _ " V, ".toList _ hpairs (by decide)
      (@Formed.template _ _ ",$\x7b('/')\x7d".toList [] htemplate .nil)
  have hinside : Formed (.code .angled true) "(k) => V, `,$\x7b('/')\x7d`".toList :=
    @Formed.bracket _ _ '(' ')' ['k'] _ rfl
      (@Pairing.Among.formed_append _ _ _ ['k'] [] hpairs (by decide) .nil) nofun
      (@Pairing.Among.formed_append _ _ _ [' '] _ hpairs (by decide) (.arrow htype))
  have hmap : Formed (.code .angled false) "Map<(k) => V, `,$\x7b('/')\x7d`>".toList :=
    @Pairing.Among.formed_append _ _ _ "Map".toList _ hpairs (by decide)
      (@Formed.bracket _ _ '<' '>' _ [] rfl hinside (fun _ => by decide) .nil)
  have hquoted : Formed (.code .angled false) "\",/\"".toList :=
    @Formed.string _ _ '"' [',', '/'] [] (.inl rfl)
      (.plain (by decide) (by decide) (.plain (by decide) (by decide) .nil)) .nil
  have hparts : ∀ part ∈ parts,
      part ≠ [] ∧ trim part = part ∧ Formed (.code .angled false) part :=
    List.forall_mem_cons.mpr ⟨⟨by decide, by decide, hmap⟩,
      List.forall_mem_singleton.mpr ⟨by decide, by decide, hquoted⟩⟩
  have hjoined : Joined parts " Map<(k) => V, `,$\x7b('/')\x7d`>\t,\n \",/\",\n".toList :=
    @Joined.more _ [' '] ['\t'] _ _ (by decide) (by decide)
      (@Joined.trailing _ ['\n', ' '] [] ['\n'] (by decide) (by decide) (by decide))
  exact ⟨hparts, hjoined, split_joined (.inr rfl) hparts hjoined⟩

end Joined

end PluginContract.Script
