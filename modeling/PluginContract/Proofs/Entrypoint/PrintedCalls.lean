import PluginContract.Proofs.Entrypoint.Lookback
import PluginContract.Proofs.Script.Balanced
import PluginContract.Proofs.Script.Shown
import PluginContract.Proofs.Text.Occurrences

/-!
# Calls and the text that they are printed as

Every call that is found stands in code, at the name of its function. And a call that is
printed between plain code, with balanced type arguments and arguments, is found again, with
just these arguments, and no other call is found beside it.
-/

namespace PluginContract.Entrypoint

open Text Script Source

/-- An item of a printed list: balanced code without a comma outside of brackets, trimmed and not
empty, in which the name of the function does not stand. -/
structure Item (pairing : Pairing) (name u : List Char) : Prop where
  balanced : Balanced pairing false u
  solid : Solid u
  lacks : ¬ name <:+: u

/-- A call of a function to be printed, with the code before and after it. -/
structure PrintedCall (name : List Char) where
  before : List Char
  typeArguments : List (List Char)
  arguments : List (List Char)
  after : List Char
  plain_before : Plain before
  lacks_before : ¬ name <:+: before
  detached : Detached before.getLast?
  undeclared : ∀ front lead, IsLead lead → before ≠ front ++ (declarationKeyword ++ lead)
  typed : typeArguments ≠ []
  typeArgument : ∀ u ∈ typeArguments, Item .angled name u ∧ u.getLast? ≠ some '='
  argument : ∀ u ∈ arguments, Item .brackets name u
  plain_after : Plain after
  lacks_after : ¬ name <:+: after

/-- Items as they are printed. -/
def list (items : List (List Char)) : List Char := [',', ' '].intercalate items

namespace PrintedCall

variable {name : List Char}

/-- The text of a printed call, from its name to its last bracket and the code around it. -/
def text (p : PrintedCall name) : List Char :=
  p.before ++ (name ++ '<' :: (list p.typeArguments ++ '>' :: '(' ::
    (list p.arguments ++ ')' :: p.after)))

end PrintedCall

section Sound

variable {m : Module} {function : String} {call : Callsite}

/-- A call stands in code, at the name of its function. -/
theorem named_of_mem_callsites (hname : IsFunctionName function.toList)
    (h : call ∈ callsites m function) :
    (∃ c, (call.offset, c) ∈ codeAt m.text 0) ∧ function.toList <+: m.text.drop call.offset := by
  obtain ⟨start, angle, angleEnd, parenthesis, parenthesisEnd, hat, -, -, rfl⟩ :=
    (mem_callsites_iff hname).mp h
  refine ⟨?_, prefix_drop_of_mask hname.2 hat.named⟩
  obtain ⟨c, name, hcons⟩ := List.exists_cons_of_ne_nil hname.1
  obtain ⟨rest, hrest⟩ := hat.named
  have hc : isNameChar c = true := hname.2 c (by rw [hcons]; exact List.mem_cons_self)
  have hmask : (mask m.text)[start]? = some c := by
    have hhead := congrArg List.head? hrest
    rwa [hcons, List.head?_drop, eq_comm] at hhead
  obtain ⟨htext, hrole⟩ := code_of_getElem?_mask hmask (isPlain_of_isNameChar hc)
    (not_isBlank_of_isNameChar hc)
  refine ⟨c, mem_codeAt_iff.mpr ⟨htext, ?_⟩⟩
  show (roleAt m.text start).isSeen = true
  rw [hrole]
  rfl

end Sound

section Before

variable {lead t : List Char}

theorem blanksUpTo_of_split {s u v : List Char} {c : Char} {i : Nat} (h : s = u ++ c :: v)
    (hi : i = u.length) : BlanksUpTo s i c i :=
  ⟨[], v, by rw [h, hi, List.drop_left]; rfl, rfl, rfl⟩

theorem IsLead.reverse (h : IsLead lead) : IsLead lead.reverse := by
  obtain ⟨gap, star, gap', rfl, hgap, hstar, hgap'⟩ := h
  refine ⟨gap'.reverse, star, gap.reverse, ?_, by rwa [List.all_reverse], hstar,
    by rwa [List.all_reverse]⟩
  rcases hstar with rfl | rfl
  · simp
  · simp

/-- What is taken away before a name are blanks and a star. -/
theorem exists_lead_append_beforeStar (t : List Char) :
    ∃ lead, t = lead ++ beforeStar t ∧ IsLead lead := by
  have hsplit (u : List Char) : u = u.takeWhile isBlank ++ trimStart u :=
    List.takeWhile_append_dropWhile.symm
  rw [beforeStar]
  split
  · rename_i rest htrim
    refine ⟨t.takeWhile isBlank ++ (['*'] ++ rest.takeWhile isBlank), ?_, _, _, _, rfl,
      List.all_takeWhile, Or.inr rfl, List.all_takeWhile⟩
    rw [List.append_assoc, List.append_assoc, ← hsplit rest]
    exact (hsplit t).trans (congrArg (_ ++ ·) htrim)
  · exact ⟨t.takeWhile isBlank, hsplit t, isLead_of_all List.all_takeWhile⟩

/-- A text before a name that does not end in the keyword of a declaration declares nothing. -/
theorem isDeclared_eq_false_of_take {masked : List Char} {i : Nat} (htake : masked.take i = t)
    (h : ∀ front lead, IsLead lead → t ≠ front ++ (declarationKeyword ++ lead)) :
    isDeclared masked i = false := by
  rw [isDeclared, htake]
  split
  · rename_i rest hafter
    obtain ⟨lead, hwindow, hlead⟩ :=
      exists_lead_append_beforeStar (t.reverse.take declarationWindow)
    rw [after?_eq_some_iff.mp hafter, ← reverse_declarationKeyword] at hwindow
    have hwhole := List.take_append_drop declarationWindow t.reverse
    rw [hwindow, List.append_assoc, List.append_assoc] at hwhole
    have ht := congrArg List.reverse hwhole
    simp only [List.reverse_append, List.reverse_reverse] at ht
    refine absurd (ht.symm.trans ?_) (h ((t.reverse.drop declarationWindow).reverse ++ rest.reverse)
      lead.reverse hlead.reverse)
    simp only [List.append_assoc]
  · rfl

end Before

/-- A list of items ends as one of them. -/
theorem exists_getLast?_list {items : List (List Char)} (hne : items ≠ [])
    (h : ∀ u ∈ items, u ≠ []) : ∃ u ∈ items, (list items).getLast? = u.getLast? := by
  induction items with
  | nil => exact absurd rfl hne
  | cons u items ih =>
      cases items with
      | nil => exact ⟨u, List.mem_cons_self, by rw [list, List.intercalate_singleton]⟩
      | cons next items =>
          obtain ⟨v, hv, hlast⟩ := ih (by simp) (List.forall_mem_cons.mp h).2
          have hsome := List.getLast?_eq_some_getLast (h v (List.mem_cons_of_mem u hv))
          refine ⟨v, List.mem_cons_of_mem u hv, ?_⟩
          rw [list, List.intercalate_cons_cons, List.getLast?_append, ← list, hlast, hsome]
          rfl

namespace PrintedCall

variable {name : List Char} (p : PrintedCall name)

theorem balanced_typeArguments : Balanced .angled true (list p.typeArguments) :=
  balanced_intercalate Pairing.proper_angled fun u hu => (p.typeArgument u hu).1.balanced

theorem balanced_arguments : Balanced .brackets true (list p.arguments) :=
  balanced_intercalate Pairing.proper_brackets fun u hu => (p.argument u hu).balanced

/-- The masked text of a printed call hides nothing but the insides of literals in its lists. -/
theorem mask_text (hname : IsFunctionName name) :
    mask p.text = p.before ++ (name ++ '<' :: (mask (list p.typeArguments) ++ '>' :: '(' ::
      (mask (list p.arguments) ++ ')' :: p.after))) := by
  have hplain : Plain name :=
    List.all_eq_true.mpr fun c hc => isPlain_of_isNameChar (hname.2 c hc)
  have hlast : Plain (')' :: p.after) := by
    have hafter := p.plain_after
    simpa [Plain, show isPlain ')' = true by decide] using hafter
  have htypes := p.balanced_typeArguments.selfContained Pairing.proper_angled
  have hvalues := p.balanced_arguments.selfContained Pairing.proper_brackets
  have hinside := hvalues.append (selfContained_plain hlast)
  have hround := hinside.cons (by decide : isPlain '(' = true)
  have hclosing := hround.cons (by decide : isPlain '>' = true)
  have hopening := (htypes.append hclosing).cons (by decide : isPlain '<' = true)
  rw [text, (selfContained_plain p.plain_before).mask_append
      ((selfContained_plain hplain).append hopening), mask_plain p.plain_before,
    (selfContained_plain hplain).mask_append hopening, mask_plain hplain,
    (htypes.append hclosing).mask_cons (by decide), htypes.mask_append hclosing,
    hround.mask_cons (by decide), hinside.mask_cons (by decide),
    hvalues.mask_append (selfContained_plain hlast), mask_plain hlast]

theorem getLast?_typeArguments : (list p.typeArguments).getLast? ≠ some '=' := by
  obtain ⟨u, hu, hlast⟩ := exists_getLast?_list p.typed fun u hu =>
    (p.typeArgument u hu).1.solid.ne_nil
  rw [hlast]
  exact (p.typeArgument u hu).2

/-- The form of a call stands where the call is printed. -/
theorem callAt (hname : IsFunctionName name) :
    let angle := p.before.length + name.length
    let angleEnd := angle + 1 + (list p.typeArguments).length
    CallAt p.text name p.before.length angle angleEnd (angleEnd + 1)
      (angleEnd + 1 + 1 + (list p.arguments).length) := by
  intro angle angleEnd
  have hmask := p.mask_text hname
  constructor
  case named =>
    rw [hmask, List.drop_left]
    exact List.prefix_append _ _
  case opensAngle =>
    refine blanksUpTo_of_split (hmask.trans (List.append_assoc _ _ _).symm) ?_
    rw [List.length_append]
  case closesAngle =>
    have hmatching := matching?_of_balanced Pairing.proper_angled p.balanced_typeArguments
      (fun _ => p.getLast?_typeArguments) (p.before ++ name)
      ('(' :: (list p.arguments ++ ')' :: p.after))
    rwa [List.append_assoc, List.length_append] at hmatching
  case opensParenthesis =>
    have hsplit : mask p.text =
        (p.before ++ (name ++ '<' :: (mask (list p.typeArguments) ++ ['>']))) ++
          '(' :: (mask (list p.arguments) ++ ')' :: p.after) := by
      rw [hmask]
      simp only [List.append_assoc, List.cons_append, List.nil_append]
    refine blanksUpTo_of_split hsplit ?_
    simp only [List.length_append, List.length_cons, List.length_nil, length_mask]
    omega
  case closesParenthesis =>
    have hround : Balanced (Pairing.brackets.also '(' ')') true (list p.arguments) := by
      rw [Pairing.also_round]
      exact p.balanced_arguments
    have hproper : (Pairing.brackets.also '(' ')').Proper := by
      rw [Pairing.also_round]
      exact Pairing.proper_brackets
    have hmatching := matching?_of_balanced hproper hround nofun
      (p.before ++ (name ++ '<' :: (list p.typeArguments ++ ['>']))) p.after
    have hlength : (p.before ++ (name ++ '<' :: (list p.typeArguments ++ ['>']))).length =
        angleEnd + 1 := by
      simp only [List.length_append, List.length_cons, List.length_nil]
      omega
    rw [hlength] at hmatching
    simpa only [text, List.append_assoc, List.cons_append, List.nil_append] using hmatching

/-- The name of the function stands nowhere else. -/
theorem eq_of_prefix_drop (hname : IsFunctionName name) {i : Nat} (h : name <+: p.text.drop i) :
    i = p.before.length := by
  have hnot {c : Char} (hc : isNameChar c = false) : c ∉ name := by
    intro hmem
    rw [hname.2 c hmem] at hc
    cases hc
  rw [text, ← List.append_assoc] at h
  rcases prefix_drop_append_cons (hnot (by decide : isNameChar '<' = false)) h with
    hfirst | ⟨-, hrest⟩
  · have hle := hfirst.length_le
    have hpos : 0 < name.length := List.length_pos_iff.mpr hname.1
    rw [List.length_drop, List.length_append] at hle
    apply Nat.le_antisymm (by omega)
    apply Nat.le_of_not_lt
    intro hlt
    -- the name would start in the code before, and so hold the character before the name
    obtain ⟨b, d, hb⟩ : ∃ b d, p.before = b ++ [d] := by
      rcases List.eq_nil_or_concat p.before with hnil | ⟨b, d, hb⟩
      · rw [hnil] at hlt
        exact absurd hlt (Nat.not_lt_zero i)
      · exact ⟨b, d, hb.trans List.concat_eq_append⟩
    have hd : isNameChar d = false := (p.detached d (by rw [hb]; simp)).1
    rw [hb, List.append_assoc] at hfirst
    rcases prefix_drop_append_cons (hnot hd) hfirst with hinside | ⟨hlt', -⟩
    · refine p.lacks_before ((infix_of_prefix_drop hinside).trans ?_)
      rw [hb]
      exact (List.prefix_append b [d]).isInfix
    · rw [hb, List.length_append, List.length_singleton] at hlt
      omega
  · exfalso
    rcases infix_of_append_cons (hnot (by decide : isNameChar '>' = false)) hrest with
      htypes | hrest
    · obtain ⟨u, hu, hinfix⟩ := exists_infix_of_intercalate hname.1 (hnot (by decide))
        (hnot (by decide)) htypes
      exact (p.typeArgument u hu).1.lacks hinfix
    rcases infix_of_append_cons (u := []) (hnot (by decide : isNameChar '(' = false)) hrest with
      hnil | hrest
    · exact hname.1 (List.infix_nil.mp hnil)
    rcases infix_of_append_cons (hnot (by decide : isNameChar ')' = false)) hrest with
      hvalues | hafter
    · obtain ⟨u, hu, hinfix⟩ := exists_infix_of_intercalate hname.1 (hnot (by decide))
        (hnot (by decide)) hvalues
      exact (p.argument u hu).lacks hinfix
    · exact p.lacks_after hafter

/-- What the search finds at the offsets of a printed call is the call. -/
theorem callOf_text {m : Module} (hm : m.text = p.text) (function : String) :
    let angle := p.before.length + name.length
    let angleEnd := angle + 1 + (list p.typeArguments).length
    callOf m function p.before.length angle angleEnd (angleEnd + 1)
        (angleEnd + 1 + 1 + (list p.arguments).length) =
      { function, file := m.path, typeArguments := p.typeArguments, arguments := p.arguments
        offset := p.before.length } := by
  intro angle angleEnd
  have htypes : slice m.text (angle + 1) angleEnd = list p.typeArguments := by
    refine slice_eq (a := p.before ++ (name ++ ['<']))
      (c := '>' :: '(' :: (list p.arguments ++ ')' :: p.after)) ?_ ?_ ?_
    · rw [hm, text]
      simp only [List.append_assoc, List.cons_append, List.nil_append]
    · simp only [List.length_append, List.length_cons, List.length_nil]
      omega
    · simp only [List.length_append, List.length_cons, List.length_nil]
      omega
  have hvalues : slice m.text (angleEnd + 1 + 1) (angleEnd + 1 + 1 + (list p.arguments).length) =
      list p.arguments := by
    refine slice_eq (a := p.before ++ (name ++ '<' :: (list p.typeArguments ++ ['>', '('])))
      (c := ')' :: p.after) ?_ ?_ ?_
    · rw [hm, text]
      simp only [List.append_assoc, List.cons_append, List.nil_append]
    · simp only [List.length_append, List.length_cons, List.length_nil]
      omega
    · simp only [List.length_append, List.length_cons, List.length_nil]
      omega
  have hsplitTypes : split .angled [','] (list p.typeArguments) = p.typeArguments := by
    rw [← List.append_nil (list _)]
    exact split_balanced Pairing.proper_angled (fun u hu =>
      ⟨(p.typeArgument u hu).1.balanced, (p.typeArgument u hu).1.solid⟩) blank_nil blank_nil
  have hsplitValues : splitCommas (list p.arguments) = p.arguments := by
    rw [splitCommas, ← List.append_nil (list _)]
    exact split_balanced Pairing.proper_brackets (fun u hu =>
      ⟨(p.argument u hu).balanced, (p.argument u hu).solid⟩) blank_nil blank_nil
  rw [callOf, htypes, hvalues, hsplitTypes, hsplitValues]

end PrintedCall

theorem eq_singleton_of_pairwise {calls : List Callsite} {call : Callsite}
    (h : calls.Pairwise fun c d => c.offset < d.offset) (hmem : call ∈ calls)
    (hall : ∀ c ∈ calls, c.offset = call.offset) : calls = [call] := by
  match calls, h with
  | [c], _ => rw [List.mem_singleton.mp hmem]
  | c :: d :: calls, h =>
      have hlt := List.rel_of_pairwise_cons h List.mem_cons_self
      rw [hall c (by simp), hall d (by simp)] at hlt
      exact absurd hlt (Nat.lt_irrefl _)

/-- Calls are found in source order, each in code at the name of its function; and where a call is
printed, just that call is found. -/
theorem callsites_printed (m : Module) {function : String}
    (hname : IsFunctionName function.toList) :
    ((callsites m function).Pairwise (fun c d => c.offset < d.offset) ∧
      ∀ call ∈ callsites m function, (∃ c, (call.offset, c) ∈ codeAt m.text 0) ∧
        function.toList <+: m.text.drop call.offset) ∧
    ∀ p : PrintedCall function.toList, m.text = p.text →
      callsites m function =
        [{ function, file := m.path, typeArguments := p.typeArguments, arguments := p.arguments
           offset := p.before.length }] := by
  refine ⟨⟨pairwise_callsites m function, fun call => named_of_mem_callsites hname⟩, ?_⟩
  intro p hm
  have htake : (mask m.text).take p.before.length = p.before := by
    rw [hm, p.mask_text hname, List.take_left]
  have hcall := (mem_callsites_iff hname).mpr ⟨_, _, _, _, _, hm ▸ p.callAt hname,
    htake.symm ▸ p.detached, isDeclared_eq_false_of_take htake p.undeclared, rfl⟩
  rw [p.callOf_text hm function] at hcall
  refine eq_singleton_of_pairwise (pairwise_callsites m function) hcall ?_
  intro call hmem
  apply p.eq_of_prefix_drop hname
  rw [← hm]
  exact (named_of_mem_callsites hname hmem).2

/-- A type with an arrow in angle brackets. -/
def arrowType : List Char :=
  "Map".toList ++ ('<' :: (("string".toList ++ (',' :: ' ' :: '(' :: ("x: A".toList ++ ')' ::
    (' ' :: '=' :: '>' :: " B".toList)))) ++ '>' :: []))

/-- An array of a string and a template, with brackets and commas in both. -/
def literalArray : List Char :=
  '[' :: (("'),'".toList ++ ',' :: ' ' :: ("`$\x7bf(\")\")\x7d,`".toList ++ [])) ++ ']' :: [])

theorem item_arrowType : Item .angled "createPlugin".toList arrowType := by
  have hall {u : List Char} (hu) : Balanced .angled false u :=
    Pairing.among_angled.balanced_of_all hu
  constructor
  case balanced =>
    refine (hall (by decide)).append (.bracket rfl ?_ (by decide) .nil)
    refine (hall (by decide)).allow.append ?_
    refine .plain (by decide) (Pairing.proper_angled.separators ',' (by simp)) (fun _ => rfl) ?_
    refine .plain (by decide) (Pairing.proper_angled.separators ' ' (by simp)) nofun ?_
    refine .bracket rfl (hall (by decide)).allow nofun ?_
    refine .plain (by decide) (Pairing.proper_angled.separators ' ' (by simp)) nofun ?_
    exact .arrow (hall (by decide)).allow
  case solid => exact ⟨⟨'M', rfl, by decide⟩, '>', rfl, by decide⟩
  case lacks => decide +kernel

theorem item_literalArray : Item .brackets "createPlugin".toList literalArray := by
  constructor
  case balanced =>
    refine .bracket rfl ?_ nofun .nil
    refine .literal (terminated_of_notMem ⟨'\'', rfl, rfl⟩ (by decide +kernel) (by decide)) ?_
    refine .plain (by decide) (Pairing.proper_brackets.separators ',' (by simp)) (fun _ => rfl) ?_
    refine .plain (by decide) (Pairing.proper_brackets.separators ' ' (by simp)) nofun ?_
    exact .literal (terminated_of_notMem ⟨backtick, rfl, rfl⟩ (by decide +kernel) (by decide)) .nil
  case solid => exact ⟨⟨'[', rfl, by decide⟩, ']', rfl, by decide⟩
  case lacks => decide +kernel

/-- A call between an export keyword and a semicolon. -/
def exportedCall : PrintedCall "createPlugin".toList where
  before := "export default ".toList
  typeArguments := [arrowType, "E".toList]
  arguments := ["h".toList, literalArray]
  after := ";\n".toList
  plain_before := rfl
  lacks_before := by decide +kernel
  detached := by
    intro c hc
    obtain rfl := Option.some.inj hc
    decide
  undeclared := by
    intro front lead _ hbefore
    have hinfix : declarationKeyword <:+: "export default ".toList :=
      ⟨front, lead, by rw [hbefore, List.append_assoc]⟩
    exact absurd hinfix (by decide +kernel)
  typed := List.cons_ne_nil _ _
  typeArgument := by
    intro u hu
    rcases List.mem_cons.mp hu with rfl | hu
    · exact ⟨item_arrowType, by decide⟩
    · obtain rfl := List.mem_singleton.mp hu
      exact ⟨⟨Pairing.among_angled.balanced_of_all (by decide), solid_singleton (by decide),
        by decide +kernel⟩, by decide⟩
  argument := by
    intro u hu
    rcases List.mem_cons.mp hu with rfl | hu
    · exact ⟨Pairing.among_brackets.balanced_of_all (by decide), solid_singleton (by decide),
        by decide +kernel⟩
    · obtain rfl := List.mem_singleton.mp hu
      exact item_literalArray
  plain_after := rfl
  lacks_after := by decide +kernel

/-- A module with just this call. -/
theorem callsites_printed_exportedCall :
    let m := Module.ofText (.ofString "/p/src/a.ts") exportedCall.text
    IsFunctionName "createPlugin".toList ∧ m.text = exportedCall.text ∧
      callsites m "createPlugin" =
        [{ function := "createPlugin", file := m.path, typeArguments := [arrowType, "E".toList]
           arguments := ["h".toList, literalArray], offset := 15 }] := by
  intro m
  exact ⟨isFunctionName_createPlugin, rfl,
    (callsites_printed m isFunctionName_createPlugin).2 exportedCall rfl⟩

end PluginContract.Entrypoint
