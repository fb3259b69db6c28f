import PluginContract.Proofs.Script.Excerpts
import PluginContract.Proofs.Script.Plain

/-!
# Pieces that are scanned alike everywhere

Plain code has the same roles wherever it stands in code, and so has a string or a template
that is closed by its last character wherever it stands. Only a slash in the code of an
interpolation could read on past that character, so a literal without one need only be looked
at alone.
-/

namespace PluginContract.Script

open Text Region

/-- A piece that has the same roles wherever it stands in code, and after which code goes on. -/
def SelfContained (u : List Char) : Prop :=
  ∀ before rest, scanFrom before [] (u ++ rest) =
    scan u ++ scanFrom (u.reverse ++ before) [] rest

/-- A string or a template that its last character closes, wherever it stands. -/
structure Terminated (lit : List Char) : Prop where
  quote : ∃ q ∈ lit.head?, isQuote q = true
  ends : ∀ before rest, (literalEnd? (before ++ (lit ++ rest)) before.length).map (· + 1) =
    some (before.length + lit.length)

/-- The roles in a literal after its opening quote. -/
def insideRoles : List Char → List (Char × Role)
  | [] => []
  | [c] => [(c, .closing)]
  | c :: d :: u => (c, .content) :: insideRoles (d :: u)

section SelfContained

variable {u v : List Char}

theorem selfContained_nil : SelfContained [] := fun _ _ => rfl

theorem SelfContained.scan_append (hu : SelfContained u) (hv : SelfContained v) :
    scan (u ++ v) = scan u ++ scan v := by
  have hsecond := hv u.reverse []
  rw [List.append_nil, scanFrom, List.append_nil] at hsecond
  rw [scan, hu, List.append_nil, hsecond]

theorem SelfContained.append (hu : SelfContained u) (hv : SelfContained v) :
    SelfContained (u ++ v) := by
  intro before rest
  rw [List.append_assoc, hu, hv, hu.scan_append hv, List.append_assoc, List.reverse_append,
    List.append_assoc]

theorem selfContained_plain (h : Plain u) : SelfContained u := by
  intro before rest
  rw [scanFrom_plain h, scan_plain h]

theorem selfContained_singleton {c : Char} (h : isPlain c = true) : SelfContained [c] :=
  selfContained_plain (by simp [Plain, h])

theorem SelfContained.cons {c : Char} (hv : SelfContained v) (hc : isPlain c = true) :
    SelfContained (c :: v) := (selfContained_singleton hc).append hv

/-- A plain character before a self-contained piece is code, and leaves the piece as it is. -/
theorem SelfContained.scan_cons {c : Char} (hc : isPlain c = true) (hv : SelfContained v) :
    scan (c :: v) = (c, .code) :: scan v := by
  have hplain : Plain [c] := by simp [Plain, hc]
  have happend := (selfContained_plain hplain).scan_append hv
  rwa [scan_plain hplain] at happend

theorem SelfContained.mask_append (hu : SelfContained u) (hv : SelfContained v) :
    mask (u ++ v) = mask u ++ mask v := by
  rw [mask, hu.scan_append hv, List.map_append]
  rfl

theorem SelfContained.mask_cons {c : Char} (hc : isPlain c = true) (hv : SelfContained v) :
    mask (c :: v) = c :: mask v := by
  rw [mask, hv.scan_cons hc]
  rfl

theorem mask_plain (h : Plain u) : mask u = u := by
  have hmask := maskFrom_plain h [] []
  rwa [List.append_nil, maskFrom_nil, List.append_nil] at hmask

theorem SelfContained.stripComments_append (hu : SelfContained u) (hv : SelfContained v) :
    stripComments (u ++ v) = stripComments u ++ stripComments v := by
  rw [stripComments, hu.scan_append hv, List.map_append]
  rfl

theorem SelfContained.stripComments_cons {c : Char} (hc : isPlain c = true)
    (hv : SelfContained v) : stripComments (c :: v) = c :: stripComments v := by
  rw [stripComments, hv.scan_cons hc]
  rfl

theorem SelfContained.scanAt_append (hv : SelfContained v) (u rest : List Char) :
    scanAt (u ++ (v ++ rest)) u.length = scan v ++ scanFrom (v.reverse ++ u.reverse) [] rest := by
  rw [scanAt, List.take_left, List.drop_left, hv]

end SelfContained

section Literals

variable {before u lit rest : List Char} {regions : List Region}

theorem isSeen_insideRoles : ∀ entry ∈ insideRoles u, entry.2.isSeen = false := by
  fun_induction insideRoles u with
  | case1 => nofun
  | case2 c =>
      intro entry hentry
      obtain rfl := List.mem_singleton.mp hentry
      rfl
  | case3 c d u ih => exact List.forall_mem_cons.mpr ⟨rfl, ih⟩

theorem map_fst_insideRoles (u : List Char) : (insideRoles u).map Prod.fst = u := by
  fun_induction insideRoles u with
  | case1 => rfl
  | case2 c => rfl
  | case3 c d u ih => rw [List.map_cons, ih]

theorem uncommented_insideRoles (u : List Char) :
    (insideRoles u).map (fun entry => entry.2.uncommented entry.1) = u := by
  fun_induction insideRoles u with
  | case1 => rfl
  | case2 c => rfl
  | case3 c d u ih => exact congrArg (c :: ·) ih

/-- A step that does not leave the literal stays in it. -/
theorem inLiteral_of_step_eq_cons {c : Char} {region : Region} {outer : List Region}
    (h : inLiteral regions = true) (hstep : step before c rest regions = region :: outer) :
    inLiteral (region :: outer) = true := by
  rcases inLiteral_step h before c rest with hin | ⟨hregions, hquote⟩
  · rwa [hstep] at hin
  · rw [hregions, step_quoted_close hquote] at hstep
    cases hstep

/-- From within a literal that a piece leaves with its last character, all before that is content,
and code goes on after it. -/
theorem scanFrom_inside (h : inLiteral regions = true)
    (hout : (distanceOut? before regions (u ++ rest)).map (· + 1) = some u.length) :
    scanFrom before regions (u ++ rest) =
      insideRoles u ++ scanFrom (u.reverse ++ before) [] rest := by
  induction u generalizing before regions with
  | nil =>
      obtain ⟨n, -, hn⟩ := Option.map_eq_some_iff.mp hout
      cases hn
  | cons c u ih =>
      rw [List.cons_append, distanceOut?] at hout
      cases hstep : step before c (u ++ rest) regions with
      | nil =>
          rw [hstep] at hout
          obtain rfl : u = [] := List.eq_nil_of_length_eq_zero (by simpa using hout.symm)
          rcases inLiteral_step h before c rest with hin | ⟨rfl, -⟩
          · rw [List.nil_append] at hstep
            rw [hstep] at hin
            cases hin
          · rw [List.cons_append, scanFrom, hstep]
            rfl
      | cons region outer =>
          rw [hstep] at hout
          have hrest : (distanceOut? (c :: before) (region :: outer) (u ++ rest)).map (· + 1) =
              some u.length := by
            simpa using hout
          obtain ⟨d, u, rfl⟩ : ∃ d v, u = d :: v := by
            apply List.exists_cons_of_ne_nil
            rintro rfl
            simp at hrest
          rw [List.cons_append, scanFrom, hstep, between_of_inLiteral h (List.cons_ne_nil _ _),
            ih (inLiteral_of_step_eq_cons h hstep) hrest, List.reverse_cons (a := c),
            List.append_assoc]
          rfl

/-- A piece leaves the literal that it starts in at the same character whatever stands around it.
Only a slash in code looks at that. -/
theorem distanceOut?_append {n : Nat} (h : inLiteral regions = true)
    (hout : distanceOut? before regions u = some n)
    (hslash : ∀ k, u[k]? = some '/' → inCode (regionsFrom before regions u k) = false)
    (before' rest : List Char) : distanceOut? before' regions (u ++ rest) = some n := by
  induction u generalizing before before' regions n with
  | nil => cases hout
  | cons c u ih =>
      rw [distanceOut?] at hout
      cases hstep : step before c u regions with
      | nil =>
          rcases inLiteral_step h before c u with hin | ⟨rfl, hquote⟩
          · rw [hstep] at hin
            cases hin
          · rw [hstep] at hout
            rw [List.cons_append, distanceOut?, step_quoted_close hquote]
            exact hout
      | cons region outer =>
          rw [hstep] at hout
          obtain ⟨m, hm, rfl⟩ := Option.map_eq_some_iff.mp hout
          have hne : u ≠ [] := by
            rintro rfl
            cases hm
          have hsame : step before' c (u ++ rest) regions = step before c u regions := by
            apply step_congr
            · intro hcode
              apply opened?_of_ne_slash
              rintro rfl
              rw [show inCode regions = false by simpa using hslash 0 rfl] at hcode
              cases hcode
            · obtain ⟨d, u, rfl⟩ := List.exists_cons_of_ne_nil hne
              rfl
          have hmore := ih (inLiteral_of_step_eq_cons h hstep) hm
            (fun k hk => hstep ▸ hslash (k + 1) hk) (c :: before')
          rw [List.cons_append, distanceOut?, hsame, hstep]
          dsimp only
          rw [hmore]
          rfl

theorem literalEnd?_append (before : List Char) (q : Char) (u : List Char) :
    literalEnd? (before ++ q :: u) before.length =
      some (((distanceOut? (q :: before.reverse) [.quoted q] u).map (before.length + 1 + ·)).getD
        (before ++ q :: u).length) := by
  rw [literalEnd?, List.drop_left]
  dsimp only
  rw [List.take_left]
  cases distanceOut? (q :: before.reverse) [.quoted q] u with
  | none => rfl
  | some n => rfl

/-- A literal that its last character closes is terminated if no slash stands in its code. -/
theorem terminated_of_literalEnd? (hquote : ∃ q ∈ lit.head?, isQuote q = true)
    (hends : literalEnd? lit 0 = some (lit.length - 1))
    (hslash : ∀ k, lit[k]? = some '/' → inCode (regionsAt lit k) = false) : Terminated lit := by
  refine ⟨hquote, fun before rest => ?_⟩
  obtain ⟨q, hq, hquote⟩ := hquote
  obtain ⟨inside, rfl⟩ := List.head?_eq_some_iff.mp hq
  have halone := literalEnd?_append [] q inside
  rw [List.nil_append, List.length_nil, hends, List.reverse_nil] at halone
  obtain ⟨n, hn, hlength⟩ : ∃ n, distanceOut? [q] [.quoted q] inside = some n ∧
      inside.length = n + 1 := by
    cases hn : distanceOut? [q] [.quoted q] inside with
    | none => simp [hn] at halone
    | some n => exact ⟨n, rfl, by simpa [hn, Nat.add_comm] using halone⟩
  have hliteral : inLiteral [.quoted q] = true := hquote
  have hcode : ∀ k, inside[k]? = some '/' →
      inCode (regionsFrom [q] [.quoted q] inside k) = false := by
    intro k hk
    have hslash := hslash (k + 1) hk
    rwa [regionsAt, regionsFrom, step, opened?, if_pos hquote] at hslash
  have hsame := distanceOut?_append hliteral hn hcode (q :: before.reverse) rest
  rw [List.cons_append, literalEnd?_append, hsame]
  simp only [Option.map_some, Option.getD_some, List.length_cons, hlength]
  congr 1
  omega

theorem terminated_of_notMem (hquote : ∃ q ∈ lit.head?, isQuote q = true)
    (hends : literalEnd? lit 0 = some (lit.length - 1)) (hslash : '/' ∉ lit) : Terminated lit :=
  terminated_of_literalEnd? hquote hends fun _ hk => absurd (List.mem_of_getElem? hk) hslash

/-- A text between quotes is a terminated literal. -/
theorem terminated_quoted {quote : Char} {inside : List Char}
    (text : quote = '"' ∨ quote = '\'') (quoted : Quoted quote inside) :
    Terminated (quote :: (inside ++ [quote])) where
  quote := by
    refine ⟨quote, rfl, ?_⟩
    rcases text with rfl | rfl <;> rfl
  ends before rest := by
    rw [List.cons_append, literalEnd?_append, List.append_assoc]
    have hdistance := distanceOut?_inside text quoted (quote :: before.reverse) rest
    rw [List.singleton_append, hdistance]
    simp only [Option.map_some, Option.getD_some, List.length_cons, List.length_append,
      List.length_nil, Option.some.injEq]
    omega

/-- A literal opens at its quote, and what follows has the same roles wherever it stands. -/
theorem Terminated.exists_cons (h : Terminated lit) :
    ∃ q inside, lit = q :: inside ∧ isQuote q = true ∧
      scan lit = (q, .opening) :: insideRoles inside ∧ ∀ before rest,
        scanFrom (q :: before) [.quoted q] (inside ++ rest) =
          insideRoles inside ++ scanFrom (inside.reverse ++ q :: before) [] rest := by
  obtain ⟨q, hq, hquote⟩ := h.quote
  obtain ⟨inside, rfl⟩ := List.head?_eq_some_iff.mp hq
  have hliteral : inLiteral [.quoted q] = true := hquote
  have hscan (before rest : List Char) :
      scanFrom (q :: before) [.quoted q] (inside ++ rest) =
        insideRoles inside ++ scanFrom (inside.reverse ++ q :: before) [] rest := by
    apply scanFrom_inside hliteral
    have hends := h.ends before.reverse rest
    rw [List.cons_append, literalEnd?_append, List.reverse_reverse] at hends
    cases hn : distanceOut? (q :: before) [.quoted q] (inside ++ rest) with
    | none =>
        simp only [hn, Option.map_none, Option.getD_none, Option.map_some, Option.some.injEq,
          List.length_append, List.length_cons] at hends
        omega
    | some n =>
        simp only [hn, Option.getD_some, Option.map_some, Option.some.injEq, List.length_cons]
          at hends
        rw [Option.map_some]
        congr 1
        omega
  refine ⟨q, inside, rfl, hquote, ?_, hscan⟩
  have halone := hscan [] []
  rw [List.append_nil, scanFrom, List.append_nil] at halone
  rw [scan, scanFrom, step, opened?, if_pos hquote, Option.toList_some, halone]
  rfl

theorem selfContained_terminated (h : Terminated lit) : SelfContained lit := by
  obtain ⟨q, inside, rfl, hquote, halone, hscan⟩ := h.exists_cons
  intro before rest
  rw [halone, List.cons_append, scanFrom, step, opened?, if_pos hquote, Option.toList_some, hscan,
    List.reverse_cons, List.append_assoc]
  rfl

/-- No comment stands in a literal. -/
theorem stripComments_terminated (h : Terminated lit) : stripComments lit = lit := by
  obtain ⟨q, inside, rfl, -, hscan, -⟩ := h.exists_cons
  rw [stripComments, hscan]
  exact congrArg (q :: ·) (uncommented_insideRoles inside)

end Literals

end PluginContract.Script
