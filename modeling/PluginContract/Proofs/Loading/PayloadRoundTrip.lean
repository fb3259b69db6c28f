import PluginContract.Loading.Payload
import PluginContract.Proofs.Json.LineEnds
import PluginContract.Proofs.Json.Shortest
import PluginContract.Proofs.Text.Lines

/-!
# Payloads between other output

A printed payload is read back exactly if its integers are short and no key and no string in it has
a line end that the printer leaves raw: such a line end cuts the payload, and no piece of it is long
enough for a text of the same exports.
-/

namespace PluginContract.Text

theorem isSome_indexOf?_iff (pattern t : List Char) :
    (indexOf? pattern t).isSome = true ↔ pattern <:+: t := by
  induction t with
  | nil =>
      rw [indexOf?, List.infix_nil]
      cases pattern <;> simp
  | cons c t ih =>
      have hstart : (after? pattern (c :: t)).isSome = true ↔ pattern <+: c :: t := by
        rw [Option.isSome_iff_exists]
        exact exists_congr fun rest => after?_eq_some_iff.trans eq_comm
      rw [indexOf?, List.infix_cons_iff, ← hstart, ← ih]
      split
      · rename_i hsome
        simp [hsome]
      · rename_i hnone
        simp [hnone]

theorem prefix_drop_of_indexOf? {pattern t : List Char} {offset : Nat}
    (h : indexOf? pattern t = some offset) : pattern <+: t.drop offset := by
  induction t generalizing offset with
  | nil =>
      rw [indexOf?] at h
      split at h
      · rename_i hempty
        rw [List.isEmpty_iff.mp hempty]
        exact List.nil_prefix
      · cases h
  | cons c t ih =>
      rw [indexOf?] at h
      split at h
      · rename_i hsome
        obtain rfl := Option.some.inj h
        obtain ⟨rest, hrest⟩ := Option.isSome_iff_exists.mp hsome
        exact ⟨rest, (after?_eq_some_iff.mp hrest).symm⟩
      · obtain ⟨offset, hoffset, rfl⟩ := Option.map_eq_some_iff.mp h
        exact ih hoffset

end PluginContract.Text

namespace PluginContract.Loading

open Text

/-- The output of a process that prints exports on a line of their own, between what else
it prints. -/
def printed (earlier later : List Char) (exports : Entries Json) : List Char :=
  earlier ++ '\n' :: (marker.toList ++ Json.compact (.obj exports) ++ '\n' :: later)

theorem afterMarker?_marker_append (t : List Char) :
    afterMarker? (marker.toList ++ t) = some t := by
  have hoffset : indexOf? marker.toList (marker.toList ++ t) = some 0 := rfl
  rw [afterMarker?, hoffset, Option.map_some, Nat.zero_add, ← String.length_toList,
    List.drop_left]

theorem afterMarker?_eq_none_iff {line : List Char} :
    afterMarker? line = none ↔ ¬ marker.toList <:+: line := by
  rw [← isSome_indexOf?_iff, afterMarker?, Option.map_eq_none_iff, Option.not_isSome_iff_eq_none]

theorem length_of_afterMarker? {line payload : List Char} (h : afterMarker? line = some payload) :
    marker.length + payload.length ≤ line.length := by
  obtain ⟨offset, hoffset, rfl⟩ := Option.map_eq_some_iff.mp h
  have hlength := (prefix_drop_of_indexOf? hoffset).length_le
  have hpos : 0 < marker.length := by decide
  rw [String.length_toList, List.length_drop] at hlength
  rw [List.length_drop]
  omega

theorem not_isLineEnd_marker : ∀ c ∈ marker.toList, isLineEnd c = false := by
  have hany : marker.toList.any isLineEnd = false := by decide
  intro c hc
  exact Bool.eq_false_iff.mpr (List.any_eq_false.mp hany c hc)

/-- The line of a payload, up to its line feed. -/
def payloadLine (exports : Entries Json) : List Char :=
  marker.toList ++ Json.compact (.obj exports)

variable {exports : Entries Json}

/-- The lines of a payload stand between the lines of what is printed before and after it. -/
theorem exists_lines_printed (earlier later : List Char) (exports : Entries Json) :
    ∃ before, lines (printed earlier later exports) =
      before ++ (lines (payloadLine exports) ++ lines later) := by
  obtain ⟨before, hbefore⟩ := exists_linesFrom_append_lineFeed [] earlier
  refine ⟨before, ?_⟩
  -- The closing brace ends no line, so the line feed closes the line of the payload.
  have hbrace : isLineEnd '}' = false := by decide
  have hlines := linesFrom_append_lineFeed hbrace []
    (marker.toList ++ '{' :: Json.compactFields exports) later
  calc
    lines (printed earlier later exports) =
        before ++ lines (payloadLine exports ++ '\n' :: later) := hbefore _
    _ = before ++ lines (marker.toList ++ '{' :: Json.compactFields exports ++
          '}' :: '\n' :: later) := by simp [payloadLine, Json.compact]
    _ = before ++ (lines (marker.toList ++ '{' :: Json.compactFields exports ++ ['}']) ++
          lines later) := congrArg (before ++ ·) hlines
    _ = before ++ (lines (payloadLine exports) ++ lines later) := by
      simp [payloadLine, Json.compact]

/-- Only the lines of the payload and those before it can hold the last marker. -/
theorem findSome?_lines_printed {later : List Char} (hlater : ¬ marker.toList <:+: later)
    (earlier : List Char) {payload : List Char}
    (h : (lines (payloadLine exports)).reverse.findSome? afterMarker? = some payload) :
    (lines (printed earlier later exports)).reverse.findSome? afterMarker? = some payload := by
  obtain ⟨before, hlines⟩ := exists_lines_printed earlier later exports
  have hnone : (lines later).reverse.findSome? afterMarker? = none := by
    rw [List.findSome?_eq_none_iff]
    intro line hline
    rw [afterMarker?_eq_none_iff]
    intro hmarker
    exact hlater (hmarker.trans (infix_of_mem_lines (List.mem_reverse.mp hline)))
  rw [hlines, List.reverse_append, List.reverse_append, List.findSome?_append,
    List.findSome?_append, hnone, h]
  rfl

/-- A payload without line ends is taken as a whole. -/
theorem findSome?_payloadLine (h : ∀ c ∈ Json.compact (.obj exports), isLineEnd c = false) :
    (lines (payloadLine exports)).reverse.findSome? afterMarker? =
      some (Json.compact (.obj exports)) := by
  have hline : lines (payloadLine exports) = [payloadLine exports] := by
    refine linesFrom_of_not_isLineEnd ?_ (by simp [payloadLine, marker])
    intro c hc
    rcases List.mem_append.mp hc with hc | hc
    · exact not_isLineEnd_marker c hc
    · exact h c hc
  rw [hline, List.reverse_singleton, List.findSome?_singleton, payloadLine,
    afterMarker?_marker_append]

/-- Of a payload with a line end only a shorter piece is taken. -/
theorem exists_findSome?_payloadLine
    (h : ∃ c ∈ Json.compact (.obj exports), isLineEnd c = true) :
    ∃ payload, (lines (payloadLine exports)).reverse.findSome? afterMarker? = some payload ∧
      payload.length < (Json.compact (.obj exports)).length := by
  obtain ⟨more, hmem⟩ := exists_mem_lines_append (by decide) not_isLineEnd_marker
    (Json.compact (.obj exports))
  have hfound : (lines (payloadLine exports)).reverse.findSome? afterMarker? ≠ none := by
    intro hnone
    rw [List.findSome?_eq_none_iff] at hnone
    have hmarker := hnone _ (List.mem_reverse.mpr hmem)
    rw [afterMarker?_marker_append] at hmarker
    cases hmarker
  obtain ⟨payload, hpayload⟩ := Option.ne_none_iff_exists'.mp hfound
  obtain ⟨line, hline, hafter⟩ := List.exists_of_findSome?_eq_some hpayload
  obtain ⟨c, hc, hend⟩ := h
  have hshorter := length_lt_of_mem_lines (List.mem_reverse.mp hline)
    ⟨c, List.mem_append_right _ hc, hend⟩
  refine ⟨payload, hpayload, ?_⟩
  apply Nat.lt_of_add_lt_add_left
  calc
    marker.length + payload.length ≤ line.length := length_of_afterMarker? hafter
    _ < (payloadLine exports).length := hshorter
    _ = marker.length + (Json.compact (.obj exports)).length := by
      rw [payloadLine, List.length_append, String.length_toList]

theorem exists_isLineEnd_compact_iff (hexports : Json.Plain (.obj exports)) :
    (∃ c ∈ Json.compact (.obj exports), isLineEnd c = true) ↔
      ∃ s ∈ Json.strings (.obj exports), Json.hasRawLineEnd s = true := by
  rw [← List.any_eq_true, ← List.any_eq_true, Json.any_compact hexports]

theorem readPayload_eq_ok_iff {output : List Char} :
    readPayload output = .ok exports ↔
      ∃ payload, (lines output).reverse.findSome? afterMarker? = some payload ∧
        Json.read? payload = .ok (.obj exports) := by
  unfold readPayload
  cases (lines output).reverse.findSome? afterMarker? with
  | none => simp
  | some payload =>
      cases hvalue : Json.read? payload with
      | error fault => cases fault <;> simp [hvalue]
      | ok v => cases v <;> simp [hvalue]

/-- Printed exports are read back, whatever is printed before them and whatever follows
without the marker, exactly if no integer in them is long and no key and no string in them has a
raw line end. -/
theorem readPayload_printed_eq_ok_iff {later : List Char} (hexports : Json.Plain (.obj exports))
    (hlater : ¬ marker.toList <:+: later) (earlier : List Char) :
    readPayload (printed earlier later exports) = .ok exports ↔
      (Json.obj exports).fits = true ∧
        ∀ s ∈ Json.strings (.obj exports), Json.hasRawLineEnd s = false := by
  have hends := exists_isLineEnd_compact_iff hexports
  constructor
  · intro hread
    obtain ⟨taken, htaken, hvalue⟩ := readPayload_eq_ok_iff.mp hread
    refine ⟨Json.fits_of_read? hvalue, fun s hs => ?_⟩
    apply Bool.eq_false_iff.mpr
    intro hraw
    obtain ⟨payload, hpayload, hlength⟩ := exists_findSome?_payloadLine (hends.mpr ⟨s, hs, hraw⟩)
    have hfound := findSome?_lines_printed hlater earlier hpayload
    obtain rfl := Option.some.inj (hfound.symm.trans htaken)
    have hshortest := Json.length_compact_le_of_read? hexports hvalue
    omega
  · rintro ⟨hfits, hraw⟩
    have hnone : ∀ c ∈ Json.compact (.obj exports), isLineEnd c = false := by
      intro c hc
      apply Bool.eq_false_iff.mpr
      intro hend
      obtain ⟨s, hs, hrawEnd⟩ := hends.mp ⟨c, hc, hend⟩
      rw [hraw s hs] at hrawEnd
      cases hrawEnd
    have hfound := findSome?_lines_printed hlater earlier (findSome?_payloadLine hnone)
    exact readPayload_eq_ok_iff.mpr ⟨_, hfound, Json.read?_compact hexports hfits⟩

/-- A schema with a marker in one of its strings is read back between other output. -/
theorem readPayload_printed_schema :
    readPayload (printed (marker.toList ++ "1".toList) "done".toList
      [("name", .str marker), ("tags", .arr [.int (-3), .null])]) =
        .ok [("name", .str marker), ("tags", .arr [.int (-3), .null])] := by
  have hplain : Json.Plain (.obj [("name", .str marker), ("tags", .arr [.int (-3), .null])]) := by
    refine .obj (by decide) ?_
    intro field hfield
    rcases List.mem_pair.mp hfield with rfl | rfl
    · exact .str marker
    · apply Json.Plain.arr
      intro item hitem
      rcases List.mem_pair.mp hitem with rfl | rfl
      · exact .int (-3)
      · exact .null
  exact (readPayload_printed_eq_ok_iff hplain (by decide) _).mpr (by decide +kernel)

/-- A line separator in a string cuts the payload. -/
theorem not_readPayload_printed_lineSeparator :
    ¬ ∀ (earlier later : List Char) (exports : Entries Json),
      Json.Plain (.obj exports) → ¬ marker.toList <:+: later →
        readPayload (printed earlier later exports) = .ok exports := by
  intro h
  have hplain : Json.Plain (.obj [("a", .str "x\u2028y")]) := by
    refine .obj (by decide) ?_
    intro field hfield
    obtain rfl := List.mem_singleton.mp hfield
    exact .str "x\u2028y"
  have hread := h [] [] _ hplain (by decide)
  have hcut : (readPayload (printed [] [] [("a", .str "x\u2028y")])).isOk = false := by
    decide +kernel
  rw [hread] at hcut
  cases hcut

end PluginContract.Loading
