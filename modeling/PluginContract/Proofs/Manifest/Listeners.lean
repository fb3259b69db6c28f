import PluginContract.Proofs.Contract.EventReduction
import PluginContract.Proofs.Manifest.Accounting
import PluginContract.Proofs.Text.Words

/-!
# Which listeners get into a manifest

A listener is an event and an action with a point between them. The check of supported events
also takes a listener with a line feed after it, and nothing else beside listeners. So only
real events are written into a manifest unless one of them comes with a line feed at its end.
-/

namespace PluginContract.Manifest

open Text Script Resolution Contract

/-- Whether a text is the name of an event or of an action. -/
structure EventWord (w : List Char) : Prop where
  ne_nil : w ≠ []
  chars : ∀ c ∈ w, isEventChar c = true

/-- The texts `event.action`, with nothing before, between or after. -/
inductive EventText : List Char → Prop
  | intro {event action : List Char} (isEvent : EventWord event) (isAction : EventWord action) :
      EventText (event ++ '.' :: action)

/-- The texts of events with a line feed after them. -/
inductive FedText : List Char → Prop
  | intro {t : List Char} (isEvent : EventText t) : FedText (t ++ ['\n'])

/-- Whether a value is a list of events, of at least one. -/
def ListsEvents (v : Json) : Prop :=
  ∃ items, v = .arr items ∧ items ≠ [] ∧ ∀ item ∈ items, ∃ s, item = .str s ∧ EventText s.toList

/-- Whether a value is a list of events of which at least one has a line feed after it. -/
def FeedsEvents (v : Json) : Prop :=
  ∃ items, v = .arr items ∧
    (∀ item ∈ items, ∃ s, item = .str s ∧ (EventText s.toList ∨ FedText s.toList)) ∧
    ∃ s, .str s ∈ items ∧ FedText s.toList

/-- Whether only real events get past the check of supported events and into a manifest. -/
structure ChecksListeners (events : Json) : Prop where
  exact : listenerFault? events = none ↔ ListsEvents events
  /-- Supported events that are written without a warning are written as they are, and they are
  real ones. -/
  written : ∀ existing package release settled manifest warnings, settled.events = events →
    assemble? existing package release settled = some (manifest, warnings) →
      warningsOn listenersKey warnings = [] →
        Entries.get? manifest listenersKey = some events ∧ ListsEvents events

section Texts

variable {t w : List Char}

theorem EventWord.cut (h : EventWord w) (rest : List Char)
    (hrest : ∀ c ∈ rest.head?, isEventChar c = false) :
    (w ++ rest).takeWhile isEventChar = w ∧ (w ++ rest).dropWhile isEventChar = rest :=
  ⟨takeWhile_append_of_head? h.chars hrest, dropWhile_append_of_head? h.chars hrest⟩

theorem eventWord_takeWhile (h : t.takeWhile isEventChar ≠ []) :
    EventWord (t.takeWhile isEventChar) :=
  ⟨h, List.all_eq_true.mp List.all_takeWhile⟩

/-- What may follow the point of a listener is an action's name, and perhaps a line feed. -/
theorem endsListener_iff :
    endsListener t = true ↔ ∃ action, EventWord action ∧ (t = action ∨ t = action ++ ['\n']) := by
  have hends : endsListener t = true ↔ t.takeWhile isEventChar ≠ [] ∧
      (t.dropWhile isEventChar = [] ∨ t.dropWhile isEventChar = ['\n']) := by
    simp [endsListener]
  have hwhole : t = t.takeWhile isEventChar ++ t.dropWhile isEventChar :=
    List.takeWhile_append_dropWhile.symm
  rw [hends]
  constructor
  · rintro ⟨hne, hrest⟩
    refine ⟨_, eventWord_takeWhile hne, hrest.imp (fun h => ?_) fun h => ?_⟩
    · rwa [h, List.append_nil] at hwhole
    · rwa [h] at hwhole
  · rintro ⟨action, haction, rfl | rfl⟩
    · obtain ⟨htake, hdrop⟩ := haction.cut [] nofun
      rw [List.append_nil] at htake hdrop
      rw [htake, hdrop]
      exact ⟨haction.ne_nil, Or.inl rfl⟩
    · have hfeed : ∀ c ∈ ['\n'].head?, isEventChar c = false := by
        rintro _ ⟨⟩
        decide
      obtain ⟨htake, hdrop⟩ := haction.cut ['\n'] hfeed
      rw [htake, hdrop]
      exact ⟨haction.ne_nil, Or.inr rfl⟩

theorem isListener_iff_exists :
    isListener t = true ↔
      ∃ event rest, EventWord event ∧ t = event ++ '.' :: rest ∧ endsListener rest = true := by
  constructor
  · intro h
    rw [isListener] at h
    split at h
    · cases h
    · rename_i hdrop hne
      refine ⟨_, _, eventWord_takeWhile hne, ?_, h⟩
      rw [← hdrop, List.takeWhile_append_dropWhile]
    · cases h
  · rintro ⟨event, rest, hevent, rfl, hrest⟩
    have hpoint : ∀ c ∈ ('.' :: rest).head?, isEventChar c = false := by
      rintro c ⟨⟩
      decide
    obtain ⟨htake, hdrop⟩ := hevent.cut _ hpoint
    rw [isListener, htake, hdrop]
    split
    · exact absurd rfl hevent.ne_nil
    · rename_i heq
      rw [← (List.cons.inj heq).2]
      exact hrest
    · rename_i hnot
      exact absurd rfl (hnot rest)

/-- The check of a text takes events, and events with a line feed after them. -/
theorem isListener_iff : isListener t = true ↔ EventText t ∨ FedText t := by
  rw [isListener_iff_exists]
  constructor
  · rintro ⟨event, rest, hevent, rfl, hrest⟩
    obtain ⟨action, haction, rfl | rfl⟩ := endsListener_iff.mp hrest
    · exact Or.inl (.intro hevent haction)
    · right
      rw [← List.cons_append, ← List.append_assoc]
      exact .intro (.intro hevent haction)
  · rintro (⟨hevent, haction⟩ | ⟨⟨hevent, haction⟩⟩)
    · exact ⟨_, _, hevent, rfl, endsListener_iff.mpr ⟨_, haction, Or.inl rfl⟩⟩
    · refine ⟨_, _, hevent, ?_, endsListener_iff.mpr ⟨_, haction, Or.inr rfl⟩⟩
      rw [List.append_assoc, List.cons_append]

/-- There is no line feed in an event. -/
theorem EventText.lineFeed_notMem (h : EventText t) : '\n' ∉ t := by
  obtain ⟨hevent, haction⟩ := h
  have hword : isEventChar '\n' = false := by decide
  intro hmem
  rcases List.mem_append.mp hmem with hmem | hmem
  · exact Bool.false_ne_true (hword.symm.trans (hevent.chars _ hmem))
  · rcases List.mem_cons.mp hmem with hpoint | hmem
    · exact absurd hpoint (by decide)
    · exact Bool.false_ne_true (hword.symm.trans (haction.chars _ hmem))

theorem EventText.not_fedText (h : EventText t) : ¬ FedText t := by
  rintro ⟨-⟩
  exact h.lineFeed_notMem (List.mem_append_right _ (List.mem_singleton_self _))

end Texts

section Values

variable {v : Json}

theorem isListenerValue_iff :
    isListenerValue v = true ↔ ∃ s, v = .str s ∧ (EventText s.toList ∨ FedText s.toList) := by
  cases v with
  | str s => simp [isListenerValue, isListener_iff]
  | _ => simp [isListenerValue]

/-- The check of a value takes lists of events, each of which may have a line feed after it. -/
theorem listenerFault?_eq_none_iff :
    listenerFault? v = none ↔ ∃ items, v = .arr items ∧ items ≠ [] ∧
      ∀ item ∈ items, ∃ s, item = .str s ∧ (EventText s.toList ∨ FedText s.toList) := by
  cases v with
  | arr items =>
      cases items with
      | nil => simp [listenerFault?]
      | cons first rest =>
          rw [listenerFault?, Option.map_eq_none_iff, List.find?_eq_none]
          simp only [Bool.not_eq_true', Bool.not_eq_false, isListenerValue_iff, Json.arr.injEq,
            exists_eq_left', ne_eq, reduceCtorEq, not_false_eq_true, true_and]
          intro h
          cases h
  | _ => simp [listenerFault?]

theorem listenerFault?_of_listsEvents (h : ListsEvents v) : listenerFault? v = none := by
  obtain ⟨items, rfl, hne, hitems⟩ := h
  refine listenerFault?_eq_none_iff.mpr ⟨items, rfl, hne, fun item hitem => ?_⟩
  obtain ⟨s, hs, hevent⟩ := hitems item hitem
  exact ⟨s, hs, Or.inl hevent⟩

/-- What the check takes without being a list of events has a line feed after one of them. -/
theorem listsEvents_iff_not_feedsEvents (h : listenerFault? v = none) :
    ListsEvents v ↔ ¬ FeedsEvents v := by
  obtain ⟨items, rfl, hne, hitems⟩ := listenerFault?_eq_none_iff.mp h
  constructor
  · rintro ⟨_, ⟨⟩, -, hevents⟩ ⟨_, ⟨⟩, -, s, hmem, hfed⟩
    obtain ⟨_, ⟨⟩, hevent⟩ := hevents _ hmem
    exact hevent.not_fedText hfed
  · intro hfeeds
    refine ⟨items, rfl, hne, fun item hitem => ?_⟩
    obtain ⟨s, rfl, hevent | hfed⟩ := hitems item hitem
    · exact ⟨s, rfl, hevent⟩
    · exact absurd ⟨items, rfl, hitems, s, hitem, hfed⟩ hfeeds

theorem FeedsEvents.listenerFault?_eq_none (h : FeedsEvents v) : listenerFault? v = none := by
  obtain ⟨items, rfl, hitems, s, hmem, -⟩ := h
  exact listenerFault?_eq_none_iff.mpr ⟨items, rfl, List.ne_nil_of_mem hmem, hitems⟩

end Values

/-- Listeners that are written without a warning are the supported events, and these have passed
the check. -/
theorem listeners_of_warningsOn_eq_nil {existing package manifest : Entries Json}
    {release : Release} {settled : Settled} {warnings : List Warning}
    (h : assemble? existing package release settled = some (manifest, warnings))
    (hwarnings : warningsOn listenersKey warnings = []) :
    Entries.get? manifest listenersKey = some settled.events ∧
      listenerFault? settled.events = none := by
  obtain ⟨configuration, -, account⟩ := exists_met_of_assemble? h
  obtain ⟨met, -, hafter, htexts⟩ :=
    account listenersKey (settleListeners settled.events) (by simp [fieldSteps])
  have hrenewed := renewed_settleListeners settled.events met
  rw [← hafter, ← htexts, hwarnings, newListeners?] at hrenewed
  cases hfault : listenerFault? settled.events with
  | none =>
      rw [hfault] at hrenewed
      exact ⟨hrenewed.1, rfl⟩
  | some fault =>
      rw [hfault] at hrenewed
      exact absurd hrenewed.2 (by decide)

/-- Only real events get past the check and into a manifest, unless all are real but for a line
feed that at least one of them has after it. -/
theorem checksListeners_iff (events : Json) : ChecksListeners events ↔ ¬ FeedsEvents events := by
  constructor
  · intro h hfeeds
    have hfault := hfeeds.listenerFault?_eq_none
    exact (listsEvents_iff_not_feedsEvents hfault).mp (h.exact.mp hfault) hfeeds
  · intro hfeeds
    refine ⟨⟨fun hfault => (listsEvents_iff_not_feedsEvents hfault).mpr hfeeds,
      listenerFault?_of_listsEvents⟩, ?_⟩
    rintro existing package release settled manifest warnings rfl h hwarnings
    obtain ⟨hwritten, hfault⟩ := listeners_of_warningsOn_eq_nil h hwarnings
    exact ⟨hwritten, (listsEvents_iff_not_feedsEvents hfault).mpr hfeeds⟩

/-- A string literal with an escaped line feed declares an event with a line feed after it, and this
passes the check. -/
theorem not_checksListeners_escapedLineFeed :
    (∀ (project : Project) tree m cache,
      outcome (resolveEvents project tree "\"issues.opened\\n\"".toList m []) cache =
        (.ok ["issues.opened\n"], cache)) ∧
      listenerFault? (.arr [.str "issues.opened\n"]) = none ∧
      ¬ ChecksListeners (.arr [.str "issues.opened\n"]) := by
  have hevent : EventText "issues.opened".toList := by
    have hissues : EventWord "issues".toList := ⟨by decide, List.all_eq_true.mp (by decide)⟩
    have hopened : EventWord "opened".toList := ⟨by decide, List.all_eq_true.mp (by decide)⟩
    exact .intro hissues hopened
  have hfed : FedText "issues.opened\n".toList := .intro hevent
  have hfeeds : FeedsEvents (.arr [.str "issues.opened\n"]) := by
    refine ⟨_, rfl, fun item hitem => ?_, _, List.mem_singleton_self _, hfed⟩
    exact ⟨_, List.mem_singleton.mp hitem, Or.inr hfed⟩
  refine ⟨fun project tree m cache => ?_, hfeeds.listenerFault?_eq_none, fun h => ?_⟩
  · have hliteral : stripParens "\"issues.opened\\n\"".toList = "\"issues.opened\\n\"".toList := by
      decide +kernel
    have hread : stringLiterals "\"issues.opened\\n\"".toList = ["issues.opened\n".toList] := by
      decide +kernel
    rw [resolveEvents, outcome_eventsWithin_of_not_name (by rw [hliteral]; decide), hliteral,
      reduction, hread]
    rfl
  obtain ⟨_, ⟨⟩, -, hevents⟩ := h.exact.mp hfeeds.listenerFault?_eq_none
  obtain ⟨_, ⟨⟩, hreal⟩ := hevents _ (List.mem_singleton_self _)
  exact hreal.not_fedText hfed

end PluginContract.Manifest
