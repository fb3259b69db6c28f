import PluginContract.Proofs.Text.Occurrences
import PluginContract.Terminal.Annotation

/-!
# What an annotation carries

A message is escaped in three replacements over the whole text. The percent sign comes first, so
none of them touches what another one has written: together they are one step for each character.
So a reader from left to right gets the message back, and no line of it can pass for a command.
-/

namespace PluginContract.Terminal

open Text

/-- The text before the message of an annotation. -/
def heading (level : Level) : List Char := "::".toList ++ level.name.toList ++ "::".toList

/-- The text with its escapes of line ends and percent signs resolved, from left to right. -/
def unannotated : List Char → List Char
  | '%' :: '0' :: 'A' :: rest => '\n' :: unannotated rest
  | '%' :: '0' :: 'D' :: rest => '\r' :: unannotated rest
  | '%' :: '2' :: '5' :: rest => '%' :: unannotated rest
  | c :: rest => c :: unannotated rest
  | [] => []

/-- Whether a text has no line end. -/
def OnOneLine (t : List Char) : Prop := ∀ c ∈ t, c ≠ '\r' ∧ c ≠ '\n'

instance (t : List Char) : Decidable (OnOneLine t) :=
  List.decidableBAll (fun c => c ≠ '\r' ∧ c ≠ '\n') t

/-- Whether a command starts at an offset of a text: two colons at the start of a line, after
blanks at most. -/
def CommandAt (t : List Char) (i : Nat) : Prop :=
  ∃ before indent rest, t = before ++ (indent ++ ':' :: ':' :: rest) ∧
    i = before.length + indent.length ∧ (∀ c ∈ indent, isBlank c = true) ∧
      ∀ c ∈ before.getLast?, c = '\r' ∨ c = '\n'

/-- Whether the annotation of a message is one command that carries the message. -/
structure CarriesMessage (level : Level) (message : List Char) : Prop where
  /-- The level is known by its name, and only by it. -/
  known : ∀ name, Level.ofName? name = some level ↔ name = level.name
  oneLine : OnOneLine (annotationLine level message)
  /-- The message is escaped in passes over the whole of it, and can be read back in one. -/
  readBack : ∃ rest, annotationLine level message = heading level ++ rest ∧
    rest = replace ['\n'] "%0A".toList (replace ['\r'] "%0D".toList
      (replace ['%'] "%25".toList message)) ∧
    unannotated rest = message
  /-- No other message has the same annotation, at this level or at another. -/
  injective : ∀ level' message', annotationLine level' message' = annotationLine level message →
    level' = level ∧ message' = message
  oneCommand : ∀ i, CommandAt (annotationLine level message) i ↔ i = 0

section Escapes

variable {c : Char}

theorem annotated_cases (c : Char) :
    c = '%' ∨ c = '\r' ∨ c = '\n' ∨
      (c ≠ '%' ∧ c ≠ '\r' ∧ c ≠ '\n' ∧ annotated c = [c]) := by
  by_cases hpercent : c = '%'
  · exact Or.inl hpercent
  by_cases hreturn : c = '\r'
  · exact Or.inr (Or.inl hreturn)
  by_cases hfeed : c = '\n'
  · exact Or.inr (Or.inr (Or.inl hfeed))
  have hself : annotated c = [c] := by simp [annotated, hpercent, hreturn, hfeed]
  exact Or.inr (Or.inr (Or.inr ⟨hpercent, hreturn, hfeed, hself⟩))

/-- The percent sign is replaced first and the line ends after it, each in the whole text. -/
theorem annotatedText_eq_replace (message : List Char) :
    annotatedText message =
      replace ['\n'] "%0A".toList (replace ['\r'] "%0D".toList
        (replace ['%'] "%25".toList message)) := by
  simp only [replace_singleton, List.flatMap_assoc, annotatedText]
  congr 1
  funext c
  rcases annotated_cases c with rfl | rfl | rfl | ⟨hpercent, hreturn, hfeed, hself⟩
  · decide
  · decide
  · decide
  · simp [hself, hpercent, hreturn, hfeed]

theorem unannotated_cons (h : c ≠ '%') (rest : List Char) :
    unannotated (c :: rest) = c :: unannotated rest := by
  rw [unannotated.eq_def]
  split <;> simp_all

/-- An escaped character is read back, whatever follows it. -/
theorem unannotated_annotated (c : Char) (rest : List Char) :
    unannotated (annotated c ++ rest) = c :: unannotated rest := by
  rcases annotated_cases c with rfl | rfl | rfl | ⟨hpercent, -, -, hself⟩
  · rfl
  · rfl
  · rfl
  · rw [hself, List.singleton_append, unannotated_cons hpercent]

theorem unannotated_annotatedText (message : List Char) :
    unannotated (annotatedText message) = message := by
  rw [annotatedText]
  induction message with
  | nil => rfl
  | cons c message ih => rw [List.flatMap_cons, unannotated_annotated, ih]

theorem onOneLine_annotated (c : Char) : OnOneLine (annotated c) := by
  rcases annotated_cases c with rfl | rfl | rfl | ⟨-, hreturn, hfeed, hself⟩
  · decide
  · decide
  · decide
  · rw [hself]
    exact List.forall_mem_singleton.mpr ⟨hreturn, hfeed⟩

theorem onOneLine_annotatedText (message : List Char) : OnOneLine (annotatedText message) := by
  intro d hd
  obtain ⟨c, -, hc⟩ := List.mem_flatMap.mp hd
  exact onOneLine_annotated c d hc

end Escapes

section Lines

variable {u v : List Char} {level : Level} {i : Nat}

theorem OnOneLine.append (hu : OnOneLine u) (hv : OnOneLine v) : OnOneLine (u ++ v) :=
  List.forall_mem_append.mpr ⟨hu, hv⟩

theorem onOneLine_heading (level : Level) : OnOneLine (heading level) := by
  cases level <;> decide

/-- The levels have different names, and no name has a colon. -/
theorem heading_append_inj {level' : Level} (h : heading level ++ u = heading level' ++ v) :
    level = level' ∧ u = v := by
  cases level <;> cases level' <;> simp_all [heading, Level.name]

theorem heading_eq (level : Level) :
    heading level = ':' :: ':' :: (level.name.toList ++ [':', ':']) := by
  simp [heading]

/-- The only command of a line with a heading is at its start. -/
theorem commandAt_heading_iff (hu : OnOneLine u) : CommandAt (heading level ++ u) i ↔ i = 0 := by
  constructor
  · rintro ⟨before, indent, rest, ht, rfl, hindent, hbefore⟩
    have hnil : before = [] := by
      rcases List.eq_nil_or_concat before with hnil | ⟨front, d, rfl⟩
      · exact hnil
      exfalso
      have hend : d = '\r' ∨ d = '\n' := hbefore d (by simp)
      have hline := (onOneLine_heading level).append hu
      rw [ht] at hline
      obtain ⟨hreturn, hfeed⟩ := hline d (by simp)
      exact hend.elim hreturn hfeed
    subst hnil
    rw [List.nil_append, heading_eq] at ht
    cases indent with
    | nil => rfl
    | cons d indent =>
        obtain ⟨rfl, -⟩ := List.cons.inj ht
        exact absurd (hindent ':' List.mem_cons_self) (by decide)
  · rintro rfl
    refine ⟨[], [], level.name.toList ++ [':', ':'] ++ u, ?_, rfl, ?_, ?_⟩
    · rw [heading_eq]
      simp
    · exact List.forall_mem_nil _
    · intro d hd
      cases hd

end Lines

theorem Level.ofName?_eq_some_iff {name : String} {level : Level} :
    ofName? name = some level ↔ name = level.name := by
  constructor
  · intro h
    unfold ofName? at h
    split at h <;> cases h <;> rfl
  · rintro rfl
    cases level <;> rfl

/-- Every message, whatever stands in it, is carried by one command. -/
theorem annotationLine_carriesMessage (level : Level) (message : List Char) :
    CarriesMessage level message where
  known name := Level.ofName?_eq_some_iff
  oneLine := (onOneLine_heading level).append (onOneLine_annotatedText message)
  readBack := ⟨_, rfl, annotatedText_eq_replace message, unannotated_annotatedText message⟩
  injective level' message' h := by
    obtain ⟨hlevel, htext⟩ := heading_append_inj h
    have hmessage := congrArg unannotated htext
    rw [unannotated_annotatedText, unannotated_annotatedText] at hmessage
    exact ⟨hlevel, hmessage⟩
  oneCommand _ := commandAt_heading_iff (onOneLine_annotatedText message)

end PluginContract.Terminal
