import PluginContract.Loading.Runtime
import PluginContract.Proofs.Loading.PickedExports
import PluginContract.Proofs.Loading.ProcessOutput
import PluginContract.Proofs.Noting

/-!
# Falling back from one runtime to the next

Runtimes are tried in order until one of them prints its exports, and none after it is started. The
wanted exports are picked from what that one printed; if all fail, their failures are reported in
order. A preload file is removed whatever becomes of the process that it was written for.
-/

namespace PluginContract.Loading

open Files Text

/-- What happens in the surroundings of runtimes. -/
inductive Event
  | created (preload : Path)
  | removed (preload : Path)
  | started (command : List String) (directory : Option Path) (answer : Except String Process)
  | killed

namespace Event

/-- The answer to the command that was started. -/
def answer? : Event → Option (Except String Process)
  | started _ _ answer => some answer
  | _ => none

/-- The preload files that are there after an event. -/
def leave (left : List Path) : Event → List Path
  | created preload => preload :: left
  | removed preload => left.erase preload
  | _ => left

end Event

/-- The answers to the commands that were started, in order. -/
def answers (events : List Event) : List (Except String Process) := events.filterMap Event.answer?

/-- The preload files that remain after events. -/
def remaining (events : List Event) : List Path := events.foldl Event.leave []

/-- Surroundings that note what happens in them. -/
def Host.observed {μ : Type → Type} [Monad μ] (host : Host μ) : Host (Noting Event μ) where
  createPreload text := noting (host.createPreload text) .created
  removePreload preload := noting (host.removePreload preload) fun _ => .removed preload
  start command directory := noting (host.start command directory) (.started command directory)
  kill := noting host.kill fun _ => .killed

/-- What comes of the answer to a command, by the events that follow it. -/
inductive Ends (s : Setup) : Except String Process → List Event → StrategyResult → Prop
  | notStarted {detail : String} :
      Ends s (.error detail) [] (.failed (.notStarted s.binary detail))
  | overLimit {process : Process} (exceeds : s.Exceeds process) :
      Ends s (.ok process) [.killed] (.failed (.overLimit s.limit))
  | exited {process : Process} (fits : ¬ s.Exceeds process) (status : process.status ≠ 0) :
      Ends s (.ok process) []
        (.failed (.exited process.status (summary (Utf8.decodeLossy process.errors))))
  | unreadable {process : Process} {fault : PayloadFault} (fits : ¬ s.Exceeds process)
      (status : process.status = 0)
      (payload : readPayload (Utf8.decodeLossy process.bytes) = .error fault) :
      Ends s (.ok process) [] (.failed (.payload fault))
  | succeeds {process : Process} {exports : Entries Json} (fits : ¬ s.Exceeds process)
      (status : process.status = 0)
      (payload : readPayload (Utf8.decodeLossy process.bytes) = .ok exports) :
      Ends s (.ok process) [] (.exports (.obj exports))

/-- Whether the answer to a command is a process that ends well and prints exports. -/
def Setup.Succeeds (s : Setup) (answer : Except String Process) : Prop :=
  ∃ process exports, answer = .ok process ∧ ¬ s.Exceeds process ∧ process.status = 0 ∧
    readPayload (Utf8.decodeLossy process.bytes) = .ok exports

/-- What one runtime comes to, by the events of its attempt. -/
inductive Tries (s : Setup) (module : Path) (names : List String) :
    List Event → StrategyResult → Prop
  | plain {answer : Except String Process} {after : List Event} {result : StrategyResult}
      (runtime : s.runtime ≠ .nodeImport) (ends : Ends s answer after result) :
      Tries s module names
        (.started (s.command module names none) s.directory answer :: after) result
  /-- The preload file is there before the command is started, and it is removed at the end. -/
  | preloaded {preload : Path} {answer : Except String Process} {after : List Event}
      {result : StrategyResult} (runtime : s.runtime = .nodeImport)
      (ends : Ends s answer after result) :
      Tries s module names
        (.created preload ::
          .started (s.command module names (some preload)) s.directory answer ::
            (after ++ [.removed preload])) result

/-- Whether all of some runtimes were tried in order and failed. -/
inductive AllFail (module : Path) (names : List String) :
    List Setup → List Event → List (String × StrategyFailure) → Prop
  | nil : AllFail module names [] [] []
  | cons {s : Setup} {rest : List Setup} {events more : List Event} {failure : StrategyFailure}
      {failures : List (String × StrategyFailure)}
      (first : Tries s module names events (.failed failure))
      (others : AllFail module names rest more failures) :
      AllFail module names (s :: rest) (events ++ more) ((s.runtime.name, failure) :: failures)

/-- What trying runtimes one after the other comes to, after some failures. -/
inductive Loads (home : Place) (module : Path) (names : List String)
    (earlier : List (String × StrategyFailure)) (setups : List Setup) :
    List Event → Except Failure (Entries Json) → Prop
  /-- Everything before the first success has failed; nothing after it is tried. -/
  | succeeds {failed later : List Setup} {s : Setup} {before events : List Event}
      {failures : List (String × StrategyFailure)} {exports picked : Entries Json}
      (split : setups = failed ++ s :: later)
      (fail : AllFail (module.resolve home) names failed before failures)
      (tries : Tries s (module.resolve home) names events (.exports (.obj exports)))
      (picks : Picks exports names picked) :
      Loads home module names earlier setups (before ++ events) (.ok picked)
  | fails {events : List Event} {failures : List (String × StrategyFailure)}
      (fail : AllFail (module.resolve home) names setups events failures) :
      Loads home module names earlier setups events
        (.error (.contract (.loadFailed module (earlier ++ failures))))

/-- Whether runtimes are fallen back on as they should be, by the events and the result. -/
structure FallsBack (setups : List Setup) (home : Place) (module : Path) (names : List String)
    (result : Except Failure (Entries Json)) (events : List Event) : Prop where
  loads : Loads home module names [] setups events result
  fails_iff : (∃ failure, result = .error failure) ↔
    List.Forall₂ (fun s answer => ¬ s.Succeeds answer) setups (answers events)
  cleans : remaining events = []

section Events

variable {s : Setup} {answer : Except String Process} {after events : List Event}
  {result : StrategyResult} {module : Path} {names : List String}

theorem Ends.succeeds_iff (h : Ends s answer after result) :
    s.Succeeds answer ↔ ∃ exports, result = .exports (.obj exports) := by
  cases h with
  | notStarted => exact iff_of_false (by simp [Setup.Succeeds]) nofun
  | overLimit exceeds =>
      refine iff_of_false ?_ nofun
      rintro ⟨process, exports, ⟨⟩, hfits, -⟩
      exact hfits exceeds
  | exited fits status =>
      refine iff_of_false ?_ nofun
      rintro ⟨process, exports, ⟨⟩, -, hstatus, -⟩
      exact status hstatus
  | unreadable fits status payload =>
      refine iff_of_false ?_ nofun
      rintro ⟨process, exports, ⟨⟩, -, -, hpayload⟩
      rw [payload] at hpayload
      cases hpayload
  | succeeds fits status payload =>
      exact iff_of_true ⟨_, _, rfl, fits, status, payload⟩ ⟨_, rfl⟩

/-- An attempt fails or gives exports. -/
theorem Ends.failed_or_exports (h : Ends s answer after result) :
    (∃ failure, result = .failed failure) ∨ ∃ exports, result = .exports (.obj exports) := by
  cases h with
  | succeeds => exact Or.inr ⟨_, rfl⟩
  | _ => exact Or.inl ⟨_, rfl⟩

/-- After the answer nothing but the process is touched. -/
theorem Ends.eq_nil_or_killed (h : Ends s answer after result) : after = [] ∨ after = [.killed] := by
  cases h with
  | overLimit => exact Or.inr rfl
  | _ => exact Or.inl rfl

theorem Ends.answers_eq (h : Ends s answer after result) : answers after = [] := by
  obtain rfl | rfl := h.eq_nil_or_killed <;> rfl

theorem Ends.foldl_leave (h : Ends s answer after result) (left : List Path) :
    after.foldl Event.leave left = left := by
  obtain rfl | rfl := h.eq_nil_or_killed <;> rfl

theorem Tries.exists_ends (h : Tries s module names events result) :
    ∃ answer after, Ends s answer after result ∧ answers events = [answer] := by
  cases h with
  | plain runtime ends => exact ⟨_, _, ends, congrArg _ ends.answers_eq⟩
  | @preloaded preload answer after result runtime ends =>
      have hafter : answers (after ++ [.removed preload]) = [] := by
        rw [answers, List.filterMap_append]
        exact congrArg (· ++ []) ends.answers_eq
      exact ⟨_, _, ends, congrArg _ hafter⟩

/-- An attempt leaves the files as it found them. -/
theorem Tries.foldl_leave (h : Tries s module names events result) (left : List Path) :
    events.foldl Event.leave left = left := by
  cases h with
  | plain runtime ends => exact ends.foldl_leave left
  | preloaded runtime ends =>
      rw [List.foldl_cons, List.foldl_cons, List.foldl_append]
      simp only [Event.leave, ends.foldl_leave, List.foldl_cons, List.foldl_nil,
        List.erase_cons_head]

end Events

section Loading

variable {home : Place} {module : Path} {names : List String} {setups rest : List Setup} {s : Setup}
  {events more : List Event} {failure : StrategyFailure}
  {earlier failures : List (String × StrategyFailure)} {result : Except Failure (Entries Json)}

theorem AllFail.forall₂ (h : AllFail module names setups events failures) :
    List.Forall₂ (fun s answer => ¬ s.Succeeds answer) setups (answers events) := by
  induction h with
  | nil => exact .nil
  | @cons s rest events more failure failures first others ih =>
      obtain ⟨answer, after, ends, hanswers⟩ := first.exists_ends
      rw [answers, List.filterMap_append, ← answers, hanswers]
      refine .cons (fun hsucceeds => ?_) ih
      obtain ⟨exports, hexports⟩ := ends.succeeds_iff.mp hsucceeds
      cases hexports

theorem AllFail.foldl_leave (h : AllFail module names setups events failures) (left : List Path) :
    events.foldl Event.leave left = left := by
  induction h with
  | nil => rfl
  | cons first others ih => rw [List.foldl_append, first.foldl_leave, ih]

/-- A failure is followed by what the other runtimes come to. -/
theorem Loads.cons (first : Tries s (module.resolve home) names events (.failed failure))
    (h : Loads home module names (earlier ++ [(s.runtime.name, failure)]) rest more result) :
    Loads home module names earlier (s :: rest) (events ++ more) result := by
  cases h with
  | succeeds split fail tries picks =>
      subst split
      rw [← List.append_assoc]
      exact .succeeds rfl (.cons first fail) tries picks
  | fails fail =>
      rw [List.append_assoc]
      exact .fails (.cons first fail)

theorem Loads.fails_iff (h : Loads home module names earlier setups events result) :
    (∃ failure, result = .error failure) ↔
      List.Forall₂ (fun s answer => ¬ s.Succeeds answer) setups (answers events) := by
  cases h with
  | fails fail => exact iff_of_true ⟨_, rfl⟩ fail.forall₂
  | @succeeds failed later s before events failures exports picked split fail tries picks =>
      refine iff_of_false nofun fun hall => ?_
      obtain ⟨answer, after, ends, hanswers⟩ := tries.exists_ends
      rw [split, answers, List.filterMap_append, ← answers, ← answers, hanswers] at hall
      -- what failed has an answer each, so the last answer belongs to the last attempt
      have hlast := List.forall₂_drop_append _ _ _ hall
      rw [← fail.forall₂.length_eq, List.drop_left] at hlast
      cases hlast with
      | cons hfails _ => exact hfails (ends.succeeds_iff.mpr ⟨exports, rfl⟩)

theorem Loads.remaining_eq (h : Loads home module names earlier setups events result) :
    remaining events = [] := by
  cases h with
  | fails fail => exact fail.foldl_leave []
  | succeeds split fail tries picks =>
      rw [remaining, List.foldl_append, fail.foldl_leave, tries.foldl_leave]

end Loading

section Running

variable {μ : Type → Type} [Monad μ] [LawfulMonad μ]

theorem observes_readOutput (s : Setup) (host : Host μ) (process : Process) :
    Observes
      (fun output events =>
        s.Exceeds process ∧ output = .error (.overLimit s.limit) ∧ events = [.killed] ∨
          ¬ s.Exceeds process ∧ output = .ok (Utf8.decodeLossy process.bytes) ∧ events = [])
      (s.readOutput host.observed process) (s.readOutput host process) := by
  by_cases h : s.Exceeds process
  · rw [readOutput_of_exceeds h, readOutput_of_exceeds h]
    refine .bind (observes_noting _ _) fun _ noted hnoted => .pure ?_
    exact Or.inl ⟨h, rfl, by rw [hnoted]; rfl⟩
  · rw [readOutput_of_not_exceeds h, readOutput_of_not_exceeds h]
    exact .pure (Or.inr ⟨h, rfl, rfl⟩)

theorem observes_run (s : Setup) (host : Host μ) (command : List String) :
    Observes
      (fun output events => ∃ answer after,
        events = .started command s.directory answer :: after ∧
          Ends s answer after (Setup.outcome output))
      (s.run host.observed command) (s.run host command) := by
  refine .bind (observes_noting _ _) fun answer noted hnoted => ?_
  obtain rfl := hnoted
  cases answer with
  | error detail => exact .pure ⟨_, _, rfl, .notStarted⟩
  | ok process =>
      refine .bind (observes_readOutput s host process) fun output events houtput => ?_
      obtain ⟨hexceeds, rfl, rfl⟩ | ⟨hfits, rfl, rfl⟩ := houtput
      · exact .pure ⟨_, _, rfl, .overLimit hexceeds⟩
      · by_cases hstatus : process.status = 0
        · simp only [if_pos hstatus]
          refine .pure ⟨_, _, rfl, ?_⟩
          rw [Setup.outcome]
          cases hpayload : readPayload (Utf8.decodeLossy process.bytes) with
          | error fault => exact .unreadable hfits hstatus hpayload
          | ok exports => exact .succeeds hfits hstatus hpayload
        · simp only [if_neg hstatus]
          exact .pure ⟨_, _, rfl, .exited hfits hstatus⟩

theorem observes_strategy (s : Setup) (host : Host μ) (home : Place) (module : Path)
    (names : List String) :
    Observes (fun result events => Tries s (module.resolve home) names events result)
      ((s.strategy host.observed home).load module names)
      ((s.strategy host home).load module names) := by
  rw [Setup.strategy, Setup.strategy]
  dsimp only
  split
  · rename_i hruntime
    refine .bind (observes_noting _ _) fun preload noted hnoted => ?_
    obtain rfl := hnoted
    refine .bind (observes_run s host _) fun output events houtput => ?_
    obtain ⟨answer, after, rfl, ends⟩ := houtput
    refine .bind (observes_noting _ _) fun _ noted hnoted => ?_
    obtain rfl := hnoted
    exact .pure (by rw [List.append_nil]; exact .preloaded hruntime ends)
  · rename_i hruntime
    refine .bind (observes_run s host _) fun output events houtput => ?_
    obtain ⟨answer, after, rfl, ends⟩ := houtput
    exact .pure (by rw [List.append_nil]; exact .plain hruntime ends)

theorem observes_loadAfter (host : Host μ) (home : Place) (module : Path) (names : List String)
    (earlier : List (String × StrategyFailure)) (setups : List Setup) :
    Observes (fun result events => Loads home module names earlier setups events result)
      (loadAfter module names earlier (setups.map (·.strategy host.observed home)))
      (loadAfter module names earlier (setups.map (·.strategy host home))) := by
  induction setups generalizing earlier with
  | nil =>
      have hloads : Loads home module names earlier [] [] _ := .fails .nil
      rw [List.append_nil] at hloads
      exact .pure hloads
  | cons s rest ih =>
      refine .bind (observes_strategy s host home module names) fun result events tries => ?_
      obtain ⟨answer, after, ends, -⟩ := tries.exists_ends
      obtain ⟨failure, rfl⟩ | ⟨exports, rfl⟩ := ends.failed_or_exports
      · exact (ih _).imp fun result more hloads => hloads.cons tries
      · have hloads : Loads home module names earlier (s :: rest) ([] ++ events) _ :=
          .succeeds rfl .nil tries (picks_pickExports exports names)
        exact .pure (by rw [List.append_nil]; exact hloads)

/-- Runtimes are tried in order up to the first success, what is wanted is picked from its exports,
loading fails just if all of them do, and no preload file is left behind. -/
theorem load_fallsBack (setups : List Setup) (host : Host μ) (home : Place) (module : Path)
    (names : List String) :
    Observes (FallsBack setups home module names)
      (load (setups.map (·.strategy host.observed home)) module names)
      (load (setups.map (·.strategy host home)) module names) :=
  (observes_loadAfter host home module names [] setups).imp fun _ _ hloads =>
    ⟨hloads, hloads.fails_iff, hloads.remaining_eq⟩

end Running

/-- Surroundings in which only `node` can be started. Given a preload file it prints a named export
and a default one; otherwise it fails. -/
def onlyNode : Host Id where
  createPreload _ := ⟨.top, ["tmp", "preload.mjs"]⟩
  removePreload _ := ()
  start command _ :=
    if command.head? ≠ some "node" then .error "not found"
    else if "--import" ∈ command then
      .ok ⟨[Utf8.encode marker.toList,
        Utf8.encode "\x7b\"a\":null,\"default\":\x7b\"a\":true,\"b\":true\x7d\x7d".toList], [], 0⟩
    else .ok ⟨[], [], 1⟩
  kill := ()

/-- The first runtime cannot be started and the second one gives both names, so the third one is
left out. -/
theorem load_fallsBack_onlyNode :
    let setups := Setup.defaults "deno" "node" none defaultLimit
    ∃ picked events, FallsBack setups [] ⟨.top, ["m.ts"]⟩ ["b", "a", "b"] (.ok picked) events ∧
      picked.map (fun entry => (entry.1, entry.2.typeName)) = [("b", "bool"), ("a", "NoneType")] ∧
      (answers events).length = 2 := by
  intro setups
  obtain ⟨hnotes, -⟩ := load_fallsBack setups onlyNode [] ⟨.top, ["m.ts"]⟩ ["b", "a", "b"]
  obtain ⟨events, hevents, hfalls⟩ := SatisfiesM_Id_eq.mp (hnotes [])
  have hpicked :
      ((load (setups.map fun s : Setup => s.strategy onlyNode.observed []) ⟨.top, ["m.ts"]⟩
        ["b", "a", "b"]).run []).1.toOption.map
          (·.map fun entry => (entry.1, entry.2.typeName)) =
        some [("b", "bool"), ("a", "NoneType")] := by
    decide +kernel
  have hanswers :
      (answers ((load (setups.map fun s : Setup => s.strategy onlyNode.observed [])
        ⟨.top, ["m.ts"]⟩ ["b", "a", "b"]).run []).2).length = 2 := by
    decide +kernel
  -- from here on only the facts about the run count
  generalize (load (setups.map fun s : Setup => s.strategy onlyNode.observed []) ⟨.top, ["m.ts"]⟩
    ["b", "a", "b"]).run [] = run at hevents hfalls hpicked hanswers
  obtain ⟨picked | picked, noted⟩ := run
  · cases hpicked
  · obtain rfl : noted = events := hevents
    exact ⟨picked, noted, hfalls, Option.some.inj hpicked, hanswers⟩

end PluginContract.Loading
