import Mathlib.Data.List.Perm.Subperm
import PluginContract.Proofs.Entries
import PluginContract.Proofs.Json.RoundTrip
import PluginContract.Proofs.Resolution.TolerantReading

/-!
# Configurations without comments and trailing commas

A configuration file that is plain JSON has the same alias table for the tolerant reader as for a
strict one, if no string in the table holds a comma that only blanks part from a closing bracket. Of
a table in which no object repeats a key, only such strings do not change.
-/

namespace PluginContract.Json

open Resolution

/-- What an object holds under a key. -/
def lookup? (key : String) (v : Json) : Option Json :=
  v.fields?.bind fun fields => Entries.get? fields key

/-- What a configuration gives for the paths of its compiler options. -/
def paths? (v : Json) : Option Json := (v.lookup? "compilerOptions").bind (lookup? "paths")

/-- The alias table of a configuration; it is empty if the paths are missing or no object. -/
def pathTable (v : Json) : Entries Json := (v.paths?.bind fields?).getD []

/-- Whether the compiler options of a configuration are an object, if it has any. -/
def OptionsObject (v : Json) : Prop :=
  ∀ options ∈ v.lookup? "compilerOptions", options.fields?.isSome = true

/-- What a document holds under a key: the last member counts. -/
def Written.lookup? (key : String) : Written → Option Written
  | .obj members => (members.reverse.find? fun member => member.1.text == key).map Prod.snd
  | _ => none

/-- What a document gives for the paths of its compiler options. -/
def Written.paths? (w : Written) : Option Written :=
  (w.lookup? "compilerOptions").bind (Written.lookup? "paths")

/-- A value in no string of which, as it is written, a trailing comma stands. -/
inductive Untouched : Written → Prop
  | atom (a : Atom) : Untouched (.atom a)
  | str {s : Spelling} (h : ¬ HoldsTrailingComma s.written) : Untouched (.str s)
  | arr {items : List Written} (h : ∀ w ∈ items, Untouched w) : Untouched (.arr items)
  | obj {members : List (Spelling × Written)}
      (keys : ∀ member ∈ members, ¬ HoldsTrailingComma member.1.written)
      (values : ∀ member ∈ members, Untouched member.2) : Untouched (.obj members)

/-- A value in which no object repeats a key. -/
inductive KeysDistinct : Written → Prop
  | atom (a : Atom) : KeysDistinct (.atom a)
  | str (s : Spelling) : KeysDistinct (.str s)
  | arr {items : List Written} (h : ∀ w ∈ items, KeysDistinct w) : KeysDistinct (.arr items)
  | obj {members : List (Spelling × Written)}
      (nodup : (members.map fun member => member.1.text).Nodup)
      (values : ∀ member ∈ members, KeysDistinct member.2) : KeysDistinct (.obj members)

section Lookups

variable {key : String}

theorem Written.lookup?_value (key : String) (w : Written) :
    w.value.lookup? key = (w.lookup? key).map Written.value := by
  cases w with
  | atom a =>
      rw [Json.lookup?, Written.value, a.noFields]
      rfl
  | str s => rfl
  | arr items => rfl
  | obj members =>
      rw [Json.lookup?, Written.value, fields?, Option.bind_some, Entries.get?_ofPairs,
        writtenFields_eq, ← List.map_reverse, List.find?_map, Written.lookup?, Option.map_map,
        Option.map_map]
      rfl

theorem Written.lookup?_tolerated (hkey : ∀ c, isClosing c = true → c ∉ key.toList) (w : Written) :
    w.tolerated.lookup? key = (w.lookup? key).map Written.tolerated := by
  cases w with
  | atom a => rfl
  | str s => rfl
  | arr items => rfl
  | obj members =>
      have hsame : ((fun member : Spelling × Written => member.1.text == key) ∘
          fun member : Spelling × Written => (member.1.tolerated, member.2.tolerated)) =
          fun member : Spelling × Written => member.1.text == key := by
        funext member
        rw [Bool.eq_iff_iff, Function.comp_apply, beq_iff_eq, beq_iff_eq]
        exact Spelling.text_tolerated_eq_key_iff hkey
      rw [Written.tolerated, Written.lookup?, toleratedMembers_eq, ← List.map_reverse,
        List.find?_map, hsame, Written.lookup?, Option.map_map, Option.map_map]
      rfl

theorem notMem_compilerOptions (c : Char) (h : isClosing c = true) :
    c ∉ "compilerOptions".toList := by
  simp only [isClosing, Bool.or_eq_true, beq_iff_eq] at h
  rcases h with rfl | rfl <;> decide

theorem notMem_paths (c : Char) (h : isClosing c = true) : c ∉ "paths".toList := by
  simp only [isClosing, Bool.or_eq_true, beq_iff_eq] at h
  rcases h with rfl | rfl <;> decide

theorem Written.paths?_value (w : Written) : w.value.paths? = w.paths?.map Written.value := by
  rw [Json.paths?, Written.paths?, w.lookup?_value]
  cases w.lookup? "compilerOptions" with
  | none => rfl
  | some options => exact options.lookup?_value "paths"

theorem Written.paths?_tolerated (w : Written) :
    w.tolerated.paths? = w.paths?.map Written.tolerated := by
  rw [Written.paths?, Written.paths?, w.lookup?_tolerated notMem_compilerOptions]
  cases w.lookup? "compilerOptions" with
  | none => rfl
  | some options => exact options.lookup?_tolerated notMem_paths

theorem Written.isSome_fields?_tolerated (w : Written) :
    w.tolerated.value.fields?.isSome = w.value.fields?.isSome := by
  cases w <;> rfl

theorem OptionsObject.tolerated {w : Written} (h : OptionsObject w.value) :
    OptionsObject w.tolerated.value := by
  rw [OptionsObject, w.lookup?_value] at h
  rw [OptionsObject, w.tolerated.lookup?_value, w.lookup?_tolerated notMem_compilerOptions]
  cases hoptions : w.lookup? "compilerOptions" with
  | none => simp
  | some options =>
      rw [hoptions] at h
      have hobject := h options.value rfl
      rintro _ ⟨⟩
      rwa [options.isSome_fields?_tolerated]

/-- If the compiler options are an object, the alias table is that of their paths. -/
theorem aliasTable_eq_ok {v : Json} (h : OptionsObject v) : aliasTable v = .ok v.pathTable := by
  cases v with
  | obj fields =>
      rw [aliasTable, pathTable, Json.paths?, Json.lookup?, Json.fields?, Option.bind_some]
      rw [OptionsObject, Json.lookup?, Json.fields?, Option.bind_some] at h
      cases hoptions : Entries.get? fields "compilerOptions" with
      | none => rfl
      | some options =>
          obtain ⟨options, rfl⟩ : ∃ fields, options = .obj fields := by
            obtain ⟨fields, hfields⟩ := Option.isSome_iff_exists.mp (h options hoptions)
            exact ⟨fields, fields?_eq_some_iff.mp hfields⟩
          dsimp only
          rw [Option.bind_some, Json.lookup?, Json.fields?, Option.bind_some, field]
          cases Entries.get? options "paths" with
          | none => rfl
          | some paths => rfl
  | _ => rfl

end Lookups

section Untouched

variable {w : Written} {members : List (Spelling × Written)}

theorem Untouched.tolerated_eq (h : Untouched w) : w.tolerated = w := by
  induction h with
  | atom a => rfl
  | str h => rw [Written.tolerated, Spelling.tolerated_eq_self h]
  | arr _ ih =>
      rw [Written.tolerated, toleratedItems_eq, List.map_congr_left ih, List.map_id']
  | @obj members keys _ ih =>
      have hsame : ∀ member ∈ members, (member.1.tolerated, member.2.tolerated) = member := by
        intro member hmem
        rw [Spelling.tolerated_eq_self (keys member hmem), ih member hmem]
      rw [Written.tolerated, toleratedMembers_eq, List.map_congr_left hsame, List.map_id']

/-- Fields that are put to as many distinct keys as there are have distinct keys themselves. -/
theorem ofPairs_injective {fields fields' : List (String × Json)}
    (hlength : fields'.length = fields.length) (hnodup : (Entries.keys fields).Nodup)
    (h : Entries.ofPairs fields' = fields) : fields' = fields := by
  have hsubset : Entries.keys fields ⊆ Entries.keys fields' := by
    intro key hkey
    obtain ⟨entry, hentry, rfl⟩ := List.mem_map.mp hkey
    rw [← h] at hentry
    exact List.mem_map.mpr ⟨entry, Entries.mem_of_mem_ofPairs hentry, rfl⟩
  have hperm : (Entries.keys fields).Perm (Entries.keys fields') := by
    apply (List.subperm_of_subset hnodup hsubset).perm_of_length_le
    rw [Entries.keys, Entries.keys, List.length_map, List.length_map, hlength]
  rw [← h, Entries.ofPairs_eq_self (hperm.nodup_iff.mp hnodup)]

/-- Where no key is repeated, only a value that trailing commas play no part in stays the same. -/
theorem untouched_of_value (hkeys : KeysDistinct w) (h : w.tolerated.value = w.value) :
    Untouched w := by
  induction hkeys with
  | atom a => exact .atom a
  | str s => exact .str (Spelling.text_tolerated_eq_iff.mp (Json.str.inj h))
  | @arr items _ ih =>
      have hitems := Json.arr.inj h
      rw [toleratedItems_eq, writtenItems_eq, writtenItems_eq, List.map_map, List.map_inj_left]
        at hitems
      exact .arr fun w hw => ih w hw (hitems w hw)
  | @obj members nodup _ ih =>
      have hnodup : (Entries.keys (writtenFields members)).Nodup := by
        rw [writtenFields_eq, Entries.keys, List.map_map]
        exact nodup
      have hlength : (writtenFields (toleratedMembers members)).length =
          (writtenFields members).length := by
        simp [writtenFields_eq, toleratedMembers_eq]
      have hput := Json.obj.inj h
      rw [Entries.ofPairs_eq_self hnodup] at hput
      have hfields := ofPairs_injective hlength hnodup hput
      rw [toleratedMembers_eq, writtenFields_eq, writtenFields_eq, List.map_map, List.map_inj_left]
        at hfields
      refine .obj (fun member hmem => ?_) fun member hmem => ?_
      · exact Spelling.text_tolerated_eq_iff.mp (Prod.mk.inj (hfields member hmem)).1
      · exact ih member hmem (Prod.mk.inj (hfields member hmem)).2

end Untouched

end PluginContract.Json

namespace PluginContract.Resolution

open Text Files Json

/-- Whether the alias table of a project is what strict reading of its configuration file gives, if
the file is plain JSON. -/
def ReadsAsPlain (tree : Tree) (root : Path) : Prop :=
  ∀ text v, tree.readText (root.child "tsconfig.json") = .ok text → Json.read? text = .ok v →
    OptionsObject v → readAliasTable tree root = .ok v.pathTable

/-- Whether no trailing comma stands in a string of the alias table of a document. -/
def PathsUntouched (document : Written) : Prop :=
  ∀ members, document.paths? = some (.obj members) → Untouched (.obj members)

/-- Whether no key comes again in an object of the alias table of a document. -/
def PathsDistinct (document : Written) : Prop :=
  ∀ members, document.paths? = some (.obj members) → KeysDistinct (.obj members)

/-- What is read of the configuration file of a project, if it is plain JSON. -/
structure PlainConfiguration (tree : Tree) (root : Path) : Prop where
  /-- Strict reading takes the documents to their values, and nothing else. -/
  strict : ∀ text v, Json.read? text = .ok v ↔
    ∃ document : Written, document.LaidOut text ∧ document.value = v
  /-- The tolerant reader agrees, whatever the strings hold, except for trailing commas in those of
  the alias table. -/
  agrees : (∀ text document, tree.readText (root.child "tsconfig.json") = .ok text →
    document.LaidOut text → PathsUntouched document) → ReadsAsPlain tree root
  /-- It agrees in no other case, if the alias table repeats no key. -/
  agreesOnly : ReadsAsPlain tree root → ∀ text document,
    tree.readText (root.child "tsconfig.json") = .ok text → document.LaidOut text →
      OptionsObject document.value → PathsDistinct document → PathsUntouched document

section

variable {tree : Tree} {root : Path} {text : List Char} {document : Written}

/-- The alias table of a project whose configuration file is plain JSON. -/
theorem readAliasTable_of_laidOut
    (hread : tree.readText (root.child "tsconfig.json") = .ok text) (h : document.LaidOut text)
    (hoptions : OptionsObject document.value) :
    readAliasTable tree root = .ok document.tolerated.value.pathTable := by
  rw [readAliasTable, hread]
  dsimp only
  rw [h.readTolerant?_eq]
  exact aliasTable_eq_ok hoptions.tolerated

theorem pathTable_tolerated (h : PathsUntouched document) :
    document.tolerated.value.pathTable = document.value.pathTable := by
  rw [pathTable, pathTable, Written.paths?_value, Written.paths?_value, Written.paths?_tolerated]
  rw [PathsUntouched] at h
  cases hpaths : document.paths? with
  | none => rfl
  | some paths =>
      rw [hpaths] at h
      cases paths with
      | obj members =>
          rw [Option.map_some, Option.map_some, (h members rfl).tolerated_eq]
          rfl
      | _ => rfl

theorem pathsUntouched_of_pathTable (hkeys : PathsDistinct document)
    (h : document.tolerated.value.pathTable = document.value.pathTable) :
    PathsUntouched document := by
  intro members hpaths
  rw [pathTable, pathTable, Written.paths?_value, Written.paths?_value, Written.paths?_tolerated,
    hpaths] at h
  exact untouched_of_value (hkeys members hpaths) (congrArg Json.obj h)

end

/-- Tolerant and strict reading of a plain configuration file differ in trailing commas in the
strings of its alias table only. -/
theorem plainConfiguration (tree : Tree) (root : Path) : PlainConfiguration tree root where
  strict _ _ := read?_eq_ok_iff
  agrees hpaths text v hread hstrict hoptions := by
    obtain ⟨document, hlaid, rfl⟩ := read?_eq_ok_iff.mp hstrict
    rw [readAliasTable_of_laidOut hread hlaid hoptions,
      pathTable_tolerated (hpaths text document hread hlaid)]
  agreesOnly hreads text document hread hlaid hoptions hkeys := by
    have htable := hreads text document.value hread hlaid.read?_eq hoptions
    rw [readAliasTable_of_laidOut hread hlaid hoptions] at htable
    exact pathsUntouched_of_pathTable hkeys (Except.ok.inj htable)

/-- A configuration with one alias. -/
def oneAlias (target : String) : Json :=
  .obj [("compilerOptions", .obj [("paths", .obj [("a", .arr [.str target])])])]

theorem plain_oneAlias (target : String) : Json.Plain (oneAlias target) := by
  have hobject {key : String} {v : Json} (hv : Json.Plain v) : Json.Plain (.obj [(key, v)]) :=
    .obj (by simp) (List.forall_mem_singleton.mpr hv)
  exact hobject (hobject (hobject (.arr (List.forall_mem_singleton.mpr (.str target)))))

/-- A project whose only alias has a comma before a bracket in its target. -/
def bracketTree : Tree :=
  ⟨[], [(["p"], .directory),
    (["p", "tsconfig.json"], .file (Utf8.encode (compact (oneAlias "x,]"))))], .usual⟩

/-- The comma is lost, though it stands in a string of plain JSON. -/
theorem not_readsAsPlain_bracketTree :
    bracketTree.readText (Files.Path.child ⟨.top, ["p"]⟩ "tsconfig.json") =
        .ok (compact (oneAlias "x,]")) ∧
      Json.read? (compact (oneAlias "x,]")) = .ok (oneAlias "x,]") ∧
      (oneAlias "x,]").pathTable = [("a", .arr [.str "x,]"])] ∧
      readAliasTable bracketTree ⟨.top, ["p"]⟩ = .ok [("a", .arr [.str "x]"])] ∧
      ¬ ReadsAsPlain bracketTree ⟨.top, ["p"]⟩ := by
  have hread : bracketTree.readText (Files.Path.child ⟨.top, ["p"]⟩ "tsconfig.json") =
      .ok (compact (oneAlias "x,]")) := by decide +kernel
  have hstrict := Json.read?_compact (plain_oneAlias "x,]") rfl
  have hdropped : dropTrailingCommas (Script.stripComments (compact (oneAlias "x,]"))) =
      compact (oneAlias "x]") := by decide +kernel
  have htable : readAliasTable bracketTree ⟨.top, ["p"]⟩ = .ok [("a", .arr [.str "x]"])] := by
    rw [readAliasTable, hread]
    dsimp only
    rw [readTolerant?, hdropped, Json.read?_compact (plain_oneAlias "x]") rfl]
    rfl
  refine ⟨hread, hstrict, rfl, htable, fun h => ?_⟩
  have hsame := h _ _ hread hstrict (by rintro _ ⟨⟩; rfl)
  rw [htable] at hsame
  have htarget := (Prod.mk.inj (List.cons.inj (Except.ok.inj hsame)).1).2
  have htext := Json.str.inj (List.cons.inj (Json.arr.inj htarget)).1
  exact absurd htext (by decide)

end PluginContract.Resolution
