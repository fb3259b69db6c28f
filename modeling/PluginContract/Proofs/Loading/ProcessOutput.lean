import PluginContract.Loading.Runtime

/-!
# The output of a process

What is read of a process depends on the bytes that it prints and not on the chunks in which they
come. The bytes are counted while they are read and decoded when all of them are there, so neither
the limit nor a character can be missed between two chunks.
-/

namespace PluginContract.Loading

open Text

/-- The bytes that are read from chunks, up to the empty chunk that stands for the end. -/
def bytesRead (chunks : List Utf8.Bytes) : Utf8.Bytes :=
  (chunks.takeWhile fun chunk => !chunk.isEmpty).flatten

section

variable {chunk bytes : Utf8.Bytes} {chunks rest : List Utf8.Bytes}

@[simp] theorem bytesRead_nil : bytesRead [] = [] := rfl

@[simp] theorem bytesRead_empty : bytesRead ([] :: rest) = [] := rfl

theorem bytesRead_cons (h : chunk ≠ []) : bytesRead (chunk :: rest) = chunk ++ bytesRead rest := by
  have hfull : chunk.isEmpty = false := by simpa using h
  simp [bytesRead, hfull]

theorem bytesRead_eq_flatten (h : ∀ chunk ∈ chunks, chunk ≠ []) :
    bytesRead chunks = chunks.flatten := by
  induction chunks with
  | nil => rfl
  | cons chunk rest ih =>
      obtain ⟨hchunk, hrest⟩ := List.forall_mem_cons.mp h
      rw [bytesRead_cons hchunk, ih hrest, List.flatten_cons]

/-- The bytes that came before count, and the last chunk that was read did not exceed the limit, so
it is some later byte that does. -/
theorem collect?_eq (limit : Int) (size : Nat) (chunks : List Utf8.Bytes) :
    collect? limit size chunks =
      if bytesRead chunks ≠ [] ∧ limit < size + (bytesRead chunks).length then none
      else some (bytesRead chunks) := by
  induction chunks generalizing size with
  | nil => simp [collect?]
  | cons chunk rest ih =>
      by_cases hchunk : chunk = []
      · subst hchunk
        simp [collect?]
      have hempty : chunk.isEmpty = false := by simpa using hchunk
      have hbytes : chunk ++ bytesRead rest ≠ [] := by simp [hchunk]
      rw [collect?, hempty, if_neg Bool.false_ne_true, bytesRead_cons hchunk, List.length_append]
      by_cases hover : limit < size + chunk.length
      · rw [if_pos hover, if_pos ⟨hbytes, by omega⟩]
      · rw [if_neg hover, ih]
        -- without further bytes the limit is kept, as it was by this chunk
        by_cases hrest : bytesRead rest = []
        · simp [hrest, hchunk, hover]
        · simp only [ne_eq, hrest, hbytes, not_false_eq_true, true_and, Int.natCast_add,
            Int.add_assoc]
          split <;> rfl

end

/-- The bytes that a process prints. -/
def Process.bytes (process : Process) : Utf8.Bytes := bytesRead process.chunks

/-- Whether a process prints more than a setup allows. -/
def Setup.Exceeds (s : Setup) (process : Process) : Prop :=
  process.bytes ≠ [] ∧ s.limit < process.bytes.length

instance (s : Setup) (process : Process) : Decidable (s.Exceeds process) :=
  inferInstanceAs (Decidable (_ ∧ _))

theorem collect?_bytes (s : Setup) (process : Process) :
    collect? s.limit 0 process.chunks =
      if s.Exceeds process then none else some process.bytes := by
  have h := collect?_eq s.limit 0 process.chunks
  rwa [Int.natCast_zero, Int.zero_add] at h

/-- Whether chunks are a split of bytes, none of them empty. -/
structure Splits (bytes : Utf8.Bytes) (chunks : List Utf8.Bytes) : Prop where
  flatten_eq : chunks.flatten = bytes
  ne_nil : ∀ chunk ∈ chunks, chunk ≠ []

section

variable {μ : Type → Type} [Monad μ] {s : Setup} {process : Process} {bytes : Utf8.Bytes}

theorem Splits.bytes_eq (h : Splits bytes process.chunks) : process.bytes = bytes := by
  rw [Process.bytes, bytesRead_eq_flatten h.ne_nil, h.flatten_eq]

theorem Splits.exceeds_iff (h : Splits bytes process.chunks) (hlimit : 0 ≤ s.limit) :
    s.Exceeds process ↔ s.limit < bytes.length := by
  rw [Setup.Exceeds, h.bytes_eq]
  refine and_iff_right_of_imp fun hover => ?_
  rintro rfl
  simp only [List.length_nil] at hover
  omega

theorem readOutput_of_exceeds (h : s.Exceeds process) (host : Host μ) :
    s.readOutput host process = (do
      host.kill
      return .error (.overLimit s.limit)) := by
  rw [Setup.readOutput, collect?_bytes, if_pos h]

theorem readOutput_of_not_exceeds (h : ¬ s.Exceeds process) (host : Host μ) :
    s.readOutput host process = return .ok (Utf8.decodeLossy process.bytes) := by
  rw [Setup.readOutput, collect?_bytes, if_neg h]

end

/-- A process is killed, and its output is refused, if and only if its bytes are more than the
limit; otherwise all of them are decoded together. So processes that print the same bytes in
different chunks are read alike. -/
theorem readOutput_of_splits {μ : Type → Type} [Monad μ] (s : Setup) (hlimit : 0 ≤ s.limit)
    (host : Host μ) {bytes : Utf8.Bytes} {process other : Process}
    (h : Splits bytes process.chunks) (h' : Splits bytes other.chunks) :
    (s.readOutput host process =
      if s.limit < bytes.length then do
        host.kill
        return .error (.overLimit s.limit)
      else return .ok (Utf8.decodeLossy bytes)) ∧
      s.readOutput host other = s.readOutput host process := by
  have hread {process : Process} (h : Splits bytes process.chunks) :
      s.readOutput host process =
        if s.limit < bytes.length then do
          host.kill
          return .error (.overLimit s.limit)
        else return .ok (Utf8.decodeLossy bytes) := by
    have hexceeds := h.exceeds_iff hlimit
    split
    · rename_i hover
      exact readOutput_of_exceeds (hexceeds.mpr hover) host
    · rename_i hfits
      rw [readOutput_of_not_exceeds (mt hexceeds.mp hfits) host, h.bytes_eq]
  exact ⟨hread h, (hread h').trans (hread h).symm⟩

/-- A host that counts how often it is asked to kill a process. -/
def killCounter : Host (StateM Nat) where
  createPreload _ := return ⟨.top, ["preload.mjs"]⟩
  removePreload _ := return ()
  start _ _ := return .error "not found"
  kill := modify (· + 1)

/-- A character that comes in two chunks is decoded if both its bytes are allowed; if only one is,
the process is killed. -/
theorem readOutput_of_splits_character :
    let whole : Process := ⟨[[0xC3, 0xA9]], [], 0⟩
    let cut : Process := ⟨[[0xC3], [0xA9]], [], 0⟩
    let two : Setup := ⟨.deno, "deno", none, 2⟩
    let one : Setup := ⟨.deno, "deno", none, 1⟩
    Splits [0xC3, 0xA9] whole.chunks ∧ Splits [0xC3, 0xA9] cut.chunks ∧
      two.readOutput killCounter cut = two.readOutput killCounter whole ∧
      (two.readOutput killCounter whole).run 0 = (.ok ['é'], 0) ∧
      one.readOutput killCounter cut = one.readOutput killCounter whole ∧
      (one.readOutput killCounter whole).run 0 = (.error (.overLimit 1), 1) := by
  intro whole cut two one
  have hwhole : Splits [0xC3, 0xA9] whole.chunks := ⟨rfl, by decide⟩
  have hcut : Splits [0xC3, 0xA9] cut.chunks := ⟨rfl, by decide⟩
  obtain ⟨hread, hsame⟩ := readOutput_of_splits two (by decide) killCounter hwhole hcut
  obtain ⟨hkilled, hsame'⟩ := readOutput_of_splits one (by decide) killCounter hwhole hcut
  refine ⟨hwhole, hcut, hsame, ?_, hsame', ?_⟩
  · rw [hread]
    rfl
  · rw [hkilled]
    rfl

end PluginContract.Loading
