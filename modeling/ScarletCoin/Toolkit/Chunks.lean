import Mathlib.Data.List.Basic
import Mathlib.Tactic.Common

/-!
# Streams that arrive in chunks

A stream is delivered as a list of chunks, and each read takes at most a number of elements of the
next one. `gather` reads until it has enough. How the stream is cut makes no difference to what it
returns: as long as no chunk is empty, it is the first elements of the stream, and the others are
left (`gather_eq_some`); it fails only on a stream that is too short (`gather_eq_none`).
-/

set_option autoImplicit false

namespace Toolkit

variable {α : Type}

/-- Take at most `size` elements of the next chunk; nothing at the end of the stream. -/
def takeChunk (size : Nat) : List (List α) → List α × List (List α)
  | [] => ([], [])
  | chunk :: chunks =>
      if chunk.length ≤ size then (chunk, chunks) else (chunk.take size, chunk.drop size :: chunks)

/-- No chunk is empty. -/
def Chunked (chunks : List (List α)) : Prop := ∀ chunk ∈ chunks, chunk ≠ []

theorem takeChunk_length_le (size : Nat) (chunks : List (List α)) :
    (takeChunk size chunks).1.length ≤ size := by
  cases chunks with
  | nil => exact Nat.zero_le size
  | cons chunk chunks =>
    rw [takeChunk]
    split
    · assumption
    · exact List.length_take_le size chunk

theorem takeChunk_flatten (size : Nat) (chunks : List (List α)) :
    (takeChunk size chunks).1 ++ (takeChunk size chunks).2.flatten = chunks.flatten := by
  cases chunks with
  | nil => rfl
  | cons chunk chunks =>
    rw [takeChunk]
    split
    · rfl
    · show chunk.take size ++ (chunk.drop size ++ chunks.flatten) = chunk ++ chunks.flatten
      rw [← List.append_assoc, List.take_append_drop]

namespace Chunked

variable {chunks : List (List α)}

/-- Only the stream without chunks is at its end. -/
theorem eq_nil (h : Chunked chunks) (hend : chunks.flatten = []) : chunks = [] := by
  cases chunks with
  | nil => rfl
  | cons chunk chunks =>
    exact absurd (List.append_eq_nil_iff.mp hend).1 (h chunk List.mem_cons_self)

theorem takeChunk (h : Chunked chunks) (size : Nat) :
    Chunked (Toolkit.takeChunk size chunks).2 := by
  cases chunks with
  | nil => exact h
  | cons chunk chunks =>
    have htail : Chunked chunks := fun c hc => h c (List.mem_cons_of_mem chunk hc)
    rw [Toolkit.takeChunk]
    split
    · exact htail
    · rename_i hlong
      refine List.forall_mem_cons.mpr ⟨fun hnil => hlong ?_, htail⟩
      exact List.drop_eq_nil_iff.mp hnil

/-- A read gives nothing only at the end of the stream. -/
theorem takeChunk_eq_nil (h : Chunked chunks) {size : Nat} (hsize : 0 < size)
    (hnil : (Toolkit.takeChunk size chunks).1 = []) : chunks = [] := by
  cases chunks with
  | nil => rfl
  | cons chunk chunks =>
    have hchunk := h chunk List.mem_cons_self
    rw [Toolkit.takeChunk] at hnil
    split at hnil
    · exact absurd hnil hchunk
    · rcases List.take_eq_nil_iff.mp hnil with hzero | hnil
      · omega
      · exact absurd hnil hchunk

end Chunked

/-- Read until the buffer holds `length` elements, at most `limit` of them at a time; `none` if a
read gives nothing before that. -/
def gather (limit length : Nat) (buffer : List α) (chunks : List (List α)) :
    Option (List α × List (List α)) :=
  if _ : buffer.length < length then
    let read := takeChunk (min limit (length - buffer.length)) chunks
    if _ : 0 < read.1.length then gather limit length (buffer ++ read.1) read.2 else none
  else some (buffer, chunks)
termination_by length - buffer.length
decreasing_by
  show length - (buffer ++ read.1).length < length - buffer.length
  rw [List.length_append]
  omega

/-- Enough of a stream is read however it is cut. -/
theorem gather_eq_some {limit length : Nat} (hlimit : 0 < limit) {buffer : List α}
    {chunks : List (List α)} (hchunks : Chunked chunks) (hbuffer : buffer.length ≤ length)
    (hlong : length - buffer.length ≤ chunks.flatten.length) :
    ∃ rest, gather limit length buffer chunks =
        some (buffer ++ chunks.flatten.take (length - buffer.length), rest) ∧
      rest.flatten = chunks.flatten.drop (length - buffer.length) ∧ Chunked rest := by
  fun_induction gather limit length buffer chunks with
  | case1 buffer chunks hlt read hread ih =>
    have hsplit : read.1 ++ read.2.flatten = chunks.flatten := takeChunk_flatten _ chunks
    have hshort : read.1.length ≤ length - buffer.length :=
      Nat.le_trans (takeChunk_length_le _ chunks) (Nat.min_le_right _ _)
    have hlen := congrArg List.length hsplit
    rw [List.length_append] at hlen
    have hleft : length - (buffer ++ read.1).length = length - buffer.length - read.1.length := by
      rw [List.length_append]
      omega
    have hbuffer' : (buffer ++ read.1).length ≤ length := by
      rw [List.length_append]
      omega
    obtain ⟨rest, hgather, hrest, hproper⟩ := ih (hchunks.takeChunk _) hbuffer'
      (by rw [hleft]; omega)
    refine ⟨rest, ?_, ?_, hproper⟩
    · rw [hgather, hleft, ← hsplit, List.take_append, List.take_of_length_le hshort,
        List.append_assoc]
    · rw [hrest, hleft, ← hsplit, List.drop_append, List.drop_of_length_le hshort, List.nil_append]
  | case2 buffer chunks hlt read hread =>
    have hnil : read.1 = [] := List.length_eq_zero_iff.mp (by omega)
    have hend := hchunks.takeChunk_eq_nil (by omega) hnil
    rw [hend] at hlong
    exact absurd hlong (by simp only [List.flatten_nil, List.length_nil]; omega)
  | case3 buffer chunks hlt =>
    have hzero : length - buffer.length = 0 := by omega
    refine ⟨chunks, ?_, ?_, hchunks⟩
    · rw [hzero, List.take_zero, List.append_nil]
    · rw [hzero, List.drop_zero]

/-- A stream that is too short is read to its end and found short. -/
theorem gather_eq_none {limit length : Nat} {buffer : List α} {chunks : List (List α)}
    (hshort : buffer.length + chunks.flatten.length < length) :
    gather limit length buffer chunks = none := by
  fun_induction gather limit length buffer chunks with
  | case1 buffer chunks hlt read hread ih =>
    have hsplit : read.1 ++ read.2.flatten = chunks.flatten := takeChunk_flatten _ chunks
    have hlen := congrArg List.length hsplit
    rw [List.length_append] at hlen
    exact ih (by rw [List.length_append]; omega)
  | case2 => rfl
  | case3 buffer chunks hlt => omega

end Toolkit
