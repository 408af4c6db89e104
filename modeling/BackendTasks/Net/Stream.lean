import BackendTasks.Net.Bytes

/-!
# A stream and its division into reads

TCP delivers the bytes of a stream in order, but in reads of any sizes: neither do two parts of
the stream that were sent one by one come apart, nor does one part come as a whole.
-/

namespace BackendTasks.Net

/-- The reads, of at most `size` bytes, divide the bytes of the parts. -/
structure Division (size : ℕ) (parts reads : List Bytes) : Prop where
  flatten : reads.flatten = parts.flatten
  ne_nil : ∀ read ∈ reads, read ≠ []
  length_le : ∀ read ∈ reads, read.length ≤ size

variable {size : ℕ}

/-- One byte at a time. -/
theorem Division.bytewise (h : 0 < size) (parts : List Bytes) :
    Division size parts (parts.flatten.map fun b => [b]) := by
  refine ⟨?_, ?_, ?_⟩
  · rw [← List.flatMap_def, List.flatMap_singleton']
  · intro read hread
    obtain ⟨b, -, rfl⟩ := List.mem_map.1 hread
    simp
  · intro read hread
    obtain ⟨b, -, rfl⟩ := List.mem_map.1 hread
    exact h

/-- Each part as a whole. -/
theorem Division.partwise {parts : List Bytes} (hne : ∀ part ∈ parts, part ≠ [])
    (hle : ∀ part ∈ parts, part.length ≤ size) : Division size parts parts := ⟨rfl, hne, hle⟩

end BackendTasks.Net
