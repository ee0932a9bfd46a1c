import Mathlib

/-! The append-only file of libmw that holds the hashes of a `PMMR`
(`file/AppendOnlyFile.h`, `File::Write` and `File::Truncate` in `file/File.cpp`). The
file is a list of records, one per 32-byte hash: every offset the MMR code passes is a
multiple of `mw::Hash::size()`, and an offset divided by 32 is a record index. -/
namespace Pussycoin

/-- `std::vector::resize`: cut to `n` elements, or extend with `zero`. -/
def resize {α : Type} (zero : α) (l : List α) (n : ℕ) : List α :=
  l.take n ++ List.replicate (n - l.length) zero

section Resize

variable {α : Type} {zero : α} {l : List α} {n p : ℕ}

@[simp] theorem length_resize : (resize zero l n).length = n := by
  simp only [resize, List.length_append, List.length_take, List.length_replicate]
  omega

/-- Below both lengths, a resized list reads as the list. -/
theorem getElem?_resize (inside : p < n) (old : p < l.length) : (resize zero l n)[p]? = l[p]? := by
  have kept : p < (l.take n).length := by
    simp only [List.length_take]
    omega
  rw [resize, List.getElem?_append_left kept, List.getElem?_take_of_lt inside]

/-- Past the list's end a resized list holds `zero`. -/
theorem getElem?_resize_of_le (inside : p < n) (new : l.length ≤ p) : (resize zero l n)[p]? = some zero := by
  have cut : (l.take n).length ≤ p := by
    simp only [List.length_take]
    omega
  rw [resize, List.getElem?_append_right cut, List.getElem?_replicate]
  simp only [List.length_take]
  rw [if_pos (by omega)]

/-- What a resized list holds other than `zero` the list held at the same position. -/
theorem getElem?_resize_eq_some {x : α} (found : (resize zero l n)[p]? = some x) (other : x ≠ zero) :
    p < n ∧ l[p]? = some x := by
  have inside : p < n := by simpa using (List.getElem?_eq_some_iff.1 found).1
  rcases Nat.lt_or_ge p l.length with old | new
  · exact ⟨inside, (getElem?_resize inside old).symm.trans found⟩
  · rw [getElem?_resize_of_le inside new, Option.some.injEq] at found
    exact absurd found.symm other

end Resize

namespace File

variable {α : Type}

/-- `File::Write(startIndex, bytes, truncate)` on a file holding `contents`. The stream
is opened with `std::ios::app`, so the bytes land at the end of the file whatever
position `seekp` asked for; `Truncate` then cuts the file, or extends it with zero
bytes, to `startIndex + bytes.size()`. -/
def write (zero : α) (contents : List α) (startIndex : ℕ) (bytes : List α) (truncate : Bool) :
    List α :=
  let written := if bytes.isEmpty then contents else contents ++ bytes
  if truncate then resize zero written (startIndex + bytes.length) else written

/-- Writing at the end of the file appends. -/
theorem write_at_end (zero : α) (contents bytes : List α) :
    write zero contents contents.length bytes true = contents ++ bytes := by
  cases bytes with
  | nil => simp [write, resize]
  | cons b rest => simp [write, resize, List.take_of_length_le]

end File

/-- `AppendOnlyFile`: the file as its memory map reads it, `m_fileSize`, and the buffer
of appended records that starts at `m_bufferIndex`. -/
structure AppendOnlyFile (α : Type) where
  file : List α
  fileSize : ℕ
  bufferIndex : ℕ
  buffer : List α

namespace AppendOnlyFile

variable {α : Type}

/-- `AppendOnlyFile::Load` of a file with these contents. -/
def load (contents : List α) : AppendOnlyFile α := ⟨contents, contents.length, contents.length, []⟩

def getSize (f : AppendOnlyFile α) : ℕ := f.bufferIndex + f.buffer.length

def append (f : AppendOnlyFile α) (data : List α) : AppendOnlyFile α :=
  { f with buffer := f.buffer ++ data }

/-- `Rewind`, which asserts that nothing was rewound since the last commit and throws
past the end. -/
def rewind (f : AppendOnlyFile α) (nextPosition : ℕ) : Option (AppendOnlyFile α) :=
  if f.fileSize ≠ f.bufferIndex then none
  else if nextPosition > f.bufferIndex + f.buffer.length then none
  else if nextPosition ≤ f.bufferIndex then some { f with buffer := [], bufferIndex := nextPosition }
  else some { f with buffer := f.buffer.take (nextPosition - f.bufferIndex) }

/-- `Read` of one record: below the buffer index from the mapped file, above it from the
buffer. -/
def read (f : AppendOnlyFile α) (position : ℕ) : Option α :=
  if position + 1 > f.bufferIndex + f.buffer.length then none
  else if position < f.bufferIndex then f.file[position]?
  else f.buffer[position - f.bufferIndex]?

/-- `Commit`: the buffer is written at the buffer index into a copy of the file, which is
mapped again. -/
def commit (zero : α) (f : AppendOnlyFile α) : Option (AppendOnlyFile α) :=
  if f.fileSize < f.bufferIndex then none
  else if f.fileSize ≠ f.bufferIndex ∨ f.buffer ≠ [] then
    let written := File.write zero f.file f.bufferIndex f.buffer true
    some ⟨written, written.length, written.length, []⟩
  else some ⟨f.file, f.fileSize, f.fileSize, []⟩

theorem getSize_append (f : AppendOnlyFile α) (x : α) : (f.append [x]).getSize = f.getSize + 1 := by
  simp [getSize, append, Nat.add_assoc]

/-- Appending keeps every record that could be read before. -/
theorem read_append_of_lt (f : AppendOnlyFile α) (x : α) {p : ℕ} (below : p < f.getSize) :
    (f.append [x]).read p = f.read p := by
  unfold getSize at below
  simp only [read, append, List.length_append, List.length_singleton]
  rw [if_neg (by omega), if_neg (by omega)]
  by_cases old : p < f.bufferIndex
  · simp only [old, if_true]
  · simp only [old, if_false]
    exact List.getElem?_append_left (by omega)

theorem read_append_getSize (f : AppendOnlyFile α) (x : α) : (f.append [x]).read f.getSize = some x := by
  have beyond : ¬ f.bufferIndex + f.buffer.length < f.bufferIndex := by omega
  simp only [read, append, getSize, List.length_append, List.length_singleton]
  simp [beyond]

/-- After a rewind below the committed size, a commit keeps every record of the old file
below the new size: the buffer lands past the old end and the truncation cuts it away. -/
theorem commit_keeps_old_records (zero : α) {f f' : AppendOnlyFile α}
    (rewound : f.bufferIndex < f.fileSize) (committed : f.commit zero = some f') {p : ℕ}
    (old : p < f.file.length) (inside : p < f'.file.length) : f'.file[p]? = f.file[p]? := by
  unfold commit at committed
  rw [if_neg (by omega), if_pos (.inl (by omega))] at committed
  cases committed
  -- before the truncation the file is the old one with the buffer, if any, after it
  obtain ⟨rest, written⟩ : ∃ rest, (if f.buffer.isEmpty then f.file else f.file ++ f.buffer) =
      f.file ++ rest := by
    split
    · exact ⟨[], by simp⟩
    · exact ⟨f.buffer, rfl⟩
  simp only [File.write, written, if_true, length_resize] at inside ⊢
  have longer : p < (f.file ++ rest).length := by
    simp only [List.length_append]
    omega
  rw [getElem?_resize inside longer, List.getElem?_append_left old]

end AppendOnlyFile

end Pussycoin
