import Mathlib

/-! Memory as the C library sees it: a buffer of `capacity` slots, each holding an element or
nothing (a slot not written since the buffer was allocated). The copies and fills are bounds
checked: one that reaches past the buffer gives `none`. `HoldsAt b start l` says that the slots
from `start` on hold the list `l`; each primitive has one lemma for the window it writes and one
for the slots it keeps. -/
namespace Memory

structure Buffer (T : Type) where
  slots : ℕ → Option T
  capacity : ℕ

namespace Buffer

variable {T : Type}

/-- `malloc`: a fresh buffer, none of whose slots holds anything yet. -/
def alloc (capacity : ℕ) : Buffer T := ⟨fun _ => none, capacity⟩

/-- `realloc`: the slots below both the old and the new capacity are kept. -/
def realloc (b : Buffer T) (capacity : ℕ) : Buffer T :=
  ⟨fun i => if i < b.capacity ∧ i < capacity then b.slots i else none, capacity⟩

def read (b : Buffer T) (i : ℕ) : Option T := if i < b.capacity then b.slots i else none

/-- The `count` slots from `dst` get `f 0, f 1, ...`; the others are kept. -/
def writeRange (b : Buffer T) (dst count : ℕ) (f : ℕ → Option T) : Option (Buffer T) :=
  if dst + count ≤ b.capacity then
    some ⟨fun i => if dst ≤ i ∧ i < dst + count then f (i - dst) else b.slots i, b.capacity⟩
  else none

def write (b : Buffer T) (i : ℕ) (v : T) : Option (Buffer T) := b.writeRange i 1 fun _ => some v

/-- `std::fill_n`. -/
def fill (b : Buffer T) (dst count : ℕ) (v : T) : Option (Buffer T) := b.writeRange dst count fun _ => some v

/-- The loop that copies a range of elements from elsewhere into the buffer. -/
def fillList (b : Buffer T) (dst : ℕ) (l : List T) : Option (Buffer T) := b.writeRange dst l.length fun k => l[k]?

/-- `memmove` within one buffer: every slot is read before any is written. -/
def memmove (b : Buffer T) (dst src count : ℕ) : Option (Buffer T) :=
  if src + count ≤ b.capacity then b.writeRange dst count fun k => b.slots (src + k) else none

/-- `memcpy` from another buffer. -/
def memcpy (b : Buffer T) (dst : ℕ) (source : Buffer T) (src count : ℕ) : Option (Buffer T) :=
  if src + count ≤ source.capacity then b.writeRange dst count fun k => source.slots (src + k) else none

/-- Reading `count` slots from `start` in order, as an iterator loop does. -/
def readRange (b : Buffer T) : ℕ → ℕ → Option (List T)
  | _, 0 => some []
  | start, count + 1 => do
    let v ← b.read start
    let rest ← b.readRange (start + 1) count
    pure (v :: rest)

def HoldsAt (b : Buffer T) (start : ℕ) (l : List T) : Prop :=
  start + l.length ≤ b.capacity ∧ ∀ k, k < l.length → b.slots (start + k) = l[k]?

/-! ### Windows of slots -/

theorem holdsAt_nil {b : Buffer T} {start : ℕ} (within : start ≤ b.capacity) : b.HoldsAt start [] :=
  ⟨by simpa using within, fun k below => absurd below (Nat.not_lt_zero k)⟩

theorem holdsAt_append {b : Buffer T} {start : ℕ} {l₁ l₂ : List T} :
    b.HoldsAt start (l₁ ++ l₂) ↔ b.HoldsAt start l₁ ∧ b.HoldsAt (start + l₁.length) l₂ := by
  simp only [HoldsAt, List.length_append]
  constructor
  · rintro ⟨within, holds⟩
    refine ⟨⟨by omega, fun k below => ?_⟩, ⟨by omega, fun k below => ?_⟩⟩
    · rw [holds k (by omega), List.getElem?_append_left below]
    · rw [Nat.add_assoc, holds (l₁.length + k) (by omega), List.getElem?_append_right (by omega),
        Nat.add_sub_cancel_left]
  · rintro ⟨⟨_, first⟩, ⟨within, second⟩⟩
    refine ⟨by omega, fun k below => ?_⟩
    rcases Nat.lt_or_ge k l₁.length with left | right
    · rw [first k left, List.getElem?_append_left left]
    · have shifted := second (k - l₁.length) (by omega)
      rw [Nat.add_assoc, Nat.add_sub_cancel' right] at shifted
      rw [shifted, List.getElem?_append_right right]

theorem HoldsAt.take {b : Buffer T} {start : ℕ} {l : List T} (holds : b.HoldsAt start l) (k : ℕ) :
    b.HoldsAt start (l.take k) := by
  rw [← List.take_append_drop k l, holdsAt_append] at holds
  exact holds.1

theorem HoldsAt.drop {b : Buffer T} {start : ℕ} {l : List T} (holds : b.HoldsAt start l) {k : ℕ}
    (within : k ≤ l.length) : b.HoldsAt (start + k) (l.drop k) := by
  rw [← List.take_append_drop k l, holdsAt_append, List.length_take_of_le within] at holds
  exact holds.2

/-- The two windows of a list split at `pos`. -/
theorem HoldsAt.split {b : Buffer T} {l : List T} (holds : b.HoldsAt 0 l) {pos : ℕ} (within : pos ≤ l.length) :
    b.HoldsAt 0 (l.take pos) ∧ b.HoldsAt pos (l.drop pos) :=
  ⟨holds.take pos, by simpa using holds.drop within⟩

theorem holdsAt_join {b : Buffer T} {l₁ l₂ l₃ : List T} (first : b.HoldsAt 0 l₁) (second : b.HoldsAt l₁.length l₂)
    (third : b.HoldsAt (l₁.length + l₂.length) l₃) : b.HoldsAt 0 (l₁ ++ l₂ ++ l₃) := by
  refine holdsAt_append.mpr ⟨holdsAt_append.mpr ⟨first, by simpa using second⟩, ?_⟩
  simpa using third

theorem holdsAt_singleton {b : Buffer T} {i : ℕ} {v : T} :
    b.HoldsAt i [v] ↔ i < b.capacity ∧ b.slots i = some v := by
  simp only [HoldsAt, List.length_singleton, Nat.lt_one_iff, forall_eq, Nat.add_zero,
    List.getElem?_cons_zero, Nat.add_one_le_iff]

theorem HoldsAt.read {b : Buffer T} {start : ℕ} {l : List T} (holds : b.HoldsAt start l) {k : ℕ}
    (below : k < l.length) : b.read (start + k) = l[k]? := by
  rw [Buffer.read, if_pos (by have := holds.1; omega), holds.2 k below]

theorem HoldsAt.cons {b : Buffer T} {start : ℕ} {v : T} {l : List T} (holds : b.HoldsAt start (v :: l)) :
    b.read start = some v ∧ b.HoldsAt (start + 1) l := by
  rw [show v :: l = [v] ++ l from rfl, holdsAt_append] at holds
  exact ⟨by simpa using holds.1.read (Nat.zero_lt_one), holds.2⟩

theorem HoldsAt.readRange {b : Buffer T} : ∀ {start : ℕ} {l : List T}, b.HoldsAt start l →
    b.readRange start l.length = some l := by
  intro start l
  induction l generalizing start with
  | nil => intro _; rfl
  | cons v rest ih =>
    intro holds
    obtain ⟨first, tail⟩ := holds.cons
    simp only [List.length_cons, Buffer.readRange, first, ih tail, Option.bind_eq_bind, Option.bind_some]
    rfl

/-! ### Writes -/

theorem writeRange_eq_some {b : Buffer T} {dst count : ℕ} (f : ℕ → Option T) (within : dst + count ≤ b.capacity) :
    b.writeRange dst count f =
      some ⟨fun i => if dst ≤ i ∧ i < dst + count then f (i - dst) else b.slots i, b.capacity⟩ := by
  rw [writeRange, if_pos within]

theorem writeRange_eq_none {b : Buffer T} {dst count : ℕ} {f : ℕ → Option T} (beyond : b.capacity < dst + count) :
    b.writeRange dst count f = none := by
  rw [writeRange, if_neg (by omega)]

theorem capacity_of_writeRange {b b' : Buffer T} {dst count : ℕ} {f : ℕ → Option T}
    (written : b.writeRange dst count f = some b') : b'.capacity = b.capacity := by
  unfold writeRange at written
  split_ifs at written
  cases written
  rfl

/-- Writing a window keeps what a disjoint window holds. -/
theorem HoldsAt.writeRange {b b' : Buffer T} {start dst count : ℕ} {l : List T} {f : ℕ → Option T}
    (holds : b.HoldsAt start l) (apart : start + l.length ≤ dst ∨ dst + count ≤ start)
    (written : b.writeRange dst count f = some b') : b'.HoldsAt start l := by
  unfold Buffer.writeRange at written
  split_ifs at written with within
  cases written
  refine ⟨holds.1, fun k below => ?_⟩
  dsimp only
  rw [if_neg (by omega)]
  exact holds.2 k below

/-- The window written holds what was written. -/
theorem holdsAt_writeRange {b b' : Buffer T} {dst : ℕ} {l : List T} {f : ℕ → Option T}
    (values : ∀ k, k < l.length → f k = l[k]?) (written : b.writeRange dst l.length f = some b') :
    b'.HoldsAt dst l := by
  unfold Buffer.writeRange at written
  split_ifs at written with within
  cases written
  refine ⟨within, fun k below => ?_⟩
  dsimp only
  rw [if_pos (by omega), Nat.add_sub_cancel_left]
  exact values k below

theorem write_spec (b : Buffer T) (i : ℕ) (v : T) (within : i < b.capacity) :
    ∃ b', b.write i v = some b' ∧ b'.HoldsAt i [v] ∧ b'.capacity = b.capacity ∧
      ∀ {start : ℕ} {l : List T}, b.HoldsAt start l → (start + l.length ≤ i ∨ i + 1 ≤ start) → b'.HoldsAt start l := by
  have written := writeRange_eq_some (fun _ => some v) (show i + 1 ≤ b.capacity by omega)
  have values : ∀ k, k < [v].length → (fun _ => some v) k = [v][k]? := by
    intro k below
    simp only [List.length_singleton, Nat.lt_one_iff] at below
    simp [below]
  exact ⟨_, written, holdsAt_writeRange values written, capacity_of_writeRange written,
    fun holds apart => holds.writeRange apart written⟩

theorem fill_spec (b : Buffer T) (dst count : ℕ) (v : T) (within : dst + count ≤ b.capacity) :
    ∃ b', b.fill dst count v = some b' ∧ b'.HoldsAt dst (List.replicate count v) ∧ b'.capacity = b.capacity ∧
      ∀ {start : ℕ} {l : List T}, b.HoldsAt start l → (start + l.length ≤ dst ∨ dst + count ≤ start) → b'.HoldsAt start l := by
  have written := writeRange_eq_some (fun _ => some v) within
  refine ⟨_, written, ?_, capacity_of_writeRange written, fun holds apart => holds.writeRange apart written⟩
  refine holdsAt_writeRange (fun k below => ?_) (by rwa [List.length_replicate])
  rw [List.length_replicate] at below
  rw [List.getElem?_replicate_of_lt below]

theorem fillList_spec (b : Buffer T) (dst : ℕ) (l : List T) (within : dst + l.length ≤ b.capacity) :
    ∃ b', b.fillList dst l = some b' ∧ b'.HoldsAt dst l ∧ b'.capacity = b.capacity ∧
      ∀ {start : ℕ} {l' : List T}, b.HoldsAt start l' → (start + l'.length ≤ dst ∨ dst + l.length ≤ start) →
        b'.HoldsAt start l' := by
  have written := writeRange_eq_some (fun k => l[k]?) within
  exact ⟨_, written, holdsAt_writeRange (fun _ _ => rfl) written, capacity_of_writeRange written,
    fun holds apart => holds.writeRange apart written⟩

/-- `memmove` carries the window at `src` to `dst`, overlapping or not. -/
theorem memmove_spec {b : Buffer T} (dst : ℕ) {src : ℕ} {l : List T} (holds : b.HoldsAt src l)
    (within : dst + l.length ≤ b.capacity) :
    ∃ b', b.memmove dst src l.length = some b' ∧ b'.HoldsAt dst l ∧ b'.capacity = b.capacity ∧
      ∀ {start : ℕ} {l' : List T}, b.HoldsAt start l' → (start + l'.length ≤ dst ∨ dst + l.length ≤ start) →
        b'.HoldsAt start l' := by
  have written := writeRange_eq_some (fun k => b.slots (src + k)) within
  refine ⟨_, by rw [memmove, if_pos holds.1]; exact written, holdsAt_writeRange holds.2 written,
    capacity_of_writeRange written, fun holds' apart => holds'.writeRange apart written⟩

theorem memcpy_spec (b : Buffer T) (dst : ℕ) {source : Buffer T} {src : ℕ} {l : List T} (holds : source.HoldsAt src l)
    (within : dst + l.length ≤ b.capacity) :
    ∃ b', b.memcpy dst source src l.length = some b' ∧ b'.HoldsAt dst l ∧ b'.capacity = b.capacity := by
  have written := writeRange_eq_some (fun k => source.slots (src + k)) within
  exact ⟨_, by rw [memcpy, if_pos holds.1]; exact written, holdsAt_writeRange holds.2 written,
    capacity_of_writeRange written⟩

theorem HoldsAt.realloc {b : Buffer T} {l : List T} (holds : b.HoldsAt 0 l) {capacity : ℕ}
    (within : l.length ≤ capacity) : (b.realloc capacity).HoldsAt 0 l := by
  refine ⟨by simpa [Buffer.realloc] using within, fun k below => ?_⟩
  have kept : k < b.capacity := by have := holds.1; omega
  simp only [Buffer.realloc, Nat.zero_add]
  rw [if_pos ⟨kept, by omega⟩]
  simpa using holds.2 k below

end Buffer

end Memory
