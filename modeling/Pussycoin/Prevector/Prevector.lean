import Pussycoin.Memory

/-! `prevector.h`: a vector that keeps up to `N` elements in an array inside the object and moves
them to a heap buffer beyond that. `_size` is the number of elements in direct mode and that
number plus `N + 1` in indirect mode. `Size` is the template's default `uint32_t`, so the updates of
`_size` and the capacities computed for growth wrap modulo 2^32, and `Diff` is `int32_t`. The
union holds either the inline array or the heap pointer with its capacity; reading the member that
was not written last is undefined and gives `none`, as does a copy or fill past a buffer. Element
types are trivially copyable, so the destructor loop of `erase` is never taken, and allocation is
assumed to succeed. -/
namespace Pussycoin

open Memory

/-- A `size_type` value from an unsigned sum. -/
def toSize (n : ℕ) : ℕ := n % 2 ^ 32

/-- A `size_type` value from a signed computation. -/
def toSizeInt (x : ℤ) : ℕ := (x % 2 ^ 32).toNat

/-- A `difference_type` value: `int32_t`. -/
def toDiff (x : ℤ) : ℤ := if x % 2 ^ 32 < 2 ^ 31 then x % 2 ^ 32 else x % 2 ^ 32 - 2 ^ 32

/-- `direct_or_indirect`: the inline array of `N` slots, or the heap buffer with its capacity. -/
inductive DirectOrIndirect (T : Type) where
  | direct (direct : ℕ → Option T)
  | indirect (indirect : Buffer T)

structure Prevector (N : ℕ) (T : Type) where
  _union : DirectOrIndirect T
  _size : ℕ

/-- The member of the union a pointer into the elements points into. -/
inductive Member
  | direct
  | indirect
deriving DecidableEq

namespace Prevector

variable {N : ℕ} {T : Type}

/-- `prevector()`: `_union = {}` and `_size = 0`. -/
def empty : Prevector N T := ⟨.direct fun _ => none, 0⟩

def is_direct (p : Prevector N T) : Bool := p._size ≤ N

/-- The member `item_ptr` points into. -/
def member (p : Prevector N T) : Member := if p.is_direct then .direct else .indirect

/-- The slots of a member of the union. -/
def buffer (p : Prevector N T) : Member → Option (Buffer T)
  | .direct =>
    match p._union with
    | .direct direct => some ⟨direct, N⟩
    | .indirect _ => none
  | .indirect =>
    match p._union with
    | .indirect indirect => some indirect
    | .direct _ => none

/-- Writing through a pointer into a member of the union. -/
def store (p : Prevector N T) : Member → Buffer T → Prevector N T
  | .direct, b => ⟨.direct b.slots, p._size⟩
  | .indirect, b => ⟨.indirect b, p._size⟩

def size (p : Prevector N T) : ℕ := if p.is_direct then p._size else p._size - N - 1

def capacity (p : Prevector N T) : Option ℕ :=
  if p.is_direct then some N else (p.buffer .indirect).map Buffer.capacity

def change_capacity (p : Prevector N T) (new_capacity : ℕ) : Option (Prevector N T) :=
  if new_capacity ≤ N then
    if !p.is_direct then do
      let indirect ← p.buffer .indirect
      -- the inline array lies over the pointer: none of its slots holds an element yet
      let direct ← (Buffer.alloc N).memcpy 0 indirect 0 p.size
      pure ⟨.direct direct.slots, toSizeInt ((p._size : ℤ) - (N + 1))⟩
    else pure p
  else if !p.is_direct then do
    let indirect ← p.buffer .indirect
    pure ⟨.indirect (indirect.realloc new_capacity), p._size⟩
  else do
    let direct ← p.buffer .direct
    let new_indirect ← (Buffer.alloc new_capacity).memcpy 0 direct 0 p.size
    pure ⟨.indirect new_indirect, toSize (p._size + (N + 1))⟩

/-- `operator[]`, read. -/
def index (p : Prevector N T) (pos : ℕ) : Option T := (p.buffer p.member).bind fun b => b.read pos

/-- `operator[]`, written. -/
def set_index (p : Prevector N T) (pos : ℕ) (value : T) : Option (Prevector N T) := do
  let m := p.member
  let b ← p.buffer m
  let b ← b.write pos value
  pure (p.store m b)

def front (p : Prevector N T) : Option T := p.index 0

def back (p : Prevector N T) : Option T := p.index (toSizeInt ((p.size : ℤ) - 1))

/-- The elements from `begin()` to `end()`, in the order an iterator visits them. -/
def iterate (p : Prevector N T) : Option (List T) := (p.buffer p.member).bind fun b => b.readRange 0 p.size

/-- `erase(first, last)`, with the positions of the two iterators. -/
def erase_range (p : Prevector N T) (first last : ℕ) : Option (Prevector N T) :=
  let m := p.member
  let endp := p.size
  -- `_size -= last - p`
  let erased : Prevector N T := ⟨p._union, toSizeInt ((p._size : ℤ) - ((last : ℤ) - first))⟩
  -- `endp - last` bytes: a negative count is a huge `size_t`
  if endp < last then none
  else do
    let b ← p.buffer m
    let b ← b.memmove first last (endp - last)
    pure (erased.store m b)

def erase (p : Prevector N T) (pos : ℕ) : Option (Prevector N T) := p.erase_range pos (pos + 1)

/-- `pop_back`: `erase(end() - 1, end())`; on an empty prevector `end() - 1` lies before the
elements. -/
def pop_back (p : Prevector N T) : Option (Prevector N T) :=
  if p.size = 0 then none else p.erase_range (p.size - 1) p.size

def resize [Inhabited T] (p : Prevector N T) (new_size : ℕ) : Option (Prevector N T) := do
  let cur_size := p.size
  if cur_size = new_size then pure p
  else if cur_size > new_size then p.erase_range new_size p.size
  else do
    let capacity ← p.capacity
    let p ← if new_size > capacity then p.change_capacity new_size else pure p
    let increase := new_size - cur_size
    let m := p.member
    let b ← p.buffer m
    -- `fill(item_ptr(cur_size), increase)` with value-initialised elements
    let b ← b.fill cur_size increase default
    let p := p.store m b
    pure ⟨p._union, toSize (p._size + increase)⟩

def reserve (p : Prevector N T) (new_capacity : ℕ) : Option (Prevector N T) := do
  let capacity ← p.capacity
  if new_capacity > capacity then p.change_capacity new_capacity else pure p

def shrink_to_fit (p : Prevector N T) : Option (Prevector N T) := p.change_capacity p.size

def clear [Inhabited T] (p : Prevector N T) : Option (Prevector N T) := p.resize 0

/-- `_size += n` and then `fill(item_ptr(0), ...)` of `assign` and the constructors. -/
def fillFromStart (p : Prevector N T) (n : ℕ) (fill : Buffer T → Option (Buffer T)) : Option (Prevector N T) := do
  let p : Prevector N T := ⟨p._union, toSize (p._size + n)⟩
  let m := p.member
  let b ← p.buffer m
  let b ← fill b
  pure (p.store m b)

/-- The body of both `assign` overloads: `clear()`, room for `n` elements, then `_size += n` and
the fill. -/
def refill [Inhabited T] (p : Prevector N T) (n : ℕ) (fill : Buffer T → Option (Buffer T)) :
    Option (Prevector N T) := do
  let p ← p.clear
  let capacity ← p.capacity
  let p ← if capacity < n then p.change_capacity n else pure p
  p.fillFromStart n fill

/-- `assign(size_type n, const T& val)`. -/
def assign [Inhabited T] (p : Prevector N T) (n : ℕ) (val : T) : Option (Prevector N T) :=
  p.refill n fun b => b.fill 0 n val

/-- `assign(InputIterator first, InputIterator last)`; `last - first` is narrowed to
`size_type`. -/
def assign_range [Inhabited T] (p : Prevector N T) (range : List T) : Option (Prevector N T) :=
  p.refill (toSize range.length) fun b => b.fillList 0 range

/-- `prevector(size_type n)`: `resize(n)`. -/
def construct_size [Inhabited T] (n : ℕ) : Option (Prevector N T) := (empty : Prevector N T).resize n

/-- The body of the constructors from a count or a range: `change_capacity(n)`, then `_size += n`
and the fill. -/
def constructFrom (n : ℕ) (fill : Buffer T → Option (Buffer T)) : Option (Prevector N T) := do
  let p ← (empty : Prevector N T).change_capacity n
  p.fillFromStart n fill

/-- `prevector(size_type n, const T& val)`. -/
def construct_fill (n : ℕ) (val : T) : Option (Prevector N T) := constructFrom n fun b => b.fill 0 n val

/-- `prevector(InputIterator first, InputIterator last)`. -/
def construct_range (range : List T) : Option (Prevector N T) :=
  constructFrom (toSize range.length) fun b => b.fillList 0 range

/-- `prevector(const prevector& other)`: the elements of `other` from `begin()` to `end()`. -/
def construct_copy (other : Prevector N T) : Option (Prevector N T) := do
  let elements ← other.iterate
  constructFrom other.size fun b => b.fillList 0 elements

/-- `swap`: the unions and the sizes change places. -/
def swap (p other : Prevector N T) : Prevector N T × Prevector N T :=
  (⟨other._union, other._size⟩, ⟨p._union, p._size⟩)

/-- `prevector(prevector&& other)`: a new prevector swapped with `other`. -/
def construct_move (other : Prevector N T) : Prevector N T × Prevector N T := (empty : Prevector N T).swap other

/-- `operator=(const prevector& other)` of another prevector: `assign(other.begin(), other.end())`. -/
def copy_assign [Inhabited T] (p other : Prevector N T) : Option (Prevector N T) := do
  let elements ← other.iterate
  p.assign_range elements

/-- `if (capacity() < new_size) change_capacity(new_size + (new_size >> 1))`, the growth of the
inserting members. -/
def grow (p : Prevector N T) (new_size : ℕ) : Option (Prevector N T) := do
  let capacity ← p.capacity
  if capacity < new_size then p.change_capacity (toSize (new_size + new_size / 2)) else pure p

/-- `insert(iterator pos, const T& value)`. -/
def insert (p : Prevector N T) (pos : ℕ) (value : T) : Option (Prevector N T) := do
  let new_size := toSize (p.size + 1)
  let p ← p.grow new_size
  let m := p.member
  let b ← p.buffer m
  let b ← b.memmove (pos + 1) pos (toSizeInt ((p.size : ℤ) - pos))
  let p : Prevector N T := ⟨p._union, toSize (p._size + 1)⟩
  let b ← b.write pos value
  pure (p.store m b)

/-- `insert(iterator pos, size_type count, const T& value)`. -/
def insert_fill (p : Prevector N T) (pos count : ℕ) (value : T) : Option (Prevector N T) := do
  let new_size := toSize (p.size + count)
  let p ← p.grow new_size
  let m := p.member
  let b ← p.buffer m
  let b ← b.memmove (pos + count) pos (toSizeInt ((p.size : ℤ) - pos))
  let p := p.store m b
  let p : Prevector N T := ⟨p._union, toSize (p._size + count)⟩
  let m := p.member
  let b ← p.buffer m
  let b ← b.fill pos count value
  pure (p.store m b)

/-- `insert(iterator pos, InputIterator first, InputIterator last)`; `last - first` is narrowed
to `difference_type`. -/
def insert_range (p : Prevector N T) (pos : ℕ) (range : List T) : Option (Prevector N T) := do
  let count := toDiff range.length
  let new_size := toSizeInt (p.size + count)
  let p ← p.grow new_size
  let m := p.member
  let b ← p.buffer m
  -- `ptr + count` lies before the elements when the count is negative
  if pos + count < 0 then none
  else do
    let b ← b.memmove (pos + count).toNat pos (toSizeInt ((p.size : ℤ) - pos))
    let p : Prevector N T := ⟨p._union, toSizeInt (p._size + count)⟩
    let b ← b.fillList pos range
    pure (p.store m b)

def resize_uninitialized (p : Prevector N T) (new_size : ℕ) : Option (Prevector N T) := do
  let capacity ← p.capacity
  if capacity < new_size then do
    let p ← p.change_capacity new_size
    pure ⟨p._union, toSizeInt (p._size + ((new_size : ℤ) - p.size))⟩
  else if new_size < p.size then p.erase_range new_size p.size
  else pure ⟨p._union, toSizeInt (p._size + ((new_size : ℤ) - p.size))⟩

def emplace_back (p : Prevector N T) (value : T) : Option (Prevector N T) := do
  let new_size := toSize (p.size + 1)
  let p ← p.grow new_size
  let m := p.member
  let b ← p.buffer m
  let b ← b.write p.size value
  let p := p.store m b
  pure ⟨p._union, toSize (p._size + 1)⟩

def push_back (p : Prevector N T) (value : T) : Option (Prevector N T) := p.emplace_back value

/-- The loop of `operator==` over `count` more elements from position `i`. -/
def eqLoop [BEq T] (b1 b2 : Buffer T) : ℕ → ℕ → Option Bool
  | _, 0 => some true
  | i, count + 1 => do
    let x ← b1.read i
    let y ← b2.read i
    if x != y then pure false else eqLoop b1 b2 (i + 1) count

/-- `operator==`. -/
def eq [BEq T] (p other : Prevector N T) : Option Bool :=
  if other.size ≠ p.size then some false
  else do
    let b1 ← p.buffer p.member
    let b2 ← other.buffer other.member
    eqLoop b1 b2 0 p.size

/-- The loop of `operator<` over `count` more elements from position `i`. -/
def ltLoop [LT T] [DecidableLT T] (b1 b2 : Buffer T) : ℕ → ℕ → Option Bool
  | _, 0 => some false
  | i, count + 1 => do
    let x ← b1.read i
    let y ← b2.read i
    if x < y then pure true else if y < x then pure false else ltLoop b1 b2 (i + 1) count

/-- `operator<`. -/
def lt [LT T] [DecidableLT T] (p other : Prevector N T) : Option Bool :=
  if p.size < other.size then some true
  else if p.size > other.size then some false
  else do
    let b1 ← p.buffer p.member
    let b2 ← other.buffer other.member
    ltLoop b1 b2 0 p.size

end Prevector

end Pussycoin
