import Pussycoin.Prevector.Vector

/-! The states a prevector is in between calls: a member of the union holding a buffer, with
`n` elements and `_size` the encoding of `n` for that member. `Represents p l` says that `p` is in
such a state with the elements `l`. Each member function of the model gets one lemma here that
says what it does to a state in a layout; the refinement proofs use these and never unfold the
functions. -/
namespace Pussycoin

open Memory

namespace Prevector

variable {N : ℕ} {T : Type}

/-- `_size` for `n` elements held in a member. -/
def encodeSize (N : ℕ) : Member → ℕ → ℕ
  | .direct, n => n
  | .indirect, n => n + N + 1

def ofLayout : Member → Buffer T → ℕ → Prevector N T
  | .direct, b, n => ⟨.direct b.slots, n⟩
  | .indirect, b, n => ⟨.indirect b, n + N + 1⟩

/-- The bounds of a layout: the elements fit the buffer, `_size` fits `size_type`, the inline
array has `N` slots and a heap buffer more. -/
def LayoutOk (N : ℕ) (m : Member) (b : Buffer T) (n : ℕ) : Prop :=
  n ≤ b.capacity ∧ encodeSize N m n < 2 ^ 32 ∧
    match m with
    | .direct => b.capacity = N
    | .indirect => N < b.capacity

/-- `p` holds `n` elements, the first of which are `l`. -/
def Layout (p : Prevector N T) (l : List T) (n : ℕ) : Prop :=
  ∃ m b, p = ofLayout m b n ∧ LayoutOk N m b n ∧ b.HoldsAt 0 l

def Represents (p : Prevector N T) (l : List T) : Prop := p.Layout l l.length

/-! ### Sizes -/

theorem toSize_of_lt {n : ℕ} (small : n < 2 ^ 32) : toSize n = n := Nat.mod_eq_of_lt small

theorem toSizeInt_of_lt {x : ℤ} (nonneg : 0 ≤ x) (small : x < 2 ^ 32) : toSizeInt x = x.toNat := by
  rw [toSizeInt, Int.emod_eq_of_lt nonneg small]

theorem toSizeInt_natCast {n : ℕ} (small : n < 2 ^ 32) : toSizeInt n = n := by
  rw [toSizeInt_of_lt (Int.natCast_nonneg n) (by exact_mod_cast small), Int.toNat_natCast]

theorem toSizeInt_sub {n k : ℕ} (le : k ≤ n) (small : n < 2 ^ 32) : toSizeInt ((n : ℤ) - k) = n - k := by
  rw [← Nat.cast_sub le]
  exact toSizeInt_natCast (by omega)

theorem toDiff_of_lt {n : ℕ} (small : n < 2 ^ 31) : toDiff n = n := by
  have mod : (n : ℤ) % 2 ^ 32 = n := Int.emod_eq_of_lt (Int.natCast_nonneg n) (by omega)
  rw [toDiff, mod, if_pos (by omega)]

theorem encodeSize_add (m : Member) (n k : ℕ) : encodeSize N m n + k = encodeSize N m (n + k) := by
  cases m
  · rfl
  · simp only [encodeSize]
    omega

theorem encodeSize_le (m : Member) (n : ℕ) : encodeSize N m n ≤ n + N + 1 := by
  cases m <;> simp only [encodeSize] <;> omega

theorem encodeSize_lt_of_fits {n : ℕ} (m : Member) (fits : Fits N n) : encodeSize N m n < 2 ^ 32 := by
  have bound : encodeSize N m n ≤ n + N + 1 := encodeSize_le m n
  unfold Fits at fits
  omega

theorem le_encodeSize (m : Member) (n : ℕ) : n ≤ encodeSize N m n := by
  cases m <;> simp only [encodeSize] <;> omega

theorem Fits.mono {n k : ℕ} (fits : Fits N n) (le : k ≤ n) : Fits N k := by
  unfold Fits at fits ⊢
  omega

/-! ### A prevector in a layout -/

section Layout

variable {m : Member} {b : Buffer T} {n : ℕ}

@[simp] theorem _size_ofLayout : (ofLayout m b n : Prevector N T)._size = encodeSize N m n := by
  cases m <;> rfl

theorem is_direct_ofLayout (ok : LayoutOk N m b n) : (ofLayout m b n : Prevector N T).is_direct = decide (m = .direct) := by
  obtain ⟨within, _, shape⟩ := ok
  cases m with
  | direct =>
    simp only at shape
    simp only [is_direct, _size_ofLayout, encodeSize, decide_true]
    exact decide_eq_true (by omega)
  | indirect => simp [is_direct, encodeSize]

theorem is_direct_direct (ok : LayoutOk N .direct b n) : (ofLayout .direct b n : Prevector N T).is_direct = true :=
  is_direct_ofLayout ok

theorem is_direct_indirect : (ofLayout .indirect b n : Prevector N T).is_direct = false := by
  simp [is_direct, encodeSize]

theorem member_ofLayout (ok : LayoutOk N m b n) : (ofLayout m b n : Prevector N T).member = m := by
  rw [member, is_direct_ofLayout ok]
  cases m <;> rfl

theorem buffer_ofLayout (ok : LayoutOk N m b n) : (ofLayout m b n : Prevector N T).buffer m = some b := by
  obtain ⟨_, _, shape⟩ := ok
  cases m with
  | direct =>
    simp only at shape
    cases b
    simp only at shape
    subst shape
    rfl
  | indirect => rfl

theorem size_ofLayout (ok : LayoutOk N m b n) : (ofLayout m b n : Prevector N T).size = n := by
  rw [size, is_direct_ofLayout ok]
  cases m
  · rfl
  · simp only [encodeSize, _size_ofLayout, reduceCtorEq, decide_false, Bool.false_eq_true, if_false]
    omega

theorem capacity_ofLayout (ok : LayoutOk N m b n) : (ofLayout m b n : Prevector N T).capacity = some b.capacity := by
  rw [capacity, is_direct_ofLayout ok]
  obtain ⟨_, _, shape⟩ := ok
  cases m with
  | direct =>
    simp only at shape
    simp [shape]
  | indirect => rfl

@[simp] theorem store_ofLayout (b' : Buffer T) : (ofLayout m b n : Prevector N T).store m b' = ofLayout m b' n := by
  cases m <;> rfl

/-- Setting `_size` to the encoding of another count keeps the layout. -/
@[simp] theorem ofLayout_withSize (n' : ℕ) :
    (⟨(ofLayout m b n : Prevector N T)._union, encodeSize N m n'⟩ : Prevector N T) = ofLayout m b n' := by
  cases m <;> rfl

theorem LayoutOk.resize {b' : Buffer T} {n' : ℕ} (ok : LayoutOk N m b n) (capacity : b'.capacity = b.capacity)
    (within : n' ≤ b.capacity) (small : encodeSize N m n' < 2 ^ 32) : LayoutOk N m b' n' := by
  obtain ⟨_, _, shape⟩ := ok
  refine ⟨by omega, small, ?_⟩
  cases m <;> simpa [capacity] using shape

theorem encodeSize_sub (m : Member) {n k : ℕ} (within : k ≤ n) : encodeSize N m n - k = encodeSize N m (n - k) := by
  cases m
  · rfl
  · simp only [encodeSize]
    omega

theorem encodeSize_mono (m : Member) {n k : ℕ} (le : k ≤ n) : encodeSize N m k ≤ encodeSize N m n := by
  cases m
  · exact le
  · simp only [encodeSize]
    omega

/-- The `_size -= last - first` of `erase`. -/
theorem toSizeInt_encodeSize_sub (m : Member) {n first last : ℕ} (ordered : first ≤ last) (within : last - first ≤ n)
    (small : encodeSize N m n < 2 ^ 32) :
    toSizeInt ((encodeSize N m n : ℤ) - ((last : ℤ) - first)) = encodeSize N m (n - (last - first)) := by
  have bound : n ≤ encodeSize N m n := le_encodeSize m n
  rw [← Nat.cast_sub ordered, toSizeInt_sub (by omega) small, encodeSize_sub m within]

/-- The `_size += count` of the growing members. -/
theorem toSize_encodeSize_add (m : Member) {n k : ℕ} (small : encodeSize N m (n + k) < 2 ^ 32) :
    toSize (encodeSize N m n + k) = encodeSize N m (n + k) := by
  rw [encodeSize_add, toSize_of_lt small]

theorem LayoutOk.encodeSize_lt (ok : LayoutOk N m b n) : encodeSize N m n < 2 ^ 32 := ok.2.1

theorem LayoutOk.le_capacity (ok : LayoutOk N m b n) : n ≤ b.capacity := ok.1

theorem LayoutOk.lt_size (ok : LayoutOk N m b n) : n < 2 ^ 32 :=
  lt_of_le_of_lt (le_encodeSize m n) ok.encodeSize_lt

end Layout

theorem Represents.size_eq {p : Prevector N T} {l : List T} (rep : p.Represents l) : p.size = l.length := by
  obtain ⟨m, b, rfl, ok, _⟩ := rep
  exact size_ofLayout ok

theorem represents_empty : (empty : Prevector N T).Represents [] :=
  ⟨.direct, ⟨fun _ => none, N⟩, rfl, ⟨Nat.zero_le N, Nat.two_pow_pos 32, rfl⟩, Buffer.holdsAt_nil (Nat.zero_le N)⟩

/-! ### `change_capacity` -/

/-- The `_size` update of `change_capacity` back to the inline array. -/
theorem toSizeInt_leave_indirect {n : ℕ} (small : n < 2 ^ 32) :
    toSizeInt (((n + N + 1 : ℕ) : ℤ) - ((N : ℤ) + 1)) = n := by
  have back : ((n + N + 1 : ℕ) : ℤ) - ((N : ℤ) + 1) = (n : ℤ) := by
    push_cast
    ring
  rw [back, toSizeInt_natCast small]

/-- `change_capacity` keeps the elements and leaves the buffer of the larger of `N` and the
capacity asked for, given that the elements fit it and that `_size` can take the offset of
indirect mode. -/
theorem change_capacity_spec {p : Prevector N T} {l : List T} (rep : p.Represents l) (c : ℕ)
    (within : l.length ≤ max N c) (room : N < c → l.length + N + 1 < 2 ^ 32) :
    ∃ m b, p.change_capacity c = some (ofLayout m b l.length) ∧ LayoutOk N m b l.length ∧
      b.HoldsAt 0 l ∧ b.capacity = max N c := by
  obtain ⟨m, b, rfl, ok, holds⟩ := rep
  have shape := ok.2.2
  by_cases small : c ≤ N
  · rw [max_eq_left small] at within ⊢
    cases m with
    | direct =>
      -- the elements stay in the inline array
      simp only at shape
      refine ⟨.direct, b, ?_, ok, holds, shape⟩
      rw [change_capacity, if_pos small, is_direct_direct ok]
      rfl
    | indirect =>
      -- the elements are copied back into the inline array
      obtain ⟨direct, copied, holds', capacity'⟩ :=
        Buffer.memcpy_spec (Buffer.alloc N) 0 holds (by simpa [Buffer.alloc] using within)
      have capacityN : direct.capacity = N := capacity'
      refine ⟨.direct, direct, ?_, ⟨by omega, lt_of_le_of_lt within ?_, capacityN⟩, holds', capacityN⟩
      · rw [change_capacity, if_pos small, is_direct_indirect]
        simp only [Bool.not_false, if_true, buffer_ofLayout ok, size_ofLayout ok,
          Option.bind_eq_bind, Option.bind_some, copied, _size_ofLayout, encodeSize]
        rw [toSizeInt_leave_indirect ok.lt_size]
        rfl
      · have := ok.encodeSize_lt
        simp only [encodeSize] at this
        omega
  · have large : N < c := by omega
    rw [max_eq_right large.le] at within ⊢
    cases m with
    | direct =>
      -- the elements move to a new heap buffer
      obtain ⟨indirect, copied, holds', capacity'⟩ :=
        Buffer.memcpy_spec (Buffer.alloc c) 0 holds (by simpa [Buffer.alloc] using within)
      have capacityC : indirect.capacity = c := capacity'
      have fits := room large
      refine ⟨.indirect, indirect, ?_, ⟨by omega, fits, by simp only; omega⟩, holds', capacityC⟩
      rw [change_capacity, if_neg small, is_direct_direct ok]
      simp only [Bool.not_true, Bool.false_eq_true, if_false, buffer_ofLayout ok,
        size_ofLayout ok, Option.bind_eq_bind, Option.bind_some, copied, _size_ofLayout, encodeSize]
      rw [toSize_of_lt (by omega)]
      rfl
    | indirect =>
      -- `realloc` keeps the elements
      refine ⟨.indirect, b.realloc c, ?_, ⟨by simpa [Buffer.realloc] using within, ok.encodeSize_lt,
        by simpa [Buffer.realloc] using large⟩, holds.realloc within, rfl⟩
      rw [change_capacity, if_neg small, is_direct_indirect]
      simp only [Bool.not_false, if_true, buffer_ofLayout ok, Option.bind_eq_bind,
        Option.bind_some]
      rfl

/-- `if (capacity() < n) change_capacity(n)`, as `reserve`, `resize` and `assign` do it: a buffer with
room for `n` elements. -/
theorem ensure_capacity_spec {p : Prevector N T} {l : List T} (rep : p.Represents l) (n : ℕ)
    (room : N < n → l.length + N + 1 < 2 ^ 32) :
    ∃ c m b, p.capacity = some c ∧ (if c < n then p.change_capacity n else pure p) = some (ofLayout m b l.length) ∧
      LayoutOk N m b l.length ∧ b.HoldsAt 0 l ∧ n ≤ b.capacity := by
  obtain ⟨m, b, rfl, ok, holds⟩ := id rep
  refine ⟨b.capacity, ?_⟩
  by_cases enough : n ≤ b.capacity
  · exact ⟨m, b, capacity_ofLayout ok, by rw [if_neg (by omega)]; rfl, ok, holds, enough⟩
  · have shape := ok.2.2
    have above : N < n := by
      cases m <;> simp only at shape <;> omega
    obtain ⟨m', b', changed, ok', holds', capacity'⟩ :=
      change_capacity_spec rep n (by have := ok.le_capacity; omega) room
    exact ⟨m', b', capacity_ofLayout ok, by rw [if_pos (by omega)]; exact changed, ok', holds',
      by rw [capacity']; omega⟩

/-- The growth step of the inserting members leaves room for `new_size` elements. -/
theorem grow_spec {p : Prevector N T} {l : List T} (rep : p.Represents l) {new_size : ℕ}
    (fits : Fits N new_size) (grows : l.length ≤ new_size) :
    ∃ m b, p.grow new_size = some (ofLayout m b l.length) ∧ LayoutOk N m b l.length ∧
      b.HoldsAt 0 l ∧ new_size ≤ b.capacity := by
  obtain ⟨m, b, rfl, ok, holds⟩ := id rep
  unfold Fits at fits
  by_cases enough : new_size ≤ b.capacity
  · refine ⟨m, b, ?_, ok, holds, enough⟩
    rw [grow, capacity_ofLayout ok]
    simp only [Option.bind_eq_bind, Option.bind_some, if_neg (not_lt.mpr enough)]
    rfl
  · -- `change_capacity(new_size + (new_size >> 1))`, which does not wrap
    obtain ⟨m', b', changed, ok', holds', capacity'⟩ :=
      change_capacity_spec rep (new_size + new_size / 2) (by omega) (fun _ => by omega)
    refine ⟨m', b', ?_, ok', holds', by rw [capacity']; omega⟩
    rw [grow, capacity_ofLayout ok]
    simp only [Option.bind_eq_bind, Option.bind_some, if_pos (lt_of_not_ge enough),
      toSize_of_lt (show new_size + new_size / 2 < 2 ^ 32 by omega)]
    exact changed

/-! ### Erasing and resizing -/

theorem erase_range_spec {p : Prevector N T} {l : List T} (rep : p.Represents l) {first last : ℕ}
    (ordered : first ≤ last) (within : last ≤ l.length) :
    ∃ p', p.erase_range first last = some p' ∧ p'.Represents (l.take first ++ l.drop last) := by
  obtain ⟨m, b, rfl, ok, holds⟩ := rep
  have capacity := ok.le_capacity
  -- the elements after the range move down over it; those before it stay
  have kept := holds.take first
  have moved : b.HoldsAt last (l.drop last) := by simpa using holds.drop within
  obtain ⟨b', memmoved, moved', capacity', frame⟩ :=
    Buffer.memmove_spec first moved (by rw [List.length_drop]; omega)
  have length' : (l.take first ++ l.drop last).length = l.length - (last - first) := by
    simp only [List.length_append, List.length_take, List.length_drop]
    omega
  have ok' : LayoutOk N m b' (l.length - (last - first)) :=
    ok.resize capacity' (by omega) (lt_of_le_of_lt (encodeSize_mono m (by omega)) ok.encodeSize_lt)
  have holds' : b'.HoldsAt 0 (l.take first ++ l.drop last) := by
    refine Buffer.holdsAt_append.mpr ⟨frame kept (by simp), ?_⟩
    simpa [List.length_take, Nat.min_eq_left (show first ≤ l.length by omega)] using moved'
  refine ⟨ofLayout m b' (l.take first ++ l.drop last).length, ?_, m, b', rfl, length' ▸ ok', holds'⟩
  rw [List.length_drop] at memmoved
  rw [length', erase_range]
  simp only [member_ofLayout ok, size_ofLayout ok, if_neg (not_lt.mpr within), buffer_ofLayout ok,
    Option.bind_eq_bind, Option.bind_some, memmoved, _size_ofLayout,
    toSizeInt_encodeSize_sub m ordered (by omega) ok.encodeSize_lt, ofLayout_withSize, store_ofLayout]
  rfl

theorem resize_spec [Inhabited T] {p : Prevector N T} {l : List T} (rep : p.Represents l) (n : ℕ)
    (fits : l.length < n → Fits N n) :
    ∃ p', p.resize n = some p' ∧ p'.Represents (VectorOp.vresize l n) := by
  rcases lt_trichotomy l.length n with grows | same | shrinks
  · -- value-initialised elements after the old ones
    have fits := fits grows
    unfold Fits at fits
    obtain ⟨c, m, b, capacity, ensured, ok, holds, enough⟩ :=
      ensure_capacity_spec rep n (fun _ => by omega)
    obtain ⟨b', filled, fresh, capacity', frame⟩ := Buffer.fill_spec b l.length (n - l.length) default (by omega)
    have ok' : LayoutOk N m b' n :=
      ok.resize capacity' enough (lt_of_le_of_lt (encodeSize_le m n) (by omega))
    have holds' : b'.HoldsAt 0 (l ++ List.replicate (n - l.length) default) :=
      Buffer.holdsAt_append.mpr ⟨frame holds (by simp), by simpa using fresh⟩
    have length' : (l ++ List.replicate (n - l.length) default).length = n := by simp; omega
    have small : encodeSize N m (l.length + (n - l.length)) < 2 ^ 32 := by
      rw [Nat.add_sub_cancel' grows.le]
      exact ok'.encodeSize_lt
    rw [VectorOp.vresize, if_neg (by omega)]
    refine ⟨ofLayout m b' n, ?_, m, b', by rw [length'], by rwa [length'], holds'⟩
    rw [resize, rep.size_eq, if_neg grows.ne, if_neg (by omega)]
    simp only [Option.bind_eq_bind, capacity, Option.bind_some, gt_iff_lt]
    -- the same elements after the capacity check, whichever way it went
    split_ifs at ensured ⊢ <;>
    simp only [ensured, Option.bind_some, Option.pure_def, member_ofLayout ok, buffer_ofLayout ok, filled,
      store_ofLayout, _size_ofLayout, toSize_encodeSize_add m small, Nat.add_sub_cancel' grows.le, ofLayout_withSize]
  · -- nothing changes
    subst same
    refine ⟨p, ?_, by rwa [VectorOp.vresize, if_pos le_rfl, List.take_length]⟩
    rw [resize, rep.size_eq, if_pos rfl]
    rfl
  · -- the elements from `n` on are erased
    obtain ⟨p', erased, rep'⟩ := erase_range_spec rep shrinks.le le_rfl
    have dropped : l.take n ++ l.drop l.length = l.take n := by simp
    refine ⟨p', ?_, by rwa [VectorOp.vresize, if_pos shrinks.le, ← dropped]⟩
    rw [resize, rep.size_eq, if_neg shrinks.ne', if_pos shrinks]
    exact erased

theorem clear_spec [Inhabited T] {p : Prevector N T} {l : List T} (rep : p.Represents l) :
    ∃ p', p.clear = some p' ∧ p'.Represents [] := by
  obtain ⟨p', cleared, rep'⟩ := resize_spec rep 0 (fun below => absurd below (Nat.not_lt_zero _))
  refine ⟨p', cleared, ?_⟩
  rwa [VectorOp.vresize, if_pos (Nat.zero_le _), List.take_zero] at rep'

/-! ### Filling from the first slot -/

/-- A fill of the first `n` slots of every buffer with room for them. -/
def Fills (n : ℕ) (fill : Buffer T → Option (Buffer T)) (l : List T) : Prop :=
  l.length = n ∧ ∀ b : Buffer T, n ≤ b.capacity → ∃ b', fill b = some b' ∧ b'.capacity = b.capacity ∧ b'.HoldsAt 0 l

theorem fills_fill (n : ℕ) (val : T) : Fills n (fun b => b.fill 0 n val) (List.replicate n val) := by
  refine ⟨List.length_replicate, fun b enough => ?_⟩
  obtain ⟨b', filled, holds, capacity, _⟩ := Buffer.fill_spec b 0 n val (by omega)
  exact ⟨b', filled, capacity, holds⟩

theorem fills_fillList (l : List T) : Fills l.length (fun b => b.fillList 0 l) l := by
  refine ⟨rfl, fun b enough => ?_⟩
  obtain ⟨b', filled, holds, capacity, _⟩ := Buffer.fillList_spec b 0 l (by omega)
  exact ⟨b', filled, capacity, holds⟩

/-- `_size += n` and the fill, on a prevector without elements and with room for `n`. -/
theorem fillFromStart_spec {m : Member} {b : Buffer T} {n : ℕ} (ok : LayoutOk N m b 0) (enough : n ≤ b.capacity)
    (fits : Fits N n) {fill : Buffer T → Option (Buffer T)} {l : List T} (fills : Fills n fill l) :
    ∃ p', (ofLayout m b 0 : Prevector N T).fillFromStart n fill = some p' ∧ p'.Represents l := by
  obtain ⟨length, filling⟩ := fills
  obtain ⟨b', filled, capacity, holds⟩ := filling b enough
  have ok' : LayoutOk N m b n := ok.resize rfl enough (encodeSize_lt_of_fits m fits)
  refine ⟨ofLayout m b' n, ?_, m, b', by rw [length], by rw [length]; exact ok'.resize capacity enough ok'.encodeSize_lt, holds⟩
  rw [fillFromStart]
  simp only [_size_ofLayout, toSize_encodeSize_add m (by rw [Nat.zero_add]; exact ok'.encodeSize_lt), Nat.zero_add,
    ofLayout_withSize, member_ofLayout ok', buffer_ofLayout ok', Option.bind_eq_bind, Option.bind_some, filled,
    store_ofLayout]
  rfl

theorem constructFrom_spec {n : ℕ} (fits : Fits N n) {fill : Buffer T → Option (Buffer T)} {l : List T}
    (fills : Fills n fill l) : ∃ p, (constructFrom n fill : Option (Prevector N T)) = some p ∧ p.Represents l := by
  unfold Fits at fits
  have empty_rep : (empty : Prevector N T).Represents [] := represents_empty
  obtain ⟨m, b, changed, ok, _, capacity⟩ :=
    change_capacity_spec empty_rep n (Nat.zero_le _) (fun _ => by simp; omega)
  obtain ⟨p, filled, rep⟩ := fillFromStart_spec ok (by rw [capacity]; omega) fits fills
  exact ⟨p, by rw [constructFrom, changed]; exact filled, rep⟩

theorem refill_spec [Inhabited T] {p : Prevector N T} {l : List T} (rep : p.Represents l) {n : ℕ}
    (fits : Fits N n) {fill : Buffer T → Option (Buffer T)} {l' : List T} (fills : Fills n fill l') :
    ∃ p', p.refill n fill = some p' ∧ p'.Represents l' := by
  unfold Fits at fits
  obtain ⟨p₁, cleared, rep₁⟩ := clear_spec rep
  obtain ⟨c, m, b, capacity, ensured, ok, _, enough⟩ := ensure_capacity_spec rep₁ n (fun _ => by simp; omega)
  obtain ⟨p', filled, rep'⟩ := fillFromStart_spec ok enough fits fills
  refine ⟨p', ?_, rep'⟩
  rw [refill]
  simp only [cleared, Option.bind_eq_bind, Option.bind_some, capacity]
  split_ifs at ensured ⊢ <;>
  simp only [ensured, Option.bind_some, List.length_nil, filled]

end Prevector

end Pussycoin
