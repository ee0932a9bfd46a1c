import Pussycoin.Prevector.Layout

/-! What the inserting and erasing members, `resize_uninitialized` with the writes that follow
it, the copies and the observers do to a prevector in a layout. Each inserting member moves the
elements from `pos` on up with `memmove` and writes the new ones into the gap; the lemmas split the
elements at `pos` and follow the two windows through the buffer. -/
namespace Pussycoin

open Memory

theorem insertIdx_eq_take_drop {α : Type} (v : α) :
    ∀ (l : List α) (pos : ℕ), pos ≤ l.length → l.insertIdx pos v = l.take pos ++ v :: l.drop pos
  | l, 0, _ => by rw [List.insertIdx_zero, List.take_zero, List.drop_zero, List.nil_append]
  | [], _ + 1, within => absurd within (by simp)
  | a :: l, pos + 1, within => by
    rw [List.insertIdx_succ_cons, List.take_succ_cons, List.drop_succ_cons, List.cons_append,
      insertIdx_eq_take_drop v l pos (by simpa using within)]

namespace Prevector

variable {N : ℕ} {T : Type}

theorem LayoutOk.room {m : Member} {b : Buffer T} {n : ℕ} (ok : LayoutOk N m b n) (above : N < n) :
    n + N + 1 < 2 ^ 32 := by
  obtain ⟨within, small, shape⟩ := ok
  cases m with
  | direct =>
    simp only at shape
    omega
  | indirect => exact small

/-! ### Capacity -/

theorem reserve_spec {p : Prevector N T} {l : List T} (rep : p.Represents l) (n : ℕ)
    (room : N < n → l.length + N + 1 < 2 ^ 32) : ∃ p', p.reserve n = some p' ∧ p'.Represents l := by
  obtain ⟨c, m, b, capacity, ensured, ok, holds, _⟩ := ensure_capacity_spec rep n room
  refine ⟨ofLayout m b l.length, ?_, m, b, rfl, ok, holds⟩
  rw [reserve, capacity]
  simpa only [Option.bind_eq_bind, Option.bind_some, gt_iff_lt] using ensured

theorem shrink_to_fit_spec {p : Prevector N T} {l : List T} (rep : p.Represents l) :
    ∃ p', p.shrink_to_fit = some p' ∧ p'.Represents l := by
  obtain ⟨m₀, b₀, rfl, ok₀, _⟩ := id rep
  obtain ⟨m, b, changed, ok, holds, _⟩ := change_capacity_spec rep l.length (le_max_right _ _) ok₀.room
  exact ⟨ofLayout m b l.length, by rw [shrink_to_fit, rep.size_eq]; exact changed, m, b, rfl, ok, holds⟩

/-! ### Inserting -/

theorem insert_spec {p : Prevector N T} {l : List T} (rep : p.Represents l) {pos : ℕ} (value : T)
    (within : pos ≤ l.length) (fits : Fits N (l.length + 1)) :
    ∃ p', p.insert pos value = some p' ∧ p'.Represents (l.insertIdx pos value) := by
  have small : l.length + 1 < 2 ^ 32 := by unfold Fits at fits; omega
  obtain ⟨m, b, grown, ok, holds, enough⟩ := grow_spec rep fits (Nat.le_succ _)
  obtain ⟨head, tail⟩ := holds.split within
  -- the elements from `pos` on move up one slot
  obtain ⟨b₁, moved, tail₁, capacity₁, frame₁⟩ :=
    Buffer.memmove_spec (pos + 1) tail (by rw [List.length_drop]; omega)
  -- and the value goes into the gap
  obtain ⟨b₂, written, value₂, capacity₂, frame₂⟩ := Buffer.write_spec b₁ pos value (by omega)
  have ok₂ : LayoutOk N m b₂ (l.length + 1) :=
    ok.resize (capacity₂.trans capacity₁) enough (encodeSize_lt_of_fits m fits)
  have holds₂ : b₂.HoldsAt 0 (l.take pos ++ [value] ++ l.drop pos) := by
    have length : (l.take pos).length = pos := List.length_take_of_le within
    refine Buffer.holdsAt_join (frame₂ (frame₁ head (by simp [length])) (by simp [length]))
      (by rw [length]; exact value₂) (by rw [length]; exact frame₂ tail₁ (Or.inr le_rfl))
  have inserted : l.insertIdx pos value = l.take pos ++ [value] ++ l.drop pos := by
    rw [insertIdx_eq_take_drop value l pos within, List.append_assoc, List.singleton_append]
  have length' : (l.take pos ++ [value] ++ l.drop pos).length = l.length + 1 := by
    simp only [List.length_append, List.length_take, List.length_singleton, List.length_drop]
    omega
  rw [inserted]
  refine ⟨ofLayout m b₂ (l.length + 1), ?_, m, b₂, by rw [length'], by rw [length']; exact ok₂, holds₂⟩
  rw [List.length_drop] at moved
  rw [Prevector.insert, rep.size_eq, toSize_of_lt small]
  simp only [grown, Option.bind_eq_bind, Option.bind_some, member_ofLayout ok, buffer_ofLayout ok,
    size_ofLayout ok, toSizeInt_sub within ok.lt_size, moved, written, _size_ofLayout,
    toSize_encodeSize_add m ok₂.encodeSize_lt, ofLayout_withSize, store_ofLayout]
  rfl

theorem insert_fill_spec {p : Prevector N T} {l : List T} (rep : p.Represents l) {pos count : ℕ} (value : T)
    (within : pos ≤ l.length) (fits : Fits N (l.length + count)) :
    ∃ p', p.insert_fill pos count value = some p' ∧
      p'.Represents (l.take pos ++ List.replicate count value ++ l.drop pos) := by
  have small : l.length + count < 2 ^ 32 := by unfold Fits at fits; omega
  obtain ⟨m, b, grown, ok, holds, enough⟩ := grow_spec rep fits (Nat.le_add_right _ _)
  obtain ⟨head, tail⟩ := holds.split within
  obtain ⟨b₁, moved, tail₁, capacity₁, frame₁⟩ :=
    Buffer.memmove_spec (pos + count) tail (by rw [List.length_drop]; omega)
  have ok₁ : LayoutOk N m b₁ (l.length + count) := ok.resize capacity₁ enough (encodeSize_lt_of_fits m fits)
  obtain ⟨b₂, filled, values₂, capacity₂, frame₂⟩ := Buffer.fill_spec b₁ pos count value (by omega)
  have ok₂ : LayoutOk N m b₂ (l.length + count) := ok₁.resize capacity₂ (by omega) ok₁.encodeSize_lt
  have length : (l.take pos).length = pos := List.length_take_of_le within
  have holds₂ : b₂.HoldsAt 0 (l.take pos ++ List.replicate count value ++ l.drop pos) :=
    Buffer.holdsAt_join (frame₂ (frame₁ head (by simp [length])) (by simp [length]))
      (by rw [length]; exact values₂) (by rw [length, List.length_replicate]; exact frame₂ tail₁ (Or.inr le_rfl))
  have length' : (l.take pos ++ List.replicate count value ++ l.drop pos).length = l.length + count := by
    simp only [List.length_append, List.length_take, List.length_replicate, List.length_drop]
    omega
  refine ⟨ofLayout m b₂ (l.length + count), ?_, m, b₂, by rw [length'], by rw [length']; exact ok₂, holds₂⟩
  rw [List.length_drop] at moved
  rw [insert_fill, rep.size_eq, toSize_of_lt small]
  simp only [grown, Option.bind_eq_bind, Option.bind_some, member_ofLayout ok, buffer_ofLayout ok,
    size_ofLayout ok, toSizeInt_sub within ok.lt_size, moved, store_ofLayout, _size_ofLayout,
    toSize_encodeSize_add m ok₁.encodeSize_lt, ofLayout_withSize, member_ofLayout ok₁, buffer_ofLayout ok₁,
    filled]
  rfl

theorem insert_range_spec {p : Prevector N T} {l : List T} (rep : p.Represents l) {pos : ℕ} (range : List T)
    (within : pos ≤ l.length) (fits : Fits N (l.length + range.length)) (short : range.length < 2 ^ 31) :
    ∃ p', p.insert_range pos range = some p' ∧ p'.Represents (l.take pos ++ range ++ l.drop pos) := by
  have small : l.length + range.length < 2 ^ 32 := by unfold Fits at fits; omega
  obtain ⟨m, b, grown, ok, holds, enough⟩ := grow_spec rep fits (Nat.le_add_right _ _)
  obtain ⟨head, tail⟩ := holds.split within
  obtain ⟨b₁, moved, tail₁, capacity₁, frame₁⟩ :=
    Buffer.memmove_spec (pos + range.length) tail (by rw [List.length_drop]; omega)
  obtain ⟨b₂, filled, values₂, capacity₂, frame₂⟩ := Buffer.fillList_spec b₁ pos range (by omega)
  have ok₂ : LayoutOk N m b₂ (l.length + range.length) :=
    ok.resize (capacity₂.trans capacity₁) enough (encodeSize_lt_of_fits m fits)
  have length : (l.take pos).length = pos := List.length_take_of_le within
  have holds₂ : b₂.HoldsAt 0 (l.take pos ++ range ++ l.drop pos) :=
    Buffer.holdsAt_join (frame₂ (frame₁ head (by simp [length])) (by simp [length]))
      (by rw [length]; exact values₂) (by rw [length]; exact frame₂ tail₁ (Or.inr le_rfl))
  have length' : (l.take pos ++ range ++ l.drop pos).length = l.length + range.length := by
    simp only [List.length_append, List.length_take, List.length_drop]
    omega
  refine ⟨ofLayout m b₂ (l.length + range.length), ?_, m, b₂, by rw [length'], by rw [length']; exact ok₂, holds₂⟩
  -- `last - first` is the length of the range as `difference_type`, and `ptr + count` stays in the buffer
  have count : toDiff (range.length : ℤ) = range.length := toDiff_of_lt short
  have newSize : toSizeInt ((l.length : ℤ) + range.length) = l.length + range.length := by
    rw [← Nat.cast_add, toSizeInt_natCast small]
  have target : ((pos : ℤ) + range.length).toNat = pos + range.length := by omega
  have sizeUpdate : toSizeInt ((encodeSize N m l.length : ℤ) + range.length) = encodeSize N m (l.length + range.length) := by
    rw [← Nat.cast_add, encodeSize_add, toSizeInt_natCast ok₂.encodeSize_lt]
  rw [List.length_drop] at moved
  rw [insert_range, count, rep.size_eq, newSize]
  simp only [grown, Option.bind_eq_bind, Option.bind_some, member_ofLayout ok, buffer_ofLayout ok,
    size_ofLayout ok, toSizeInt_sub within ok.lt_size]
  rw [if_neg (by omega), target]
  simp only [moved, Option.bind_some, _size_ofLayout, sizeUpdate, ofLayout_withSize, filled, store_ofLayout]
  rfl

theorem emplace_back_spec {p : Prevector N T} {l : List T} (rep : p.Represents l) (value : T)
    (fits : Fits N (l.length + 1)) : ∃ p', p.emplace_back value = some p' ∧ p'.Represents (l ++ [value]) := by
  have small : l.length + 1 < 2 ^ 32 := by unfold Fits at fits; omega
  obtain ⟨m, b, grown, ok, holds, enough⟩ := grow_spec rep fits (Nat.le_succ _)
  obtain ⟨b₁, written, value₁, capacity₁, frame₁⟩ := Buffer.write_spec b l.length value (by omega)
  have ok₁ : LayoutOk N m b₁ (l.length + 1) := ok.resize capacity₁ enough (encodeSize_lt_of_fits m fits)
  refine ⟨ofLayout m b₁ (l.length + 1), ?_, m, b₁, by simp, by simpa using ok₁,
    Buffer.holdsAt_append.mpr ⟨frame₁ holds (by simp), by simpa using value₁⟩⟩
  rw [emplace_back, rep.size_eq, toSize_of_lt small]
  simp only [grown, Option.bind_eq_bind, Option.bind_some, member_ofLayout ok, buffer_ofLayout ok,
    size_ofLayout ok, written, store_ofLayout, _size_ofLayout, toSize_encodeSize_add m ok₁.encodeSize_lt,
    ofLayout_withSize]
  rfl

/-! ### Erasing -/

theorem erase_spec {p : Prevector N T} {l : List T} (rep : p.Represents l) {pos : ℕ} (within : pos < l.length) :
    ∃ p', p.erase pos = some p' ∧ p'.Represents (l.eraseIdx pos) := by
  obtain ⟨p', erased, rep'⟩ := erase_range_spec rep (Nat.le_succ pos) within
  exact ⟨p', erased, by rwa [List.eraseIdx_eq_take_drop_succ]⟩

theorem pop_back_spec {p : Prevector N T} {l : List T} (rep : p.Represents l) (nonempty : l ≠ []) :
    ∃ p', p.pop_back = some p' ∧ p'.Represents l.dropLast := by
  have positive : 0 < l.length := List.length_pos_iff.mpr nonempty
  obtain ⟨p', erased, rep'⟩ := erase_range_spec rep (Nat.sub_le l.length 1) le_rfl
  have dropped : l.take (l.length - 1) ++ l.drop l.length = l.dropLast := by
    rw [List.drop_length, List.append_nil, List.dropLast_eq_take]
  refine ⟨p', ?_, by rwa [dropped] at rep'⟩
  rw [pop_back, rep.size_eq, if_neg positive.ne']
  exact erased

/-! ### `resize_uninitialized` and the writes after it -/

/-- The `_size += new_size - size()` of `resize_uninitialized`. -/
theorem toSizeInt_encodeSize_grow (m : Member) {k n : ℕ} (grows : k ≤ n) (small : encodeSize N m n < 2 ^ 32) :
    toSizeInt ((encodeSize N m k : ℤ) + ((n : ℤ) - k)) = encodeSize N m n := by
  have sum : (encodeSize N m k : ℤ) + ((n : ℤ) - k) = ((encodeSize N m k + (n - k) : ℕ) : ℤ) := by
    push_cast [Nat.cast_sub grows]
    ring
  rw [sum, encodeSize_add, Nat.add_sub_cancel' grows, toSizeInt_natCast small]

theorem resize_uninitialized_spec {p : Prevector N T} {l : List T} (rep : p.Represents l) {n : ℕ}
    (fits : Fits N n) :
    ∃ p', p.resize_uninitialized n = some p' ∧
      if n ≤ l.length then p'.Represents (l.take n) else p'.Layout l n := by
  obtain ⟨m₀, b₀, rfl, ok₀, holds₀⟩ := id rep
  have small : ∀ m : Member, encodeSize N m n < 2 ^ 32 := fun m => encodeSize_lt_of_fits m fits
  by_cases room : n ≤ b₀.capacity
  · by_cases shrinks : n < l.length
    · -- the elements from `n` on are erased
      obtain ⟨p', erased, rep'⟩ := erase_range_spec rep shrinks.le le_rfl
      have dropped : l.take n ++ l.drop l.length = l.take n := by simp
      refine ⟨p', ?_, by rw [if_pos shrinks.le, ← dropped]; exact rep'⟩
      rw [resize_uninitialized, capacity_ofLayout ok₀]
      simp only [Option.bind_eq_bind, Option.bind_some, if_neg (not_lt.mpr room), size_ofLayout ok₀,
        if_pos shrinks]
      exact erased
    · -- the count grows in place; the new slots are not written yet
      have grows : l.length ≤ n := by omega
      have ok : LayoutOk N m₀ b₀ n := ok₀.resize rfl room (small m₀)
      refine ⟨ofLayout m₀ b₀ n, ?_, ?_⟩
      · rw [resize_uninitialized, capacity_ofLayout ok₀]
        simp only [Option.bind_eq_bind, Option.bind_some, if_neg (not_lt.mpr room), size_ofLayout ok₀,
          if_neg shrinks, _size_ofLayout, toSizeInt_encodeSize_grow m₀ grows (small m₀), ofLayout_withSize]
        rfl
      · split_ifs with within
        · have same : n = l.length := by omega
          subst same
          rw [List.take_length]
          exact ⟨m₀, b₀, rfl, ok, holds₀⟩
        · exact ⟨m₀, b₀, rfl, ok, holds₀⟩
  · -- a buffer of exactly `n` slots first
    have grows : l.length < n := by have := ok₀.le_capacity; omega
    unfold Fits at fits
    obtain ⟨m, b, changed, ok, holds, capacity⟩ :=
      change_capacity_spec rep n (by have := ok₀.le_capacity; omega) (fun _ => by omega)
    have ok' : LayoutOk N m b n := ok.resize rfl (by rw [capacity]; omega) (small m)
    refine ⟨ofLayout m b n, ?_, by rw [if_neg (by omega)]; exact ⟨m, b, rfl, ok', holds⟩⟩
    rw [resize_uninitialized, capacity_ofLayout ok₀]
    simp only [Option.bind_eq_bind, Option.bind_some, if_pos (lt_of_not_ge room), changed, _size_ofLayout,
      size_ofLayout ok, toSizeInt_encodeSize_grow m grows.le (small m), ofLayout_withSize]
    rfl

/-- The writes after `resize_uninitialized` fill the new slots in order. -/
theorem writeAll_spec (writes : List T) :
    ∀ {p : Prevector N T} {l : List T} {n : ℕ}, p.Layout l n → l.length + writes.length = n →
      ∃ p', VectorOp.writeAll p l.length writes = some p' ∧ p'.Represents (l ++ writes) := by
  induction writes with
  | nil =>
    intro p l n layout length
    refine ⟨p, rfl, ?_⟩
    simp only [List.length_nil, Nat.add_zero] at length
    subst length
    simpa [Represents] using layout
  | cons w ws ih =>
    intro p l n layout length
    obtain ⟨m, b, rfl, ok, holds⟩ := layout
    simp only [List.length_cons] at length
    obtain ⟨b₁, written, value₁, capacity₁, frame₁⟩ :=
      Buffer.write_spec b l.length w (by have := ok.le_capacity; omega)
    have layout₁ : (ofLayout m b₁ n : Prevector N T).Layout (l ++ [w]) n :=
      ⟨m, b₁, rfl, ok.resize capacity₁ ok.le_capacity ok.encodeSize_lt,
        Buffer.holdsAt_append.mpr ⟨frame₁ holds (by simp), by simpa using value₁⟩⟩
    obtain ⟨p', wrote, rep'⟩ := ih layout₁ (by simp only [List.length_append, List.length_singleton]; omega)
    refine ⟨p', ?_, by simpa using rep'⟩
    simp only [List.length_append, List.length_singleton] at wrote
    simp only [VectorOp.writeAll, set_index, member_ofLayout ok, buffer_ofLayout ok, written,
      Option.bind_eq_bind, Option.bind_some, store_ofLayout]
    exact wrote

/-! ### Constructing, assigning and copying -/

theorem iterate_spec {p : Prevector N T} {l : List T} (rep : p.Represents l) : p.iterate = some l := by
  obtain ⟨m, b, rfl, ok, holds⟩ := rep
  rw [iterate, member_ofLayout ok, buffer_ofLayout ok, size_ofLayout ok, Option.bind_some]
  exact holds.readRange

theorem construct_size_spec [Inhabited T] {n : ℕ} (fits : Fits N n) :
    ∃ p, (construct_size n : Option (Prevector N T)) = some p ∧ p.Represents (List.replicate n default) := by
  have empty_rep : (empty : Prevector N T).Represents [] := represents_empty
  obtain ⟨p, resized, rep⟩ := resize_spec empty_rep n (fun _ => fits)
  refine ⟨p, resized, ?_⟩
  cases n with
  | zero => simpa [VectorOp.vresize] using rep
  | succ n => simpa [VectorOp.vresize] using rep

theorem construct_fill_spec {n : ℕ} (val : T) (fits : Fits N n) :
    ∃ p, (construct_fill n val : Option (Prevector N T)) = some p ∧ p.Represents (List.replicate n val) :=
  constructFrom_spec fits (fills_fill n val)

theorem construct_range_spec (range : List T) (fits : Fits N range.length) :
    ∃ p, (construct_range range : Option (Prevector N T)) = some p ∧ p.Represents range := by
  have small : range.length < 2 ^ 32 := by unfold Fits at fits; omega
  rw [construct_range, toSize_of_lt small]
  exact constructFrom_spec fits (fills_fillList range)

theorem construct_copy_spec {other : Prevector N T} {l : List T} (rep : other.Represents l) (fits : Fits N l.length) :
    ∃ p, other.construct_copy = some p ∧ p.Represents l := by
  simp only [construct_copy, iterate_spec rep, Option.bind_eq_bind, Option.bind_some, rep.size_eq]
  exact constructFrom_spec fits (fills_fillList l)

theorem assign_spec [Inhabited T] {p : Prevector N T} {l : List T} (rep : p.Represents l) {n : ℕ} (val : T)
    (fits : Fits N n) : ∃ p', p.assign n val = some p' ∧ p'.Represents (List.replicate n val) :=
  refill_spec rep fits (fills_fill n val)

theorem assign_range_spec [Inhabited T] {p : Prevector N T} {l : List T} (rep : p.Represents l) (range : List T)
    (fits : Fits N range.length) : ∃ p', p.assign_range range = some p' ∧ p'.Represents range := by
  have small : range.length < 2 ^ 32 := by unfold Fits at fits; omega
  rw [assign_range, toSize_of_lt small]
  exact refill_spec rep fits (fills_fillList range)

theorem copy_assign_spec [Inhabited T] {p other : Prevector N T} {l l' : List T} (rep : p.Represents l)
    (rep' : other.Represents l') (fits : Fits N l'.length) : ∃ p', p.copy_assign other = some p' ∧ p'.Represents l' := by
  simp only [copy_assign, iterate_spec rep', Option.bind_eq_bind, Option.bind_some]
  exact assign_range_spec rep l' fits

/-! ### Observers -/

theorem index_spec {p : Prevector N T} {l : List T} (rep : p.Represents l) {i : ℕ} (below : i < l.length) :
    p.index i = l[i]? := by
  obtain ⟨m, b, rfl, ok, holds⟩ := rep
  rw [index, member_ofLayout ok, buffer_ofLayout ok, Option.bind_some]
  simpa using holds.read below

theorem front_spec {p : Prevector N T} {l : List T} (rep : p.Represents l) (nonempty : l ≠ []) :
    p.front = l.head? := by
  rw [front, index_spec rep (List.length_pos_iff.mpr nonempty), List.head?_eq_getElem?]

theorem back_spec {p : Prevector N T} {l : List T} (rep : p.Represents l) (nonempty : l ≠ []) :
    p.back = l.getLast? := by
  have positive : 0 < l.length := List.length_pos_iff.mpr nonempty
  obtain ⟨_, _, _, ok, _⟩ := id rep
  have last : ((l.length : ℤ) - 1) = ((l.length - 1 : ℕ) : ℤ) := by omega
  rw [back, rep.size_eq, last, toSizeInt_natCast (by have := ok.lt_size; omega), index_spec rep (by omega),
    List.getLast?_eq_getElem?]

/-- The capacity holds the elements, and it is `N` exactly in direct mode. -/
theorem capacity_spec {p : Prevector N T} {l : List T} (rep : p.Represents l) :
    ∃ c, p.capacity = some c ∧ l.length ≤ c ∧ (c = N ↔ p._size ≤ N) := by
  obtain ⟨m, b, rfl, ok, _⟩ := rep
  refine ⟨b.capacity, capacity_ofLayout ok, ok.le_capacity, ?_⟩
  obtain ⟨within, _, shape⟩ := ok
  cases m with
  | direct =>
    simp only at shape
    simp only [shape, _size_ofLayout, encodeSize, true_iff]
    exact le_of_le_of_eq within shape
  | indirect =>
    simp only at shape
    simp only [_size_ofLayout, encodeSize]
    omega

theorem eqLoop_spec [BEq T] {b1 b2 : Buffer T} : ∀ {i : ℕ} {l1 l2 : List T}, b1.HoldsAt i l1 → b2.HoldsAt i l2 →
    l1.length = l2.length → eqLoop b1 b2 i l1.length = some (l1 == l2) := by
  intro i l1
  induction l1 generalizing i with
  | nil =>
    intro l2 _ _ same
    rw [List.eq_nil_of_length_eq_zero same.symm]
    rfl
  | cons x l1 ih =>
    intro l2 holds1 holds2 same
    cases l2 with
    | nil => simp at same
    | cons y l2 =>
      obtain ⟨read1, rest1⟩ := holds1.cons
      obtain ⟨read2, rest2⟩ := holds2.cons
      simp only [List.length_cons, Nat.add_right_cancel_iff] at same
      simp only [List.length_cons, eqLoop, read1, read2, Option.bind_eq_bind, Option.bind_some, ih rest1 rest2 same,
        List.cons_beq_cons, bne]
      cases x == y <;> rfl

theorem eq_spec [BEq T] {p q : Prevector N T} {l l' : List T} (rep : p.Represents l) (rep' : q.Represents l') :
    p.eq q = some (l == l') := by
  rw [eq, rep.size_eq, rep'.size_eq]
  by_cases same : l'.length = l.length
  · obtain ⟨m, b, rfl, ok, holds⟩ := rep
    obtain ⟨m', b', rfl, ok', holds'⟩ := rep'
    rw [if_neg (not_not.mpr same), member_ofLayout ok, buffer_ofLayout ok, member_ofLayout ok',
      buffer_ofLayout ok']
    exact eqLoop_spec holds holds' same.symm
  · rw [if_pos same]
    cases equal : l == l'
    · rfl
    · exact absurd (List.length_eq_of_beq equal).symm same

theorem ltLoop_spec [LT T] [DecidableLT T] {b1 b2 : Buffer T} : ∀ {i : ℕ} {l1 l2 : List T},
    b1.HoldsAt i l1 → b2.HoldsAt i l2 → l1.length = l2.length →
      ltLoop b1 b2 i l1.length = some (lexicographicalCompare l1 l2) := by
  intro i l1
  induction l1 generalizing i with
  | nil =>
    intro l2 _ _ same
    rw [List.eq_nil_of_length_eq_zero same.symm]
    rfl
  | cons x l1 ih =>
    intro l2 holds1 holds2 same
    cases l2 with
    | nil => simp at same
    | cons y l2 =>
      obtain ⟨read1, rest1⟩ := holds1.cons
      obtain ⟨read2, rest2⟩ := holds2.cons
      simp only [List.length_cons, Nat.add_right_cancel_iff] at same
      simp only [List.length_cons, ltLoop, read1, read2, Option.bind_eq_bind, Option.bind_some, ih rest1 rest2 same,
        lexicographicalCompare]
      split_ifs <;> rfl

/-- `operator<` orders by size first and then as `std::lexicographical_compare` does. -/
theorem lt_spec [LT T] [DecidableLT T] {p q : Prevector N T} {l l' : List T} (rep : p.Represents l)
    (rep' : q.Represents l') :
    p.lt q = some (decide (l.length < l'.length) || (l.length == l'.length && lexicographicalCompare l l')) := by
  rw [lt, rep.size_eq, rep'.size_eq]
  rcases lt_trichotomy l.length l'.length with shorter | same | longer
  · rw [if_pos shorter]
    simp [shorter]
  · obtain ⟨m, b, rfl, ok, holds⟩ := rep
    obtain ⟨m', b', rfl, ok', holds'⟩ := rep'
    rw [if_neg (by omega), if_neg (by omega), member_ofLayout ok, buffer_ofLayout ok, member_ofLayout ok',
      buffer_ofLayout ok']
    change ltLoop b b' 0 l.length = _
    rw [ltLoop_spec holds holds' same]
    simp [same]
  · rw [if_neg (by omega), if_pos longer]
    simp [longer.ne', Nat.not_lt.mpr longer.le]

end Prevector

end Pussycoin
