import NetBricks.Common
import NetBricks.Lib.Circular

/-!
# `RingBuffer`: the model

`src/framework/src/state/ring_buffer.rs`, function by function. `head` and
`tail` are free-running `usize` counters (they wrap modulo `2 ^ 64`), masked to
an index only when the vector is touched; one cell always stays empty, so a
ring of `size` cells stores at most `size - 1` bytes.

Mirroring notes:
- `(&self.vec[offset..]).read(data)` and `(&mut self.vec[offset..]).write(data)`
  are the standard library's `Read`/`Write` for byte slices: both copy
  `min(len, len)` bytes to the front of the target (`copyInto`).
- The `&mut [u8]` argument of a read is passed in and handed back, so the part
  that is not overwritten stays visible.
- Plain `+` and `-` panic on overflow, slices panic out of range and `assert!`
  panics when it fails: all of it is in `Outcome`.
- `println!` of a short write is dropped.

The spec lemmas at the end say what each function does to a ring whose counters
stand for true positions `h ≤ t` (`RingBuffer.At`); later files use these and
never unfold the functions again.
-/

namespace NetBricks.State

open Lib
open Lib.Outcome

/-- `std::io::Read`/`Write` on byte slices: copy what fits to the front of
`dst`, and say how much that was. -/
def copyInto (dst src : List UInt8) : Nat × List UInt8 :=
  let amt := min dst.length src.length
  (amt, src.take amt ++ dst.drop amt)

structure RingBuffer where
  head : Nat
  tail : Nat
  size : Nat
  mask : Nat
  vec : List UInt8
  deriving DecidableEq, Repr

namespace RingBuffer

/-- `RingBuffer::new`. The size must be a power of 2. -/
def new (bytes : Nat) : Outcome (Except ErrorKind RingBuffer) := do
  let less ← checkedSub bytes 1
  if bytes &&& less ≠ 0 then
    .ok (.error (.invalidRingSize bytes))
  else
    .ok (.ok { head := 0, tail := 0, size := bytes, mask := less,
               vec := List.replicate bytes 0 })

/-- `wrapped_read`: copy out of the vector from `offset`, continuing at its
front. -/
def wrappedRead (rb : RingBuffer) (offset : Nat) (data : List UInt8) :
    Outcome (Nat × List UInt8) := do
  check (offset < rb.size) "offset < self.size"
  check (data.length ≤ rb.size) "data.len() <= self.size"
  let src ← sliceFrom rb.vec offset
  let (bytes, data) := copyInto data src
  let stop ← checkedAdd 64 offset data.length
  if stop > rb.size then
    let remaining ← checkedSub data.length bytes
    let src ← sliceTo rb.vec remaining
    let dst ← sliceFrom data bytes
    let (more, dst) := copyInto dst src
    .ok (bytes + more, data.take bytes ++ dst)
  else
    .ok (bytes, data)

/-- `wrapped_write`: copy into the vector from `offset`, continuing at its
front. -/
def wrappedWrite (rb : RingBuffer) (offset : Nat) (data : List UInt8) :
    Outcome (Nat × RingBuffer) := do
  check (offset < rb.size) "offset < self.size"
  check (data.length ≤ rb.size) "data.len() <= self.size"
  let dst ← sliceFrom rb.vec offset
  let (bytes, dst) := copyInto dst data
  let vec := rb.vec.take offset ++ dst
  let stop ← checkedAdd 64 offset data.length
  if stop > rb.size then
    let remaining ← checkedSub data.length bytes
    let dst ← sliceTo vec remaining
    let src ← sliceFrom data bytes
    let (more, dst) := copyInto dst src
    .ok (bytes + more, { rb with vec := dst ++ vec.drop remaining })
  else
    .ok (bytes, { rb with vec := vec })

/-- `seek_tail`: progress the tail without writing anything. -/
def seekTail (rb : RingBuffer) (incrementBy : Nat) : RingBuffer :=
  { rb with tail := wrappingAdd 64 rb.tail incrementBy }

/-- `write_at_tail`: append as much of `data` as there is room for. -/
def writeAtTail (rb : RingBuffer) (data : List UInt8) : Outcome (Nat × RingBuffer) := do
  let available := wrappingSub 64 (wrappingAdd 64 rb.mask rb.head) rb.tail
  let write := min data.length available
  let offset := rb.tail &&& rb.mask
  let rb := rb.seekTail write
  let slice ← sliceTo data write
  rb.wrappedWrite offset slice

/-- `write_at_offset_from_tail`: place out-of-order data beyond the tail. -/
def writeAtOffsetFromTail (rb : RingBuffer) (offset : Nat) (data : List UInt8) :
    Outcome (Nat × RingBuffer) := do
  let available := wrappingSub 64 (wrappingAdd 64 rb.mask rb.head) rb.tail
  if available < offset then
    -- the offset lies beyond where we can safely write
    .ok (0, rb)
  else
    let offsetTail := wrappingAdd 64 rb.tail offset
    let availableAtOffset := wrappingSub 64 (wrappingAdd 64 rb.mask rb.head) offsetTail
    let write := min data.length availableAtOffset
    let index := offsetTail &&& rb.mask
    let slice ← sliceTo data write
    rb.wrappedWrite index slice

/-- `available`: the number of unread bytes. -/
def available (rb : RingBuffer) : Nat := wrappingSub 64 rb.tail rb.head

def readOffset (rb : RingBuffer) : Nat := rb.head &&& rb.mask

/-- `read_from_head_with_increment`: read, but advance by at most `increment`. -/
def readFromHeadWithIncrement (rb : RingBuffer) (data : List UInt8) (increment : Nat) :
    Outcome ((Nat × List UInt8) × RingBuffer) := do
  let offset := rb.readOffset
  let toRead := min rb.available data.length
  let rb := { rb with head := wrappingAdd 64 rb.head (min increment toRead) }
  let slice ← sliceTo data toRead
  let (read, slice) ← rb.wrappedRead offset slice
  .ok ((read, slice ++ data.drop toRead), rb)

/-- `read_from_head`. -/
def readFromHead (rb : RingBuffer) (data : List UInt8) :
    Outcome ((Nat × List UInt8) × RingBuffer) :=
  rb.readFromHeadWithIncrement data data.length

/-- `seek_head`: skip `seek` unread bytes. -/
def seekHead (rb : RingBuffer) (seek : Nat) : Outcome RingBuffer := do
  check (rb.available ≥ seek) "Seek beyond available bytes."
  .ok { rb with head := wrappingAdd 64 rb.head seek }

/-- `clear`. -/
def clear (rb : RingBuffer) : RingBuffer := { rb with head := 0, tail := 0 }

/-! ## Geometry -/

/-- A ring of `2 ^ k` cells: what `new` sets up and no call changes. That the size is a power of
two makes `& mask` the remainder, and `lt` lets the counters wrap at `2 ^ 64` without the cells
noticing. -/
structure Geom (k : Nat) (rb : RingBuffer) : Prop where
  lt : k < 64
  size_eq : rb.size = 2 ^ k
  mask_eq : rb.mask = 2 ^ k - 1
  length_vec : rb.vec.length = 2 ^ k

/-- The counters stand for the true positions `h` (next byte to read) and `t` (next byte to
write), which only grow. `le` and `room` say that what is unread fits: at most `2 ^ k - 1`
bytes, since a full ring and an empty one would have the same counters. -/
structure At (k h t : Nat) (rb : RingBuffer) : Prop extends Geom k rb where
  head_eq : rb.head = h % 2 ^ 64
  tail_eq : rb.tail = t % 2 ^ 64
  le : h ≤ t
  room : t - h ≤ 2 ^ k - 1

theorem At.clear {k h t : Nat} {rb : RingBuffer} (ha : At k h t rb) : At k 0 0 rb.clear :=
  ⟨⟨ha.lt, ha.size_eq, ha.mask_eq, ha.length_vec⟩, rfl, rfl, Nat.le_refl 0, Nat.zero_le _⟩

theorem Geom.two_pow_lt {k : Nat} {rb : RingBuffer} (hg : Geom k rb) : 2 ^ k < 2 ^ 64 :=
  Nat.pow_lt_pow_right (by decide) hg.lt

theorem Geom.double_le {k : Nat} {rb : RingBuffer} (hg : Geom k rb) : 2 ^ k + 2 ^ k ≤ 2 ^ 64 := by
  have h : 2 ^ (k + 1) ≤ 2 ^ 64 := Nat.pow_le_pow_right (by decide) hg.lt
  rw [Nat.pow_succ] at h
  omega

/-- Every power of two that fits a `usize` is accepted. -/
theorem new_two_pow (k : Nat) :
    new (2 ^ k) = .ok (.ok { head := 0, tail := 0, size := 2 ^ k, mask := 2 ^ k - 1,
                             vec := List.replicate (2 ^ k) 0 }) := by
  have hpos : 0 < 2 ^ k := Nat.two_pow_pos k
  unfold new
  rw [checkedSub_of_le (by omega), bind_ok, Nat.and_two_pow_sub_one_eq_mod, Nat.mod_self]
  simp

/-- A ring that `new` returns has the geometry of a power of two. -/
theorem geom_of_new {n : Nat} {rb : RingBuffer} (hn : n < 2 ^ 64) (h : new n = .ok (.ok rb)) :
    ∃ k, At k 0 0 rb ∧ n = 2 ^ k := by
  unfold new at h
  rw [bind_eq_ok] at h
  obtain ⟨less, hless, h⟩ := h
  obtain ⟨hpos, rfl⟩ := checkedSub_eq_ok.mp hless
  split at h
  next => cases h
  next hand =>
    injection h with h
    injection h with h
    obtain ⟨k, hk⟩ := (Nat.and_sub_one_eq_zero_iff_isPowerOfTwo (by omega)).mp
      (Decidable.not_not.mp hand)
    subst hk h
    refine ⟨k, ⟨⟨?_, rfl, rfl, List.length_replicate⟩, rfl, rfl, Nat.le_refl _, by omega⟩, rfl⟩
    exact (Nat.pow_lt_pow_iff_right (by decide)).mp hn

/-! ## What each function does -/

/-- `wrapped_read` at a position reads the window of cells from there. -/
theorem wrappedRead_eq {k : Nat} {rb : RingBuffer} (hg : Geom k rb) (p : Nat)
    {data : List UInt8} (hlen : data.length ≤ 2 ^ k) :
    rb.wrappedRead (p % 2 ^ k) data = .ok (data.length, window rb.vec p data.length) := by
  have ho : p % 2 ^ k < 2 ^ k := Nat.mod_lt _ (Nat.two_pow_pos k)
  have hdbl := hg.double_le
  have hv := hg.length_vec
  have hwin : window rb.vec p data.length =
      (rb.vec.drop (p % 2 ^ k) ++ rb.vec.take (p % 2 ^ k)).take data.length := by
    rw [window, List.rotate_eq_drop_append_take_mod, hv]
  rw [hwin]
  generalize p % 2 ^ k = o at ho
  unfold wrappedRead
  rw [hg.size_eq, check_true ho, check_true hlen, sliceFrom_of_le (by omega)]
  simp only [bind_ok, copyInto, List.length_drop, hv]
  have hdata : ((rb.vec.drop o).take (min data.length (2 ^ k - o)) ++
      data.drop (min data.length (2 ^ k - o))).length = data.length := by
    simp only [List.length_append, List.length_take, List.length_drop, hv]
    omega
  rw [hdata, checkedAdd_of_lt (by omega), bind_ok]
  by_cases hwrap : o + data.length > 2 ^ k
  · -- the read runs off the end: the rest comes from the front of the vector
    have hmin : min data.length (2 ^ k - o) = 2 ^ k - o := by omega
    have hdrop : (rb.vec.drop o).length = 2 ^ k - o := by rw [List.length_drop, hv]
    rw [if_pos hwrap, hmin, List.take_of_length_le (by omega), checkedSub_of_le (by omega),
      bind_ok, sliceTo_of_le (by omega), bind_ok, sliceFrom_of_le (by
        simp only [List.length_append, List.length_drop, hv]
        omega), bind_ok]
    have hback : (rb.vec.drop o ++ data.drop (2 ^ k - o)).drop (2 ^ k - o) =
        data.drop (2 ^ k - o) := by rw [List.drop_left' hdrop]
    have hfront : (rb.vec.drop o ++ data.drop (2 ^ k - o)).take (2 ^ k - o) =
        rb.vec.drop o := by rw [List.take_left' hdrop]
    rw [hback, hfront]
    simp only [List.length_drop, List.length_take, hv]
    rw [show min (data.length - (2 ^ k - o)) (min (data.length - (2 ^ k - o)) (2 ^ k)) =
      data.length - (2 ^ k - o) by omega]
    have hrest : (data.drop (2 ^ k - o)).drop (data.length - (2 ^ k - o)) = [] :=
      List.drop_of_length_le (by rw [List.length_drop])
    have hall : (rb.vec.drop o).take data.length = rb.vec.drop o :=
      List.take_of_length_le (by omega)
    rw [List.take_take, Nat.min_self, hrest, List.append_nil, List.take_append, hall, hdrop,
      List.take_take,
      show min (data.length - (2 ^ k - o)) o = data.length - (2 ^ k - o) by omega,
      show 2 ^ k - o + (data.length - (2 ^ k - o)) = data.length by omega]
  · have hmin : min data.length (2 ^ k - o) = data.length := by omega
    rw [if_neg hwrap, hmin, List.drop_of_length_le (Nat.le_refl _), List.append_nil,
      List.take_append_of_le_length (by rw [List.length_drop, hv]; omega)]

/-- `wrapped_write` at a position is the two-part copy of the library. -/
theorem wrappedWrite_eq {k : Nat} {rb : RingBuffer} (hg : Geom k rb) (p : Nat)
    {data : List UInt8} (hlen : data.length ≤ 2 ^ k) :
    rb.wrappedWrite (p % 2 ^ k) data =
      .ok (data.length, { rb with vec := blit rb.vec (p % 2 ^ k) data }) := by
  have ho : p % 2 ^ k < 2 ^ k := Nat.mod_lt _ (Nat.two_pow_pos k)
  have hdbl := hg.double_le
  have hv := hg.length_vec
  generalize p % 2 ^ k = o at ho
  unfold wrappedWrite blit
  rw [hg.size_eq, check_true ho, check_true hlen, sliceFrom_of_le (by omega), hv]
  simp only [bind_ok, copyInto, List.length_drop, hv]
  rw [checkedAdd_of_lt (by omega), bind_ok]
  by_cases hwrap : 2 ^ k < o + data.length
  · -- the write runs off the end: the rest goes to the front of the vector
    have hmin : min (2 ^ k - o) data.length = 2 ^ k - o := by omega
    have htake : (data.take (2 ^ k - o)).length = 2 ^ k - o := by rw [List.length_take]; omega
    have hfirst : rb.vec.take o ++ (data.take (2 ^ k - o) ++ (rb.vec.drop o).drop (2 ^ k - o)) =
        overwrite rb.vec o (data.take (2 ^ k - o)) := by
      rw [overwrite, List.drop_drop, htake]
    have hlen₁ : (overwrite rb.vec o (data.take (2 ^ k - o))).length = 2 ^ k := by
      rw [length_overwrite (by omega), hv]
    rw [if_pos hwrap, if_pos hwrap, hmin, hfirst, checkedSub_of_le (by omega), bind_ok,
      sliceTo_of_le (by omega), bind_ok, sliceFrom_of_le (by omega), bind_ok]
    simp only [List.length_take, List.length_drop, hlen₁]
    rw [show min (min (data.length - (2 ^ k - o)) (2 ^ k)) (data.length - (2 ^ k - o)) =
      data.length - (2 ^ k - o) by omega]
    have hfit : (data.drop (2 ^ k - o)).take (data.length - (2 ^ k - o)) =
        data.drop (2 ^ k - o) := List.take_of_length_le (by rw [List.length_drop])
    have hover : overwrite (overwrite rb.vec o (data.take (2 ^ k - o))) 0
        (data.drop (2 ^ k - o)) = data.drop (2 ^ k - o) ++
          (overwrite rb.vec o (data.take (2 ^ k - o))).drop (data.length - (2 ^ k - o)) := by
      rw [overwrite, List.take_zero, List.nil_append, Nat.zero_add, List.length_drop]
    have hrest : ((overwrite rb.vec o (data.take (2 ^ k - o))).take
        (data.length - (2 ^ k - o))).drop (data.length - (2 ^ k - o)) = [] :=
      List.drop_of_length_le (by rw [List.length_take]; omega)
    rw [hfit, hrest, List.append_nil, hover,
      show 2 ^ k - o + (data.length - (2 ^ k - o)) = data.length by omega]
  · have hmin : min (2 ^ k - o) data.length = data.length := by omega
    rw [if_neg hwrap, if_neg hwrap, hmin, List.take_of_length_le (Nat.le_refl _), List.drop_drop,
      overwrite]

/-- `available` is the distance between the true positions. -/
theorem available_eq {k h t : Nat} {rb : RingBuffer} (ha : At k h t rb) :
    rb.available = t - h := by
  have := ha.two_pow_lt
  have := ha.room
  rw [available, ha.tail_eq, ha.head_eq]
  exact wrappingSub_mod ha.le (by omega)

/-- The room left at the tail, as the write functions compute it. -/
theorem free_eq {k h t : Nat} {rb : RingBuffer} (ha : At k h t rb) :
    wrappingSub 64 (wrappingAdd 64 rb.mask rb.head) rb.tail = 2 ^ k - 1 - (t - h) := by
  have := ha.two_pow_lt
  have := ha.room
  have := ha.le
  rw [ha.mask_eq, ha.head_eq, ha.tail_eq, wrappingAdd, Nat.add_mod_mod,
    wrappingSub_mod (by omega) (by omega)]
  omega

/-- `write_at_tail` stores the bytes there is room for and advances over them. -/
theorem writeAtTail_eq {k h t : Nat} {rb : RingBuffer} (ha : At k h t rb) (data : List UInt8) :
    rb.writeAtTail data =
      .ok (min data.length (2 ^ k - 1 - (t - h)),
        { rb with
          tail := (t + min data.length (2 ^ k - 1 - (t - h))) % 2 ^ 64
          vec := blit rb.vec (t % 2 ^ k)
            (data.take (min data.length (2 ^ k - 1 - (t - h)))) }) := by
  have hoff : rb.tail &&& rb.mask = t % 2 ^ k := by
    rw [ha.tail_eq, ha.mask_eq, mod_and_mask (Nat.le_of_lt ha.lt)]
  unfold writeAtTail
  dsimp only
  rw [free_eq ha, hoff]
  generalize hw : min data.length (2 ^ k - 1 - (t - h)) = w
  have hlen : (data.take w).length = w := by rw [List.length_take]; omega
  have hgeom : Geom k (rb.seekTail w) := ⟨ha.lt, ha.size_eq, ha.mask_eq, ha.length_vec⟩
  rw [sliceTo_of_le (by omega), bind_ok, wrappedWrite_eq hgeom t (by omega), hlen]
  simp only [seekTail, ha.tail_eq, wrappingAdd_mod]

/-- `write_at_offset_from_tail` stores the bytes that fit beyond the gap and
moves neither counter. -/
theorem writeAtOffsetFromTail_eq {k h t : Nat} {rb : RingBuffer} (ha : At k h t rb)
    (offset : Nat) (data : List UInt8) :
    rb.writeAtOffsetFromTail offset data =
      if 2 ^ k - 1 - (t - h) < offset then .ok (0, rb)
      else .ok (min data.length (2 ^ k - 1 - (t - h) - offset),
        { rb with
          vec := blit rb.vec ((t + offset) % 2 ^ k)
            (data.take (min data.length (2 ^ k - 1 - (t - h) - offset))) }) := by
  have hfree := free_eq ha
  have := ha.two_pow_lt
  have := ha.room
  have := ha.le
  unfold writeAtOffsetFromTail
  dsimp only
  rw [hfree]
  by_cases hoff : 2 ^ k - 1 - (t - h) < offset
  · rw [if_pos hoff, if_pos hoff]
  · have hot : wrappingAdd 64 rb.tail offset = (t + offset) % 2 ^ 64 := by
      rw [ha.tail_eq, wrappingAdd_mod]
    have hat : wrappingSub 64 (wrappingAdd 64 rb.mask rb.head) ((t + offset) % 2 ^ 64) =
        2 ^ k - 1 - (t - h) - offset := by
      rw [ha.mask_eq, ha.head_eq, wrappingAdd, Nat.add_mod_mod,
        wrappingSub_mod (by omega) (by omega)]
      omega
    have hidx : (t + offset) % 2 ^ 64 &&& rb.mask = (t + offset) % 2 ^ k := by
      rw [ha.mask_eq, mod_and_mask (Nat.le_of_lt ha.lt)]
    rw [if_neg hoff, if_neg hoff, hot, hat, hidx]
    generalize hw : min data.length (2 ^ k - 1 - (t - h) - offset) = w
    have hlen : (data.take w).length = w := by rw [List.length_take]; omega
    rw [sliceTo_of_le (by omega), bind_ok, wrappedWrite_eq ha.toGeom (t + offset) (by omega), hlen]

/-- A read returns the oldest unread bytes and drops the first `increment`. -/
theorem readFromHeadWithIncrement_eq {k h t : Nat} {rb : RingBuffer} (ha : At k h t rb)
    (data : List UInt8) (increment : Nat) :
    rb.readFromHeadWithIncrement data increment =
      .ok ((min (t - h) data.length,
          window rb.vec h (min (t - h) data.length) ++ data.drop (min (t - h) data.length)),
        { rb with
          head := (h + min increment (min (t - h) data.length)) % 2 ^ 64 }) := by
  have := ha.two_pow_lt
  have := ha.room
  have hoff : rb.readOffset = h % 2 ^ k := by
    rw [readOffset, ha.head_eq, ha.mask_eq, mod_and_mask (Nat.le_of_lt ha.lt)]
  unfold readFromHeadWithIncrement
  dsimp only
  rw [available_eq ha, hoff]
  generalize hr : min (t - h) data.length = r
  have hlen : (data.take r).length = r := by rw [List.length_take]; omega
  have hgeom : Geom k { rb with head := wrappingAdd 64 rb.head (min increment r) } :=
    ⟨ha.lt, ha.size_eq, ha.mask_eq, ha.length_vec⟩
  rw [sliceTo_of_le (by omega), bind_ok, wrappedRead_eq hgeom h (by omega), bind_ok, hlen]
  simp only [ha.head_eq, wrappingAdd_mod]

/-! ## The same, position by position -/

/-- The part of a block that is stored from position `p` on, cut off at the end of
the window. -/
theorem cell_write {k h t : Nat} {rb : RingBuffer} (ha : At k h t rb) {p w : Nat}
    {data : List UInt8} (hp : t ≤ p) (hw : w ≤ data.length) (hfit : p + w ≤ h + 2 ^ k)
    {q : Nat} (hq : h ≤ q) (hlt : q < h + 2 ^ k) :
    cell (blit rb.vec (p % 2 ^ k) (data.take w)) q =
      if p ≤ q ∧ q < p + w then data[q - p]? else cell rb.vec q := by
  have hle := ha.le
  have hlen : (data.take w).length = w := List.length_take_of_le hw
  rw [← ha.length_vec] at hfit hlt ⊢
  rw [cell_blit_window (show h ≤ p by omega) (by omega) hq hlt, hlen]
  by_cases hin : p ≤ q ∧ q < p + w
  · rw [if_pos hin, if_pos hin, List.getElem?_take_of_lt (by omega)]
  · rw [if_neg hin, if_neg hin]

theorem length_write {k h t : Nat} {rb : RingBuffer} (ha : At k h t rb) (p : Nat)
    {data : List UInt8} (hlen : data.length ≤ 2 ^ k) :
    (blit rb.vec (p % 2 ^ k) data).length = 2 ^ k := by
  have hv := ha.length_vec
  have hp : p % 2 ^ k < 2 ^ k := Nat.mod_lt _ (Nat.two_pow_pos k)
  rw [length_blit (by omega) (by omega), hv]

theorem writeAtTail_at {k h t : Nat} {rb : RingBuffer} (ha : At k h t rb) (data : List UInt8) :
    ∃ rb', rb.writeAtTail data = .ok (min data.length (2 ^ k - 1 - (t - h)), rb') ∧
      At k h (t + min data.length (2 ^ k - 1 - (t - h))) rb' ∧
      ∀ q, h ≤ q → q < h + 2 ^ k → cell rb'.vec q =
        if t ≤ q ∧ q < t + min data.length (2 ^ k - 1 - (t - h)) then data[q - t]?
        else cell rb.vec q := by
  have hk := Nat.two_pow_pos k
  have hle := ha.le
  have hroom := ha.room
  have hlen : (data.take (min data.length (2 ^ k - 1 - (t - h)))).length ≤ 2 ^ k := by
    rw [List.length_take]
    omega
  refine ⟨_, writeAtTail_eq ha data, ?_, ?_⟩
  · exact ⟨⟨ha.lt, ha.size_eq, ha.mask_eq, length_write ha t hlen⟩, ha.head_eq, rfl, by omega,
      by omega⟩
  · intro q hq hlt
    exact cell_write ha (Nat.le_refl t) (Nat.min_le_left _ _) (by omega) hq hlt

theorem writeAtOffsetFromTail_at {k h t : Nat} {rb : RingBuffer} (ha : At k h t rb)
    (offset : Nat) (data : List UInt8) :
    ∃ rb', rb.writeAtOffsetFromTail offset data =
        .ok (min data.length (2 ^ k - 1 - (t - h) - offset), rb') ∧
      At k h t rb' ∧
      ∀ q, h ≤ q → q < h + 2 ^ k → cell rb'.vec q =
        if t + offset ≤ q ∧ q < t + offset + min data.length (2 ^ k - 1 - (t - h) - offset)
        then data[q - (t + offset)]? else cell rb.vec q := by
  have hk := Nat.two_pow_pos k
  have hle := ha.le
  have hroom := ha.room
  have heq := writeAtOffsetFromTail_eq ha offset data
  by_cases hoff : 2 ^ k - 1 - (t - h) < offset
  · have hzero : min data.length (2 ^ k - 1 - (t - h) - offset) = 0 := by omega
    rw [if_pos hoff] at heq
    rw [hzero]
    refine ⟨rb, heq, ha, fun q _ _ => ?_⟩
    rw [if_neg (by omega)]
  · have hlen : (data.take (min data.length (2 ^ k - 1 - (t - h) - offset))).length ≤ 2 ^ k := by
      rw [List.length_take]
      omega
    rw [if_neg hoff] at heq
    refine ⟨_, heq, ?_, ?_⟩
    · exact ⟨⟨ha.lt, ha.size_eq, ha.mask_eq, length_write ha _ hlen⟩, ha.head_eq, ha.tail_eq,
        ha.le, ha.room⟩
    · intro q hq hlt
      exact cell_write ha (Nat.le_add_right _ _) (Nat.min_le_left _ _) (by omega) hq hlt

theorem readFromHead_at {k h t : Nat} {rb : RingBuffer} (ha : At k h t rb) (data : List UInt8) :
    ∃ rb', rb.readFromHead data =
        .ok ((min (t - h) data.length,
          window rb.vec h (min (t - h) data.length) ++ data.drop (min (t - h) data.length)), rb') ∧
      At k (h + min (t - h) data.length) t rb' ∧ rb'.vec = rb.vec := by
  have hle := ha.le
  have hroom := ha.room
  have heq := readFromHeadWithIncrement_eq ha data data.length
  rw [Nat.min_eq_right (Nat.min_le_right (t - h) data.length)] at heq
  refine ⟨_, heq, ?_, rfl⟩
  exact ⟨⟨ha.lt, ha.size_eq, ha.mask_eq, ha.length_vec⟩, rfl, ha.tail_eq, by omega, by omega⟩

theorem At.seekTail {k h t : Nat} {rb : RingBuffer} (ha : At k h t rb) {n : Nat}
    (hn : t + n - h ≤ 2 ^ k - 1) : At k h (t + n) (rb.seekTail n) := by
  have hle := ha.le
  refine ⟨⟨ha.lt, ha.size_eq, ha.mask_eq, ha.length_vec⟩, ha.head_eq, ?_, by omega, hn⟩
  show wrappingAdd 64 rb.tail n = _
  rw [ha.tail_eq, wrappingAdd_mod]

end RingBuffer

end NetBricks.State
