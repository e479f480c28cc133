import NetBricks.State.ReorderedMoves
import NetBricks.State.RingMirror

/-!
# `ReorderedBuffer` and its ring

What the calls do to the bytes of the ring, whatever the segment list makes of
the data. `add_data` writes at the tail, at an offset from it, or not at all
(`Stores`); the segment list only decides how far the tail moves afterwards. So
the bytes of a call lie where its sequence number says, as far as there is room
(`Stores.cell`), and every call keeps the size of the ring (`call_counted`).
-/

namespace NetBricks.State

open Lib
open Lib.Outcome

namespace RingBuffer

/-! ## Rings with counters of 64 bits -/

/-- A ring of `2 ^ k` cells whose counters are `usize`s. Unlike in `At` they may be any distance
apart, as after a `seek_tail` that goes too far. -/
structure Counted (k : Nat) (rb : RingBuffer) : Prop extends Geom k rb where
  head_lt : rb.head < 2 ^ 64
  tail_lt : rb.tail < 2 ^ 64

/-- Counters that stand for positions are words. -/
theorem At.counted {k h t : Nat} {rb : RingBuffer} (hat : At k h t rb) : Counted k rb := by
  refine ⟨hat.toGeom, ?_, ?_⟩
  · rw [hat.head_eq]
    exact Nat.mod_lt _ (Nat.two_pow_pos 64)
  · rw [hat.tail_eq]
    exact Nat.mod_lt _ (Nat.two_pow_pos 64)

namespace Counted

variable {k : Nat} {rb rb' : RingBuffer}

theorem seekTail (h : Counted k rb) (n : Nat) : Counted k (rb.seekTail n) :=
  ⟨h.counters _ _, h.head_lt, wrappingAdd_lt _ _ _⟩

/-- The unread bytes are those from the head to the tail, as long as there are no
more of them than cells. -/
theorem at_of_room (h : Counted k rb) {p : Nat} (hp : rb.head = p % 2 ^ 64)
    (hroom : rb.available ≤ 2 ^ k - 1) : At k p (p + rb.available) rb := by
  refine ⟨h.toGeom, hp, ?_, by omega, by omega⟩
  have := wrappingAdd_wrappingSub 64 rb.tail rb.head
  rw [Nat.mod_eq_of_lt h.tail_lt, hp, wrappingAdd_mod, ← hp] at this
  exact this.symm

theorem of_wrappedWrite {p n : Nat} {data : List UInt8} (hc : Counted k rb)
    (h : rb.wrappedWrite (p % 2 ^ k) data = .ok (n, rb')) :
    Counted k rb' ∧ n = data.length ∧ rb'.head = rb.head ∧ rb'.tail = rb.tail := by
  rw [wrappedWrite_of_geom hc.toGeom] at h
  split at h
  · next hlen =>
    cases h
    have hp : p % 2 ^ k < 2 ^ k := Nat.mod_lt _ (Nat.two_pow_pos k)
    have hv := hc.length_vec
    refine ⟨⟨⟨hc.lt, hc.size_eq, hc.mask_eq, ?_⟩, hc.head_lt, hc.tail_lt⟩, rfl, rfl, rfl⟩
    show (blit rb.vec _ _).length = _
    rw [length_blit (by omega) (by omega), hv]
  · cases h

/-- A write at the tail moves it over what was written. -/
theorem of_writeAtTail {n : Nat} {data : List UInt8} (hc : Counted k rb)
    (h : rb.writeAtTail data = .ok (n, rb')) :
    Counted k rb' ∧ rb'.head = rb.head ∧ rb'.tail = wrappingAdd 64 rb.tail n := by
  unfold writeAtTail at h
  dsimp only at h
  rw [hc.and_mask, sliceTo_of_le (Nat.min_le_left _ _), bind_ok] at h
  obtain ⟨hcount, hn, hhead, htail⟩ := (hc.seekTail _).of_wrappedWrite h
  rw [List.length_take, Nat.min_eq_left (Nat.min_le_left _ _)] at hn
  exact ⟨hcount, hhead, hn ▸ htail⟩

theorem of_writeAtOffset {n offset : Nat} {data : List UInt8} (hc : Counted k rb)
    (h : rb.writeAtOffsetFromTail offset data = .ok (n, rb')) :
    Counted k rb' ∧ rb'.head = rb.head ∧ rb'.tail = rb.tail := by
  unfold writeAtOffsetFromTail at h
  dsimp only at h
  split at h
  · cases h
    exact ⟨hc, rfl, rfl⟩
  · rw [hc.and_mask, sliceTo_of_le (Nat.min_le_left _ _), bind_ok] at h
    obtain ⟨hcount, -, hcounters⟩ := hc.of_wrappedWrite h
    exact ⟨hcount, hcounters⟩

/-- A read returns what there is, as far as the buffer reaches. -/
theorem readFromHead_eq_ok {n : Nat} {data out : List UInt8} (hc : Counted k rb)
    (h : rb.readFromHead data = .ok ((n, out), rb')) :
    n = min rb.available data.length ∧ rb' = { rb with head := wrappingAdd 64 rb.head n } := by
  unfold readFromHead readFromHeadWithIncrement readOffset at h
  dsimp only at h
  rw [hc.and_mask, sliceTo_of_le (Nat.min_le_right _ _), bind_ok,
    wrappedRead_of_geom (hc.counters _ _), List.length_take_of_le (Nat.min_le_right _ _),
    Nat.min_eq_right (Nat.min_le_right _ _)] at h
  split at h
  · cases h
    exact ⟨rfl, rfl⟩
  · cases h

/-- A read moves the head over what it returns. -/
theorem of_readFromHead {n : Nat} {data out : List UInt8} (hc : Counted k rb)
    (h : rb.readFromHead data = .ok ((n, out), rb')) :
    Counted k rb' ∧ rb'.head = wrappingAdd 64 rb.head n ∧ rb'.tail = rb.tail := by
  obtain ⟨-, rfl⟩ := hc.readFromHead_eq_ok h
  exact ⟨⟨hc.counters _ _, wrappingAdd_lt _ _ _, hc.tail_lt⟩, rfl, rfl⟩

end Counted

end RingBuffer

namespace ReorderedBuffer

/-! ## What is stored where -/

/-- The rings differ in the tail only, which `seek_tail` has moved: what is stored is where it
was. -/
def SameCells (a b : RingBuffer) : Prop := a = b ∨ ∃ n, a = b.seekTail n

theorem SameCells.vec_eq {a b : RingBuffer} (h : SameCells a b) : a.vec = b.vec := by
  rcases h with rfl | ⟨n, rfl⟩
  · rfl
  · rfl

theorem SameCells.counted {k : Nat} {a b : RingBuffer} (h : SameCells a b) (hb : b.Counted k) :
    a.Counted k ∧ a.head = b.head := by
  rcases h with rfl | ⟨n, rfl⟩
  · exact ⟨hb, rfl⟩
  · exact ⟨hb.seekTail n, rfl⟩

/-- What `add_data` did to the ring. -/
inductive Stores (b : ReorderedBuffer) (seq : Nat) (data : List UInt8) (ring : RingBuffer) :
    Prop where
  /-- The data was received before. -/
  | nothing (hseq : seq ≠ b.tailSeq)
      (hold : seq + data.length < 2 ^ 32 → seq + data.length ≤ b.tailSeq)
      (hring : SameCells ring b.data)
  /-- What is new went to the tail. -/
  | atTail {n : Nat} {rb : RingBuffer} (hle : seq ≤ b.tailSeq)
      (hwrite : b.data.writeAtTail (data.drop (b.tailSeq - seq)) = .ok (n, rb))
      (hring : SameCells ring rb)
  /-- The data went ahead of the tail. -/
  | ahead {n : Nat} {rb : RingBuffer} (hlt : b.tailSeq < seq)
      (hwrite : b.data.writeAtOffsetFromTail (seq - b.tailSeq) data = .ok (n, rb))
      (hring : SameCells ring rb)

theorem insertAtTail_ring {fuel : Nat} {b b' : ReorderedBuffer} {data : List UInt8}
    {r : InsertionResult} (h : b.insertAtTail fuel data = .ok (r, b')) :
    ∃ n rb, b.data.writeAtTail data = .ok (n, rb) ∧ SameCells b'.data rb := by
  obtain ⟨n, rb, segment, l, hw, -, h⟩ := insertAtTail_eq_ok h
  obtain ⟨seg, l', s, n', -, -, -, -, rfl⟩ := advanceTail_eq_ok h
  exact ⟨n, rb, hw, .inr ⟨_, rfl⟩⟩

theorem outOfOrderInsert_stores {fuel seq : Nat} {b b' : ReorderedBuffer} {data : List UInt8}
    {r : InsertionResult} (h : b.outOfOrderInsert fuel seq data = .ok (r, b')) :
    b.Stores seq data b'.data := by
  cases outOfOrderInsert_eq_ok h with
  | atTail hle _ h =>
    obtain ⟨n, rb, hw, hring⟩ := insertAtTail_ring h
    exact .atTail hle hw hring
  | old hlt hold _ hb =>
    rw [hb]
    exact .nothing (Nat.ne_of_lt hlt) (fun _ => by omega) (.inl rfl)
  | ahead hlt hw _ _ hb =>
    rw [hb]
    exact .ahead hlt hw (.inl rfl)

theorem slowPathInsert_stores {fuel seq : Nat} {b b' : ReorderedBuffer} {data : List UInt8}
    {r : InsertionResult} (hseq : seq ≠ b.tailSeq)
    (h : b.slowPathInsert fuel seq data = .ok (r, b')) : b.Stores seq data b'.data := by
  cases slowPathInsert_eq_ok h with
  | overlap hlt _ h =>
    obtain ⟨n, rb, hw, -, rfl⟩ := fastPathInsert_eq_ok h
    exact .atTail (Nat.le_of_lt hlt) hw (.inl rfl)
  | old hold _ hb =>
    rw [hb]
    refine .nothing hseq (fun hlt => ?_) (.inl rfl)
    rw [truncate_of_lt (by omega), wrappingAdd_of_lt hlt] at hold
    exact Nat.le_of_lt hold
  | outOfOrder _ _ l h =>
    -- the same ring and tail, in another state and with other segments
    cases outOfOrderInsert_stores h with
    | nothing h₁ h₂ h₃ => exact .nothing h₁ h₂ h₃
    | atTail h₁ h₂ h₃ => exact .atTail h₁ h₂ h₃
    | ahead h₁ h₂ h₃ => exact .ahead h₁ h₂ h₃

/-- Data at the tail, on the fast path. -/
theorem fastPathInsert_stores {seq : Nat} {b b' : ReorderedBuffer} {data : List UInt8}
    {r : InsertionResult} (hseq : seq = b.tailSeq) (h : b.fastPathInsert data = .ok (r, b')) :
    b.Stores seq data b'.data := by
  obtain ⟨n, rb, hw, -, rfl⟩ := fastPathInsert_eq_ok h
  refine .atTail (n := n) (Nat.le_of_eq hseq) ?_ (.inl rfl)
  rw [hseq, Nat.sub_self]
  exact hw

theorem addData_stores {fuel seq : Nat} {b b' : ReorderedBuffer} {data : List UInt8}
    {r : InsertionResult} (h : b.addData fuel seq data = .ok (r, b')) :
    b.Stores seq data b'.data := by
  unfold addData at h
  split at h
  · split at h
    · next hseq => exact fastPathInsert_stores hseq h
    · next hseq => exact slowPathInsert_stores hseq h
  · exact outOfOrderInsert_stores h
  · cases h

namespace Stores

variable {b : ReorderedBuffer} {seq k : Nat} {data : List UInt8} {ring : RingBuffer}

/-- Neither the size nor the head changes. -/
theorem counted (h : b.Stores seq data ring) (hc : b.data.Counted k) :
    ring.Counted k ∧ ring.head = b.data.head := by
  have hsame : ∀ {rb : RingBuffer}, SameCells ring rb → rb.Counted k ∧ rb.head = b.data.head →
      ring.Counted k ∧ ring.head = b.data.head := by
    rintro rb hring ⟨hrb, hhead⟩
    obtain ⟨hcount, heq⟩ := hring.counted hrb
    exact ⟨hcount, heq.trans hhead⟩
  cases h with
  | nothing _ _ hring => exact hsame hring ⟨hc, rfl⟩
  | atTail _ hwrite hring =>
    obtain ⟨hcount, hhead, -⟩ := hc.of_writeAtTail hwrite
    exact hsame hring ⟨hcount, hhead⟩
  | ahead _ hwrite hring =>
    obtain ⟨hcount, hhead, -⟩ := hc.of_writeAtOffset hwrite
    exact hsame hring ⟨hcount, hhead⟩

/-- A byte of the data is found at the position its sequence number says, if that
is behind the tail and inside the buffer. -/
theorem cell {h t p : Nat} (hs : b.Stores seq data ring) (hat : b.data.At k h t)
    (hseq : seq + data.length < 2 ^ 32 ∨ seq = b.tailSeq) (hp : t + (seq - b.tailSeq) ≤ p)
    (hlt : p + b.tailSeq < t + (seq + data.length)) (hin : p < h + (2 ^ k - 1)) :
    Lib.cell ring.vec p = data[p + b.tailSeq - (t + seq)]? := by
  have hk := Nat.two_pow_pos k
  have hle := hat.le
  have hroom := hat.room
  cases hs with
  | nothing hne hold _ =>
    -- the data ends before the tail
    rcases hseq with hnowrap | heq
    · have := hold hnowrap
      omega
    · exact absurd heq hne
  | atTail hle' hwrite hring =>
    obtain ⟨rb, heq, -, hcell⟩ := RingBuffer.writeAtTail_at hat (data.drop (b.tailSeq - seq))
    rw [hwrite] at heq
    cases heq
    have hlen : (data.drop (b.tailSeq - seq)).length = data.length - (b.tailSeq - seq) :=
      List.length_drop
    rw [hring.vec_eq, hcell p (by omega) (by omega), if_pos ⟨by omega, by omega⟩,
      List.getElem?_drop]
    congr 1
    omega
  | ahead hlt' hwrite hring =>
    obtain ⟨rb, heq, -, hcell⟩ :=
      RingBuffer.writeAtOffsetFromTail_at hat (seq - b.tailSeq) data
    rw [hwrite] at heq
    cases heq
    rw [hring.vec_eq, hcell p (by omega) (by omega), if_pos ⟨by omega, by omega⟩]
    congr 1
    omega

end Stores

/-! ## Whole calls -/

/-- `read_data` moves the head over what it returns. -/
theorem readData_ring {fuel k n : Nat} {b b' : ReorderedBuffer} {data out : List UInt8}
    (hc : b.data.Counted k) (h : b.readData fuel data = .ok ((n, out), b')) :
    b'.data.Counted k ∧ b'.data.head = wrappingAdd 64 b.data.head n ∧
      b'.data.tail = b.data.tail := by
  cases readData_eq_ok h with
  | closed _ hn hb =>
    have := hc.head_lt
    rw [hb, hn, wrappingAdd_of_lt (by omega), Nat.add_zero]
    exact ⟨hc, rfl, rfl⟩
  | opened _ hread hb =>
    rw [hb]
    exact hc.of_readFromHead hread

/-- `seq` stores its data at the tail. -/
theorem seq_stores {seq : Nat} {b b' : ReorderedBuffer} {data : List UInt8} {r : InsertionResult}
    (h : b.seq seq data = .ok (r, b')) :
    Stores { b with tailSeq := seq } seq data b'.data := by
  unfold ReorderedBuffer.seq at h
  split at h
  · cases fastPathInsert_stores rfl h with
    | nothing h₁ h₂ h₃ => exact .nothing h₁ h₂ h₃
    | atTail h₁ h₂ h₃ => exact .atTail h₁ h₂ h₃
    | ahead h₁ h₂ h₃ => exact .ahead h₁ h₂ h₃
  · cases h

theorem counted_of_move {k : Nat} {b b' : ReorderedBuffer} (hc : b.data.Counted k)
    (h : Move b b') : b'.data.Counted k := by
  cases h with
  | list l => exact hc
  | turn _ s _ => exact hc
  | write _ hw => exact (hc.of_writeAtTail hw).1
  | seek _ _ => exact hc.seekTail _
  | ahead _ hw => exact (hc.of_writeAtOffset hw).1
  | read _ hread => exact (hc.of_readFromHead hread).1
  | start _ _ => exact hc
  | reset l => exact ⟨hc.counters 0 0, Nat.two_pow_pos 64, Nat.two_pow_pos 64⟩

/-- Every call keeps the size of the ring. -/
theorem call_counted {fuel k : Nat} {b b' : ReorderedBuffer} {call : BufferCall}
    {r : BufferResult} (hc : b.data.Counted k) (h : b.call fuel call = .ok (r, b')) :
    b'.data.Counted k :=
  (call_moves h).keeps (I := fun b => b.data.Counted k) (fun _ _ hc h => counted_of_move hc h) hc

end ReorderedBuffer

end NetBricks.State
