import Mathlib.Logic.Relation
import NetBricks.Lib.Machine
import NetBricks.State.ReorderedBuffer

/-!
# What the calls of `ReorderedBuffer` are made of

Every call changes the buffer by a few kinds of moves, one after the other: a write at
the tail or ahead of it, the tail moving on to the end of a segment, a read, a change of
the segment list or of the state of the connection, the start of a connection and a
reset (`Move`). Which of them, and how often, depends on the segment list
(`use_moves`); what every move keeps, every run keeps (`Moves.keeps`), whatever the list
does.
-/

namespace NetBricks.State.ReorderedBuffer

open Lib
open Lib.Outcome
open Relation (ReflTransGen)

inductive Move : ReorderedBuffer → ReorderedBuffer → Prop where
  | list {b : ReorderedBuffer} (l : SegmentList) : Move b { b with segmentList := l }
  /-- Into order or out of it. -/
  | turn {b : ReorderedBuffer} (hopen : b.state ≠ .closed) (s : BufferState) (hs : s ≠ .closed) :
      Move b { b with state := s }
  | write {b : ReorderedBuffer} (hopen : b.state ≠ .closed) {data : List UInt8} {n : Nat}
      {ring : RingBuffer} (h : b.data.writeAtTail data = .ok (n, ring)) :
      Move b { b with data := ring, tailSeq := wrappingAdd 32 b.tailSeq (truncate 32 n) }
  /-- The tail moves to the end of a segment. -/
  | seek {b : ReorderedBuffer} (hopen : b.state ≠ .closed) {stop : Nat} (h : stop < 2 ^ 32) :
      Move b { b with
        data := b.data.seekTail (wrappingSub 32 stop b.tailSeq), tailSeq := stop }
  | ahead {b : ReorderedBuffer} (hopen : b.state ≠ .closed) {offset : Nat} {data : List UInt8}
      {n : Nat} {ring : RingBuffer} (h : b.data.writeAtOffsetFromTail offset data = .ok (n, ring)) :
      Move b { b with data := ring }
  | read {b : ReorderedBuffer} (hopen : b.state ≠ .closed) {data out : List UInt8} {n : Nat}
      {ring : RingBuffer} (h : b.data.readFromHead data = .ok ((n, out), ring)) :
      Move b { b with data := ring, headSeq := wrappingAdd 32 b.headSeq (truncate 32 n) }
  /-- `seq` on a closed buffer. -/
  | start {b : ReorderedBuffer} (hclosed : b.state = .closed) {seq : Nat} (h : seq < 2 ^ 32) :
      Move b { b with state := .connected, headSeq := seq, tailSeq := seq }
  | reset {b : ReorderedBuffer} (l : SegmentList) :
      Move b { b with state := .closed, segmentList := l, data := b.data.clear }

/-- Any number of moves. -/
abbrev Moves (b b' : ReorderedBuffer) : Prop := ReflTransGen Move b b'

theorem Moves.keeps {I : ReorderedBuffer → Prop} (hI : ∀ b b', I b → Move b b' → I b')
    {b b' : ReorderedBuffer} (hb : I b) (h : Moves b b') : I b' := by
  induction h with
  | refl => exact hb
  | tail _ hmove ih => exact hI _ _ ih hmove

/-! ## Insertions -/

variable {b b' : ReorderedBuffer} {fuel : Nat} {data : List UInt8} {r : InsertionResult}

theorem fastPathInsert_moves (hopen : b.state ≠ .closed)
    (h : b.fastPathInsert data = .ok (r, b')) : Moves b b' := by
  obtain ⟨n, ring, hw, -, rfl⟩ := fastPathInsert_eq_ok h
  exact .single (.write hopen hw)

theorem advanceTail_moves (hopen : b.state ≠ .closed) {written : Nat} {segment : Option Int}
    (h : b.advanceTail fuel segment written = .ok (r, b')) : Moves b b' := by
  obtain ⟨seg, l, s, n, -, -, hs, -, rfl⟩ := advanceTail_eq_ok h
  have hs : s ≠ .closed := by
    rcases hs with rfl | rfl
    · exact hopen
    · nofun
  have hseek : Moves b { b with
      data := b.data.seekTail (wrappingSub 32 seg.stop b.tailSeq), tailSeq := seg.stop } :=
    .single (.seek hopen (wrappingAdd_lt _ _ _))
  exact (hseek.tail (.list l)).tail (@Move.turn { b with
    data := b.data.seekTail (wrappingSub 32 seg.stop b.tailSeq), tailSeq := seg.stop,
    segmentList := l } hopen s hs)

theorem insertAtTail_moves (hopen : b.state ≠ .closed)
    (h : b.insertAtTail fuel data = .ok (r, b')) : Moves b b' := by
  obtain ⟨n, ring, segment, l, hw, -, h⟩ := insertAtTail_eq_ok h
  have hwritten : Moves b { b with
      data := ring, tailSeq := wrappingAdd 32 b.tailSeq (truncate 32 n), segmentList := l } :=
    .tail (.single (.write hopen hw)) (.list l)
  exact hwritten.trans (advanceTail_moves hopen h)

theorem outOfOrderInsert_moves (hopen : b.state ≠ .closed) {seq : Nat}
    (h : b.outOfOrderInsert fuel seq data = .ok (r, b')) : Moves b b' := by
  cases outOfOrderInsert_eq_ok h with
  | atTail _ _ h => exact insertAtTail_moves hopen h
  | old _ _ _ hb => exact hb ▸ .refl
  | ahead _ hw _ _ hb =>
    rw [hb]
    exact .tail (.single (.ahead hopen hw)) (.list _)

theorem slowPathInsert_moves (hopen : b.state ≠ .closed) {seq : Nat}
    (h : b.slowPathInsert fuel seq data = .ok (r, b')) : Moves b b' := by
  cases slowPathInsert_eq_ok h with
  | overlap _ _ h => exact fastPathInsert_moves hopen h
  | old _ _ hb => exact hb ▸ .refl
  | outOfOrder _ _ l h =>
    have hturned : Moves b { b with state := .connectedOutOfOrder, segmentList := l } :=
      .tail (.single (.turn hopen .connectedOutOfOrder nofun)) (.list l)
    have hopen₁ : ReorderedBuffer.state
        { b with state := .connectedOutOfOrder, segmentList := l } ≠ .closed := nofun
    exact hturned.trans (outOfOrderInsert_moves hopen₁ h)

theorem addData_moves {seq : Nat} (h : b.addData fuel seq data = .ok (r, b')) : Moves b b' := by
  unfold addData at h
  split at h
  · next hs =>
    have hopen : b.state ≠ .closed := hs ▸ nofun
    split at h
    · exact fastPathInsert_moves hopen h
    · exact slowPathInsert_moves hopen h
  · next hs => exact outOfOrderInsert_moves (hs ▸ nofun) h
  · cases h

/-! ## Reads, and whole calls -/

theorem readData_moves {n : Nat} {out : List UInt8}
    (h : b.readData fuel data = .ok ((n, out), b')) : Moves b b' := by
  cases readData_eq_ok h with
  | closed _ _ hb => exact hb ▸ .refl
  | opened hopen hread hb =>
    rw [hb]
    exact .tail (.single (.read hopen hread)) (.list _)

theorem seq_moves {seq : Nat} (hseq : seq < 2 ^ 32) (h : b.seq seq data = .ok (r, b')) :
    Moves b b' := by
  unfold ReorderedBuffer.seq at h
  split at h
  · next hs =>
    have hopen : ReorderedBuffer.state
        { b with state := .connected, headSeq := seq, tailSeq := seq } ≠ .closed := nofun
    exact .trans (.single (.start hs hseq)) (fastPathInsert_moves hopen h)
  · cases h

theorem step_moves {op : BufferOp} {r : BufferResult} (h : b.step fuel op = .ok (r, b')) :
    Moves b b' := by
  cases op with
  | addData seq data =>
    obtain ⟨i, hadd, -⟩ := step_addData_eq_ok h
    exact addData_moves hadd
  | readData data =>
    obtain ⟨n, out, hread, -⟩ := step_readData_eq_ok h
    exact readData_moves hread

theorem call_moves {call : BufferCall} {r : BufferResult} (h : b.call fuel call = .ok (r, b')) :
    Moves b b' := by
  cases call with
  | seq seq data =>
    obtain ⟨i, hseq, -⟩ := call_seq_eq_ok h
    exact seq_moves seq.toNat_lt hseq
  | op op => exact step_moves h

theorem use_moves {use : BufferUse} {r : Option BufferResult}
    (h : b.use fuel use = .ok (r, b')) : Moves b b' := by
  cases use with
  | reset =>
    dsimp only [ReorderedBuffer.use, reset] at h
    rw [bind_eq_ok] at h
    obtain ⟨b₁, hr, h⟩ := h
    rw [bind_eq_ok] at hr
    obtain ⟨l, -, hr⟩ := hr
    cases hr
    cases h
    exact .single (.reset l)
  | call call =>
    obtain ⟨r₁, hcall, -⟩ := use_call_eq_ok h
    exact call_moves hcall

theorem run_moves {uses : List BufferUse} {rs : List (Option BufferResult)}
    (h : runOps (use fuel) b uses = .ok (rs, b')) : Moves b b' :=
  runOps_keeps (I := Moves b) (fun _ _ _ _ hmoves hok => hmoves.trans (use_moves hok)) .refl h

end NetBricks.State.ReorderedBuffer
