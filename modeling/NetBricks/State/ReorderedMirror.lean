import NetBricks.Lib.Machine
import NetBricks.State.ReorderedBuffer
import NetBricks.State.RingMirror
import NetBricks.State.SegmentMirror

/-!
# Reordered buffers that mirror each other

Two buffers whose segment lists mirror each other (`Mirror`), whose rings are
related by some relation that all ring operations keep (`RingPeers`), and whose
sequence numbers are recoded, answer every call alike: the same
`InsertionResult`, the same number of bytes read, and, where the ring relation
says so, the same bytes.

The recoding is asked to respect comparisons of numbers in `C` only. For a call
these are the number of the data and the one behind it, the ones of the unread
data, the tail, and the segments that the list can reach from its head
(`CallWithin`, and `live` in the pairing).

Nothing is assumed about the buffers beyond that: the two runs agree in states
that the code should never be in as well, and they panic and hang together.
-/

namespace NetBricks.State

open Lib
open Lib.Outcome

/-- Two buffers after `seq` that mirror each other: rings that do the same (`data`), lists of
the same shape under the pairing `m` of their nodes (`list`), the same state, and sequence
numbers that `τ` takes to each other. Calls whose numbers are in `C` keep this. -/
structure Twins (τ : Nat → Nat) (C : Nat → Prop) (P : RingBuffer → RingBuffer → Prop) (m : Pairing)
    (b b' : ReorderedBuffer) : Prop where
  data : P b.data b'.data
  list : Mirror τ C m b.segmentList b'.segmentList
  state : b'.state = b.state
  headSeq : b'.headSeq = τ b.headSeq
  tailSeq : b'.tailSeq = τ b.tailSeq

/-- The numbers that a call with `len` bytes of data from `seq` on compares, apart from the
segments: both ends of the data, and those of what is unread. -/
structure CallWithin (C : Nat → Prop) (b : ReorderedBuffer) (seq len : Nat) : Prop where
  start : C seq
  stop : C (seq + len)
  head : C b.headSeq
  unread : C (b.headSeq + b.available)
  tail : C b.tailSeq

/-- The same answer, and buffers that mirror each other. -/
def Answers (τ : Nat → Nat) (C : Nat → Prop) (P : RingBuffer → RingBuffer → Prop) {α : Type}
    (x y : α × ReorderedBuffer) : Prop :=
  x.1 = y.1 ∧ ∃ m, Twins τ C P m x.2 y.2

section

variable {τ : Nat → Nat} {C : Nat → Prop} {P : RingBuffer → RingBuffer → Prop}
  {R : Nat → RingBuffer → Prop} {m : Pairing} {b b' : ReorderedBuffer}

namespace Twins

variable (hP : RingPeers P R) (hτ : Recoding 32 τ C)
  (hadd : ∀ x n, wrappingAdd 32 (τ x) n = τ (wrappingAdd 32 x n))
include hP

theorem available (h : Twins τ C P m b b') : b'.available = b.available := hP.available h.data

theorem report (h : Twins τ C P m b b') (written len : Nat) :
    b.report written len = b'.report written len := by
  unfold ReorderedBuffer.report
  rw [h.available hP]

include hadd in
/-- `fast_path_insert` compares nothing. -/
theorem fastPathInsert (h : Twins τ C P m b b') (data : List UInt8) :
    Sim (Answers τ C P) (b.fastPathInsert data) (b'.fastPathInsert data) := by
  unfold ReorderedBuffer.fastPathInsert
  refine (hP.writeAtTail h.data data).bind ?_
  rintro ⟨written, ring⟩ ⟨_, ring'⟩ ⟨rfl, hring⟩
  have h₁ : Twins τ C P m
      { b with data := ring, tailSeq := wrappingAdd 32 b.tailSeq (truncate 32 written) }
      { b' with data := ring', tailSeq := wrappingAdd 32 b'.tailSeq (truncate 32 written) } :=
    { h with
      data := hring
      tailSeq := by
        dsimp only
        rw [h.tailSeq, hadd] }
  exact ⟨h₁.report hP written data.length, m, h₁⟩

include hadd in
theorem readDataCommon (h : Twins τ C P m b b') {data : List UInt8}
    (hR : R data.length b.data) :
    Sim (fun x y => x.1 = y.1 ∧ Twins τ C P m x.2 y.2) (b.readDataCommon data)
      (b'.readDataCommon data) := by
  unfold ReorderedBuffer.readDataCommon
  refine (hP.readFromHead h.data data hR).bind ?_
  rintro ⟨⟨read, out⟩, ring⟩ ⟨⟨_, _⟩, ring'⟩ ⟨heq, hring⟩
  cases heq
  refine ⟨rfl, hring, h.list, h.state, ?_, h.tailSeq⟩
  dsimp only
  rw [h.headSeq, hadd]

include hτ

omit hP in
/-- The loop of `add_head_to_seg_list`. -/
theorem addHeadLoop (fuel : Nat) : ∀ (n : Nat) {m : Pairing} {l l' : SegmentList}
    {seq toInsert : Nat}, Mirror τ C m l l' → C seq → C (seq + toInsert) →
    Sim (fun x y => ∃ m', Mirror τ C m' x y)
      (ReorderedBuffer.addHeadLoop fuel n l seq toInsert)
      (ReorderedBuffer.addHeadLoop fuel n l' (τ seq) toInsert) := by
  intro n
  induction n with
  | zero =>
    intro m l l' seq toInsert _ _ _
    exact trivial
  | succ n ih =>
    intro m l l' seq toInsert h hC hstop
    unfold ReorderedBuffer.addHeadLoop
    by_cases hmore : toInsert > 0
    · rw [if_pos hmore, if_pos hmore]
      have hle : min u16Max toInsert ≤ toInsert := Nat.min_le_right _ _
      dsimp only
      generalize min u16Max toInsert = insert at hle ⊢
      have hins := hτ.take hC hstop hle
      refine (h.insertSegment hτ fuel hC hins).bind ?_
      rintro ⟨_, l₁⟩ ⟨_, l₁'⟩ ⟨i, j, -, -, m₁, -, h₁, -, -⟩
      dsimp only
      rw [hτ.add]
      exact ih h₁ (hτ.stop hins) (hτ.drop hstop hle)
    · rw [if_neg hmore, if_neg hmore]
      exact ⟨m, h⟩

theorem addHeadToSegList (fuel : Nat) (h : Twins τ C P m b b') (hhead : C b.headSeq)
    (hunread : C (b.headSeq + b.available)) :
    Sim (fun x y => (∃ m', Twins τ C P m' x y) ∧ x.tailSeq = b.tailSeq)
      (b.addHeadToSegList fuel) (b'.addHeadToSegList fuel) := by
  unfold ReorderedBuffer.addHeadToSegList
  rw [h.headSeq, hP.available h.data]
  refine (addHeadLoop hτ fuel fuel h.list hhead hunread).bind ?_
  rintro l₁ l₁' ⟨m₁, h₁⟩
  exact ⟨⟨m₁, h.data, h₁, h.state, rfl, h.tailSeq⟩, rfl⟩

/-- The end of `out_of_order_insert`. -/
theorem advanceTail (fuel : Nat) (h : Twins τ C P m b b') {i j : Int} (hij : m.Linked i j)
    (written : Nat) :
    Sim (Answers τ C P) (b.advanceTail fuel (some i) written)
      (b'.advanceTail fuel (some j) written) := by
  unfold ReorderedBuffer.advanceTail
  dsimp only
  rw [← h.list.isHead_eq hij]
  refine (Sim.self (R := fun _ _ => True) (fun _ _ => trivial)).bind ?_
  rintro _ _ -
  refine (h.list.seg hij).bind ?_
  rintro s s' ⟨hss, -, -⟩
  rw [hss.stop hτ, h.tailSeq, hτ.wrapped]
  generalize wrappingSub 32 s.stop b.tailSeq = incr
  have hring := hP.seekTail h.data incr
  refine h.list.oneSegment.bind ?_
  rintro one _ rfl
  cases one with
  | true =>
    rw [if_pos rfl, if_pos rfl]
    refine (h.list.clear fuel).bind ?_
    intro l₁ l₁' h₁
    exact ⟨congrArg (InsertionResult.inserted _) (hP.available hring).symm, m, hring, h₁, rfl,
      h.headSeq, rfl⟩
  | false =>
    rw [if_neg Bool.false_ne_true, if_neg Bool.false_ne_true]
    exact ⟨congrArg (InsertionResult.inserted _) (hP.available hring).symm, m, hring, h.list,
      h.state, h.headSeq, rfl⟩

/-- `out_of_order_insert` at the tail. -/
theorem insertAtTail (fuel : Nat) (h : Twins τ C P m b b') {data : List UInt8}
    (htail : C b.tailSeq) (hstop : C (b.tailSeq + data.length)) :
    Sim (Answers τ C P) (b.insertAtTail fuel data) (b'.insertAtTail fuel data) := by
  unfold ReorderedBuffer.insertAtTail
  dsimp only
  refine (hP.writeAtTail h.data data).bind_ok ?_
  rintro ⟨written, ring⟩ ⟨_, ring'⟩ hw - ⟨rfl, hring⟩
  have hle : truncate 16 written ≤ data.length :=
    Nat.le_trans (Nat.mod_le _ _) (RingBuffer.writeAtTail_le hw)
  dsimp only
  rw [h.tailSeq]
  refine (h.list.insertSegment hτ fuel htail (hτ.take htail hstop hle)).bind ?_
  rintro ⟨_, l₁⟩ ⟨_, l₁'⟩ ⟨i, j, rfl, rfl, m₁, -, h₁, hij, -⟩
  rw [hτ.add]
  have h₂ : Twins τ C P m₁
      { b with data := ring, segmentList := l₁,
               tailSeq := wrappingAdd 32 b.tailSeq (truncate 32 written) }
      { b' with data := ring', segmentList := l₁',
                tailSeq := τ (wrappingAdd 32 b.tailSeq (truncate 32 written)) } :=
    ⟨hring, h₁, h.state, h.headSeq, rfl⟩
  exact h₂.advanceTail hP hτ fuel hij written

theorem outOfOrderInsert (fuel : Nat) (h : Twins τ C P m b b') {seq : Nat} {data : List UInt8}
    (hC : C seq) (hstop : C (seq + data.length)) (htail : C b.tailSeq) :
    Sim (Answers τ C P) (b.outOfOrderInsert fuel seq data)
      (b'.outOfOrderInsert fuel (τ seq) data) := by
  unfold ReorderedBuffer.outOfOrderInsert
  rw [h.tailSeq]
  by_cases hat : b.tailSeq = seq
  · rw [if_pos hat, if_pos (congrArg τ hat)]
    exact h.insertAtTail hP hτ fuel htail (hat ▸ hstop)
  rw [if_neg hat, if_neg (mt (hτ.eq_iff htail hC).mp hat)]
  by_cases hold : b.tailSeq ≥ seq
  · rw [if_pos hold, if_pos ((hτ.le_iff hC htail).mpr hold), hτ.checkedSub_eq htail hC,
      checkedSub_of_le hold, bind_ok, bind_ok]
    by_cases hover : data.length > b.tailSeq - seq
    · rw [if_pos hover, if_pos hover, sliceFrom_of_le (Nat.le_of_lt hover), bind_ok, bind_ok]
      refine h.insertAtTail hP hτ fuel htail ?_
      refine hτ.upTo htail hstop (by omega) ?_
      rw [List.length_drop]
      omega
    · rw [if_neg hover, if_neg hover, h.available hP]
      exact ⟨rfl, m, h⟩
  · rw [if_neg hold, if_neg (mt (hτ.le_iff hC htail).mp hold), hτ.checkedSub_eq hC htail,
      checkedSub_of_le (by omega), bind_ok, bind_ok]
    refine (hP.writeAtOffset h.data _ data).bind_ok ?_
    rintro ⟨written, ring⟩ ⟨_, ring'⟩ hw - ⟨rfl, hring⟩
    have hle : truncate 16 written ≤ data.length :=
      Nat.le_trans (Nat.mod_le _ _) (RingBuffer.writeAtOffsetFromTail_le hw)
    dsimp only
    refine (h.list.insertSegment hτ fuel hC (hτ.take hC hstop hle)).bind ?_
    rintro ⟨_, l₁⟩ ⟨_, l₁'⟩ ⟨i, j, -, -, m₁, -, h₁, -, -⟩
    have h₂ : Twins τ C P m₁ { b with data := ring, segmentList := l₁ }
        { b' with data := ring', segmentList := l₁', tailSeq := τ b.tailSeq } :=
      ⟨hring, h₁, h.state, h.headSeq, rfl⟩
    exact ⟨h₂.report hP written data.length, m₁, h₂⟩

theorem slowPathInsert (fuel : Nat) (h : Twins τ C P m b b') {seq : Nat} {data : List UInt8}
    (hw : CallWithin C b seq data.length) :
    Sim (Answers τ C P) (b.slowPathInsert fuel seq data)
      (b'.slowPathInsert fuel (τ seq) data) := by
  have hstop : C (wrappingAdd 32 seq (truncate 32 data.length)) :=
    hτ.stop (hτ.take hw.start hw.stop (Nat.mod_le _ _))
  unfold ReorderedBuffer.slowPathInsert
  rw [h.tailSeq]
  dsimp only
  rw [hτ.add]
  have hover : (τ b.tailSeq > τ seq ∧ τ (wrappingAdd 32 seq (truncate 32 data.length)) >
      τ b.tailSeq) ↔ b.tailSeq > seq ∧
        wrappingAdd 32 seq (truncate 32 data.length) > b.tailSeq :=
    and_congr (hτ.lt_iff hw.start hw.tail) (hτ.lt_iff hw.tail hstop)
  by_cases hpart : b.tailSeq > seq ∧ wrappingAdd 32 seq (truncate 32 data.length) > b.tailSeq
  · rw [if_pos hpart, if_pos (hover.mpr hpart), hτ.checkedSub_eq hw.tail hw.start,
      checkedSub_of_le (Nat.le_of_lt hpart.1), bind_ok, bind_ok]
    refine (Sim.self (R := Eq) (fun _ _ => rfl)).bind ?_
    rintro rest _ rfl
    exact h.fastPathInsert hP hτ.add rest
  rw [if_neg hpart, if_neg (mt hover.mp hpart)]
  by_cases hold : wrappingAdd 32 seq (truncate 32 data.length) < b.tailSeq
  · rw [if_pos hold, if_pos ((hτ.lt_iff hstop hw.tail).mpr hold), h.available hP]
    exact ⟨rfl, m, h⟩
  · rw [if_neg hold, if_neg (mt (hτ.lt_iff hstop hw.tail).mp hold)]
    have h₁ : Twins τ C P m { b with state := .connectedOutOfOrder }
        { b' with state := .connectedOutOfOrder, tailSeq := τ b.tailSeq } :=
      ⟨h.data, h.list, rfl, h.headSeq, rfl⟩
    refine (h₁.addHeadToSegList hP hτ fuel hw.head hw.unread).bind ?_
    rintro b₂ b₂' ⟨⟨m₂, h₂⟩, htail⟩
    refine h₂.outOfOrderInsert hP hτ fuel hw.start hw.stop ?_
    rw [htail]
    exact hw.tail

theorem addData (fuel : Nat) (h : Twins τ C P m b b') {seq : Nat} {data : List UInt8}
    (hw : CallWithin C b seq data.length) :
    Sim (Answers τ C P) (b.addData fuel seq data) (b'.addData fuel (τ seq) data) := by
  unfold ReorderedBuffer.addData
  rw [h.state]
  cases b.state with
  | connected =>
    dsimp only
    rw [h.tailSeq]
    by_cases hat : seq = b.tailSeq
    · rw [if_pos hat, if_pos (congrArg τ hat)]
      exact h.fastPathInsert hP hτ.add data
    · rw [if_neg hat, if_neg (mt (hτ.eq_iff hw.start hw.tail).mp hat)]
      exact h.slowPathInsert hP hτ fuel hw
  | connectedOutOfOrder => exact h.outOfOrderInsert hP hτ fuel hw.start hw.stop hw.tail
  | closed => exact rfl

theorem readData_outOfOrder (fuel : Nat) (h : Twins τ C P m b b')
    (hstate : b.state = .connectedOutOfOrder) {data : List UInt8} (hR : R data.length b.data)
    (hC : C b.headSeq) :
    Sim (Answers τ C P) (b.readData fuel data) (b'.readData fuel data) := by
  unfold ReorderedBuffer.readData
  rw [h.state, hstate]
  dsimp only
  refine (h.readDataCommon hP hτ.add hR).bind ?_
  rintro ⟨⟨read, out⟩, b₁⟩ ⟨⟨_, _⟩, b₁'⟩ ⟨heq, h₁⟩
  cases heq
  dsimp only
  rw [h.headSeq]
  refine (h₁.list.consumeHeadData hτ fuel hC).bind ?_
  rintro ⟨_, l₂⟩ ⟨_, l₂'⟩ ⟨-, h₂⟩
  exact ⟨rfl, m, { h₁ with list := h₂ }⟩

end Twins

/-! ## Between calls -/

/-- Two buffers that mirror each other, whatever will be compared. Before `seq` the
sequence numbers are left over and not read. -/
structure Mirrored (τ : Nat → Nat) (P : RingBuffer → RingBuffer → Prop)
    (b b' : ReorderedBuffer) : Prop where
  data : P b.data b'.data
  list : ∃ m, Mirror τ (fun _ => True) m b.segmentList b'.segmentList
  state : b'.state = b.state
  headSeq : b.state ≠ .closed → b'.headSeq = τ b.headSeq
  tailSeq : b.state ≠ .closed → b'.tailSeq = τ b.tailSeq

theorem Twins.mirrored (h : Twins τ C P m b b') : Mirrored τ P b b' :=
  ⟨h.data, ⟨m.whole, h.list.toWhole⟩, h.state, fun _ => h.headSeq, fun _ => h.tailSeq⟩

theorem Answers.mirrored {α : Type} {x y : α × ReorderedBuffer} (h : Answers τ C P x y) :
    x.1 = y.1 ∧ Mirrored τ P x.2 y.2 := by
  obtain ⟨heq, m, ht⟩ := h
  exact ⟨heq, ht.mirrored⟩

namespace Mirrored

variable (hP : RingPeers P R)
  (hadd : ∀ x n, wrappingAdd 32 (τ x) n = τ (wrappingAdd 32 x n))

theorem twins (h : Mirrored τ P b b') (hopen : b.state ≠ .closed) :
    ∃ m, Twins τ (fun _ => True) P m b b' := by
  obtain ⟨m, hm⟩ := h.list
  exact ⟨m, h.data, hm, h.state, h.headSeq hopen, h.tailSeq hopen⟩

/-- For a call, the segments to look at are those the list reaches. -/
theorem focus (h : Mirrored τ P b b') (hopen : b.state ≠ .closed)
    (hC : ∀ i s, b.segmentList.Reaches i → b.segmentList.get? i = some s →
      C s.seq ∧ C (s.seq + s.length)) : ∃ m, Twins τ C P m b b' := by
  obtain ⟨m, hm⟩ := h.list
  exact ⟨_, h.data, hm.reach hC, h.state, h.headSeq hopen, h.tailSeq hopen⟩

include hP hadd

theorem seq (h : Mirrored τ P b b') (seq : Nat) (data : List UInt8) :
    Sim (fun x y => x.1 = y.1 ∧ Mirrored τ P x.2 y.2) (b.seq seq data) (b'.seq (τ seq) data) := by
  unfold ReorderedBuffer.seq
  rw [h.state]
  cases b.state with
  | closed =>
    obtain ⟨m, hm⟩ := h.list
    have h₁ : Twins τ (fun _ => True) P m
        { b with state := .connected, headSeq := seq, tailSeq := seq }
        { b' with state := .connected, headSeq := τ seq, tailSeq := τ seq } :=
      ⟨h.data, hm, rfl, rfl, rfl⟩
    exact (h₁.fastPathInsert hP hadd data).mono (fun _ _ h => h.mirrored)
  | connected => exact rfl
  | connectedOutOfOrder => exact rfl

/-- `add_data` in order, without segments: nothing is compared. -/
theorem addData_inOrder (fuel : Nat) (h : Mirrored τ P b b') (hstate : b.state = .connected)
    (data : List UInt8) :
    Sim (fun x y => x.1 = y.1 ∧ Mirrored τ P x.2 y.2) (b.addData fuel b.tailSeq data)
      (b'.addData fuel (τ b.tailSeq) data) := by
  have hopen : b.state ≠ .closed := hstate ▸ nofun
  obtain ⟨m, hm⟩ := h.twins hopen
  unfold ReorderedBuffer.addData
  rw [h.state, hstate, h.tailSeq hopen]
  dsimp only
  rw [if_pos rfl, if_pos rfl]
  exact (hm.fastPathInsert hP hadd data).mono (fun _ _ h => h.mirrored)

theorem readData_inOrder (fuel : Nat) (h : Mirrored τ P b b')
    (hstate : b.state ≠ .connectedOutOfOrder) {data : List UInt8} (hR : R data.length b.data) :
    Sim (fun x y => x.1 = y.1 ∧ Mirrored τ P x.2 y.2) (b.readData fuel data)
      (b'.readData fuel data) := by
  unfold ReorderedBuffer.readData
  rw [h.state]
  cases hs : b.state with
  | connected =>
    obtain ⟨m, hm⟩ := h.twins (hs ▸ nofun)
    exact (hm.readDataCommon hP hadd hR).mono (fun _ _ h => ⟨h.1, h.2.mirrored⟩)
  | connectedOutOfOrder => exact absurd hs hstate
  | closed => exact ⟨rfl, h⟩

end Mirrored

/-! ## Calls -/

/-- The result of an insertion as the result of a call. -/
theorem sim_insertion {I : ReorderedBuffer → ReorderedBuffer → Prop}
    {x y : Outcome (InsertionResult × ReorderedBuffer)}
    (h : Sim (fun x y => x.1 = y.1 ∧ I x.2 y.2) x y) :
    Sim (fun x y => x.1 = y.1 ∧ I x.2 y.2)
      (x >>= fun (r, b) => .ok (BufferResult.insertion r, b))
      (y >>= fun (r, b) => .ok (BufferResult.insertion r, b)) := by
  refine h.bind ?_
  rintro ⟨r, b⟩ ⟨_, b'⟩ ⟨rfl, hI⟩
  exact ⟨rfl, hI⟩

/-- The result of a read as the result of a call. -/
theorem sim_read {I : ReorderedBuffer → ReorderedBuffer → Prop}
    {x y : Outcome ((Nat × List UInt8) × ReorderedBuffer)}
    (h : Sim (fun x y => x.1 = y.1 ∧ I x.2 y.2) x y) :
    Sim (fun x y => x.1 = y.1 ∧ I x.2 y.2)
      (x >>= fun ((n, data), b) => .ok (BufferResult.read n data, b))
      (y >>= fun ((n, data), b) => .ok (BufferResult.read n data, b)) := by
  refine h.bind ?_
  rintro ⟨⟨n, data⟩, b⟩ ⟨⟨_, _⟩, b'⟩ ⟨heq, hI⟩
  cases heq
  exact ⟨rfl, hI⟩

end

end NetBricks.State
