import NetBricks.Interface.Payload
import NetBricks.Lib.FixedWidth
import NetBricks.Lib.Machine
import NetBricks.Lib.Window

/-!
# The length fields of an mbuf

`pkt_headroom`, `pkt_tailroom` and the four functions of
`src/framework/src/native/zcsi/mbuf.rs` that add data to an mbuf or remove it, in the
machine types of the source: `data_off`, `data_len` and `buf_len` are `u16`s, `pkt_len` is
a `u32`, and the lengths asked for are `usize`s that are cut to 16 and 32 bits.

What the fields stand for is a window into the buffer: the data (`Shows`). Adding moves an
edge of the window outwards, removing moves one inwards, and a call that cannot is refused
with 0 (`Call.spec`). An mbuf of one segment whose data lies in the buffer shows such a
window, and its calls do what those of the window do, without an overflow, for as long as
they are made (`call_simulates`, `mbuf_bookkeeping`).

`Interface.MBuf` holds the same fields as natural numbers; its `add_data_end` and
`remove_data_beginning` do what the ones here do (`addDataEnd_holds`,
`removeDataBeginning_holds`), over any run of calls (`frames_in_step`).

Mirroring notes:

* Of the fields of `MBuf` those that the functions touch are modelled.
* Plain `+=` and `-=` are the checked operations: an overflow or underflow would panic.
-/

namespace NetBricks.Native

open Lib
open Lib.Outcome

/-- The fields of `MBuf` that say where its data is. -/
structure MBuf where
  dataOff : BitVec 16
  pktLen : BitVec 32
  dataLen : BitVec 16
  bufLen : BitVec 16
  deriving DecidableEq, Repr

namespace MBuf

/-- `pkt_headroom`. -/
def pktHeadroom (m : MBuf) : BitVec 64 := m.dataOff.setWidth 64

/-- `pkt_tailroom`. -/
def pktTailroom (m : MBuf) : Outcome (BitVec 64) := do
  let behind ← minus (m.bufLen.setWidth 64) (m.dataOff.setWidth 64)
  minus behind (m.dataLen.setWidth 64)

/-- `add_data_beginning`. -/
def addDataBeginning (m : MBuf) (len : BitVec 64) : Outcome (BitVec 64 × MBuf) :=
  if len > m.pktHeadroom then .ok (0, m)
  else do
    let dataOff ← minus m.dataOff (len.setWidth 16)
    let dataLen ← plus m.dataLen (len.setWidth 16)
    let pktLen ← plus m.pktLen (len.setWidth 32)
    .ok (len, { m with dataOff := dataOff, dataLen := dataLen, pktLen := pktLen })

/-- `add_data_end`. -/
def addDataEnd (m : MBuf) (len : BitVec 64) : Outcome (BitVec 64 × MBuf) := do
  let tailroom ← m.pktTailroom
  if len > tailroom then .ok (0, m)
  else
    let dataLen ← plus m.dataLen (len.setWidth 16)
    let pktLen ← plus m.pktLen (len.setWidth 32)
    .ok (len, { m with dataLen := dataLen, pktLen := pktLen })

/-- `remove_data_beginning`. -/
def removeDataBeginning (m : MBuf) (len : BitVec 64) : Outcome (BitVec 64 × MBuf) :=
  if len > m.dataLen.setWidth 64 then .ok (0, m)
  else do
    let dataOff ← plus m.dataOff (len.setWidth 16)
    let dataLen ← minus m.dataLen (len.setWidth 16)
    let pktLen ← minus m.pktLen (len.setWidth 32)
    .ok (len, { m with dataOff := dataOff, dataLen := dataLen, pktLen := pktLen })

/-- `remove_data_end`. -/
def removeDataEnd (m : MBuf) (len : BitVec 64) : Outcome (BitVec 64 × MBuf) :=
  if len > m.dataLen.setWidth 64 then .ok (0, m)
  else do
    let dataLen ← minus m.dataLen (len.setWidth 16)
    let pktLen ← minus m.pktLen (len.setWidth 32)
    .ok (len, { m with dataLen := dataLen, pktLen := pktLen })

/-- An mbuf of one segment with its data in the buffer: the length of the packet is that of the
segment, and the calls keep both. -/
structure Single (m : MBuf) : Prop where
  inside : m.dataOff.toNat + m.dataLen.toNat ≤ m.bufLen.toNat
  whole : m.pktLen.toNat = m.dataLen.toNat

end MBuf

/-- The calls that move an edge of the data. -/
inductive Call where
  | addDataBeginning (len : BitVec 64)
  | addDataEnd (len : BitVec 64)
  | removeDataBeginning (len : BitVec 64)
  | removeDataEnd (len : BitVec 64)
  deriving DecidableEq, Repr

namespace Call

/-- The length the call asks for. -/
def len : Call → BitVec 64
  | addDataBeginning len | addDataEnd len | removeDataBeginning len | removeDataEnd len => len

/-- What the call is for: an edge of the window is moved, if it can be. -/
def move (v : Window) : Call → Option Window
  | addDataBeginning len => v.widen len.toNat .front
  | addDataEnd len => v.widen len.toNat .back
  | removeDataBeginning len => v.narrow len.toNat .front
  | removeDataEnd len => v.narrow len.toNat .back

/-- The call on a window: a move that is refused returns 0. -/
def spec (v : Window) (c : Call) : BitVec 64 × Window :=
  match c.move v with
  | some v' => (c.len, v')
  | none => (0, v)

end Call

/-- One call on an mbuf. -/
def MBuf.call (m : MBuf) : Call → Outcome (BitVec 64 × MBuf)
  | .addDataBeginning len => m.addDataBeginning len
  | .addDataEnd len => m.addDataEnd len
  | .removeDataBeginning len => m.removeDataBeginning len
  | .removeDataEnd len => m.removeDataEnd len

/-! ## Windows and fields -/

/-- The fields show the window: where the data starts and how long it is, twice, in a buffer of
its capacity. -/
structure Shows (m : MBuf) (v : Window) : Prop where
  bufLen_eq : m.bufLen.toNat = v.capacity
  dataOff_eq : m.dataOff.toNat = v.start
  dataLen_eq : m.dataLen.toNat = v.stop - v.start
  pktLen_eq : m.pktLen.toNat = v.stop - v.start

theorem MBuf.Single.shows {m : MBuf} (h : m.Single) : ∃ v, Shows m v := by
  refine ⟨{ capacity := m.bufLen.toNat, start := m.dataOff.toNat,
            stop := m.dataOff.toNat + m.dataLen.toNat, start_le := Nat.le_add_right _ _,
            stop_le := h.inside }, rfl, rfl, ?_, ?_⟩
  · exact (Nat.add_sub_cancel_left _ _).symm
  · exact h.whole.trans (Nat.add_sub_cancel_left _ _).symm

namespace Shows

variable {m m' : MBuf} {v v' : Window}

theorem single (h : Shows m v) : m.Single := by
  have hstart := v.start_le
  have hstop := v.stop_le
  refine ⟨?_, h.pktLen_eq.trans h.dataLen_eq.symm⟩
  rw [h.dataOff_eq, h.dataLen_eq, h.bufLen_eq]
  omega

/-- A window is shown by one mbuf only. -/
theorem unique (h : Shows m v) (h' : Shows m' v) : m = m' := by
  cases m
  cases m'
  congr 1 <;> apply BitVec.eq_of_toNat_eq
  · exact h.dataOff_eq.trans h'.dataOff_eq.symm
  · exact h.pktLen_eq.trans h'.pktLen_eq.symm
  · exact h.dataLen_eq.trans h'.dataLen_eq.symm
  · exact h.bufLen_eq.trans h'.bufLen_eq.symm

/-- The buffer is no longer than a `u16` says. -/
theorem capacity_lt (h : Shows m v) : v.capacity < 2 ^ 16 := by
  rw [← h.bufLen_eq]
  exact m.bufLen.isLt

theorem pktTailroom_eq (h : Shows m v) :
    ∃ room, m.pktTailroom = .ok room ∧ room.toNat = v.capacity - v.stop := by
  have hstart := v.start_le
  have hstop := v.stop_le
  have hbuf : (m.bufLen.setWidth 64).toNat = v.capacity :=
    (BitVec.toNat_setWidth_of_le (by decide)).trans h.bufLen_eq
  have hoff : (m.dataOff.setWidth 64).toNat = v.start :=
    (BitVec.toNat_setWidth_of_le (by decide)).trans h.dataOff_eq
  have hlen : (m.dataLen.setWidth 64).toNat = v.stop - v.start :=
    (BitVec.toNat_setWidth_of_le (by decide)).trans h.dataLen_eq
  obtain ⟨behind, hbehind, hbehindv⟩ :=
    minus_of_le (a := m.bufLen.setWidth 64) (b := m.dataOff.setWidth 64) (by omega)
  obtain ⟨room, hroom, hroomv⟩ :=
    minus_of_le (a := behind) (b := m.dataLen.setWidth 64) (by omega)
  refine ⟨room, ?_, by omega⟩
  rw [MBuf.pktTailroom, hbehind, bind_ok, hroom]

/-! ## What each call does -/

/-- A length that the buffer has room for is not cut by the casts. -/
theorem casts (h : Shows m v) (len : BitVec 64) (hlen : len.toNat ≤ v.capacity) :
    (len.setWidth 16).toNat = len.toNat ∧ (len.setWidth 32).toNat = len.toNat := by
  have hcap := h.capacity_lt
  exact ⟨toNat_setWidth_of_lt (by omega), toNat_setWidth_of_lt (by omega)⟩

theorem lengths_plus (h : Shows m v) (len : BitVec 64)
    (hlen : v.stop - v.start + len.toNat ≤ v.capacity) :
    ∃ dataLen pktLen, plus m.dataLen (len.setWidth 16) = .ok dataLen ∧
      plus m.pktLen (len.setWidth 32) = .ok pktLen ∧
      dataLen.toNat = v.stop - v.start + len.toNat ∧
      pktLen.toNat = v.stop - v.start + len.toNat := by
  have hcap := h.capacity_lt
  obtain ⟨h16, h32⟩ := h.casts len (by omega)
  have hdata := h.dataLen_eq
  have hpkt := h.pktLen_eq
  obtain ⟨dataLen, hd, hdv⟩ := plus_of_lt (a := m.dataLen) (b := len.setWidth 16) (by omega)
  obtain ⟨pktLen, hp, hpv⟩ := plus_of_lt (a := m.pktLen) (b := len.setWidth 32) (by omega)
  exact ⟨dataLen, pktLen, hd, hp, by omega, by omega⟩

theorem lengths_minus (h : Shows m v) (len : BitVec 64) (hlen : len.toNat ≤ v.stop - v.start) :
    ∃ dataLen pktLen, minus m.dataLen (len.setWidth 16) = .ok dataLen ∧
      minus m.pktLen (len.setWidth 32) = .ok pktLen ∧
      dataLen.toNat = v.stop - v.start - len.toNat ∧
      pktLen.toNat = v.stop - v.start - len.toNat := by
  have hstop := v.stop_le
  obtain ⟨h16, h32⟩ := h.casts len (by omega)
  have hdata := h.dataLen_eq
  have hpkt := h.pktLen_eq
  obtain ⟨dataLen, hd, hdv⟩ := minus_of_le (a := m.dataLen) (b := len.setWidth 16) (by omega)
  obtain ⟨pktLen, hp, hpv⟩ := minus_of_le (a := m.pktLen) (b := len.setWidth 32) (by omega)
  exact ⟨dataLen, pktLen, hd, hp, by omega, by omega⟩

/-- The guard of the two calls that remove data. -/
theorem gt_dataLen (h : Shows m v) (len : BitVec 64) :
    len > m.dataLen.setWidth 64 ↔ v.stop - v.start < len.toNat := by
  rw [gt_iff_lt, BitVec.lt_def, BitVec.toNat_setWidth_of_le (by decide), h.dataLen_eq]

theorem addDataBeginning (h : Shows m v) (len : BitVec 64) :
    ∃ m', m.addDataBeginning len = .ok ((Call.spec v (.addDataBeginning len)).1, m') ∧
      Shows m' (Call.spec v (.addDataBeginning len)).2 := by
  have hguard : len > m.pktHeadroom ↔ v.start < len.toNat := by
    rw [MBuf.pktHeadroom, gt_iff_lt, BitVec.lt_def, BitVec.toNat_setWidth_of_le (by decide),
      h.dataOff_eq]
  unfold MBuf.addDataBeginning Call.spec
  simp only [Call.move, Window.widen]
  by_cases hroom : len.toNat ≤ v.start
  · have hstart := v.start_le
    have hstop := v.stop_le
    obtain ⟨h16, -⟩ := h.casts len (by omega)
    have hoff := h.dataOff_eq
    obtain ⟨dataOff, ho, hov⟩ := minus_of_le (a := m.dataOff) (b := len.setWidth 16) (by omega)
    obtain ⟨dataLen, pktLen, hd, hp, hdv, hpv⟩ := h.lengths_plus len (by omega)
    rw [if_neg (mt hguard.mp (Nat.not_lt.mpr hroom)), if_pos hroom, ho, bind_ok, hd, bind_ok, hp,
      bind_ok]
    exact ⟨_, rfl, h.bufLen_eq, by dsimp only; omega, by dsimp only; omega, by dsimp only; omega⟩
  · rw [if_pos (hguard.mpr (Nat.lt_of_not_le hroom)), if_neg hroom]
    exact ⟨m, rfl, h⟩

theorem addDataEnd (h : Shows m v) (len : BitVec 64) :
    ∃ m', m.addDataEnd len = .ok ((Call.spec v (.addDataEnd len)).1, m') ∧
      Shows m' (Call.spec v (.addDataEnd len)).2 := by
  obtain ⟨room, hcall, hroomv⟩ := h.pktTailroom_eq
  have hguard : len > room ↔ v.capacity - v.stop < len.toNat := by
    rw [gt_iff_lt, BitVec.lt_def, hroomv]
  unfold MBuf.addDataEnd Call.spec
  simp only [Call.move, Window.widen]
  rw [hcall, bind_ok]
  by_cases hroom : len.toNat ≤ v.capacity - v.stop
  · have hstart := v.start_le
    have hstop := v.stop_le
    obtain ⟨dataLen, pktLen, hd, hp, hdv, hpv⟩ := h.lengths_plus len (by omega)
    rw [if_neg (mt hguard.mp (Nat.not_lt.mpr hroom)), dif_pos hroom, hd, bind_ok, hp, bind_ok]
    exact ⟨_, rfl, h.bufLen_eq, h.dataOff_eq, by dsimp only; omega, by dsimp only; omega⟩
  · rw [if_pos (hguard.mpr (Nat.lt_of_not_le hroom)), dif_neg hroom]
    exact ⟨m, rfl, h⟩

theorem removeDataBeginning (h : Shows m v) (len : BitVec 64) :
    ∃ m', m.removeDataBeginning len = .ok ((Call.spec v (.removeDataBeginning len)).1, m') ∧
      Shows m' (Call.spec v (.removeDataBeginning len)).2 := by
  have hguard := h.gt_dataLen len
  unfold MBuf.removeDataBeginning Call.spec
  simp only [Call.move, Window.narrow]
  by_cases hroom : len.toNat ≤ v.stop - v.start
  · have hstart := v.start_le
    have hstop := v.stop_le
    have hcap := h.capacity_lt
    obtain ⟨h16, -⟩ := h.casts len (by omega)
    have hoff := h.dataOff_eq
    obtain ⟨dataOff, ho, hov⟩ := plus_of_lt (a := m.dataOff) (b := len.setWidth 16) (by omega)
    obtain ⟨dataLen, pktLen, hd, hp, hdv, hpv⟩ := h.lengths_minus len hroom
    rw [if_neg (mt hguard.mp (Nat.not_lt.mpr hroom)), dif_pos hroom, ho, bind_ok, hd, bind_ok, hp,
      bind_ok]
    exact ⟨_, rfl, h.bufLen_eq, by dsimp only; omega, by dsimp only; omega, by dsimp only; omega⟩
  · rw [if_pos (hguard.mpr (Nat.lt_of_not_le hroom)), dif_neg hroom]
    exact ⟨m, rfl, h⟩

theorem removeDataEnd (h : Shows m v) (len : BitVec 64) :
    ∃ m', m.removeDataEnd len = .ok ((Call.spec v (.removeDataEnd len)).1, m') ∧
      Shows m' (Call.spec v (.removeDataEnd len)).2 := by
  have hguard := h.gt_dataLen len
  unfold MBuf.removeDataEnd Call.spec
  simp only [Call.move, Window.narrow]
  by_cases hroom : len.toNat ≤ v.stop - v.start
  · obtain ⟨dataLen, pktLen, hd, hp, hdv, hpv⟩ := h.lengths_minus len hroom
    rw [if_neg (mt hguard.mp (Nat.not_lt.mpr hroom)), dif_pos hroom, hd, bind_ok, hp, bind_ok]
    exact ⟨_, rfl, h.bufLen_eq, h.dataOff_eq, by dsimp only; omega, by dsimp only; omega⟩
  · rw [if_pos (hguard.mpr (Nat.lt_of_not_le hroom)), dif_neg hroom]
    exact ⟨m, rfl, h⟩

end Shows

/-- A call on an mbuf is the call on the window it shows. -/
theorem call_simulates {m : MBuf} {v : Window} (h : Shows m v) (c : Call) :
    ∃ m', m.call c = .ok ((Call.spec v c).1, m') ∧ Shows m' (Call.spec v c).2 := by
  cases c with
  | addDataBeginning len => exact h.addDataBeginning len
  | addDataEnd len => exact h.addDataEnd len
  | removeDataBeginning len => exact h.removeDataBeginning len
  | removeDataEnd len => exact h.removeDataEnd len

/-- Any sequence of calls on an mbuf is the sequence on the window it shows. -/
theorem runCalls_simulates {m : MBuf} {v : Window} (h : Shows m v) (calls : List Call) :
    ∃ m', runOps MBuf.call m calls = .ok ((runSpec Call.spec v calls).1, m') ∧
      Shows m' (runSpec Call.spec v calls).2 := by
  have hlegal : LegalRun Call.spec (fun _ _ => True) v calls :=
    legalRun_of_forall calls v (fun _ _ => trivial)
  exact runOps_simulates (R := Shows) (fun m v c hs _ => call_simulates hs c) calls h hlegal

/-! ## Edges of the data -/

namespace MBuf

/-- Where the data starts in the buffer. -/
def start (m : MBuf) : Nat := m.dataOff.toNat

/-- Where the data ends in the buffer. -/
def stop (m : MBuf) : Nat := m.dataOff.toNat + m.dataLen.toNat

end MBuf

/-- The call moved its edge of the data by its length and the other edge stayed. -/
def Call.Moved (c : Call) (m m' : MBuf) : Prop :=
  m'.bufLen = m.bufLen ∧
  match c with
  | .addDataBeginning len => m'.start + len.toNat = m.start ∧ m'.stop = m.stop
  | .addDataEnd len => m'.start = m.start ∧ m'.stop = m.stop + len.toNat
  | .removeDataBeginning len => m'.start = m.start + len.toNat ∧ m'.stop = m.stop
  | .removeDataEnd len => m'.start = m.start ∧ m'.stop + len.toNat = m.stop

theorem Shows.start_eq {m : MBuf} {v : Window} (h : Shows m v) : m.start = v.start := h.dataOff_eq

theorem Shows.stop_eq {m : MBuf} {v : Window} (h : Shows m v) : m.stop = v.stop := by
  rw [MBuf.stop, h.dataOff_eq, h.dataLen_eq, Nat.add_sub_cancel' v.start_le]

theorem Shows.bufLen_congr {m m' : MBuf} {v v' : Window} (h : Shows m v) (h' : Shows m' v')
    (hcap : v'.capacity = v.capacity) : m'.bufLen = m.bufLen :=
  BitVec.eq_of_toNat_eq (by rw [h.bufLen_eq, h'.bufLen_eq, hcap])

/-- A move of the window that is shown is a move of the data. -/
theorem Shows.moved {m m' : MBuf} {v v' : Window} {c : Call} (h : Shows m v)
    (hc : c.move v = some v') (h' : Shows m' v') : c.Moved m m' := by
  have hle := v.start_le
  unfold Call.Moved
  rw [h.start_eq, h.stop_eq, h'.start_eq, h'.stop_eq]
  cases c with
  | addDataBeginning len =>
    simp only [Call.move, Window.widen, Option.ite_none_right_eq_some, Option.some.injEq] at hc
    obtain ⟨hroom, rfl⟩ := hc
    exact ⟨h.bufLen_congr h' rfl, Nat.sub_add_cancel hroom, rfl⟩
  | addDataEnd len =>
    simp only [Call.move, Window.widen, Option.dite_none_right_eq_some, Option.some.injEq] at hc
    obtain ⟨hroom, rfl⟩ := hc
    exact ⟨h.bufLen_congr h' rfl, rfl, rfl⟩
  | removeDataBeginning len =>
    simp only [Call.move, Window.narrow, Option.dite_none_right_eq_some, Option.some.injEq] at hc
    obtain ⟨hroom, rfl⟩ := hc
    exact ⟨h.bufLen_congr h' rfl, rfl, rfl⟩
  | removeDataEnd len =>
    simp only [Call.move, Window.narrow, Option.dite_none_right_eq_some, Option.some.injEq] at hc
    obtain ⟨hroom, rfl⟩ := hc
    exact ⟨h.bufLen_congr h' rfl, rfl, Nat.sub_add_cancel (by omega)⟩

/-- A call returns its length and moves its edge, or returns 0 and changes nothing. -/
theorem Shows.call_cases {m : MBuf} {v : Window} (h : Shows m v) (c : Call) :
    ∃ r m', m.call c = .ok (r, m') ∧
      ((∃ v', c.move v = some v' ∧ r = c.len ∧ Shows m' v') ∨
        c.move v = none ∧ r = 0 ∧ m' = m) := by
  obtain ⟨m', hcall, hshows⟩ := call_simulates h c
  refine ⟨_, m', hcall, ?_⟩
  unfold Call.spec at hshows ⊢
  cases hmove : c.move v with
  | some v' =>
    rw [hmove] at hshows
    exact .inl ⟨v', rfl, rfl, hshows⟩
  | none =>
    rw [hmove] at hshows
    exact .inr ⟨rfl, rfl, hshows.unique h⟩

/-- A move by nothing is never refused. -/
theorem Call.move_of_len_zero {c : Call} (h : c.len = 0) (v : Window) : c.move v ≠ none := by
  cases c <;> cases h <;> simp [Call.move, Window.widen, Window.narrow]

/-- A call that returned its length has moved its edge. -/
theorem Shows.move_of_call {m m' : MBuf} {v : Window} {c : Call} (h : Shows m v)
    (hc : m.call c = .ok (c.len, m')) : ∃ v', c.move v = some v' ∧ Shows m' v' := by
  obtain ⟨r, m₁, hcall, hor⟩ := h.call_cases c
  cases hcall.symm.trans hc
  rcases hor with ⟨v', hmove, -, hshows⟩ | ⟨hmove, hzero, -⟩
  · exact ⟨v', hmove, hshows⟩
  · exact absurd hmove (Call.move_of_len_zero hzero v)

/-- A call whose move leads to a window that an mbuf shows returns that mbuf. -/
theorem Shows.call_of_move {m m' : MBuf} {v v' : Window} {c : Call} (h : Shows m v)
    (hmove : c.move v = some v') (h' : Shows m' v') : m.call c = .ok (c.len, m') := by
  obtain ⟨m₁, hcall, hshows⟩ := call_simulates h c
  unfold Call.spec at hcall hshows
  rw [hmove] at hcall hshows
  rw [hcall, hshows.unique h']

/-- For an mbuf of one segment with its data in the buffer, and any sequence of calls: no
call overflows, underflows or panics, and the data stays in the buffer with both lengths
equal. In every state on the way the tailroom is defined, a call moves its edge by exactly
its length and returns that or returns 0 and changes nothing, and what was added at an end
is taken away again by removing the same length there. -/
theorem mbuf_bookkeeping {m : MBuf} (h : m.Single) (calls : List Call) :
    ∃ rs m', runOps MBuf.call m calls = .ok (rs, m') ∧ m'.Single ∧
      (∃ room, m'.pktTailroom = .ok room ∧ room.toNat = m'.bufLen.toNat - m'.stop) ∧
      (∀ c : Call, ∃ r m'', m'.call c = .ok (r, m'') ∧
        (r = c.len ∧ c.Moved m' m'' ∧ m''.Single ∨ r = 0 ∧ m'' = m')) ∧
      (∀ len m'', m'.addDataBeginning len = .ok (len, m'') →
        m''.removeDataBeginning len = .ok (len, m')) ∧
      ∀ len m'', m'.addDataEnd len = .ok (len, m'') → m''.removeDataEnd len = .ok (len, m') := by
  obtain ⟨v, hv⟩ := h.shows
  obtain ⟨m', hrun, hshows⟩ := runCalls_simulates hv calls
  refine ⟨_, m', hrun, hshows.single, ?_, ?_, ?_, ?_⟩
  · obtain ⟨room, hroom, heq⟩ := hshows.pktTailroom_eq
    exact ⟨room, hroom, by rw [heq, hshows.bufLen_eq, hshows.stop_eq]⟩
  · intro c
    obtain ⟨r, m'', hcall, hor⟩ := hshows.call_cases c
    refine ⟨r, m'', hcall, ?_⟩
    rcases hor with ⟨v', hmove, hr, hshows'⟩ | ⟨-, hr, hm⟩
    · exact .inl ⟨hr, hshows.moved hmove hshows', hshows'.single⟩
    · exact .inr ⟨hr, hm⟩
  · intro len m'' hadd
    obtain ⟨v', hmove, hshows'⟩ := hshows.move_of_call (c := .addDataBeginning len) hadd
    have hback : (Call.removeDataBeginning len).move v' = some _ :=
      Window.narrow_of_widen (e := .front) hmove
    exact hshows'.call_of_move hback hshows
  · intro len m'' hadd
    obtain ⟨v', hmove, hshows'⟩ := hshows.move_of_call (c := .addDataEnd len) hadd
    have hback : (Call.removeDataEnd len).move v' = some _ :=
      Window.narrow_of_widen (e := .back) hmove
    exact hshows'.call_of_move hback hshows

/-- 60 bytes of data behind 128 of headroom, in a buffer of 2176. -/
theorem mbuf_bookkeeping_sixty :
    ∃ rs m', runOps MBuf.call ⟨128#16, 60#32, 60#16, 2176#16⟩
        [.addDataBeginning 14#64, .removeDataEnd 70000#64] = .ok (rs, m') ∧ m'.Single := by
  obtain ⟨rs, m', hrun, hsingle, -⟩ := mbuf_bookkeeping (m := ⟨128#16, 60#32, 60#16, 2176#16⟩)
    ⟨by decide, by decide⟩ [.addDataBeginning 14#64, .removeDataEnd 70000#64]
  exact ⟨rs, m', hrun, hsingle⟩

/-! ## The fields as natural numbers -/

/-- The mbuf of `Interface` has the fields of this one. -/
structure Holds (b : Interface.MBuf) (m : MBuf) : Prop where
  bufLen_eq : b.buf.length = m.bufLen.toNat
  dataOff_eq : b.dataOff = m.dataOff.toNat
  dataLen_eq : b.dataLen = m.dataLen.toNat
  pktLen_eq : b.pktLen = m.pktLen.toNat

theorem Holds.window {b : Interface.MBuf} {m : MBuf} {v : Window} (h : Holds b m)
    (hv : Shows m v) : b.buf.length = v.capacity ∧ b.dataOff = v.start ∧
      b.dataLen = v.stop - v.start ∧ b.pktLen = v.stop - v.start :=
  ⟨h.bufLen_eq.trans hv.bufLen_eq, h.dataOff_eq.trans hv.dataOff_eq,
    h.dataLen_eq.trans hv.dataLen_eq, h.pktLen_eq.trans hv.pktLen_eq⟩

theorem addDataEnd_holds {b : Interface.MBuf} {m : MBuf} (h : Holds b m) (hm : m.Single)
    (len : BitVec 64) :
    ∃ r b' m', b.addDataEnd len.toNat = .ok (r.toNat, b') ∧ m.addDataEnd len = .ok (r, m') ∧
      Holds b' m' := by
  obtain ⟨v, hv⟩ := hm.shows
  obtain ⟨hbuf, hoff, hlen, hpkt⟩ := h.window hv
  have hstart := v.start_le
  have hstop := v.stop_le
  obtain ⟨r, m', hcall, hor⟩ := hv.call_cases (.addDataEnd len)
  rcases hor with ⟨v', hmove, hr, hv'⟩ | ⟨hmove, rfl, rfl⟩
  · simp only [Call.move, Window.widen, Option.dite_none_right_eq_some, Option.some.injEq] at hmove
    obtain ⟨hroom, rfl⟩ := hmove
    rw [hr] at hcall
    have hfits : b.dataOff + b.dataLen + len.toNat ≤ b.buf.length := by omega
    refine ⟨len, _, m', Interface.MBuf.addDataEnd_of_room hfits, hcall, ?_, ?_, ?_, ?_⟩
    · exact hbuf.trans hv'.bufLen_eq.symm
    · exact hoff.trans hv'.dataOff_eq.symm
    · rw [hv'.dataLen_eq]
      show b.dataLen + len.toNat = v.stop + len.toNat - v.start
      omega
    · rw [hv'.pktLen_eq]
      show b.pktLen + len.toNat = v.stop + len.toNat - v.start
      omega
  · simp only [Call.move, Window.widen, dite_eq_right_iff, reduceCtorEq, imp_false] at hmove
    refine ⟨0, b, m', ?_, hcall, h⟩
    rw [Interface.MBuf.addDataEnd, Interface.MBuf.pktTailroom, checkedSub_of_le (by omega), bind_ok,
      checkedSub_of_le (by omega), bind_ok, if_pos (by omega)]
    rfl

theorem removeDataBeginning_holds {b : Interface.MBuf} {m : MBuf} (h : Holds b m) (hm : m.Single)
    (len : BitVec 64) :
    ∃ r b' m', b.removeDataBeginning len.toNat = .ok (r.toNat, b') ∧
      m.removeDataBeginning len = .ok (r, m') ∧ Holds b' m' := by
  obtain ⟨v, hv⟩ := hm.shows
  obtain ⟨hbuf, hoff, hlen, hpkt⟩ := h.window hv
  have hstart := v.start_le
  obtain ⟨r, m', hcall, hor⟩ := hv.call_cases (.removeDataBeginning len)
  rcases hor with ⟨v', hmove, hr, hv'⟩ | ⟨hmove, rfl, rfl⟩
  · simp only [Call.move, Window.narrow, Option.dite_none_right_eq_some, Option.some.injEq] at hmove
    obtain ⟨hroom, rfl⟩ := hmove
    rw [hr] at hcall
    refine ⟨len, b.advance len.toNat, m', ?_, hcall, hbuf.trans hv'.bufLen_eq.symm, ?_, ?_, ?_⟩
    · rw [Interface.MBuf.removeDataBeginning, if_neg (by omega), checkedSub_of_le (by omega)]
      rfl
    · rw [hv'.dataOff_eq]
      show b.dataOff + len.toNat = v.start + len.toNat
      rw [hoff]
    · rw [hv'.dataLen_eq]
      show b.dataLen - len.toNat = v.stop - (v.start + len.toNat)
      omega
    · rw [hv'.pktLen_eq]
      show b.pktLen - len.toNat = v.stop - (v.start + len.toNat)
      omega
  · simp only [Call.move, Window.narrow, dite_eq_right_iff, reduceCtorEq, imp_false] at hmove
    refine ⟨0, b, m', ?_, hcall, h⟩
    rw [Interface.MBuf.removeDataBeginning, if_pos (by omega)]
    rfl

/-- The calls of the packet layer that both have. -/
inductive FrameCall where
  | addDataEnd (len : BitVec 64)
  | removeDataBeginning (len : BitVec 64)
  deriving DecidableEq, Repr

namespace FrameCall

def toCall : FrameCall → Call
  | .addDataEnd len => .addDataEnd len
  | .removeDataBeginning len => .removeDataBeginning len

/-- A call on the natural numbers. -/
def run (b : Interface.MBuf) : FrameCall → Outcome (Nat × Interface.MBuf)
  | .addDataEnd len => b.addDataEnd len.toNat
  | .removeDataBeginning len => b.removeDataBeginning len.toNat

theorem run_holds {b : Interface.MBuf} {m : MBuf} (h : Holds b m) (hm : m.Single)
    (c : FrameCall) : ∃ r b' m', run b c = .ok (r.toNat, b') ∧ m.call c.toCall = .ok (r, m') ∧
      Holds b' m' ∧ m'.Single := by
  obtain ⟨r, b', m', hrun, hcall, hholds⟩ : ∃ r b' m', run b c = .ok (r.toNat, b') ∧
      m.call c.toCall = .ok (r, m') ∧ Holds b' m' := by
    cases c with
    | addDataEnd len => exact addDataEnd_holds h hm len
    | removeDataBeginning len => exact removeDataBeginning_holds h hm len
  obtain ⟨v, hv⟩ := hm.shows
  obtain ⟨m'', hcall', hv'⟩ := call_simulates hv c.toCall
  simp only [hcall, Outcome.ok.injEq, Prod.mk.injEq] at hcall'
  obtain ⟨-, rfl⟩ := hcall'
  exact ⟨r, b', m', hrun, hcall, hholds, hv'.single⟩

end FrameCall

/-- Natural numbers and machine words stay in step over any calls: the packet layer may reason
about the first. -/
theorem frames_in_step (calls : List FrameCall) : ∀ {b : Interface.MBuf} {m : MBuf}, Holds b m →
    m.Single → ∃ rs b' m', runOps FrameCall.run b calls = .ok (rs.map BitVec.toNat, b') ∧
      runOps MBuf.call m (calls.map FrameCall.toCall) = .ok (rs, m') ∧ Holds b' m' ∧
      m'.Single := by
  induction calls with
  | nil => exact fun {b m} h hm => ⟨[], b, m, rfl, rfl, h, hm⟩
  | cons c calls ih =>
    intro b m h hm
    obtain ⟨r, b₁, m₁, hrun, hcall, h₁, hm₁⟩ := c.run_holds h hm
    obtain ⟨rs, b₂, m₂, hruns, hcalls, h₂, hm₂⟩ := ih h₁ hm₁
    refine ⟨r :: rs, b₂, m₂, ?_, ?_, h₂, hm₂⟩
    · simp only [runOps, hrun, bind_ok, hruns, List.map_cons]
    · simp only [List.map_cons, runOps, hcall, bind_ok, hcalls]

theorem frames_in_step_sixty :
    ∃ rs b' m', runOps FrameCall.run ⟨0, List.replicate 256 0, 128, 60, 60, []⟩
        [.addDataEnd 40#64, .removeDataBeginning 14#64] = .ok (rs.map BitVec.toNat, b') ∧
      runOps MBuf.call ⟨128#16, 60#32, 60#16, 256#16⟩
        [.addDataEnd 40#64, .removeDataBeginning 14#64] = .ok (rs, m') ∧
      Holds b' m' ∧ m'.Single :=
  frames_in_step [.addDataEnd 40#64, .removeDataBeginning 14#64]
    ⟨List.length_replicate, rfl, rfl, rfl⟩ ⟨by decide, by decide⟩

end NetBricks.Native
