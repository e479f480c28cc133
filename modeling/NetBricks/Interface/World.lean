import NetBricks.Interface.Packet

/-!
# What is around a pipeline

The memory the mbufs are in, the state the closures of a pipeline capture, and
the ports. A port is the list of its answers to the calls still to come, so a
statement for every world is one for every behaviour of the ports. `recv` fills
at most the slice it is given and `send` takes at most the slice it is given:
that much is the contract of `PacketRx` and `PacketTx`, and the rest is open.

The lists `received`, `offered`, `sent`, `dropped` and `freed` record what
happened to which mbuf. No code reads them.
-/

namespace NetBricks.Interface

open Lib

/-- The outside of a pipeline whose closures share the state `σ`. -/
structure World (σ : Type) where
  /-- What the closures of the pipeline have captured. -/
  state : σ
  mem : Mem
  /-- The answers of each receive queue: the mbufs and their contents. -/
  rx : Nat → List (Except ErrorKind (List (Ptr × MBuf)))
  /-- The answers of the port packets are sent to: how many it takes. -/
  tx : List (Except ErrorKind Nat)
  /-- The mbufs obtained from `recv`. -/
  received : List Ptr := []
  /-- The slices passed to `send`. -/
  offered : List (List Ptr) := []
  /-- The mbufs the port has taken. -/
  sent : List Ptr := []
  /-- The mbufs freed by `drop_packets`. -/
  dropped : List Ptr := []
  /-- The mbufs freed with the batch that held them. -/
  freed : List Ptr := []

namespace World

variable {σ : Type}

/-- The contents of received mbufs, in memory. -/
def store (mem : Mem) (frames : List (Ptr × MBuf)) : Mem :=
  frames.foldl (fun mem f => Function.update mem f.1 f.2) mem

/-- `PacketRx::recv` into a slice of `room` slots. -/
def recv (w : World σ) (queue room : Nat) : Except ErrorKind (List Ptr) × World σ :=
  match w.rx queue with
  | [] => (.ok [], w)
  | .error e :: rest => (.error e, { w with rx := Function.update w.rx queue rest })
  | .ok frames :: rest =>
    let frames := frames.take room
    (.ok (frames.map (·.1)),
      { w with
        rx := Function.update w.rx queue rest
        mem := store w.mem frames
        received := w.received ++ frames.map (·.1) })

/-- `PacketTx::send` of a slice: the port takes packets from its front. -/
def send (w : World σ) (pkts : List Ptr) : Except ErrorKind Nat × World σ :=
  match w.tx with
  | [] => (.ok 0, { w with offered := w.offered ++ [pkts] })
  | .error e :: rest => (.error e, { w with tx := rest, offered := w.offered ++ [pkts] })
  | .ok n :: rest =>
    (.ok (min n pkts.length),
      { w with
        tx := rest
        offered := w.offered ++ [pkts]
        sent := w.sent ++ pkts.take (min n pkts.length) })

/-- `mbuf_free_bulk` for dropped packets. It frees each mbuf once and returns 0. -/
def drop (w : World σ) (pkts : List Ptr) : World σ := { w with dropped := w.dropped ++ pkts }

/-- `mbuf_free_bulk` for the packets of a batch. -/
def free (w : World σ) (pkts : List Ptr) : World σ := { w with freed := w.freed ++ pkts }

/-- A receive fills at most the slice. -/
theorem recv_length_le {w w' : World σ} {queue room : Nat} {pkts : List Ptr}
    (h : w.recv queue room = (.ok pkts, w')) : pkts.length ≤ room := by
  unfold recv at h
  split at h
  · cases h
    exact Nat.zero_le _
  · cases h
  · cases h
    rw [List.length_map]
    exact List.length_take_le _ _

/-- A port takes at most the slice, from its front. -/
theorem send_ok {w w' : World σ} {pkts : List Ptr} {n : Nat} (h : w.send pkts = (.ok n, w')) :
    n ≤ pkts.length ∧ w'.sent = w.sent ++ pkts.take n := by
  unfold send at h
  split at h
  · cases h
    exact ⟨Nat.zero_le _, by simp⟩
  · cases h
  · cases h
    exact ⟨Nat.min_le_right _ _, rfl⟩

theorem drop_nil (w : World σ) : w.drop [] = w := by
  unfold drop
  rw [List.append_nil]

theorem free_nil (w : World σ) : w.free [] = w := by
  unfold free
  rw [List.append_nil]

end World

end NetBricks.Interface
