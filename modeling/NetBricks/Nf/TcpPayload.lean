import NetBricks.State.ReorderedFifo
import NetBricks.Utils.Flow

/-!
# TCP payloads

The closure that `reconstruction` of `test/tcp_payload/src/nf.rs` gives to `transform`. It keeps a
`ReorderedBuffer` for every flow, reads out at once whatever becomes available, collects it, and
prints what it has collected when a packet with `FIN` comes.

A connection whose segments arrive in order keeps its buffer empty between packets (`Tracks`),
since every segment is read out as it comes. So the whole of what it sent is printed, however its
packets are mixed with those of other flows, which are served as if they came alone
(`in_order_payload_printed`). After a `RST` the buffer is dropped but not what was collected: this
is why the flow has to be unknown to both maps. A connection whose `SYN` has the number
`2 ^ 32 - 1` is never served: the closure adds one to it, and panics.

Mirroring notes:

* Both maps are touched at the packet's flow only, through `entry`; `Entry` is what they have
  there.
* The printed lines are the results. `String::from_utf8_lossy`, which the payload goes through, is
  the parameter `lossy`.
* The loop of `read_payload` does not end when it is promised more than there is; it is given
  fuel.
-/

namespace NetBricks.Nf

open Lib Lib.Outcome State Utils

/-- `BUFFER_SIZE`. -/
def bufferSize : Nat := 2048

/-- `READ_SIZE`. -/
def readSize : Nat := 256

/-- What the closure reads of a packet. -/
structure TcpPacket where
  flow : Flow
  seqNum : UInt32
  syn : Bool
  rst : Bool
  fin : Bool
  payload : List UInt8
  deriving DecidableEq, Repr

/-- What is printed. -/
inductive Line where
  /-- Resetting since receiving data that is too far ahead -/
  | resetting
  /-- packet received for untracked flow did not have SYN flag, skipping. -/
  | untracked
  /-- Too big a packet? -/
  | tooBig
  /-- dumped an empty payload for Flow=.. -/
  | dumped (flow : Flow)
  /-- The payload of a connection. -/
  | payload (text : String)
  deriving DecidableEq, Repr

/-- What the two maps have for a flow. -/
structure Entry where
  buffer : Option ReorderedBuffer
  payload : Option (List UInt8)

/-- `read_payload`, from a round of its loop on. -/
def readPayload (fuel toRead : Nat) : Nat → ReorderedBuffer → Nat → List UInt8 →
    Option (List UInt8) → Outcome (ReorderedBuffer × Option (List UInt8))
  | 0, _, _, _, _ => .timeout
  | n + 1, rb, soFar, readBuf, payload =>
    if toRead > soFar then do
      let ((k, readBuf), rb) ← rb.readData fuel readBuf
      readPayload fuel toRead n rb (soFar + k) readBuf (some (payload.getD [] ++ readBuf.take k))
    else .ok (rb, payload)

/-- A segment for a buffer that is there. -/
def absorb (fuel : Nat) (b : ReorderedBuffer) (payload : Option (List UInt8)) (p : TcpPacket) :
    Outcome (List Line × ReorderedBuffer × Option (List UInt8)) := do
  let (result, b) ← b.addData fuel p.seqNum.toNat p.payload
  match result with
  | .inserted _ available => do
    let (b, payload) ←
      readPayload fuel available fuel b 0 (List.replicate readSize 0) payload
    .ok ([], b, payload)
  | .outOfMemory written _ =>
    if written = 0 then do
      let b ← b.reset fuel
      let (_, b) ← b.seq p.seqNum.toNat p.payload
      .ok ([.resetting], b, payload)
    else .ok ([], b, payload)

/-- A segment for a flow without a buffer. -/
def track (fuel : Nat) (b : ReorderedBuffer) (payload : Option (List UInt8)) (p : TcpPacket) :
    Outcome (List Line × Entry) := do
  let (lines, seq) ←
    (if p.syn then do
      let seq ← checkedAdd 32 p.seqNum.toNat 1
      .ok ([], seq)
    else .ok ([.untracked], p.seqNum.toNat))
  let (result, b) ← b.seq seq p.payload
  match result with
  | .inserted _ available => do
    let (b, payload) ←
      readPayload fuel available fuel b 0 (List.replicate readSize 0) payload
    .ok (lines, ⟨some b, payload⟩)
  | .outOfMemory _ _ => .ok (lines ++ [.tooBig], ⟨some b, payload⟩)

section Closure

variable (lossy : List UInt8 → String)

/-- What the closure does to the entries of the packet's flow. -/
def serve (fuel : Nat) (e : Entry) (p : TcpPacket) : Outcome (List Line × Entry) :=
  match e.buffer with
  | some b => do
    let (lines, b, payload) ← absorb fuel b e.payload p
    if p.rst then .ok (lines, ⟨none, payload⟩)
    else if p.fin then
      match payload with
      | some bytes => .ok (lines ++ [.payload (lossy bytes)], ⟨none, none⟩)
      | none => .ok (lines ++ [.dumped p.flow], ⟨none, none⟩)
    else .ok (lines, ⟨some b, payload⟩)
  | none => do
    match ← ReorderedBuffer.new bufferSize with
    | .ok b => track fuel b e.payload p
    | .error _ => .ok ([], e)

/-- What the closure owns. -/
structure Reconstruction where
  rbMap : Std.HashMap Flow ReorderedBuffer
  payloadCache : Std.HashMap Flow (List UInt8)

namespace Reconstruction

def entry (s : Reconstruction) (flow : Flow) : Entry := ⟨s.rbMap[flow]?, s.payloadCache[flow]?⟩

def setEntry (s : Reconstruction) (flow : Flow) (e : Entry) : Reconstruction :=
  ⟨s.rbMap.alter flow fun _ => e.buffer, s.payloadCache.alter flow fun _ => e.payload⟩

theorem entry_setEntry (s : Reconstruction) (flow f : Flow) (e : Entry) :
    (s.setEntry flow e).entry f = if flow = f then e else s.entry f := by
  by_cases h : flow = f
  · simp [entry, setEntry, h]
  · simp [entry, setEntry, Std.HashMap.getElem?_alter, h]

end Reconstruction

/-- The closure given to `transform`. -/
def reconstruct (fuel : Nat) (s : Reconstruction) (p : TcpPacket) :
    Outcome (List Line × Reconstruction) := do
  let (lines, e) ← serve lossy fuel (s.entry p.flow) p
  .ok (lines, s.setEntry p.flow e)

end Closure

/-! ## Segments in order -/

/-- The entry of the second map after these bytes. -/
def kept (got : List UInt8) : Option (List UInt8) := if got = [] then none else some got

/-- A connection of which `got` has been collected and `next` is the next byte: its buffer is
connected and everything in it has been read, as each packet of the connection is read out at
once. -/
def Tracks (next : Nat) (got : List UInt8) (e : Entry) : Prop :=
  ∃ b, e.buffer = some b ∧ b.Follows 11 ⟨[], next⟩ ∧ e.payload = kept got

theorem kept_getD (got : List UInt8) : (kept got).getD [] = got := by
  unfold kept
  split
  · next h => rw [h]; rfl
  · rfl

theorem readPayload_all (fuel : Nat) {toRead next : Nat} : ∀ (n soFar : Nat)
    (readBuf unread got : List UInt8) {b : ReorderedBuffer}, b.Follows 11 ⟨unread, next⟩ →
    unread.length < n → readBuf.length = readSize → soFar + unread.length = toRead →
    ∃ b', readPayload fuel toRead n b soFar readBuf (kept got) = .ok (b', kept (got ++ unread)) ∧
      b'.Follows 11 ⟨[], next⟩ := by
  intro n
  induction n with
  | zero => exact fun _ _ _ _ _ _ h => absurd h (Nat.not_lt_zero _)
  | succ n ih =>
    intro soFar readBuf unread got b hb hlt hbuf hto
    unfold readPayload
    by_cases hempty : unread = []
    · subst hempty
      simp only [List.length_nil, Nat.add_zero] at hto
      rw [if_neg (by omega), List.append_nil]
      exact ⟨b, rfl, hb⟩
    · have hpos := List.length_pos_iff.mpr hempty
      obtain ⟨b₁, hread, hb₁⟩ := hb.readData readBuf fuel
      rw [if_pos (by omega), hread, bind_ok]
      simp only [Inbox.take] at hb₁ ⊢
      generalize hk : min unread.length readBuf.length = k at hb₁ ⊢
      have hkpos : 0 < k := by
        unfold readSize at hbuf
        omega
      have htake : (unread.take k ++ readBuf.drop k).take k = unread.take k := by
        rw [List.take_append_of_le_length (by simp; omega), List.take_take, Nat.min_self]
      have hchunk : some (got ++ unread.take k) = kept (got ++ unread.take k) := by
        have hne : unread.take k ≠ [] := by
          intro hnil
          rcases List.take_eq_nil_iff.mp hnil with h | h
          · omega
          · exact hempty h
        rw [kept, if_neg (by simp [hne])]
      rw [htake, kept_getD, hchunk]
      obtain ⟨b', hrest, hb'⟩ := ih (soFar + k) (unread.take k ++ readBuf.drop k)
        (unread.drop k) (got ++ unread.take k) hb₁ (by simp; omega) (by simp; omega)
        (by simp; omega)
      rw [List.append_assoc, List.take_append_drop] at hrest
      exact ⟨b', hrest, hb'⟩

/-- What an empty buffer does with a segment that fits: it is all available. -/
theorem append_of_fits {next : Nat} {data : List UInt8} (h : data.length < bufferSize) :
    Inbox.append (2 ^ 11 - 1) ⟨[], next⟩ data =
      (.inserted data.length data.length, ⟨data, (next + data.length) % 2 ^ 32⟩) := by
  have hmin : min data.length 2047 = data.length := by
    unfold bufferSize at h
    omega
  simp [Inbox.append, hmin]

section Steps

variable (lossy : List UInt8 → String) {fuel next : Nat} {got : List UInt8} {e : Entry}
  {p : TcpPacket}

theorem absorb_inOrder (got : List UInt8) (hfuel : bufferSize ≤ fuel) {b : ReorderedBuffer}
    (hb : b.Follows 11 ⟨[], next⟩) (hseq : p.seqNum.toNat = next)
    (hlen : p.payload.length < bufferSize) :
    ∃ b', absorb fuel b (kept got) p = .ok ([], b', kept (got ++ p.payload)) ∧
      b'.Follows 11 ⟨[], (next + p.payload.length) % 2 ^ 32⟩ := by
  have hat : p.seqNum.toNat = b.tailSeq := by rw [hseq, hb.tailSeq_eq]
  have hin : b.InOrder (.addData p.seqNum p.payload) := .inl hat
  have hend : b.EndUnwrapped (.addData p.seqNum p.payload) := fun hlt => absurd hat hlt.ne
  obtain ⟨b₁, hadd, hb₁⟩ := hb.addData hin hend fuel
  rw [Inbox.deliver, hseq, Nat.sub_self, List.drop_zero, append_of_fits hlen] at hadd hb₁
  obtain ⟨b', hread, hb'⟩ := readPayload_all fuel fuel 0 (List.replicate readSize 0) p.payload got
    hb₁ (by omega) List.length_replicate (Nat.zero_add _)
  refine ⟨b', ?_, hb'⟩
  simp only [absorb, hseq, hadd, bind_ok, hread]

theorem serve_data (hfuel : bufferSize ≤ fuel) (h : Tracks next got e)
    (hseq : p.seqNum.toNat = next) (hlen : p.payload.length < bufferSize) (hrst : p.rst = false)
    (hfin : p.fin = false) : ∃ e', serve lossy fuel e p = .ok ([], e') ∧
      Tracks ((next + p.payload.length) % 2 ^ 32) (got ++ p.payload) e' := by
  obtain ⟨b, hbuffer, hb, hpayload⟩ := h
  obtain ⟨b', habsorb, hb'⟩ := absorb_inOrder got hfuel hb hseq hlen
  refine ⟨⟨some b', kept (got ++ p.payload)⟩, ?_, b', rfl, hb', rfl⟩
  simp [serve, hbuffer, hpayload, habsorb, bind_ok, hrst, hfin]

/-- What is printed for a connection: the text of what it sent, if it sent anything. -/
def printed (lossy : List UInt8 → String) (flow : Flow) (data : List UInt8) : Line :=
  if data = [] then .dumped flow else .payload (lossy data)

theorem serve_fin (hfuel : bufferSize ≤ fuel) (h : Tracks next got e)
    (hseq : p.seqNum.toNat = next) (hlen : p.payload.length < bufferSize) (hrst : p.rst = false)
    (hfin : p.fin = true) :
    serve lossy fuel e p = .ok ([printed lossy p.flow (got ++ p.payload)], ⟨none, none⟩) := by
  obtain ⟨b, hbuffer, hb, hpayload⟩ := h
  obtain ⟨b', habsorb, -⟩ := absorb_inOrder got hfuel hb hseq hlen
  simp only [serve, hbuffer, hpayload, habsorb, bind_ok, hrst, hfin, Bool.false_eq_true, if_false,
    if_true, List.nil_append]
  generalize got ++ p.payload = data
  by_cases hnil : data = []
  · simp [kept, printed, hnil]
  · simp [kept, printed, hnil]

theorem serve_syn (hfuel : bufferSize ≤ fuel) (h : e = ⟨none, none⟩) (hsyn : p.syn = true)
    (hseq : p.seqNum.toNat + 1 < 2 ^ 32) (hlen : p.payload.length < bufferSize) :
    ∃ e', serve lossy fuel e p = .ok ([], e') ∧
      Tracks ((p.seqNum.toNat + 1 + p.payload.length) % 2 ^ 32) p.payload e' := by
  obtain ⟨b, b₁, hnew, hseqed, hb₁⟩ := ReorderedBuffer.follows_seq (show 11 < 64 by decide)
    (UInt32.ofNat (p.seqNum.toNat + 1)) p.payload
  rw [UInt32.toNat_ofNat', Nat.mod_eq_of_lt hseq, Inbox.start, append_of_fits hlen] at hseqed hb₁
  obtain ⟨b', hread, hb'⟩ := readPayload_all fuel fuel 0 (List.replicate readSize 0) p.payload []
    hb₁ (by omega) List.length_replicate (Nat.zero_add _)
  refine ⟨⟨some b', kept p.payload⟩, ?_, b', rfl, hb', rfl⟩
  have hnew' : ReorderedBuffer.new bufferSize = .ok (.ok b) := hnew
  simp only [serve, h, hnew', bind_ok, track, hsyn, if_true, checkedAdd_of_lt hseq, hseqed]
  rw [show (none : Option (List UInt8)) = kept [] from rfl, hread, bind_ok, List.nil_append]

end Steps

/-! ## Whole runs -/

/-- The segments come one after the other, from `next` on. -/
def InStream : Nat → List TcpPacket → Prop
  | _, [] => True
  | next, p :: ps => (p.seqNum.toNat = next ∧ p.payload.length < bufferSize ∧ p.rst = false) ∧
      InStream ((next + p.payload.length) % 2 ^ 32) ps

/-- The bytes of the segments. -/
def bytesOf (ps : List TcpPacket) : List UInt8 := ps.flatMap (·.payload)

/-- The packets of a flow. -/
def ofFlow (f : Flow) (packets : List TcpPacket) : List TcpPacket := packets.filter (·.flow = f)

/-- The packets of the other flows. -/
def ofOthers (f : Flow) (packets : List TcpPacket) : List TcpPacket := packets.filter (·.flow ≠ f)

section Runs

variable {lossy : List UInt8 → String}

theorem reconstruct_of_serve {fuel : Nat} {s : Reconstruction} {p : TcpPacket} {lines : List Line}
    {e : Entry} (h : serve lossy fuel (s.entry p.flow) p = .ok (lines, e)) :
    ∃ s', reconstruct lossy fuel s p = .ok (lines, s') ∧
      ∀ f, s'.entry f = if p.flow = f then e else s.entry f :=
  ⟨s.setEntry p.flow e, by rw [reconstruct, h, bind_ok], fun f => s.entry_setEntry p.flow f e⟩

theorem serve_of_reconstruct {fuel : Nat} {s s' : Reconstruction} {p : TcpPacket}
    {lines : List Line} (h : reconstruct lossy fuel s p = .ok (lines, s')) :
    ∃ e, serve lossy fuel (s.entry p.flow) p = .ok (lines, e) ∧
      ∀ f, s'.entry f = if p.flow = f then e else s.entry f := by
  rw [reconstruct, bind_eq_ok] at h
  obtain ⟨⟨lines', e⟩, hserve, h⟩ := h
  cases h
  exact ⟨e, hserve, fun f => s.entry_setEntry p.flow f e⟩

/-- The run of a connection's packets mixed with others has come to its end: all that was sent is
printed last, nothing of the flow is kept, and of the other flows what is kept without it. -/
def Finished (lossy : List UInt8 → String) (f : Flow) (data : List UInt8) (others : Reconstruction)
    (r : List (List Line) × Reconstruction) : Prop :=
  r.1.getLast? = some [printed lossy f data] ∧ r.2.entry f = ⟨none, none⟩ ∧
    ∀ g, g ≠ f → r.2.entry g = others.entry g

theorem Finished.cons {f : Flow} {data : List UInt8} {others s' : Reconstruction}
    {rest : List (List Line)} (h : Finished lossy f data others (rest, s')) (lines : List Line) :
    Finished lossy f data others (lines :: rest, s') :=
  ⟨by simp [List.getLast?_cons, show rest.getLast? = _ from h.1], h.2⟩

/-- The packets of the flow are collected, up to the one with `FIN`. For those of other flows the
run `o` without it says what is done, since it has the same entries for them. -/
theorem finished_of_tracks {fuel : Nat} (hfuel : bufferSize ≤ fuel) {f : Flow} {fin : TcpPacket}
    (hflow : fin.flow = f) (hfin : fin.fin = true) : ∀ (packets : List TcpPacket) {next : Nat}
    {got : List UInt8} {s o others : Reconstruction} {outs : List (List Line)},
    Tracks next got (s.entry f) → (∀ g, g ≠ f → s.entry g = o.entry g) →
    InStream next (ofFlow f packets ++ [fin]) → (∀ p ∈ ofFlow f packets, p.fin = false) →
    runOps (reconstruct lossy fuel) o (ofOthers f packets) = .ok (outs, others) →
    ∃ r, runOps (reconstruct lossy fuel) s (packets ++ [fin]) = .ok r ∧
      Finished lossy f (got ++ bytesOf (ofFlow f packets) ++ fin.payload) others r := by
  intro packets
  induction packets with
  | nil =>
    intro next got s o others outs htracks hsame hstream _ hothers
    cases hothers
    obtain ⟨⟨hseq, hlen, hrst⟩, -⟩ := hstream
    rw [← hflow] at htracks
    obtain ⟨s', hstep, hentry⟩ :=
      reconstruct_of_serve (serve_fin lossy hfuel htracks hseq hlen hrst hfin)
    refine ⟨([[printed lossy fin.flow (got ++ fin.payload)]], s'),
      by simp only [List.nil_append, runOps, hstep, bind_ok], ?_, ?_, ?_⟩
    · simp [hflow, bytesOf, ofFlow]
    · rw [hentry, if_pos hflow]
    · intro g hg
      rw [hentry, if_neg (hflow ▸ hg.symm), hsame g hg]
  | cons p packets ih =>
    intro next got s o others outs htracks hsame hstream hplain hothers
    by_cases hp : p.flow = f
    · have hof : ofFlow f (p :: packets) = p :: ofFlow f packets := by simp [ofFlow, hp]
      have hoff : ofOthers f (p :: packets) = ofOthers f packets := by simp [ofOthers, hp]
      rw [hof] at hstream hplain
      rw [hoff] at hothers
      obtain ⟨⟨hseq, hlen, hrst⟩, hstream⟩ := hstream
      obtain ⟨e, hserve, htracks'⟩ := serve_data lossy hfuel htracks hseq hlen hrst
        (hplain p List.mem_cons_self)
      rw [← hp] at hserve
      obtain ⟨s', hstep, hentry⟩ := reconstruct_of_serve hserve
      have hhere : s'.entry f = e := by rw [hentry, if_pos hp]
      obtain ⟨r, hrun, hfinished⟩ := ih (s := s') (hhere ▸ htracks')
        (fun g hg => by rw [hentry, if_neg (hp ▸ hg.symm), hsame g hg]) hstream
        (fun q hq => hplain q (List.mem_cons_of_mem p hq)) hothers
      refine ⟨([] :: r.1, r.2), by simp only [List.cons_append, runOps, hstep, bind_ok, hrun], ?_⟩
      simpa [hof, bytesOf] using hfinished.cons []
    · have hof : ofFlow f (p :: packets) = ofFlow f packets := by simp [ofFlow, hp]
      have hoff : ofOthers f (p :: packets) = p :: ofOthers f packets := by simp [ofOthers, hp]
      rw [hof] at hstream hplain ⊢
      rw [hoff] at hothers
      obtain ⟨lines, o', rest, hother, hothers, -⟩ := runOps_cons_ok hothers
      obtain ⟨e, hserve, hentryₒ⟩ := serve_of_reconstruct hother
      rw [← hsame p.flow hp] at hserve
      obtain ⟨s', hstep, hentry⟩ := reconstruct_of_serve hserve
      have hhere : s'.entry f = s.entry f := by rw [hentry, if_neg hp]
      have hsame' : ∀ g, g ≠ f → s'.entry g = o'.entry g := by
        intro g hg
        rw [hentry, hentryₒ, hsame g hg]
      obtain ⟨r, hrun, hfinished⟩ := ih (hhere ▸ htracks) hsame' hstream hplain hothers
      exact ⟨(lines :: r.1, r.2), by simp only [List.cons_append, runOps, hstep, bind_ok, hrun],
        hfinished.cons lines⟩

/-- The number after that of the `SYN` is not one. -/
theorem serve_syn_panic {fuel : Nat} {e : Entry} {p : TcpPacket} (h : e = ⟨none, none⟩)
    (hsyn : p.syn = true) (hseq : p.seqNum.toNat + 1 = 2 ^ 32) :
    serve lossy fuel e p = .panic .overflow := by
  obtain ⟨b, -, hnew, -⟩ := ReorderedBuffer.follows_seq (show 11 < 64 by decide) 0 []
  have hnew' : ReorderedBuffer.new bufferSize = .ok (.ok b) := hnew
  have hover : checkedAdd 32 p.seqNum.toNat 1 = .panic .overflow :=
    if_neg (Nat.not_lt_of_le hseq.ge)
  simp only [serve, h, hnew', bind_ok, track, hsyn, if_true, hover]
  rfl

end Runs

/-- A connection whose segments arrive in order, mixed in any way with packets of other flows,
which the closure serves when they come alone: it serves them all, and what is printed at the end
is all that was sent. Only if the `SYN` has the last of all numbers, it panics there. -/
theorem in_order_payload_printed (lossy : List UInt8 → String) (packets : List TcpPacket)
    {fuel : Nat} (hfuel : bufferSize ≤ fuel) {s others : Reconstruction} {syn fin : TcpPacket}
    {outs : List (List Line)} (hnew : s.entry syn.flow = ⟨none, none⟩) (hsyn : syn.syn = true)
    (hlen : syn.payload.length < bufferSize) (hflow : fin.flow = syn.flow) (hfin : fin.fin = true)
    (hplain : ∀ p ∈ ofFlow syn.flow packets, p.fin = false)
    (hstream : InStream ((syn.seqNum.toNat + 1 + syn.payload.length) % 2 ^ 32)
      (ofFlow syn.flow packets ++ [fin]))
    (hothers : runOps (reconstruct lossy fuel) s (ofOthers syn.flow packets) = .ok (outs, others)) :
    (syn.seqNum.toNat + 1 < 2 ^ 32 →
      ∃ r, runOps (reconstruct lossy fuel) s (syn :: (packets ++ [fin])) = .ok r ∧
        Finished lossy syn.flow (syn.payload ++ bytesOf (ofFlow syn.flow packets) ++ fin.payload)
          others r) ∧
    (syn.seqNum.toNat + 1 = 2 ^ 32 →
      runOps (reconstruct lossy fuel) s (syn :: (packets ++ [fin])) = .panic .overflow) := by
  constructor
  · intro hseq
    obtain ⟨e, hserve, htracks⟩ := serve_syn lossy hfuel hnew hsyn hseq hlen
    obtain ⟨s', hstep, hentry⟩ := reconstruct_of_serve hserve
    have hhere : s'.entry syn.flow = e := by rw [hentry, if_pos rfl]
    obtain ⟨r, hrun, hfinished⟩ := finished_of_tracks hfuel hflow hfin packets (hhere ▸ htracks)
      (fun g hg => by rw [hentry, if_neg hg.symm]) hstream hplain hothers
    exact ⟨([] :: r.1, r.2), by simp only [runOps, hstep, bind_ok, hrun], hfinished.cons []⟩
  · intro hseq
    rw [runOps, reconstruct, serve_syn_panic hnew hsyn hseq]
    rfl

/-- The first and the last segment of a connection that sends three bytes. -/
def firstSegment : TcpPacket := ⟨default, 7, true, false, false, [0x41, 0x43]⟩

def lastSegment : TcpPacket := ⟨default, 10, false, false, true, [0x4b]⟩

/-- The text of bytes below `0x80`. -/
def ascii (bytes : List UInt8) : String := String.ofList (bytes.map fun b => Char.ofNat b.toNat)

theorem in_order_payload_printed_three : ∃ r,
    runOps (reconstruct ascii 2048) ⟨∅, ∅⟩ [firstSegment, lastSegment] = .ok r ∧
      r.1.getLast? = some [.payload "ACK"] ∧ Finished ascii firstSegment.flow [0x41, 0x43, 0x4b]
        ⟨∅, ∅⟩ r := by
  have hnew : Reconstruction.entry ⟨∅, ∅⟩ firstSegment.flow = ⟨none, none⟩ := by
    simp [Reconstruction.entry]
  have hflow : lastSegment.flow = firstSegment.flow := rfl
  have hstream : InStream 10 (ofFlow firstSegment.flow [] ++ [lastSegment]) :=
    ⟨⟨rfl, by decide, rfl⟩, trivial⟩
  obtain ⟨r, hrun, hfinished⟩ := (in_order_payload_printed ascii [] (Nat.le_refl 2048) hnew rfl
    (by decide) hflow rfl (by simp [ofFlow]) hstream rfl).1 (by decide)
  exact ⟨r, hrun, hfinished.1, hfinished⟩

end NetBricks.Nf
