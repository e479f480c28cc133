import NetBricks.Lib.Spans
import NetBricks.Queues.Mpsc

/-!
# The invariant of the queue under interleaving

The four counters stand for true positions `ct ≤ ch ≤ pt ≤ ph ≤ ct + mask`
(`Counters`), where `ph` is the number of mbufs reserved so far: position `i`
belongs to the `i`-th reserved mbuf. Between `ct` and `pt` the slots hold the
reserved mbufs (`Inv.published`). The positions from `pt` to `ph` are
partitioned among the producers that have reserved and not committed
(`Inv.disjoint`, `Inv.cover`), each of which has stored a front part of its own
(`Holding`).

What makes the stale reads harmless is in `ProducerOk`. A producer loads the
head first and the consumer's tail second; at the compare-exchange the head
either moved, and the exchange fails, or did not, and then what it loaded of the
tail is a lower bound of a tail that is not past the head — so the free count it
computed is a lower bound of the free slots (`reserve` below).
-/

namespace NetBricks.Queues

open Lib

variable {α : Type} {P : Nat}

/-- The geometry of `2 ^ k` slots, and the true positions behind the counters: `ct` and `ch` of
the consumer's tail and head, `pt` and `ph` of the producers'. They only grow, while the
counters wrap. The last four fields are their order: taken, being taken, stored, reserved; and
what is reserved and not taken fits the slots but one. -/
structure Counters (k ct ch pt ph : Nat) (q : MpscQueue α) : Prop where
  lt : k < 64
  slots_eq : q.slots = 2 ^ k
  mask_eq : q.mask = 2 ^ k - 1
  length_queue : q.queue.length = 2 ^ k
  consTail_eq : q.consumer.tail = ct % 2 ^ 64
  consHead_eq : q.consumer.head = ch % 2 ^ 64
  prodTail_eq : q.producer.tail = pt % 2 ^ 64
  prodHead_eq : q.producer.head = ph % 2 ^ 64
  ct_le : ct ≤ ch
  ch_le : ch ≤ pt
  pt_le : pt ≤ ph
  room : ph ≤ ct + (2 ^ k - 1)

theorem Counters.two_pow_pos {k ct ch pt ph : Nat} {q : MpscQueue α}
    (_h : Counters k ct ch pt ph q) : 0 < 2 ^ k := Nat.two_pow_pos k

theorem Counters.double_le {k ct ch pt ph : Nat} {q : MpscQueue α}
    (h : Counters k ct ch pt ph q) : 2 ^ k + 2 ^ k ≤ 2 ^ 64 := by
  have hk : 2 ^ (k + 1) ≤ 2 ^ 64 := Nat.pow_le_pow_right (by decide) h.lt
  rw [Nat.pow_succ] at hk
  omega

/-- The slot of the true position behind a loaded counter. -/
theorem Counters.masked {k ct ch pt ph : Nat} {q : MpscQueue α} (h : Counters k ct ch pt ph q)
    (i : Nat) : i % 2 ^ 64 &&& q.mask = i % q.slots := by
  rw [h.mask_eq, h.slots_eq]
  exact mod_and_mask (Nat.le_of_lt h.lt) i

/-! ## What a producer knows -/

/-- A producer that has reserved the positions `since … since + insert` for the front of `mbufs`
and stored the first `written` of them. The positions have not been published (`ge`), the log
has them for this producer (`logged`), and what it has stored is still there (`stored`). -/
structure Holding (pt : Nat) (queue log mbufs : List α) (head insert since written : Nat) :
    Prop where
  head_eq : head = since % 2 ^ 64
  pos : 0 < insert
  le : insert ≤ mbufs.length
  ge : pt ≤ since
  fits : since + insert ≤ log.length
  logged : ∀ i, i < insert → log[since + i]? = mbufs[i]?
  stored : ∀ i, i < written → cell queue (since + i) = mbufs[i]?

/-- The mode `enqueue` chooses when `P` producers are registered. -/
def modeFor (P : Nat) : Mode := if P = 1 then .sp else .mp

theorem modeFor_eq_sp (h : .sp = modeFor P) : P = 1 := by
  unfold modeFor at h
  split at h
  · assumption
  · cases h

/-- What holds of a producer at each access. Up to the reservation it knows a head that was
right at `since` and may be stale, which is no harm as long as the compare-exchange fails then;
with a single producer it is never stale. From there on it owns its positions, as `Holding`
says. -/
def ProducerOk (k P ct pt : Nat) (queue log : List α) : ProducerPc α → Prop
  | .idle => True
  | .loadProducers _ => True
  | .loadHead mode _ => mode = modeFor P
  | .loadTail mode _ head since =>
    mode = modeFor P ∧ head = since % 2 ^ 64 ∧ since ≤ log.length ∧
      since ≤ ct + (2 ^ k - 1) ∧ (P = 1 → since = log.length)
  | .reserve mode mbufs head insert since =>
    mode = modeFor P ∧ head = since % 2 ^ 64 ∧ since ≤ log.length ∧
      0 < insert ∧ insert ≤ mbufs.length ∧
      (since = log.length → since + insert ≤ ct + (2 ^ k - 1)) ∧ (P = 1 → since = log.length)
  | .store mode mbufs head insert since c =>
    mode = modeFor P ∧ ∃ j, j < insert ∧ c = Cursor.atStep (2 ^ k) since insert j ∧
      Holding pt queue log mbufs head insert since j
  | .wait mbufs head insert since => Holding pt queue log mbufs head insert since insert
  | .commit mbufs head insert since =>
    Holding pt queue log mbufs head insert since insert ∧ since = pt
  | .panicked _ => False

/-- A producer that holds a span holds it in the sense of `Holding`. -/
theorem ProducerOk.holding {k ct pt : Nat} {queue log : List α} {pc : ProducerPc α}
    (h : ProducerOk k P ct pt queue log pc) {a n : Nat} (hs : pc.span = some (a, n)) :
    ∃ mbufs head written, Holding pt queue log mbufs head n a written := by
  cases pc with
  | store mode mbufs head insert since c =>
    obtain ⟨-, j, -, -, hh⟩ := h
    cases hs
    exact ⟨mbufs, head, j, hh⟩
  | wait mbufs head insert since =>
    cases hs
    exact ⟨mbufs, head, _, h⟩
  | commit mbufs head insert since =>
    cases hs
    exact ⟨mbufs, head, _, h.1⟩
  | _ => cases hs

/-- Other threads' steps leave a holder's knowledge alone as long as they stay
off its positions. -/
theorem Holding.mono {pt pt' : Nat} {queue queue' log extra mbufs : List α}
    {head insert since written : Nat} (h : Holding pt queue log mbufs head insert since written)
    (hw : written ≤ insert) (hpt : pt' ≤ since)
    (hcell : ∀ i, since ≤ i → i < since + insert → cell queue' i = cell queue i) :
    Holding pt' queue' (log ++ extra) mbufs head insert since written where
  head_eq := h.head_eq
  pos := h.pos
  le := h.le
  ge := hpt
  fits := by
    have := h.fits
    rw [List.length_append]
    omega
  logged := by
    intro i hi
    have := h.fits
    rw [List.getElem?_append_left (by omega)]
    exact h.logged i hi
  stored := by
    intro i hi
    rw [hcell (since + i) (by omega) (by omega)]
    exact h.stored i hi

/-- The same for a producer at any access: the tail of the consumer and the
commit point may have advanced, other reservations may have been appended. -/
theorem ProducerOk.mono {k ct ct' pt pt' : Nat} {queue queue' log extra : List α}
    {pc : ProducerPc α} (h : ProducerOk k P ct pt queue log pc) (hct : ct ≤ ct') (hle : pt ≤ pt')
    (hsole : P = 1 → extra = [])
    (hpt : ∀ a n, pc.span = some (a, n) → pt' ≤ a)
    (hcell : ∀ a n, pc.span = some (a, n) →
      ∀ i, a ≤ i → i < a + n → cell queue' i = cell queue i) :
    ProducerOk k P ct' pt' queue' (log ++ extra) pc := by
  have hlen : log.length ≤ (log ++ extra).length := by
    rw [List.length_append]
    omega
  have hone : P = 1 → log ++ extra = log := fun h => by rw [hsole h, List.append_nil]
  cases pc with
  | idle => exact h
  | loadProducers mbufs => exact h
  | loadHead mode mbufs => exact h
  | loadTail mode mbufs head since =>
    obtain ⟨hm, hh, hs, hr, hsp⟩ := h
    exact ⟨hm, hh, by omega, by omega, fun hP => by rw [hone hP]; exact hsp hP⟩
  | reserve mode mbufs head insert since =>
    obtain ⟨hm, hh, hs, hpos, hle', hr, hsp⟩ := h
    refine ⟨hm, hh, by omega, hpos, hle', ?_, fun hP => by rw [hone hP]; exact hsp hP⟩
    intro heq
    have := hr (by omega)
    omega
  | store mode mbufs head insert since c =>
    obtain ⟨hm, j, hj, hc, hh⟩ := h
    exact ⟨hm, j, hj, hc, hh.mono (Nat.le_of_lt hj) (hpt _ _ rfl) (hcell _ _ rfl)⟩
  | wait mbufs head insert since =>
    exact Holding.mono h (Nat.le_refl _) (hpt _ _ rfl) (hcell _ _ rfl)
  | commit mbufs head insert since =>
    obtain ⟨hh, heq⟩ := h
    have := hpt _ _ rfl
    exact ⟨hh.mono (Nat.le_refl _) this (hcell _ _ rfl), by omega⟩
  | panicked why => exact h

/-! ## What the consumer knows -/

/-- The consumer has reserved the `n` positions from `ct` and copied the first `j` of them into
`mbufs`. What it copied is what the log has there, and the tail has not moved yet. -/
structure Taking (ct ch : Nat) (log mbufs : List α) (head n j : Nat) : Prop where
  ch_eq : ch = ct + n
  head_eq : head = ct % 2 ^ 64
  pos : 0 < n
  le : n ≤ mbufs.length
  taken : ∀ i, i < j → mbufs[i]? = log[ct + i]?

/-- What holds of the consumer at each access. There is only one, so between calls its head is
its tail, and what it has loaded stays true until it commits. -/
def ConsumerOk (k ct ch pt : Nat) (log : List α) : ConsumerPc α → Prop
  | .idle => ch = ct
  | .loadHead _ => ch = ct
  | .loadTail _ head => ch = ct ∧ head = ct % 2 ^ 64
  | .reserve mbufs head n =>
    ch = ct ∧ head = ct % 2 ^ 64 ∧ 0 < n ∧ n ≤ mbufs.length ∧ ct + n ≤ pt
  | .load mbufs head n c =>
    ∃ j, j < n ∧ c = Cursor.atStep (2 ^ k) ct n j ∧ Taking ct ch log mbufs head n j
  | .commit mbufs head n => Taking ct ch log mbufs head n n
  | .panicked _ => False

theorem Taking.mono {ct ch : Nat} {log extra mbufs : List α} {head n j : Nat}
    (h : Taking ct ch log mbufs head n j) (hj : j ≤ n) (hlog : ch ≤ log.length) :
    Taking ct ch (log ++ extra) mbufs head n j where
  ch_eq := h.ch_eq
  head_eq := h.head_eq
  pos := h.pos
  le := h.le
  taken := by
    intro i hi
    have := h.ch_eq
    rw [List.getElem?_append_left (by omega)]
    exact h.taken i hi

/-- Producers' steps leave the consumer's knowledge alone. -/
theorem ConsumerOk.mono {k ct ch pt pt' : Nat} {log extra : List α} {pc : ConsumerPc α}
    (h : ConsumerOk k ct ch pt log pc) (hpt : pt ≤ pt') (hlog : ch ≤ log.length) :
    ConsumerOk k ct ch pt' (log ++ extra) pc := by
  cases pc with
  | idle => exact h
  | loadHead mbufs => exact h
  | loadTail mbufs head => exact h
  | reserve mbufs head n =>
    obtain ⟨h₁, h₂, h₃, h₄, h₅⟩ := h
    exact ⟨h₁, h₂, h₃, h₄, by omega⟩
  | load mbufs head n c =>
    obtain ⟨j, hj, hc, ht⟩ := h
    exact ⟨j, hj, hc, ht.mono (Nat.le_of_lt hj) hlog⟩
  | commit mbufs head n => exact Taking.mono h (Nat.le_refl _) hlog
  | panicked why => exact h

/-! ## The invariant -/

structure Inv (k ct ch pt : Nat) (s : Sys P α) : Prop where
  counters : Counters k ct ch pt s.log.length s.q
  registered : s.q.nProducers = P
  published : ∀ i, ct ≤ i → i < pt → cell s.q.queue i = s.log[i]?
  producer : ∀ p, ProducerOk k P ct pt s.q.queue s.log (s.producers p)
  disjoint : ∀ p p', p ≠ p' → ∀ a n b m, (s.producers p).span = some (a, n) →
    (s.producers p').span = some (b, m) → a + n ≤ b ∨ b + m ≤ a
  cover : ∀ i, pt ≤ i → i < s.log.length → ∃ p a n,
    (s.producers p).span = some (a, n) ∧ a ≤ i ∧ i < a + n
  consumer : ConsumerOk k ct ch pt s.log s.consumer
  obtained : s.obtained = s.log.take ct

/-- A single producer that holds positions holds the first uncommitted one. -/
theorem Inv.sole {k ct ch pt : Nat} {s : Sys P α} (h : Inv k ct ch pt s) (hP : P = 1) {p : Fin P}
    {a n : Nat} (hs : (s.producers p).span = some (a, n)) : a = pt := by
  obtain ⟨mbufs, head, j, hh⟩ := (h.producer p).holding hs
  have hfits := hh.fits
  have hpos := hh.pos
  have hge := hh.ge
  obtain ⟨p', b, m, hs', hb, -⟩ := h.cover pt (Nat.le_refl _) (by omega)
  have hpp : p' = p := by
    subst hP
    exact Subsingleton.elim _ _
  rw [hpp, hs] at hs'
  cases hs'
  omega

/-! ## Steps of a producer -/

theorem Inv.apart {k ct ch pt : Nat} {s : Sys P α} (h : Inv k ct ch pt s) :
    Apart (ProducerPc.span ∘ s.producers) := h.disjoint

theorem Inv.tiled {k ct ch pt : Nat} {s : Sys P α} (h : Inv k ct ch pt s) :
    Tiled (ProducerPc.span ∘ s.producers) pt s.log.length := h.cover

/-- An access that keeps the span keeps the spans. -/
theorem spans_update {f : Fin P → ProducerPc α} {p : Fin P} {pc : ProducerPc α}
    (hspan : pc.span = (f p).span) :
    ProducerPc.span ∘ Function.update f p pc = ProducerPc.span ∘ f := by
  rw [Function.comp_update, hspan]
  exact Function.update_eq_self _ _

/-- A step that neither reserves nor commits nor touches the queue. -/
theorem Inv.setProducer {k ct ch pt : Nat} {s : Sys P α} (h : Inv k ct ch pt s) (p : Fin P)
    {pc : ProducerPc α} (r : List (Fin P × List α × Nat))
    (hspan : pc.span = (s.producers p).span)
    (hok : ProducerOk k P ct pt s.q.queue s.log pc) :
    Inv k ct ch pt { s with producers := Function.update s.producers p pc, returns := r } := by
  have hspans := spans_update hspan
  have hcover := h.tiled
  rw [← hspans] at hcover
  refine ⟨h.counters, h.registered, h.published, ?_, ?_, hcover, h.consumer, h.obtained⟩
  · exact (Function.forall_update_iff _ _).mpr ⟨hok, fun p' _ => h.producer p'⟩
  · have hapart := h.apart
    rwa [← hspans] at hapart

/-- A step of `p` whose effect is only on its program counter. -/
theorem stepProducer_quiet {s : Sys P α} {p : Fin P} {e : ProducerEffect α}
    (he : producerStep s.q s.log.length (s.producers p) = e) (hq : e.q = s.q)
    (ha : e.accepted = none) :
    ∃ r, s.stepProducer p =
      { s with producers := Function.update s.producers p e.pc, returns := r } := by
  refine ⟨s.returns ++ (e.returned.map (fun r => (p, r))).toList, ?_⟩
  unfold Sys.stepProducer
  rw [he]
  dsimp only
  rw [hq, ha]
  simp

/-- `enqueue` loads the number of producers and picks the mode. -/
theorem inv_loadProducers {k ct ch pt : Nat} {s : Sys P α} (h : Inv k ct ch pt s) {p : Fin P}
    {mbufs : List α} (hpc : s.producers p = .loadProducers mbufs) :
    Inv k ct ch pt (s.stepProducer p) := by
  have hP : 1 ≤ P := Nat.lt_of_le_of_lt (Nat.zero_le _) p.isLt
  have he : producerStep s.q s.log.length (s.producers p) =
      { pc := .loadHead (modeFor P) mbufs, q := s.q } := by
    rw [hpc, producerStep, h.registered, if_pos hP]
    unfold modeFor
    split <;> rfl
  obtain ⟨r, hr⟩ := stepProducer_quiet he rfl rfl
  rw [hr]
  refine h.setProducer p r ?_ rfl
  rw [hpc]
  rfl

theorem inv_loadHead {k ct ch pt : Nat} {s : Sys P α} (h : Inv k ct ch pt s) {p : Fin P}
    {mode : Mode} {mbufs : List α} (hpc : s.producers p = .loadHead mode mbufs) :
    Inv k ct ch pt (s.stepProducer p) := by
  have hok := h.producer p
  rw [hpc] at hok
  obtain ⟨r, hr⟩ := stepProducer_quiet (s := s) (p := p)
    (e := { pc := .loadTail mode mbufs s.q.producer.head s.log.length, q := s.q })
    (by rw [hpc]; rfl) rfl rfl
  rw [hr]
  refine h.setProducer p r (by rw [hpc]; rfl) ?_
  exact ⟨hok, h.counters.prodHead_eq, Nat.le_refl _, h.counters.room, fun _ => rfl⟩

/-- Where the loaded head is still current, the free count computed from it and
the tail is the number of free slots. -/
theorem Counters.free_eq {k ct ch pt ph : Nat} {q : MpscQueue α} (h : Counters k ct ch pt ph q) :
    wrappingSub 64 (wrappingAdd 64 q.mask q.consumer.tail) (ph % 2 ^ 64) =
      ct + (2 ^ k - 1) - ph := by
  have hd := h.double_le
  have h₁ := h.ct_le
  have h₂ := h.ch_le
  have h₃ := h.pt_le
  have h₄ := h.room
  have hsum : wrappingAdd 64 q.mask q.consumer.tail = (ct + (2 ^ k - 1)) % 2 ^ 64 := by
    rw [h.mask_eq, h.consTail_eq]
    unfold wrappingAdd
    rw [Nat.add_mod_mod, Nat.add_comm]
  rw [hsum]
  exact wrappingSub_mod h.room (by omega)

theorem inv_loadTail {k ct ch pt : Nat} {s : Sys P α} (h : Inv k ct ch pt s) {p : Fin P}
    {mode : Mode} {mbufs : List α} {head since : Nat}
    (hpc : s.producers p = .loadTail mode mbufs head since) :
    Inv k ct ch pt (s.stepProducer p) := by
  have hok := h.producer p
  rw [hpc] at hok
  obtain ⟨hm, hh, hs, hr, hsp⟩ := hok
  have hstep : producerStep s.q s.log.length (s.producers p) =
      producerStep s.q s.log.length (.loadTail mode mbufs head since) := by rw [hpc]
  generalize hfree : wrappingSub 64 (wrappingAdd 64 s.q.mask s.q.consumer.tail) head = free
  by_cases hins : min free mbufs.length = 0
  · obtain ⟨r, hr⟩ := stepProducer_quiet (s := s) (p := p)
      (e := { pc := .idle, q := s.q, returned := some (mbufs, 0) })
      (by rw [hstep, producerStep, hfree]; exact if_pos hins) rfl rfl
    rw [hr]
    exact h.setProducer p r (by rw [hpc]; rfl) trivial
  · obtain ⟨r, hr⟩ := stepProducer_quiet (s := s) (p := p)
      (e := { pc := .reserve mode mbufs head (min free mbufs.length) since, q := s.q })
      (by rw [hstep, producerStep, hfree]; exact if_neg hins) rfl rfl
    rw [hr]
    refine h.setProducer p r (by rw [hpc]; rfl) ⟨hm, hh, hs, by omega, by omega, ?_, hsp⟩
    intro heq
    have hexact := h.counters.free_eq
    rw [← heq, ← hh, hfree] at hexact
    omega

/-- The step that reserves: the producer starts storing at the first slot of its span. -/
theorem stepProducer_reserved {k ct ch pt : Nat} {s : Sys P α}
    (hcnt : Counters k ct ch pt s.log.length s.q) {p : Fin P} {mode : Mode} {mbufs : List α}
    {head insert since : Nat} (hh : head = since % 2 ^ 64) (hpos : 0 < insert)
    (hins : insert < 2 ^ k)
    (he : producerStep s.q s.log.length (s.producers p) =
      reserved s.q mode mbufs head insert since) :
    s.stepProducer p =
      { s with
        q := { s.q with producer := { s.q.producer with head := wrappingAdd 64 head insert } }
        producers := Function.update s.producers p
          (.store mode mbufs head insert since (Cursor.atStep (2 ^ k) since insert 0))
        reservations := s.reservations ++ [(p, mbufs.take insert)]
        returns := s.returns ++ [] } := by
  have hbegin : Cursor.begin s.q.slots s.q.mask head insert =
      Cursor.atStep (2 ^ k) since insert 0 := by
    rw [hcnt.slots_eq]
    refine Cursor.begin_eq ?_ hins
    rw [hh, hcnt.masked, hcnt.slots_eq]
  have hpc : storeOrLeave mode mbufs head insert since (.begin s.q.slots s.q.mask head insert) =
      .store mode mbufs head insert since (Cursor.atStep (2 ^ k) since insert 0) := by
    unfold storeOrLeave
    rw [hbegin, Cursor.more_atStep (Nat.zero_le _)]
    exact if_pos (by simpa using hpos)
  unfold Sys.stepProducer
  rw [he, reserved, hpc]
  rfl

theorem holding_reserved {pt : Nat} {queue log mbufs : List α} {head insert : Nat}
    (hh : head = log.length % 2 ^ 64) (hpos : 0 < insert) (hle : insert ≤ mbufs.length)
    (hpt : pt ≤ log.length) :
    Holding pt queue (log ++ mbufs.take insert) mbufs head insert log.length 0 where
  head_eq := hh
  pos := hpos
  le := hle
  ge := hpt
  fits := by rw [List.length_append, List.length_take_of_le hle]
  logged := by
    intro i hi
    rw [List.getElem?_append_right (Nat.le_add_right _ _), Nat.add_sub_cancel_left,
      List.getElem?_take_of_lt hi]
  stored := fun i hi => absurd hi (Nat.not_lt_zero i)

/-- The reservation: the new span is appended behind all others. -/
theorem inv_reserved {k ct ch pt : Nat} {s : Sys P α} (h : Inv k ct ch pt s) {p : Fin P}
    {mode : Mode} {mbufs : List α} {head insert since : Nat}
    (hpc : s.producers p = .reserve mode mbufs head insert since)
    (hcur : since = s.log.length)
    (he : producerStep s.q s.log.length (s.producers p) =
      reserved s.q mode mbufs head insert since) :
    Inv k ct ch pt (s.stepProducer p) := by
  have hok := h.producer p
  rw [hpc] at hok
  obtain ⟨hm, hh, -, hpos, hle, hroom, -⟩ := hok
  have hroom := hroom hcur
  have hcnt := h.counters
  have h₁ := hcnt.ct_le
  have h₂ := hcnt.ch_le
  have h₃ := hcnt.pt_le
  have hk := hcnt.two_pow_pos
  rw [stepProducer_reserved hcnt hh hpos (by omega) he]
  subst hcur
  have hlog : ∀ (q : MpscQueue α) (f : Fin P → ProducerPc α) (c : ConsumerPc α)
      (r : List (Fin P × List α × Nat)) (o : List α),
      (Sys.mk q f c (s.reservations ++ [(p, mbufs.take insert)]) r o).log =
        s.log ++ mbufs.take insert := by
    intros
    simp [Sys.log]
  have hlen : (s.log ++ mbufs.take insert).length = s.log.length + insert := by
    rw [List.length_append, List.length_take_of_le hle]
  have hnone : (s.producers p).span = none := by rw [hpc]; rfl
  -- everybody else's positions lie before the new span
  have hbefore : ∀ p' a n, (s.producers p').span = some (a, n) → a + n ≤ s.log.length := by
    intro p' a n hs
    obtain ⟨_, _, _, hold⟩ := (h.producer p').holding hs
    exact hold.fits
  refine ⟨?_, h.registered, ?_, ?_, ?_, ?_, ?_, ?_⟩
  · rw [hlog, hlen]
    refine { hcnt with prodHead_eq := ?_, pt_le := by omega, room := hroom }
    show wrappingAdd 64 head insert = _
    rw [hh, wrappingAdd_mod]
  · intro i hi hlt
    rw [hlog, List.getElem?_append_left (by omega)]
    exact h.published i hi hlt
  · rw [hlog]
    refine (Function.forall_update_iff s.producers
      (fun _ pc => ProducerOk k P ct pt s.q.queue (s.log ++ mbufs.take insert) pc)).mpr
      ⟨⟨hm, 0, hpos, rfl, holding_reserved hh hpos hle h₃⟩, fun p' hp => ?_⟩
    refine (h.producer p').mono (Nat.le_refl _) (Nat.le_refl _) ?_ ?_ (fun _ _ _ _ _ _ => rfl)
    · intro hP
      subst hP
      exact absurd (Subsingleton.elim p' p) hp
    · intro a n hs
      obtain ⟨_, _, _, hold⟩ := (h.producer p').holding hs
      exact hold.ge
  · show Apart (ProducerPc.span ∘ Function.update s.producers p _)
    rw [Function.comp_update]
    exact h.apart.take hbefore
  · rw [hlog, hlen]
    show Tiled (ProducerPc.span ∘ Function.update s.producers p _) pt (s.log.length + insert)
    rw [Function.comp_update]
    exact h.tiled.take hnone
  · rw [hlog]
    exact h.consumer.mono (Nat.le_refl _) (Nat.le_trans h₂ h₃)
  · rw [hlog, List.take_append_of_le_length (by omega)]
    exact h.obtained

theorem inv_reserve {k ct ch pt : Nat} {s : Sys P α} (h : Inv k ct ch pt s) {p : Fin P}
    {mode : Mode} {mbufs : List α} {head insert since : Nat}
    (hpc : s.producers p = .reserve mode mbufs head insert since)
    (hwrap : NoFullWrap s.log.length (s.producers p)) :
    Inv k ct ch pt (s.stepProducer p) := by
  have hok := h.producer p
  rw [hpc] at hok
  obtain ⟨hm, hh, hs, -, -, -, hsp⟩ := hok
  have hstep : producerStep s.q s.log.length (s.producers p) =
      producerStep s.q s.log.length (.reserve mode mbufs head insert since) := by rw [hpc]
  cases mode with
  | sp => exact inv_reserved h hpc (hsp (modeFor_eq_sp hm)) hstep
  | mp =>
    rw [hpc] at hwrap
    by_cases hcas : s.q.producer.head = head
    · -- equal counters less than a full wrap apart are equal positions
      have hcur : since = s.log.length := by
        rw [h.counters.prodHead_eq, hh] at hcas
        have hlt : s.log.length < since + 2 ^ 64 := hwrap
        have h₁ := Nat.div_add_mod s.log.length (2 ^ 64)
        have h₂ := Nat.div_add_mod since (2 ^ 64)
        rw [hcas] at h₁
        omega
      refine inv_reserved h hpc hcur ?_
      rw [hstep, producerStep]
      exact if_pos hcas
    · obtain ⟨r, hr⟩ := stepProducer_quiet (s := s) (p := p)
        (e := { pc := .loadHead .mp mbufs, q := s.q })
        (by rw [hstep, producerStep]; exact if_neg hcas) rfl rfl
      rw [hr]
      exact h.setProducer p r (by rw [hpc]; rfl) hm

/-- The spans of the others are off the position `p` stores to. -/
theorem Inv.off_span {k ct ch pt : Nat} {s : Sys P α} (h : Inv k ct ch pt s) {p p' : Fin P}
    (hp : p' ≠ p) {a n b m i j : Nat} (hs : (s.producers p).span = some (a, n))
    (hs' : (s.producers p').span = some (b, m)) (hj : j < n) (hi : b ≤ i) (hlt : i < b + m) :
    a + j ≠ i := by
  rcases h.disjoint p' p hp b m a n hs' hs with h | h
  · omega
  · omega

/-- What a slot store does, at iteration `j` of a copy from position `base`. -/
theorem producerStep_store {q : MpscQueue α} {k count : Nat} (hslots : q.slots = 2 ^ k)
    (hlen : q.queue.length = 2 ^ k) {mode : Mode} {mbufs : List α}
    {head insert since base j : Nat} {m : α} (hj : j < insert) (hinsert : insert < 2 ^ k)
    (hm : mbufs[j]? = some m) :
    producerStep q count
        (.store mode mbufs head insert since (Cursor.atStep (2 ^ k) base insert j)) =
      { pc := storeOrLeave mode mbufs head insert since
          (Cursor.atStep (2 ^ k) base insert (j + 1))
        q := { q with queue := q.queue.set ((base + j) % q.queue.length) m } } := by
  have hidx : (Cursor.atStep (2 ^ k) base insert j).queueIdx = (base + j) % q.queue.length := by
    rw [hlen]
    rfl
  have hidxlt : (base + j) % q.queue.length < q.queue.length := Nat.mod_lt _ (by omega)
  have hmbuf : (mbufs.take insert)[(Cursor.atStep (2 ^ k) base insert j).mbufIdx]? = some m := by
    rw [← hm]
    exact List.getElem?_take_of_lt hj
  rw [producerStep, hmbuf]
  dsimp only
  rw [hidx, if_pos hidxlt, hslots, Cursor.next_atStep hj hinsert]

theorem store_effect {k ct ch pt : Nat} {s : Sys P α} (h : Inv k ct ch pt s) {p : Fin P}
    {mode : Mode} {mbufs : List α} {head insert since : Nat} {c : Cursor}
    (hpc : s.producers p = .store mode mbufs head insert since c) :
    ∃ j m, j < insert ∧ mbufs[j]? = some m ∧
      Holding pt s.q.queue s.log mbufs head insert since j ∧
      producerStep s.q s.log.length (s.producers p) =
        { pc := storeOrLeave mode mbufs head insert since
            (Cursor.atStep (2 ^ k) since insert (j + 1))
          q := { s.q with queue := s.q.queue.set ((since + j) % s.q.queue.length) m } } := by
  have hok := h.producer p
  rw [hpc] at hok
  obtain ⟨-, j, hj, hc, hold⟩ := hok
  have hcnt := h.counters
  have h₁ := hcnt.ct_le
  have h₂ := hcnt.ch_le
  have h₃ := hcnt.room
  have hfits := hold.fits
  have hge := hold.ge
  have hle := hold.le
  have hk := hcnt.two_pow_pos
  have hm : mbufs[j]? = some mbufs[j] := List.getElem?_eq_getElem (by omega)
  refine ⟨j, mbufs[j], hj, hm, hold, ?_⟩
  rw [hpc, hc]
  exact producerStep_store hcnt.slots_eq hcnt.length_queue hj (by omega) hm

/-- A store to a slot of the own span shows up there and nowhere else between the
consumer's tail and the head. -/
theorem Inv.cell_store {k ct ch pt : Nat} {s : Sys P α} (h : Inv k ct ch pt s) {mbufs : List α}
    {head insert since j : Nat} (hold : Holding pt s.q.queue s.log mbufs head insert since j)
    (hj : j < insert) (m : α) {i : Nat} (hi : ct ≤ i) (hlt : i < s.log.length)
    (hne : since + j ≠ i) :
    cell (s.q.queue.set ((since + j) % s.q.queue.length) m) i = cell s.q.queue i := by
  have hcnt := h.counters
  have h₁ := hcnt.ct_le
  have h₂ := hcnt.ch_le
  have h₃ := hcnt.room
  have hlen := hcnt.length_queue
  have hfits := hold.fits
  have hge := hold.ge
  exact cell_set_ne hne (by omega) (by omega) _

/-- The stored part of a span grows by the store. -/
theorem Inv.holding_store {k ct ch pt : Nat} {s : Sys P α} (h : Inv k ct ch pt s)
    {mbufs : List α} {head insert since j : Nat} {m : α}
    (hold : Holding pt s.q.queue s.log mbufs head insert since j) (hj : j < insert)
    (hm : mbufs[j]? = some m) :
    Holding pt (s.q.queue.set ((since + j) % s.q.queue.length) m) s.log mbufs head insert since
      (j + 1) := by
  have hcnt := h.counters
  have hk := hcnt.two_pow_pos
  have h₁ := hcnt.ct_le
  have h₂ := hcnt.ch_le
  have hlen := hcnt.length_queue
  have hfits := hold.fits
  have hge := hold.ge
  refine { hold with stored := ?_ }
  intro i hi
  by_cases hij : i = j
  · rw [hij, cell_set_self (by omega), hm]
  · rw [h.cell_store hold hj m (by omega) (by omega) (by omega)]
    exact hold.stored i (by omega)

theorem span_storeOrLeave (mode : Mode) (mbufs : List α) (head insert since : Nat) (c : Cursor) :
    (storeOrLeave mode mbufs head insert since c).span = some (since, insert) := by
  unfold storeOrLeave
  split
  · rfl
  · cases mode <;> rfl

/-- After the last slot the single producer is first in line, the others have to wait. -/
theorem producerOk_storeOrLeave {k ct pt : Nat} {queue log : List α} {mode : Mode}
    {mbufs : List α} {head insert since j : Nat} (hm : mode = modeFor P)
    (hsole : P = 1 → since = pt) (hj : j < insert)
    (hold : Holding pt queue log mbufs head insert since (j + 1)) :
    ProducerOk k P ct pt queue log
      (storeOrLeave mode mbufs head insert since (Cursor.atStep (2 ^ k) since insert (j + 1))) := by
  unfold storeOrLeave
  rw [Cursor.more_atStep hj]
  by_cases hmore : j + 1 < insert
  · rw [if_pos (by simpa using hmore)]
    exact ⟨hm, j + 1, hmore, rfl, hold⟩
  · rw [if_neg (by simpa using hmore)]
    have hall : j + 1 = insert := by omega
    rw [hall] at hold
    cases mode with
    | sp => exact ⟨hold, hsole (modeFor_eq_sp hm)⟩
    | mp => exact hold

theorem inv_store {k ct ch pt : Nat} {s : Sys P α} (h : Inv k ct ch pt s) {p : Fin P}
    {mode : Mode} {mbufs : List α} {head insert since : Nat} {c : Cursor}
    (hpc : s.producers p = .store mode mbufs head insert since c) :
    Inv k ct ch pt (s.stepProducer p) ∧
      ∀ i, ct ≤ i → i < pt → cell (s.stepProducer p).q.queue i = cell s.q.queue i := by
  have hok := h.producer p
  have hspan : (s.producers p).span = some (since, insert) := by rw [hpc]; rfl
  rw [hpc] at hok
  obtain ⟨hm, -⟩ := hok
  obtain ⟨j, m, hj, hmj, hold, he⟩ := store_effect h hpc
  have hcnt := h.counters
  have h₁ := hcnt.ct_le
  have h₂ := hcnt.ch_le
  have h₃ := hcnt.pt_le
  have hge := hold.ge
  have hs' : s.stepProducer p =
      { s with
        q := { s.q with queue := s.q.queue.set ((since + j) % s.q.queue.length) m }
        producers := Function.update s.producers p
          (storeOrLeave mode mbufs head insert since (Cursor.atStep (2 ^ k) since insert (j + 1)))
        returns := s.returns ++ [] } := by
    unfold Sys.stepProducer
    rw [he]
    simp
  -- the spans stay as they are
  have hspans := spans_update ((span_storeOrLeave mode mbufs head insert since
    (Cursor.atStep (2 ^ k) since insert (j + 1))).trans hspan.symm)
  have hapart := h.apart
  have htiled := h.tiled
  rw [← hspans] at hapart htiled
  rw [hs']
  refine ⟨⟨?_, h.registered, ?_, ?_, hapart, htiled, h.consumer, h.obtained⟩, ?_⟩
  · exact { hcnt with length_queue := by rw [← hcnt.length_queue]; exact List.length_set }
  · intro i hi hlt
    show cell (s.q.queue.set _ _) i = s.log[i]?
    rw [h.cell_store hold hj m hi (by omega) (by omega)]
    exact h.published i hi hlt
  · refine (Function.forall_update_iff s.producers (fun _ pc => ProducerOk k P ct pt
      (s.q.queue.set ((since + j) % s.q.queue.length) m) s.log pc)).mpr
      ⟨producerOk_storeOrLeave hm (fun hP => h.sole hP hspan) hj (h.holding_store hold hj hmj),
        fun p' hp => ?_⟩
    rw [← List.append_nil s.log]
    refine (h.producer p').mono (Nat.le_refl _) (Nat.le_refl _) (fun _ => rfl) ?_ ?_
    · intro a n hsp
      obtain ⟨_, _, _, hh⟩ := (h.producer p').holding hsp
      exact hh.ge
    · intro a n hsp i hi hlt
      obtain ⟨_, _, _, hh⟩ := (h.producer p').holding hsp
      have hf := hh.fits
      have hg := hh.ge
      exact h.cell_store hold hj m (by omega) (by omega) (h.off_span hp hspan hsp hj hi hlt)
  · intro i hi hlt
    exact h.cell_store hold hj m hi (by omega) (by omega)

theorem inv_wait {k ct ch pt : Nat} {s : Sys P α} (h : Inv k ct ch pt s) {p : Fin P}
    {mbufs : List α} {head insert since : Nat}
    (hpc : s.producers p = .wait mbufs head insert since) :
    Inv k ct ch pt (s.stepProducer p) := by
  have hold := h.producer p
  rw [hpc] at hold
  have hold : Holding pt s.q.queue s.log mbufs head insert since insert := hold
  have hstep : producerStep s.q s.log.length (s.producers p) =
      producerStep s.q s.log.length (.wait mbufs head insert since) := by rw [hpc]
  by_cases hne : s.q.producer.tail ≠ head
  · obtain ⟨r, hr⟩ := stepProducer_quiet (s := s) (p := p)
      (e := { pc := .wait mbufs head insert since, q := s.q })
      (by rw [hstep, producerStep]; exact if_pos hne) rfl rfl
    rw [hr]
    exact h.setProducer p r (by rw [hpc]) hold
  · obtain ⟨r, hr⟩ := stepProducer_quiet (s := s) (p := p)
      (e := { pc := .commit mbufs head insert since, q := s.q })
      (by rw [hstep, producerStep]; exact if_neg hne) rfl rfl
    rw [hr]
    refine h.setProducer p r (by rw [hpc]; rfl) ⟨hold, ?_⟩
    -- the tail is at most `mask` behind, so equal counters are equal positions
    have heq := Decidable.not_not.mp hne
    have hcnt := h.counters
    rw [hcnt.prodTail_eq, hold.head_eq] at heq
    have hd := hcnt.double_le
    have h₁ := hcnt.ct_le
    have h₂ := hcnt.ch_le
    have h₃ := hcnt.room
    have hf := hold.fits
    have hg := hold.ge
    have e₁ := Nat.div_add_mod pt (2 ^ 64)
    have e₂ := Nat.div_add_mod since (2 ^ 64)
    rw [heq] at e₁
    omega

/-- The commit: the first uncommitted span becomes readable. -/
theorem inv_commit {k ct ch pt : Nat} {s : Sys P α} (h : Inv k ct ch pt s) {p : Fin P}
    {mbufs : List α} {head insert since : Nat}
    (hpc : s.producers p = .commit mbufs head insert since) :
    Inv k ct ch (pt + insert) (s.stepProducer p) := by
  have hok := h.producer p
  have hspan : (s.producers p).span = some (since, insert) := by rw [hpc]; rfl
  rw [hpc] at hok
  obtain ⟨hold, hpt⟩ := hok
  have hcnt := h.counters
  have hfits := hold.fits
  have hpos := hold.pos
  have hs' : s.stepProducer p =
      { s with
        q := { s.q with producer := { s.q.producer with tail := wrappingAdd 64 head insert } }
        producers := Function.update s.producers p .idle
        returns := s.returns ++ [(p, mbufs, insert)] } := by
    unfold Sys.stepProducer
    rw [hpc]
    simp [producerStep]
  -- the other spans lie behind the committed one
  have hbehind : ∀ p', p' ≠ p → ∀ a n, (s.producers p').span = some (a, n) → pt + insert ≤ a := by
    intro p' hp a n hsp
    obtain ⟨_, _, _, hh⟩ := (h.producer p').holding hsp
    have hg := hh.ge
    have hp' := hh.pos
    rcases h.disjoint p' p hp a n since insert hsp hspan with hd | hd
    · omega
    · omega
  rw [hs']
  refine ⟨?_, h.registered, ?_, ?_, ?_, ?_, ?_, h.obtained⟩
  · refine { hcnt with
      prodTail_eq := ?_, ch_le := Nat.le_trans hcnt.ch_le (Nat.le_add_right _ _), pt_le := ?_ }
    · show wrappingAdd 64 head insert = _
      rw [hold.head_eq, wrappingAdd_mod, hpt]
    · show pt + insert ≤ s.log.length
      omega
  · intro i hi hlt
    show cell s.q.queue i = s.log[i]?
    by_cases hold_i : i < pt
    · exact h.published i hi hold_i
    · -- a position of the committed span: stored, and reserved for the same mbuf
      obtain ⟨d, rfl⟩ := Nat.exists_eq_add_of_le (show since ≤ i by omega)
      rw [hold.stored d (by omega), hold.logged d (by omega)]
  · refine (Function.forall_update_iff s.producers
      (fun _ pc => ProducerOk k P ct (pt + insert) s.q.queue s.log pc)).mpr
      ⟨trivial, fun p' hp => ?_⟩
    rw [← List.append_nil s.log]
    exact (h.producer p').mono (Nat.le_refl _) (Nat.le_add_right _ _) (fun _ => rfl)
      (hbehind p' hp) (fun _ _ _ _ _ _ => rfl)
  · show Apart (ProducerPc.span ∘ Function.update s.producers p .idle)
    rw [Function.comp_update]
    exact h.apart.giveBack
  · show Tiled (ProducerPc.span ∘ Function.update s.producers p .idle) (pt + insert) s.log.length
    rw [Function.comp_update]
    exact h.tiled.giveBack (hspan.trans (by rw [hpt]))
  · show ConsumerOk k ct ch (pt + insert) s.log s.consumer
    rw [← List.append_nil s.log]
    exact h.consumer.mono (Nat.le_add_right _ _) (Nat.le_trans hcnt.ch_le hcnt.pt_le)

/-- Any access of a producer keeps the invariant, advancing at most the commit
point. -/
theorem inv_stepProducer {k ct ch pt : Nat} {s : Sys P α} (h : Inv k ct ch pt s) (p : Fin P)
    (hwrap : NoFullWrap s.log.length (s.producers p)) :
    ∃ pt', Inv k ct ch pt' (s.stepProducer p) := by
  cases hpc : s.producers p with
  | idle =>
    obtain ⟨r, hr⟩ := stepProducer_quiet (s := s) (p := p) (e := { pc := .idle, q := s.q })
      (by rw [hpc]; rfl) rfl rfl
    rw [hr]
    exact ⟨pt, h.setProducer p r (by rw [hpc]) trivial⟩
  | loadProducers mbufs => exact ⟨pt, inv_loadProducers h hpc⟩
  | loadHead mode mbufs => exact ⟨pt, inv_loadHead h hpc⟩
  | loadTail mode mbufs head since => exact ⟨pt, inv_loadTail h hpc⟩
  | reserve mode mbufs head insert since => exact ⟨pt, inv_reserve h hpc hwrap⟩
  | store mode mbufs head insert since c => exact ⟨pt, (inv_store h hpc).1⟩
  | wait mbufs head insert since => exact ⟨pt, inv_wait h hpc⟩
  | commit mbufs head insert since => exact ⟨pt + insert, inv_commit h hpc⟩
  | panicked why =>
    have hok := h.producer p
    rw [hpc] at hok
    exact hok.elim

/-! ## Steps of the consumer -/

/-- A step of the consumer that touches no counter. -/
theorem Inv.setConsumer {k ct ch pt : Nat} {s : Sys P α} (h : Inv k ct ch pt s)
    (pc : ConsumerPc α) (hok : ConsumerOk k ct ch pt s.log pc) :
    Inv k ct ch pt { s with consumer := pc } :=
  ⟨h.counters, h.registered, h.published, h.producer, h.disjoint, h.cover, hok, h.obtained⟩

theorem stepConsumer_quiet {s : Sys P α} {e : ConsumerEffect α}
    (he : consumerStep s.q s.consumer = e) (hq : e.q = s.q) (ho : e.obtained = []) :
    s.stepConsumer = { s with consumer := e.pc } := by
  unfold Sys.stepConsumer
  rw [he]
  dsimp only
  rw [hq, ho, List.append_nil]

theorem inv_consumer_loadTail {k ct ch pt : Nat} {s : Sys P α} (h : Inv k ct ch pt s)
    {mbufs : List α} {head : Nat} (hpc : s.consumer = .loadTail mbufs head) :
    Inv k ct ch pt s.stepConsumer := by
  have hok := h.consumer
  rw [hpc] at hok
  obtain ⟨hch, hh⟩ := hok
  have hcnt := h.counters
  have hd := hcnt.double_le
  have hlim : pt - ct < 2 ^ 64 := by
    have h₁ := hcnt.pt_le
    have h₂ := hcnt.room
    omega
  -- the wrapped difference is the number of readable slots
  have havail : wrappingSub 64 s.q.producer.tail head = pt - ct := by
    rw [hcnt.prodTail_eq, hh]
    exact wrappingSub_mod (Nat.le_trans hcnt.ct_le hcnt.ch_le) hlim
  have hstep : consumerStep s.q s.consumer =
      if min mbufs.length (pt - ct) > 0 then
        { pc := .reserve mbufs head (min mbufs.length (pt - ct)), q := s.q }
      else { pc := .idle, q := s.q } := by
    rw [hpc, consumerStep, havail]
  by_cases hpos : min mbufs.length (pt - ct) > 0
  · rw [if_pos hpos] at hstep
    rw [stepConsumer_quiet hstep rfl rfl]
    exact h.setConsumer _ ⟨hch, hh, hpos, by omega, by omega⟩
  · rw [if_neg hpos] at hstep
    rw [stepConsumer_quiet hstep rfl rfl]
    exact h.setConsumer _ hch

theorem inv_consumer_reserve {k ct ch pt : Nat} {s : Sys P α} (h : Inv k ct ch pt s)
    {mbufs : List α} {head n : Nat} (hpc : s.consumer = .reserve mbufs head n) :
    Inv k ct (ch + n) pt s.stepConsumer := by
  have hok := h.consumer
  rw [hpc] at hok
  obtain ⟨hch, hh, hpos, hle, hfit⟩ := hok
  have hcnt := h.counters
  have hk := hcnt.two_pow_pos
  have h₁ := hcnt.pt_le
  have h₂ := hcnt.room
  have hbegin : Cursor.begin s.q.slots s.q.mask head n = Cursor.atStep (2 ^ k) ct n 0 := by
    rw [hcnt.slots_eq]
    refine Cursor.begin_eq ?_ (by omega)
    rw [hh, hcnt.masked, hcnt.slots_eq]
  have hs' : s.stepConsumer =
      { s with
        q := { s.q with consumer := { s.q.consumer with head := wrappingAdd 64 head n } }
        consumer := .load mbufs head n (Cursor.atStep (2 ^ k) ct n 0) } := by
    unfold Sys.stepConsumer
    rw [hpc]
    simp only [consumerStep, hbegin, loadOrLeave, Cursor.more_atStep (Nat.zero_le n),
      List.append_nil, decide_eq_true_eq, if_pos hpos]
  rw [hs']
  refine ⟨?_, h.registered, h.published, h.producer, h.disjoint, h.cover, ?_, h.obtained⟩
  · refine { hcnt with consHead_eq := ?_, ct_le := ?_, ch_le := ?_ }
    · show wrappingAdd 64 head n = _
      rw [hh, wrappingAdd_mod, hch]
    · exact Nat.le_trans hcnt.ct_le (Nat.le_add_right _ _)
    · show ch + n ≤ pt
      omega
  · exact ⟨0, hpos, rfl, by rw [hch], hh, hpos, hle, fun i hi => absurd hi (Nat.not_lt_zero i)⟩

/-- A slot load copies the mbuf the slot was reserved for. -/
theorem inv_consumer_load {k ct ch pt : Nat} {s : Sys P α} (h : Inv k ct ch pt s)
    {mbufs : List α} {head n : Nat} {c : Cursor} (hpc : s.consumer = .load mbufs head n c) :
    Inv k ct ch pt s.stepConsumer := by
  have hok := h.consumer
  rw [hpc] at hok
  obtain ⟨j, hj, hc, htake⟩ := hok
  have hcnt := h.counters
  have hch := htake.ch_eq
  have hle := htake.le
  have h₁ := hcnt.ch_le
  have h₂ := hcnt.pt_le
  have h₃ := hcnt.room
  have hlenq := hcnt.length_queue
  have hk := hcnt.two_pow_pos
  obtain ⟨m, hm⟩ := cell_isSome (v := s.q.queue) (by omega) (ct + j)
  have hlog : s.log[ct + j]? = some m := by
    rw [← h.published (ct + j) (by omega) (by omega), hm]
  have hget : s.q.queue[c.queueIdx]? = some m := by
    rw [hc, ← hm, cell, hlenq]
    rfl
  have hidx : c.mbufIdx = j := by rw [hc]; rfl
  have hnext : c.next s.q.slots = Cursor.atStep (2 ^ k) ct n (j + 1) := by
    rw [hc, hcnt.slots_eq, Cursor.next_atStep hj (by omega)]
  have hstep : consumerStep s.q s.consumer =
      { pc := loadOrLeave (mbufs.set j m) head n (Cursor.atStep (2 ^ k) ct n (j + 1))
        q := s.q } := by
    rw [hpc, consumerStep, hget]
    dsimp only
    rw [hidx, if_pos (by omega), hnext]
  have htake' : Taking ct ch s.log (mbufs.set j m) head n (j + 1) := by
    refine { htake with le := by rw [List.length_set]; exact hle, taken := ?_ }
    intro i hi
    by_cases hij : i = j
    · rw [hij, List.getElem?_set_self (by omega), hlog]
    · rw [List.getElem?_set_ne (fun h => hij h.symm)]
      exact htake.taken i (by omega)
  rw [stepConsumer_quiet hstep rfl rfl]
  refine h.setConsumer _ ?_
  unfold loadOrLeave
  rw [Cursor.more_atStep hj]
  by_cases hmore : j + 1 < n
  · rw [if_pos (by simpa using hmore)]
    exact ⟨j + 1, hmore, rfl, htake'⟩
  · rw [if_neg (by simpa using hmore)]
    have hall : j + 1 = n := by omega
    rw [hall] at htake'
    exact htake'

/-- The consumer's commit frees the slots and hands over the mbufs. -/
theorem inv_consumer_commit {k ct ch pt : Nat} {s : Sys P α} (h : Inv k ct ch pt s)
    {mbufs : List α} {head n : Nat} (hpc : s.consumer = .commit mbufs head n) :
    Inv k (ct + n) ch pt s.stepConsumer := by
  have htake := h.consumer
  rw [hpc] at htake
  have htake : Taking ct ch s.log mbufs head n n := htake
  have hcnt := h.counters
  have hch := htake.ch_eq
  have hle := htake.le
  have h₁ := hcnt.ch_le
  have h₂ := hcnt.pt_le
  have hs' : s.stepConsumer =
      { s with
        q := { s.q with consumer := { s.q.consumer with tail := wrappingAdd 64 head n } }
        consumer := .idle
        obtained := s.obtained ++ mbufs.take n } := by
    unfold Sys.stepConsumer
    rw [hpc]
    rfl
  rw [hs']
  refine ⟨?_, h.registered, ?_, ?_, h.disjoint, h.cover, hch, ?_⟩
  · refine { hcnt with consTail_eq := ?_, ct_le := ?_, room := ?_ }
    · show wrappingAdd 64 head n = _
      rw [htake.head_eq, wrappingAdd_mod]
    · exact Nat.le_of_eq hch.symm
    · have := hcnt.room
      show s.log.length ≤ ct + n + (2 ^ k - 1)
      omega
  · intro i hi hlt
    exact h.published i (by omega) hlt
  · intro p
    show ProducerOk k P (ct + n) pt s.q.queue s.log (s.producers p)
    rw [← List.append_nil s.log]
    refine (h.producer p).mono (Nat.le_add_right _ _) (Nat.le_refl _) (fun _ => rfl) ?_
      (fun _ _ _ _ _ _ => rfl)
    intro a m hsp
    obtain ⟨_, _, _, hh⟩ := (h.producer p).holding hsp
    exact hh.ge
  · show s.obtained ++ mbufs.take n = s.log.take (ct + n)
    have htaken : mbufs.take n = (s.log.drop ct).take n := by
      apply List.ext_getElem?
      intro i
      by_cases hi : i < n
      · rw [List.getElem?_take_of_lt hi, List.getElem?_take_of_lt hi, List.getElem?_drop]
        exact htake.taken i hi
      · rw [List.getElem?_eq_none (by rw [List.length_take]; omega),
          List.getElem?_eq_none (by rw [List.length_take]; omega)]
    rw [h.obtained, htaken, List.take_add]

/-- Any access of the consumer keeps the invariant. -/
theorem inv_stepConsumer {k ct ch pt : Nat} {s : Sys P α} (h : Inv k ct ch pt s) :
    ∃ ct' ch', Inv k ct' ch' pt s.stepConsumer := by
  cases hpc : s.consumer with
  | idle =>
    have hok := h.consumer
    rw [hpc] at hok
    rw [stepConsumer_quiet (e := { pc := .idle, q := s.q }) (by rw [hpc]; rfl) rfl rfl]
    exact ⟨ct, ch, h.setConsumer _ hok⟩
  | loadHead mbufs =>
    have hok := h.consumer
    rw [hpc] at hok
    rw [stepConsumer_quiet (e := { pc := .loadTail mbufs s.q.consumer.head, q := s.q })
      (by rw [hpc]; rfl) rfl rfl]
    refine ⟨ct, ch, h.setConsumer _ ⟨hok, ?_⟩⟩
    have hch : ch = ct := hok
    rw [h.counters.consHead_eq, hch]
  | loadTail mbufs head => exact ⟨ct, ch, inv_consumer_loadTail h hpc⟩
  | reserve mbufs head n => exact ⟨ct, ch + n, inv_consumer_reserve h hpc⟩
  | load mbufs head n c => exact ⟨ct, ch, inv_consumer_load h hpc⟩
  | commit mbufs head n => exact ⟨ct + n, ch, inv_consumer_commit h hpc⟩
  | panicked why =>
    have hok := h.consumer
    rw [hpc] at hok
    exact hok.elim

/-! ## Every run -/

/-- One step of any thread keeps the invariant. -/
theorem inv_step {k ct ch pt : Nat} {s s' : Sys P α} (h : Inv k ct ch pt s) (hs : Step s s') :
    ∃ ct' ch' pt', Inv k ct' ch' pt' s' := by
  obtain ⟨a, hen, rfl⟩ := hs
  cases a with
  | enqueue p mbufs =>
    have hidle : s.producers p = .idle := hen
    exact ⟨ct, ch, pt, h.setProducer p s.returns (by rw [hidle]; rfl) trivial⟩
  | producer p =>
    obtain ⟨pt', h'⟩ := inv_stepProducer h p hen
    exact ⟨ct, ch, pt', h'⟩
  | dequeue mbufs =>
    have hidle : s.consumer = .idle := hen
    have hok := h.consumer
    rw [hidle] at hok
    exact ⟨ct, ch, pt, h.setConsumer (.loadHead mbufs) hok⟩
  | consumer =>
    obtain ⟨ct', ch', h'⟩ := inv_stepConsumer h
    exact ⟨ct', ch', pt, h'⟩

theorem referenceProducers_iterate (q : MpscQueue α) :
    ∀ n, MpscQueue.referenceProducers^[n] q = { q with nProducers := q.nProducers + n } := by
  intro n
  induction n with
  | zero => rfl
  | succ n ih =>
    rw [Function.iterate_succ_apply', ih]
    rfl

/-- The number of slots of a new queue is a power of two, reduced to a `usize`. -/
theorem newSlots_eq {size : Nat} (hpos : 1 ≤ size) (hsize : size < 2 ^ 64) :
    ∃ k, (if size &&& (size - 1) ≠ 0 then roundToPowerOf2 size else size) = 2 ^ k % 2 ^ 64 ∧
      size ≤ 2 ^ k := by
  by_cases hand : size &&& (size - 1) ≠ 0
  · have htwo : 2 ≤ size := by
      rcases Nat.lt_or_ge size 2 with hlt | hge
      · have : size = 1 := by omega
        subst this
        exact absurd rfl hand
      · exact hge
    obtain ⟨k, hk, hge, -⟩ := roundToPowerOf2_eq htwo hsize
    exact ⟨k, by rw [if_pos hand, hk], hge⟩
  · obtain ⟨k, hk⟩ := (Nat.and_sub_one_eq_zero_iff_isPowerOfTwo (by omega)).mp
      (Decidable.not_not.mp hand)
    refine ⟨k, ?_, Nat.le_of_eq hk⟩
    rw [if_neg hand, ← hk, Nat.mod_eq_of_lt hsize]

/-- A queue that `new` returns has a power of two of slots, and is empty. -/
theorem counters_of_new [Inhabited α] {size : Nat} {q : MpscQueue α} (hsize : size < 2 ^ 64)
    (h : MpscQueue.new size = .ok q) :
    ∃ k, Counters k 0 0 0 0 q ∧ q.nProducers = 0 ∧ size ≤ 2 ^ k := by
  unfold MpscQueue.new at h
  rw [Outcome.bind_eq_ok] at h
  obtain ⟨less, hless, h⟩ := h
  rw [Outcome.bind_eq_ok] at h
  obtain ⟨mask, hmask, h⟩ := h
  obtain ⟨hpos, rfl⟩ := checkedSub_eq_ok.mp hless
  injection h with h
  obtain ⟨k, hk, hge⟩ := newSlots_eq hpos hsize
  rw [hk] at hmask h
  obtain ⟨hslots, rfl⟩ := checkedSub_eq_ok.mp hmask
  have hlt : k < 64 := by
    rcases Nat.lt_or_ge k 64 with h | h
    · exact h
    · rw [Nat.mod_eq_zero_of_dvd (Nat.pow_dvd_pow 2 h)] at hslots
      exact absurd hslots (by decide)
  have hmod : 2 ^ k % 2 ^ 64 = 2 ^ k :=
    Nat.mod_eq_of_lt (Nat.pow_lt_pow_right (by decide) hlt)
  rw [hmod] at h
  subst h
  exact ⟨k, ⟨hlt, rfl, rfl, List.length_replicate, rfl, rfl, rfl, rfl, Nat.le_refl _,
    Nat.le_refl _, Nat.le_refl _, Nat.zero_le _⟩, rfl, hge⟩

/-- Registered producers on an empty queue satisfy the invariant. -/
theorem inv_init {k : Nat} {q : MpscQueue α} (hq : Counters k 0 0 0 0 q) (hn : q.nProducers = 0) :
    Inv k 0 0 0 (Sys.init P q) := by
  have hreg : MpscQueue.referenceProducers^[P] q = { q with nProducers := P } := by
    rw [referenceProducers_iterate, hn, Nat.zero_add]
  unfold Sys.init
  rw [hreg]
  refine ⟨⟨hq.lt, hq.slots_eq, hq.mask_eq, hq.length_queue, hq.consTail_eq, hq.consHead_eq,
    hq.prodTail_eq, hq.prodHead_eq, hq.ct_le, hq.ch_le, hq.pt_le, hq.room⟩, rfl, ?_, ?_, ?_, ?_,
    rfl, rfl⟩
  · intro i _ hlt
    exact absurd hlt (Nat.not_lt_zero i)
  · intro p
    trivial
  · intro p p' _ a n b m hsp
    cases hsp
  · intro i _ hlt
    exact absurd hlt (Nat.not_lt_zero i)

/-- The invariant holds in every state that is reached. -/
theorem reachable_inv {k : Nat} {q : MpscQueue α} (hq : Counters k 0 0 0 0 q)
    (hn : q.nProducers = 0) {s : Sys P α} (hs : Reachable q s) :
    ∃ ct ch pt, Inv k ct ch pt s := by
  induction hs with
  | refl => exact ⟨0, 0, 0, inv_init hq hn⟩
  | tail _ hstep ih =>
    obtain ⟨ct, ch, pt, h⟩ := ih
    exact inv_step h hstep

end NetBricks.Queues
