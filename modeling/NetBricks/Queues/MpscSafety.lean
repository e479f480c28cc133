import NetBricks.Queues.MpscInv

/-!
# Safety of the queue under every interleaving

What the invariant of `MpscInv` says to a user of the queue, in terms of the
counters and slots the code has:

* the counters stay in order, read modulo `2 ^ 64` (`Ordered`);
* a step changes no slot between the consumer's tail and the producers' tail
  (`step_keeps`);
* what the consumer has obtained, followed by what is readable, is the front of
  the log of accepted mbufs in reservation order, and all of it once no
  reservation is open;
* the log itself consists of the accepted prefixes of the batches: producer by
  producer, the reservations are the completed calls' `batch[..result]` and the
  one in flight (`Accounted`).
-/

namespace NetBricks.Queues

open Lib

variable {α : Type} {P : Nat}

/-! ## Reservations are the accepted prefixes -/

/-- The accepted prefix of the call a producer is in the middle of. -/
def ProducerPc.inFlight : ProducerPc α → List (List α)
  | .store _ mbufs _ insert _ _ => [mbufs.take insert]
  | .wait mbufs _ insert _ => [mbufs.take insert]
  | .commit mbufs _ insert _ => [mbufs.take insert]
  | _ => []

/-- The reservations of one producer, in order. -/
def reservationsOf (s : Sys P α) (p : Fin P) : List (List α) :=
  (s.reservations.filter (fun r => r.1 = p)).map Prod.snd

/-- The non-empty accepted prefixes of some completed calls. -/
def acceptedPrefixes (calls : List (List α × Nat)) : List (List α) :=
  (calls.map (fun r => r.1.take r.2)).filter (fun xs => !xs.isEmpty)

/-- The completed calls of one producer, in order: the batch and the result. -/
def callsOf (s : Sys P α) (p : Fin P) : List (List α × Nat) :=
  (s.returns.filter (fun r => r.1 = p)).map Prod.snd

/-- A producer's reservations are the accepted prefixes of its completed calls,
and of the one in flight. -/
def Accounted (s : Sys P α) (p : Fin P) : Prop :=
  reservationsOf s p = acceptedPrefixes (callsOf s p) ++ (s.producers p).inFlight

theorem acceptedPrefixes_append (c₁ c₂ : List (List α × Nat)) :
    acceptedPrefixes (c₁ ++ c₂) = acceptedPrefixes c₁ ++ acceptedPrefixes c₂ := by
  unfold acceptedPrefixes
  rw [List.map_append, List.filter_append]

theorem storeOrLeave_inFlight (mode : Mode) (mbufs : List α) (head insert since : Nat)
    (c : Cursor) :
    (storeOrLeave mode mbufs head insert since c).inFlight = [mbufs.take insert] := by
  unfold storeOrLeave
  split
  · rfl
  · cases mode <;> rfl

theorem reserved_inFlight (q : MpscQueue α) (mode : Mode) (mbufs : List α)
    (head insert since : Nat) :
    (reserved q mode mbufs head insert since).pc.inFlight = [mbufs.take insert] :=
  storeOrLeave_inFlight mode mbufs head insert since _

/-- What an access reserves is in flight afterwards; what a call returns was in
flight before. -/
theorem producerStep_accounts {k ct ch pt : Nat} {s : Sys P α} (h : Inv k ct ch pt s)
    (p : Fin P) :
    (s.producers p).inFlight ++ (producerStep s.q s.log.length (s.producers p)).accepted.toList =
      acceptedPrefixes (producerStep s.q s.log.length (s.producers p)).returned.toList ++
        (producerStep s.q s.log.length (s.producers p)).pc.inFlight := by
  have hok := h.producer p
  cases hpc : s.producers p with
  | idle => rfl
  | loadProducers mbufs =>
    dsimp only [producerStep]
    split
    · split <;> rfl
    · rfl
  | loadHead mode mbufs => rfl
  | loadTail mode mbufs head since =>
    dsimp only [producerStep]
    split <;> rfl
  | reserve mode mbufs head insert since =>
    cases mode with
    | sp =>
      show [] ++ [mbufs.take insert] =
        [] ++ (reserved s.q .sp mbufs head insert since).pc.inFlight
      rw [reserved_inFlight]
    | mp =>
      dsimp only [producerStep]
      split
      · show [] ++ [mbufs.take insert] =
          [] ++ (reserved s.q .mp mbufs head insert since).pc.inFlight
        rw [reserved_inFlight]
      · rfl
  | store mode mbufs head insert since c =>
    obtain ⟨j, m, -, -, -, he⟩ := store_effect h hpc
    rw [← hpc, he, hpc]
    show [mbufs.take insert] ++ [] = [] ++ (storeOrLeave _ _ _ _ _ _).inFlight
    rw [storeOrLeave_inFlight]
    rfl
  | wait mbufs head insert since =>
    dsimp only [producerStep]
    split <;> rfl
  | commit mbufs head insert since =>
    rw [hpc] at hok
    have hne : (mbufs.take insert).isEmpty = false := by
      have hpos := hok.1.pos
      have hle := hok.1.le
      rw [List.isEmpty_eq_false_iff, ← List.length_pos_iff, List.length_take_of_le hle]
      exact hpos
    show [mbufs.take insert] ++ [] =
      ([mbufs.take insert].filter (fun xs => !xs.isEmpty)) ++ []
    rw [List.filter_cons_of_pos (by simp [hne])]
    rfl
  | panicked why => rfl

theorem filter_snd_append_toList {β : Type} (l : List (Fin P × β)) (o : Option β) (p p' : Fin P) :
    ((l ++ (o.map (fun b => (p, b))).toList).filter (fun r => r.1 = p')).map Prod.snd =
      (l.filter (fun r => r.1 = p')).map Prod.snd ++ if p = p' then o.toList else [] := by
  rw [List.filter_append, List.map_append]
  congr 1
  cases o with
  | none => simp
  | some b =>
    by_cases hp : p = p'
    · simp [hp]
    · simp [hp]

/-- Every step keeps the account of every producer. -/
theorem accounted_step {k ct ch pt : Nat} {s s' : Sys P α} (h : Inv k ct ch pt s)
    (hacc : ∀ p, Accounted s p) (hs : Step s s') (p' : Fin P) : Accounted s' p' := by
  obtain ⟨a, hen, rfl⟩ := hs
  cases a with
  | enqueue p mbufs =>
    have hidle : s.producers p = .idle := hen
    have hprev := hacc p'
    unfold Accounted at hprev ⊢
    show reservationsOf s p' = acceptedPrefixes (callsOf s p') ++
      (Function.update s.producers p (.loadProducers mbufs) p').inFlight
    by_cases hp : p' = p
    · subst hp
      rw [Function.update_self, hprev, hidle]
      rfl
    · rw [Function.update_of_ne hp]
      exact hprev
  | producer p =>
    have hprev := hacc p'
    have hstep := producerStep_accounts h p
    unfold Accounted at hprev ⊢
    show (List.filter _ (s.reservations ++ _)).map Prod.snd =
      acceptedPrefixes ((List.filter _ (s.returns ++ _)).map Prod.snd) ++
        (Function.update s.producers p _ p').inFlight
    rw [filter_snd_append_toList, filter_snd_append_toList]
    by_cases hp : p = p'
    · subst hp
      rw [if_pos rfl, if_pos rfl, Function.update_self, acceptedPrefixes_append,
        List.append_assoc, ← hstep, ← List.append_assoc]
      exact congrArg (· ++ _) hprev
    · rw [if_neg hp, if_neg hp, Function.update_of_ne (fun h => hp h.symm), List.append_nil,
        List.append_nil]
      exact hprev
  | dequeue mbufs => exact hacc p'
  | consumer => exact hacc p'

/-- The invariant together with the accounts, in every state that is reached. -/
theorem reachable_accounted {k : Nat} {q : MpscQueue α} (hq : Counters k 0 0 0 0 q)
    (hn : q.nProducers = 0) {s : Sys P α} (hs : Reachable q s) (p : Fin P) : Accounted s p := by
  induction hs generalizing p with
  | refl => rfl
  | tail hrun hstep ih =>
    obtain ⟨ct, ch, pt, h⟩ := reachable_inv hq hn hrun
    exact accounted_step h ih hstep p

/-! ## Slots are not overwritten -/

/-- Only a slot store changes the slots. -/
theorem producerStep_queue (q : MpscQueue α) (count : Nat) (pc : ProducerPc α)
    (h : ∀ mode mbufs head insert since c, pc ≠ .store mode mbufs head insert since c) :
    (producerStep q count pc).q.queue = q.queue := by
  cases pc with
  | loadProducers mbufs =>
    dsimp only [producerStep]
    split
    · split <;> rfl
    · rfl
  | loadTail mode mbufs head since =>
    dsimp only [producerStep]
    split <;> rfl
  | reserve mode mbufs head insert since =>
    cases mode with
    | sp => rfl
    | mp =>
      dsimp only [producerStep]
      split <;> rfl
  | wait mbufs head insert since =>
    dsimp only [producerStep]
    split <;> rfl
  | store mode mbufs head insert since c => exact absurd rfl (h mode mbufs head insert since c)
  | idle => rfl
  | loadHead mode mbufs => rfl
  | commit mbufs head insert since => rfl
  | panicked why => rfl

theorem consumerStep_queue (q : MpscQueue α) (pc : ConsumerPc α) :
    (consumerStep q pc).q.queue = q.queue := by
  cases pc with
  | loadTail mbufs head =>
    dsimp only [consumerStep]
    split <;> rfl
  | load mbufs head n c =>
    dsimp only [consumerStep]
    split
    · rfl
    · split <;> rfl
  | idle => rfl
  | loadHead mbufs => rfl
  | reserve mbufs head n => rfl
  | commit mbufs head n => rfl
  | panicked why => rfl

/-- No step changes a slot that is committed and not yet released. -/
theorem step_keeps {k ct ch pt : Nat} {s s' : Sys P α} (h : Inv k ct ch pt s) (hs : Step s s')
    {i : Nat} (hi : ct ≤ i) (hlt : i < pt) : cell s'.q.queue i = cell s.q.queue i := by
  obtain ⟨a, -, rfl⟩ := hs
  cases a with
  | enqueue p mbufs => rfl
  | producer p =>
    show cell (s.stepProducer p).q.queue i = _
    cases hpc : s.producers p with
    | store mode mbufs head insert since c => exact (inv_store h hpc).2 i hi hlt
    | _ =>
      refine congrArg (cell · i) (producerStep_queue s.q s.log.length (s.producers p) ?_)
      rw [hpc]
      intros
      exact nofun
  | dequeue mbufs => rfl
  | consumer => exact congrArg (cell · i) (consumerStep_queue s.q s.consumer)

/-! ## What the users of the queue see -/

/-- `consumer.tail <= consumer.head <= producer.tail <= producer.head <=
consumer.tail + mask`, read modulo `2 ^ 64`: as distances from the consumer's
tail. -/
def Ordered (q : MpscQueue α) : Prop :=
  wrappingSub 64 q.consumer.head q.consumer.tail ≤
      wrappingSub 64 q.producer.tail q.consumer.tail ∧
    wrappingSub 64 q.producer.tail q.consumer.tail ≤
      wrappingSub 64 q.producer.head q.consumer.tail ∧
    wrappingSub 64 q.producer.head q.consumer.tail ≤ q.mask

/-- How many slots are committed and not yet released. -/
def readableCount (q : MpscQueue α) : Nat := wrappingSub 64 q.producer.tail q.consumer.tail

/-- What these slots hold, oldest first. -/
def readable (q : MpscQueue α) : List α := window q.queue q.consumer.tail (readableCount q)

/-- The distance of a counter from the consumer's tail. -/
theorem Counters.distance {k ct ch pt ph : Nat} {q : MpscQueue α} (h : Counters k ct ch pt ph q)
    {i : Nat} (hi : ct ≤ i) (hph : i ≤ ph) :
    wrappingSub 64 (i % 2 ^ 64) q.consumer.tail = i - ct := by
  have hd := h.double_le
  have hr := h.room
  have hk := h.two_pow_pos
  rw [h.consTail_eq]
  exact wrappingSub_mod hi (by omega)

theorem Counters.readableCount_eq {k ct ch pt ph : Nat} {q : MpscQueue α}
    (h : Counters k ct ch pt ph q) : readableCount q = pt - ct := by
  unfold readableCount
  rw [h.prodTail_eq]
  exact h.distance (Nat.le_trans h.ct_le h.ch_le) h.pt_le

theorem Counters.ordered {k ct ch pt ph : Nat} {q : MpscQueue α} (h : Counters k ct ch pt ph q) :
    Ordered q := by
  have h₁ := h.ct_le
  have h₂ := h.ch_le
  have h₃ := h.pt_le
  have h₄ := h.room
  unfold Ordered
  rw [h.consHead_eq, h.prodTail_eq, h.prodHead_eq, h.distance h₁ (by omega),
    h.distance (by omega) h₃, h.distance (by omega) (Nat.le_refl _), h.mask_eq]
  omega

/-- The slot `d` after the consumer's tail is the one of position `ct + d`. -/
theorem Counters.cell_eq {k ct ch pt ph : Nat} {q : MpscQueue α} (h : Counters k ct ch pt ph q)
    {v : List α} (hv : v.length = 2 ^ k) (d : Nat) :
    cell v (q.consumer.tail + d) = cell v (ct + d) := by
  have hdvd : (2 : Nat) ^ k ∣ 2 ^ 64 := Nat.pow_dvd_pow 2 (Nat.le_of_lt h.lt)
  unfold cell
  rw [h.consTail_eq, hv, Nat.add_mod (ct % 2 ^ 64) d, Nat.mod_mod_of_dvd ct hdvd, ← Nat.add_mod]

/-- The readable slots hold the log between the consumer's tail and the commit
point. -/
theorem Inv.readable_eq {k ct ch pt : Nat} {s : Sys P α} (h : Inv k ct ch pt s) :
    readable s.q = (s.log.drop ct).take (pt - ct) := by
  have hcnt := h.counters
  have h₁ := hcnt.ct_le
  have h₂ := hcnt.ch_le
  have h₃ := hcnt.pt_le
  have h₄ := hcnt.room
  have hk := hcnt.two_pow_pos
  have hlen := hcnt.length_queue
  have hsize : ((s.log.drop ct).take (pt - ct)).length = pt - ct := by
    rw [List.length_take, List.length_drop]
    omega
  have hwin := eq_window (v := s.q.queue) (l := (s.log.drop ct).take (pt - ct)) (p := ct)
    (by omega) (by
      intro i hi
      rw [List.getElem?_take_of_lt (by omega), List.getElem?_drop]
      exact (h.published (ct + i) (by omega) (by omega)).symm)
  rw [hsize] at hwin
  unfold readable
  rw [hcnt.readableCount_eq, hcnt.consTail_eq, window_mod, hwin]
  rw [hlen]
  exact Nat.pow_dvd_pow 2 (Nat.le_of_lt hcnt.lt)

theorem Inv.obtained_append_readable {k ct ch pt : Nat} {s : Sys P α} (h : Inv k ct ch pt s) :
    s.obtained ++ readable s.q = s.log.take pt := by
  have h₁ := h.counters.ct_le
  have h₂ := h.counters.ch_le
  rw [h.obtained, h.readable_eq, ← List.take_add, Nat.add_sub_cancel' (Nat.le_trans h₁ h₂)]

/-- Without an open reservation everything reserved is committed. -/
theorem Inv.all_committed {k ct ch pt : Nat} {s : Sys P α} (h : Inv k ct ch pt s)
    (hquiet : ∀ p, (s.producers p).span = none) : pt = s.log.length := by
  have hle := h.counters.pt_le
  by_contra hne
  obtain ⟨p, a, n, hs, -⟩ := h.cover pt (Nat.le_refl _) (by omega)
  rw [hquiet p] at hs
  cases hs

/-- **Safety of the queue.** For any number of producers registered on a new
queue of any size, and every interleaving of their accesses and the consumer's:
the counters stay in order; no step changes a slot the consumer has not finished
with; what the consumer has obtained and what is readable is the front of the
accepted mbufs in reservation order, and all of them when no reservation is
open; and each producer's reservations are the accepted prefixes of its
batches. -/
theorem mpsc_safe [Inhabited α] {size : Nat} (hsize : size < 2 ^ 64) {q : MpscQueue α}
    (hnew : MpscQueue.new size = .ok q) {s : Sys P α} (hs : Reachable q s) :
    Ordered s.q ∧
    (∀ s', Step s s' → ∀ d, d < readableCount s.q →
      cell s'.q.queue (s.q.consumer.tail + d) = cell s.q.queue (s.q.consumer.tail + d)) ∧
    s.obtained ++ readable s.q <+: s.log ∧
    ((∀ p, (s.producers p).span = none) → s.obtained ++ readable s.q = s.log) ∧
    ∀ p, Accounted s p := by
  obtain ⟨k, hq, hn, -⟩ := counters_of_new hsize hnew
  obtain ⟨ct, ch, pt, h⟩ := reachable_inv hq hn hs
  have hcnt := h.counters
  refine ⟨hcnt.ordered, ?_, ?_, ?_, reachable_accounted hq hn hs⟩
  · intro s' hstep d hd
    rw [hcnt.readableCount_eq] at hd
    obtain ⟨ct', ch', pt', h'⟩ := inv_step h hstep
    rw [hcnt.cell_eq h'.counters.length_queue, hcnt.cell_eq hcnt.length_queue]
    exact step_keeps h hstep (by omega) (by omega)
  · rw [h.obtained_append_readable]
    exact List.take_prefix pt s.log
  · intro hquiet
    rw [h.obtained_append_readable, h.all_committed hquiet, List.take_length]

/-- Each action is enabled when its turn comes. -/
def AllEnabled : Sys P α → List (Action P α) → Prop
  | _, [] => True
  | s, a :: acts => Enabled s a ∧ AllEnabled (s.act a) acts

/-- The run that performs the actions one after another. -/
theorem reachable_foldl {q : MpscQueue α} :
    ∀ (acts : List (Action P α)) {s : Sys P α}, Reachable q s → AllEnabled s acts →
      Reachable q (acts.foldl Sys.act s) := by
  intro acts
  induction acts with
  | nil => intro s hs _; exact hs
  | cons a acts ih => intro s hs hen; exact ih (hs.tail ⟨a, hen.1, rfl⟩) hen.2

/-- Two producers on four slots. Both load the same head; producer 1 reserves
first, so producer 0's compare-exchange fails, it reserves behind, and it has to
wait for the commit of producer 1. -/
def contendedRun : List (Action 2 Nat) :=
  [.enqueue 0 [7, 8], .enqueue 1 [9], .producer 0, .producer 1, .producer 0, .producer 1,
    .producer 0, .producer 1, .producer 1, .producer 0, .producer 0, .producer 0, .producer 0,
    .producer 0, .producer 0, .producer 0, .producer 1, .producer 1, .producer 1, .producer 0,
    .producer 0, .dequeue [0, 0, 0, 0], .consumer, .consumer, .consumer, .consumer, .consumer,
    .consumer, .consumer]

/-- The queue it runs on. -/
def contendedQueue : MpscQueue Nat :=
  { slots := 4, mask := 3, producer := ⟨0, 0⟩, consumer := ⟨0, 0⟩, queue := [0, 0, 0, 0],
    nProducers := 0 }

theorem contendedRun_reachable :
    Reachable contendedQueue (contendedRun.foldl Sys.act (Sys.init 2 contendedQueue)) := by
  refine reachable_foldl contendedRun .refl ?_
  unfold contendedRun
  repeat' apply And.intro
  all_goals first | rfl | trivial | (show (_ : Nat) < _ ; decide)

theorem mpsc_safe_contended :
    (contendedRun.foldl Sys.act (Sys.init 2 contendedQueue)).obtained = [9, 7, 8] ∧
    Ordered (contendedRun.foldl Sys.act (Sys.init 2 contendedQueue)).q ∧
    ∀ p, Accounted (contendedRun.foldl Sys.act (Sys.init 2 contendedQueue)) p := by
  have hsafe := @mpsc_safe Nat 2 _ 4 (by decide) contendedQueue rfl _ contendedRun_reachable
  exact ⟨by decide, hsafe.1, hsafe.2.2.2.2⟩

end NetBricks.Queues
