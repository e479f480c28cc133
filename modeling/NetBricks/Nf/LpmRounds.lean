import NetBricks.Nf.Lpm

/-!
# Longest-prefix match: what a table says after rounds of inserts

Prefixes are inserted in rounds, each of which ends with `construct_table`, run
over what the rounds before left in the tables. What was inserted is the history,
a list of `Insert`s; `latest` is what the hash map of a length holds for a key.

A round paints every prefix inserted so far, in increasing length, over the old
view, so the longest prefix containing an address decides; an address in no prefix
keeps the `0` of the empty table. `freshBlocks` counts the blocks a round hands
out, and as long as their total can be numbered in 15 bits, every prefix has a block
of its own.
-/

namespace NetBricks.Nf

open Lib Outcome

/-! ## Histories -/

/-- A call of `insert`. -/
structure Insert where
  ip : UInt32
  len : Nat
  gate : UInt16
  deriving DecidableEq, Repr

/-- Calls of `insert` and then `construct_table`. -/
structure Round where
  inserts : List Insert
  order : IterationOrder

def Round.perform (t : IPLookup) (r : Round) : Outcome IPLookup := do
  let t ← r.inserts.foldlM (fun t e => t.insert e.ip e.len e.gate) t
  t.constructTable r.order

/-- Rounds on a new table. -/
def build (rounds : List Round) : Outcome IPLookup := rounds.foldlM Round.perform IPLookup.new

/-- Everything that was inserted, in order. -/
def inserted (rounds : List Round) : List Insert := rounds.flatMap (·.inserts)

namespace Insert

/-- A prefix of at most 32 bits with zero host bits, and a gate that leaves the
overflow bit free. -/
structure Legal (e : Insert) : Prop where
  len_le : e.len ≤ 32
  aligned : Aligned e.len e.ip
  gate_lt : e.gate.toNat < 0x8000

/-- The address has the prefix. -/
def Contains (e : Insert) (x : UInt32) : Prop :=
  x.toNat / 2 ^ (32 - e.len) = e.ip.toNat / 2 ^ (32 - e.len)

end Insert

/-- What the inserts say about an address: the gate last inserted for the longest
prefix that contains it, and `0` if no prefix does. -/
def Routes (h : List Insert) (x : UInt32) (g : UInt16) : Prop :=
  (g = 0 ∧ ∀ e ∈ h, ¬ e.Contains x) ∨
  ∃ before e after, h = before ++ e :: after ∧ e.gate = g ∧ e.Contains x ∧
    (∀ e' ∈ h, e'.Contains x → e'.len ≤ e.len) ∧
    ∀ e' ∈ after, ¬ (e'.len = e.len ∧ e'.ip = e.ip)

/-- The gate last inserted for a prefix. -/
def latest (h : List Insert) (len : Nat) (ip : UInt32) : Option UInt16 :=
  (h.reverse.find? fun e => decide (e.len = len ∧ e.ip = ip)).map (·.gate)

theorem latest_append (h : List Insert) (e : Insert) (len : Nat) (ip : UInt32) :
    latest (h ++ [e]) len ip =
      if e.len = len ∧ e.ip = ip then some e.gate else latest h len ip := by
  unfold latest
  rw [List.reverse_append, List.reverse_singleton, List.singleton_append, List.find?_cons]
  by_cases he : e.len = len ∧ e.ip = ip
  · simp [he]
  · simp [he]

/-- The insert that `latest` is about, and that none after it is for the same prefix. -/
theorem latest_eq_some {h : List Insert} {len : Nat} {ip : UInt32} {g : UInt16}
    (hg : latest h len ip = some g) :
    ∃ before e after, h = before ++ e :: after ∧ e.len = len ∧ e.ip = ip ∧ e.gate = g ∧
      ∀ e' ∈ after, ¬ (e'.len = len ∧ e'.ip = ip) := by
  obtain ⟨e, hfind, rfl⟩ := Option.map_eq_some_iff.mp hg
  obtain ⟨he, after, before, hrev, hafter⟩ := List.find?_eq_some_iff_append.mp hfind
  obtain ⟨hlen, hip⟩ := of_decide_eq_true he
  refine ⟨before.reverse, e, after.reverse, ?_, hlen, hip, rfl, fun e' he' => ?_⟩
  · rw [← List.reverse_reverse h, hrev]
    simp
  · exact of_decide_eq_false ((Bool.not_eq_true' _).mp (hafter e' (List.mem_reverse.mp he')))

theorem latest_eq_none {h : List Insert} {len : Nat} {ip : UInt32} :
    latest h len ip = none ↔ ∀ e ∈ h, ¬ (e.len = len ∧ e.ip = ip) := by
  unfold latest
  simp [List.find?_eq_none]

theorem exists_latest {h : List Insert} {e : Insert} (he : e ∈ h) :
    ∃ g, latest h e.len e.ip = some g := by
  refine Option.ne_none_iff_exists'.mp fun hnone => ?_
  exact latest_eq_none.mp hnone e he ⟨rfl, rfl⟩

theorem mem_of_latest {h : List Insert} {len : Nat} {ip : UInt32} {g : UInt16}
    (hg : latest h len ip = some g) : ∃ e ∈ h, e.len = len ∧ e.ip = ip ∧ e.gate = g := by
  obtain ⟨before, e, after, rfl, hlen, hip, hgate, -⟩ := latest_eq_some hg
  exact ⟨e, by simp, hlen, hip, hgate⟩

/-! ## The longest match -/

/-- The prefix of a length that contains the address. -/
def network (x : UInt32) (len : Nat) : UInt32 :=
  .ofNat (x.toNat / 2 ^ (32 - len) * 2 ^ (32 - len))

theorem toNat_network (x : UInt32) (len : Nat) :
    (network x len).toNat = x.toNat / 2 ^ (32 - len) * 2 ^ (32 - len) := by
  have hle := Nat.div_mul_le_self x.toNat (2 ^ (32 - len))
  unfold network
  rw [UInt32.toNat_ofNat_of_lt' (hle.trans_lt x.toNat_lt)]

theorem network_eq_iff {x ip : UInt32} {len : Nat} (halign : Aligned len ip) :
    network x len = ip ↔ x.toNat / 2 ^ (32 - len) = ip.toNat / 2 ^ (32 - len) := by
  have hpos := Nat.two_pow_pos (32 - len)
  rw [← UInt32.toNat_inj, toNat_network]
  constructor
  · intro heq
    rw [← heq, Nat.mul_div_cancel _ hpos]
  · intro heq
    rw [heq, Nat.div_mul_cancel (Nat.dvd_of_mod_eq_zero halign)]

/-- The addresses of an aligned prefix are those whose network it is. -/
theorem addresses_covers {x : UInt32} {len : Nat} {kv : UInt32 × UInt16}
    (halign : Aligned len kv.1) :
    (addresses len kv).covers x.toNat = true ↔ network x len = kv.1 := by
  have hpos := Nat.two_pow_pos (32 - len)
  have hdiv := Nat.div_mul_cancel (Nat.dvd_of_mod_eq_zero halign)
  rw [network_eq_iff halign, Nat.div_eq_iff hpos, hdiv]
  unfold addresses
  rw [decide_eq_true_iff]
  omega

/-- The gate of the longest inserted prefix with the address, if there is one. -/
def bestGate (h : List Insert) (x : UInt32) : Option UInt16 :=
  (List.range rawSize).reverse.findSome? fun len => latest h len (network x len)

theorem bestGate_append_none {h h' : List Insert} {x : UInt32}
    (hnone : bestGate (h ++ h') x = none) : bestGate h x = none := by
  unfold bestGate at hnone ⊢
  rw [List.findSome?_eq_none_iff] at hnone ⊢
  intro len hlen
  have := latest_eq_none.mp (hnone len hlen)
  exact latest_eq_none.mpr fun e he => this e (List.mem_append_left _ he)

theorem routes_bestGate {h : List Insert} (hlegal : ∀ e ∈ h, e.Legal) (x : UInt32) :
    Routes h x ((bestGate h x).getD 0) := by
  -- a prefix that contains the address is found under the address's network
  have hfound : ∀ e ∈ h, e.Contains x → latest h e.len (network x e.len) ≠ none := by
    intro e he hx hnone
    exact latest_eq_none.mp hnone e he
      ⟨rfl, ((network_eq_iff (hlegal e he).aligned).mpr hx).symm⟩
  cases hbest : bestGate h x with
  | none =>
    refine Or.inl ⟨rfl, fun e he hx => hfound e he hx ?_⟩
    have hlen := (hlegal e he).len_le
    exact List.findSome?_eq_none_iff.mp hbest e.len (by simp [rawSize]; omega)
  | some g =>
    obtain ⟨len, hlen, hg, hlonger⟩ := findSome?_range_reverse hbest
    obtain ⟨before, e, after, rfl, rfl, hip, rfl, hafter⟩ := latest_eq_some hg
    have he : e ∈ before ++ e :: after := by simp
    refine Or.inr ⟨before, e, after, rfl, rfl, ?_, fun e' he' hx => ?_, ?_⟩
    · exact (network_eq_iff (hlegal e he).aligned).mp hip.symm
    · by_contra hlt
      have hlen' := (hlegal e' he').len_le
      exact hfound e' he' hx (hlonger e'.len (by unfold rawSize; omega) (by omega))
    · rwa [← hip] at hafter

/-! ## The hash maps -/

/-- The maps hold what was last inserted: one map for each length (`length`), in which a prefix
has the gate of the latest insert of it, in this round or an earlier one. -/
structure Holds (raw : List (Std.HashMap UInt32 UInt16)) (h : List Insert) : Prop where
  length : raw.length = rawSize
  len_lt : ∀ e ∈ h, e.len < rawSize
  getElem? : ∀ len m, raw[len]? = some m → ∀ ip, m[ip]? = latest h len ip

theorem Holds.new : Holds IPLookup.new.rawEntries [] := by
  refine ⟨List.length_replicate, fun e he => absurd he List.not_mem_nil, fun len m hm ip => ?_⟩
  obtain ⟨-, rfl⟩ := List.mem_replicate.mp (List.mem_of_getElem? hm)
  exact Std.HashMap.getElem?_empty

theorem Holds.insert {t t' : IPLookup} {h : List Insert} {e : Insert}
    (hraw : Holds t.rawEntries h) (hok : t.insert e.ip e.len e.gate = .ok t') :
    ∃ raw, t' = { t with rawEntries := raw } ∧ Holds raw (h ++ [e]) := by
  rw [IPLookup.insert, bind_eq_ok] at hok
  obtain ⟨m, hm, hok⟩ := hok
  rw [index_eq_ok] at hm
  have hlt := (List.getElem?_eq_some_iff.mp hm).1
  refine ⟨_, (Outcome.ok.inj hok).symm, ?_, fun e' he' => ?_, fun len m' hm' ip => ?_⟩
  · rw [List.length_set]
    exact hraw.length
  · rcases List.mem_append.mp he' with he' | he'
    · exact hraw.len_lt e' he'
    · rw [List.mem_singleton.mp he', ← hraw.length]
      exact hlt
  · rw [latest_append]
    by_cases hlen : e.len = len
    · subst hlen
      rw [List.getElem?_set_self hlt] at hm'
      obtain rfl := Option.some.inj hm'
      rw [Std.HashMap.getElem?_insert, hraw.getElem? _ m hm]
      simp
    · rw [List.getElem?_set_ne hlen] at hm'
      rw [if_neg fun hc => hlen hc.1]
      exact hraw.getElem? len m' hm' ip

theorem Holds.insert_total {t : IPLookup} {h : List Insert} {e : Insert}
    (hraw : Holds t.rawEntries h) (hlen : e.len ≤ 32) :
    ∃ t', t.insert e.ip e.len e.gate = .ok t' := by
  have hlt : e.len < t.rawEntries.length := by
    rw [hraw.length, rawSize]
    omega
  rw [IPLookup.insert, index_of_some (List.getElem?_eq_getElem hlt)]
  exact ⟨_, rfl⟩

/-- The inserts of a round change only the maps. -/
theorem Holds.inserts {t t' : IPLookup} {h es : List Insert} (hraw : Holds t.rawEntries h)
    (hok : es.foldlM (fun t e => IPLookup.insert t e.ip e.len e.gate) t = .ok t') :
    ∃ raw, t' = { t with rawEntries := raw } ∧ Holds raw (h ++ es) := by
  have hfold : ∀ (es h : List Insert), es.foldl (fun h e => h ++ [e]) h = h ++ es := by
    intro es
    induction es with
    | nil => simp
    | cons e es ih => simp [ih]
  rw [← hfold]
  refine foldlM_invariant _
    (R := fun t' h => ∃ raw, t' = { t with rawEntries := raw } ∧ Holds raw h)
    (fun e _ s h s' hR hs => ?_) ⟨t.rawEntries, rfl, hraw⟩ hok
  obtain ⟨raw, rfl, hraw⟩ := hR
  obtain ⟨raw', rfl, hraw'⟩ := Holds.insert (t := { t with rawEntries := raw }) hraw hs
  exact ⟨raw', rfl, hraw'⟩

theorem Holds.inserts_total {t : IPLookup} {h es : List Insert} (hraw : Holds t.rawEntries h)
    (hlen : ∀ e ∈ es, e.len ≤ 32) :
    ∃ t', es.foldlM (fun t e => IPLookup.insert t e.ip e.len e.gate) t = .ok t' := by
  obtain ⟨t', hok, -⟩ := foldlM_simulates (fun h e => h ++ [e]) (fun _ => True)
    (R := fun (t : IPLookup) h => Holds t.rawEntries h) (fun _ _ _ => trivial)
    (fun e he s h hs _ => by
      obtain ⟨s', hok⟩ := hs.insert_total (hlen e he)
      obtain ⟨raw, rfl, hraw⟩ := hs.insert hok
      exact ⟨_, hok, hraw⟩) hraw trivial
  exact ⟨t', hok⟩

/-! ## One `construct_table` -/

/-- The entries of one length, in the order they are yielded. -/
def entriesOf (order : IterationOrder) (raw : List (Std.HashMap UInt32 UInt16)) (i : Nat) :
    List (UInt32 × UInt16) := order.of i (raw[i]?.getD ∅).toList

/-- The entries of some lengths, with their lengths, in the order they are placed. -/
def placements (order : IterationOrder) (raw : List (Std.HashMap UInt32 UInt16)) (is : List Nat) :
    List (Nat × UInt32 × UInt16) := is.flatMap fun i => (entriesOf order raw i).map (i, ·)

theorem mem_entriesOf {order : IterationOrder} {raw : List (Std.HashMap UInt32 UInt16)}
    {h : List Insert} (hraw : Holds raw h) {i : Nat} (hi : i < rawSize) {kv : UInt32 × UInt16} :
    kv ∈ entriesOf order raw i ↔ latest h i kv.1 = some kv.2 := by
  have hlt : i < raw.length := hraw.length ▸ hi
  have hm : raw[i]? = some raw[i] := List.getElem?_eq_getElem hlt
  unfold entriesOf
  rw [(order.perm i _).mem_iff, hm, Option.getD_some, ← hraw.getElem? i _ hm kv.1]
  exact Std.HashMap.mem_toList_iff_getElem?_eq_some

theorem mem_placements {order : IterationOrder} {raw : List (Std.HashMap UInt32 UInt16)}
    {h : List Insert} (hraw : Holds raw h) {is : List Nat} (his : ∀ i ∈ is, i < rawSize)
    {o : Nat × UInt32 × UInt16} :
    o ∈ placements order raw is ↔ o.1 ∈ is ∧ latest h o.1 o.2.1 = some o.2.2 := by
  unfold placements
  simp only [List.mem_flatMap, List.mem_map]
  constructor
  · intro hmem
    obtain ⟨i, hi, kv, hkv, rfl⟩ := hmem
    exact ⟨hi, (mem_entriesOf hraw (his i hi)).mp hkv⟩
  · intro hlatest
    exact ⟨o.1, hlatest.1, o.2, (mem_entriesOf hraw (his _ hlatest.1)).mpr hlatest.2, rfl⟩

theorem place_rawEntries {t t' : IPLookup} {i : Nat} {kv : UInt32 × UInt16}
    (hok : t.place i kv = .ok t') : t'.rawEntries = t.rawEntries := by
  unfold IPLookup.place at hok
  split at hok
  · rw [IPLookup.placeShort, bind_eq_ok] at hok
    obtain ⟨tbl24, -, hok⟩ := hok
    cases hok
    rfl
  · rw [IPLookup.placeLong, bind_eq_ok] at hok
    obtain ⟨e, -, hok⟩ := hok
    split at hok
    · rw [bind_eq_ok] at hok
      obtain ⟨tblLong, -, hok⟩ := hok
      rw [bind_eq_ok] at hok
      obtain ⟨tbl24, -, hok⟩ := hok
      cases hok
      rfl
    · rw [bind_eq_ok] at hok
      obtain ⟨tblLong, -, hok⟩ := hok
      cases hok
      rfl

/-- The entries of one length, placed one after another. -/
def placeAll (order : IterationOrder) (raw : List (Std.HashMap UInt32 UInt16)) (t : IPLookup)
    (i : Nat) : Outcome IPLookup := (entriesOf order raw i).foldlM (IPLookup.place i) t

theorem placeAll_rawEntries {order : IterationOrder} {raw : List (Std.HashMap UInt32 UInt16)}
    {t t' : IPLookup} {i : Nat} (ht : t.rawEntries = raw) (hok : placeAll order raw t i = .ok t') :
    t'.rawEntries = raw :=
  foldlM_keeps (I := fun t : IPLookup => t.rawEntries = raw)
    (fun _ _ _ _ hs hok => (place_rawEntries hok).trans hs) ht hok

/-- One of the two loops of `construct_table`. The maps do not change on the way. -/
theorem loop_eq {order : IterationOrder} {raw : List (Std.HashMap UInt32 UInt16)} {is : List Nat}
    {body : Nat → IPLookup → UInt32 × UInt16 → Outcome IPLookup}
    (hbody : ∀ i ∈ is, i < raw.length ∧ body i = IPLookup.place i) {t : IPLookup}
    (ht : t.rawEntries = raw) :
    is.foldlM (fun t i => do
      let m ← index t.rawEntries i
      (order.of i m.toList).foldlM (body i) t) t = is.foldlM (placeAll order raw) t := by
  refine foldlM_congr (I := fun t => t.rawEntries = raw)
    (fun i _ s s' hs hok => placeAll_rawEntries hs hok) (fun i hi s hs => ?_) ht
  obtain ⟨hlt, hplace⟩ := hbody i hi
  have hm : raw[i]? = some raw[i] := List.getElem?_eq_getElem hlt
  rw [hs, index_of_some hm, bind_ok, hplace, placeAll, entriesOf, hm, Option.getD_some]

theorem range_rawSize :
    List.range rawSize = List.range' 0 25 ++ List.range' 25 (rawSize - 25) := by decide

/-- `construct_table` places the entries one after another. -/
theorem constructTable_eq {t : IPLookup} (order : IterationOrder)
    (hlen : t.rawEntries.length = rawSize) :
    t.constructTable order =
      (placements order t.rawEntries (List.range rawSize)).foldlM
        (fun t o => t.place o.1 o.2) t := by
  have hshort : ∀ i ∈ List.range' 0 25,
      i < t.rawEntries.length ∧ IPLookup.placeShort i = IPLookup.place i := by
    intro i hi
    have hlt : i < 25 := by simpa using hi
    refine ⟨by rw [hlen, rawSize]; omega, ?_⟩
    funext s kv
    exact (if_pos hlt).symm
  have hlong : ∀ i ∈ List.range' 25 (rawSize - 25),
      i < t.rawEntries.length ∧ IPLookup.placeLong i = IPLookup.place i := by
    intro i hi
    have hge := List.mem_range'_1.mp hi
    rw [rawSize] at hge
    refine ⟨by rw [hlen, rawSize]; omega, ?_⟩
    funext s kv
    exact (if_neg (by omega)).symm
  have hplacements : (placements order t.rawEntries (List.range rawSize)).foldlM
      (fun t o => t.place o.1 o.2) t =
      (List.range rawSize).foldlM (placeAll order t.rawEntries) t := by
    unfold placements
    rw [foldlM_flatMap]
    simp only [List.foldlM_map]
    rfl
  rw [hplacements, range_rawSize, List.foldlM_append, IPLookup.constructTable, loop_eq hshort rfl]
  cases hmid : (List.range' 0 25).foldlM (placeAll order t.rawEntries) t with
  | ok s =>
    refine loop_eq hlong (?_ : s.rawEntries = t.rawEntries)
    exact foldlM_keeps (I := fun s : IPLookup => s.rawEntries = t.rawEntries)
      (fun _ _ _ _ hs hok => placeAll_rawEntries hs hok) rfl hmid
  | panic w => rfl
  | timeout => rfl

/-! ## The blocks a round hands out -/

/-- The 24-bit prefixes that have a longer prefix below them. -/
def longs (h : List Insert) : Finset Nat :=
  ((h.filter fun e => 25 ≤ e.len).map fun e => e.ip.toNat / 256).toFinset

/-- A 24-bit prefix that a short prefix covers. -/
def Covered (h : List Insert) (p : Nat) : Prop :=
  ∃ e ∈ h, e.len < 25 ∧ e.ip.toNat / 256 ≤ p ∧ p < e.ip.toNat / 256 + 2 ^ (24 - e.len)

instance (h : List Insert) (p : Nat) : Decidable (Covered h p) :=
  inferInstanceAs (Decidable (∃ e ∈ h, _))

/-- How many blocks `construct_table` hands out: one for each prefix that needs one
and has none, either because it had none before or because a short prefix was
written over its entry. -/
def freshBlocks (before now : List Insert) : Nat :=
  ((longs now).filter fun p => p ∉ longs before ∨ Covered now p).card

/-- The history and the number of blocks after one more round. -/
def tally (s : List Insert × Nat) (r : Round) : List Insert × Nat :=
  (s.1 ++ r.inserts, s.2 + freshBlocks s.1 (s.1 ++ r.inserts))

/-- How many blocks all the rounds hand out. -/
def blocksAllocated (rounds : List Round) : Nat := (rounds.foldl tally ([], 0)).2

theorem foldl_tally_fst (rounds : List Round) (s : List Insert × Nat) :
    (rounds.foldl tally s).1 = s.1 ++ inserted rounds := by
  induction rounds generalizing s with
  | nil => simp [inserted]
  | cons r rounds ih => simp [ih, inserted, tally]

theorem mem_longs {h : List Insert} {p : Nat} :
    p ∈ longs h ↔ ∃ e ∈ h, 25 ≤ e.len ∧ e.ip.toNat / 256 = p := by
  unfold longs
  simp [and_assoc]

namespace Allocation

/-- Short prefixes only take blocks out of use. -/
theorem foldl_short {ops : List (Nat × UInt32 × UInt16)} (hops : ∀ o ∈ ops, o.1 < 25)
    (a : Allocation) :
    ops.foldl (fun a o => a.place o.1 o.2.1) a =
      ⟨a.live.filter fun p => ∀ o ∈ ops,
        ¬ (o.2.1.toNat / 256 ≤ p ∧ p < o.2.1.toNat / 256 + 2 ^ (24 - o.1)), a.blocks⟩ := by
  induction ops generalizing a with
  | nil => simp
  | cons o ops ih =>
    rw [List.foldl_cons, ih (fun q hq => hops q (List.mem_cons_of_mem o hq)), place,
      if_pos (hops o List.mem_cons_self), Finset.filter_filter]
    simp only [List.forall_mem_cons]

/-- Long prefixes hand out one block for each of their first 24 bits that has none. -/
theorem foldl_long {ops : List (Nat × UInt32 × UInt16)} (hops : ∀ o ∈ ops, ¬ o.1 < 25)
    (a : Allocation) :
    ops.foldl (fun a o => a.place o.1 o.2.1) a =
      ⟨a.live ∪ (ops.map fun o => o.2.1.toNat / 256).toFinset,
        a.blocks + ((ops.map fun o => o.2.1.toNat / 256).toFinset \ a.live).card⟩ := by
  induction ops generalizing a with
  | nil => simp
  | cons o ops ih =>
    rw [List.foldl_cons, ih (fun q hq => hops q (List.mem_cons_of_mem o hq)), place,
      if_neg (hops o List.mem_cons_self), List.map_cons, List.toFinset_cons]
    by_cases hp : o.2.1.toNat / 256 ∈ a.live
    · rw [if_pos hp, Finset.insert_sdiff_of_mem _ hp, Finset.union_insert,
        Finset.insert_eq_of_mem (Finset.mem_union_left _ hp)]
    · have hcard := Finset.card_erase_add_one (Finset.mem_insert_self (o.2.1.toNat / 256)
        ((ops.map fun o => o.2.1.toNat / 256).toFinset \ a.live))
      rw [Finset.erase_insert_eq_erase] at hcard
      rw [if_neg hp, Finset.insert_sdiff_of_notMem _ hp, Finset.insert_union, Finset.union_insert,
        Finset.sdiff_insert, ← hcard]
      congr 1
      dsimp only
      omega

end Allocation

section Placements

variable {order : IterationOrder} {raw : List (Std.HashMap UInt32 UInt16)} {now : List Insert}

theorem short_lengths : ∀ i ∈ List.range' 0 25, i < rawSize ∧ i < 25 := by decide

theorem long_lengths : ∀ i ∈ List.range' 25 (rawSize - 25), i < rawSize ∧ ¬ i < 25 := by decide

theorem mem_short_placements (hraw : Holds raw now) {o : Nat × UInt32 × UInt16} :
    o ∈ placements order raw (List.range' 0 25) ↔
      o.1 ∈ List.range' 0 25 ∧ latest now o.1 o.2.1 = some o.2.2 :=
  mem_placements hraw fun i hi => (short_lengths i hi).1

theorem mem_long_placements (hraw : Holds raw now) {o : Nat × UInt32 × UInt16} :
    o ∈ placements order raw (List.range' 25 (rawSize - 25)) ↔
      o.1 ∈ List.range' 25 (rawSize - 25) ∧ latest now o.1 o.2.1 = some o.2.2 :=
  mem_placements hraw fun i hi => (long_lengths i hi).1

theorem insert_of_placement (hraw : Holds raw now) {o : Nat × UInt32 × UInt16}
    (ho : o ∈ placements order raw (List.range rawSize)) :
    ∃ e ∈ now, e.len = o.1 ∧ e.ip = o.2.1 ∧ e.gate = o.2.2 :=
  mem_of_latest ((mem_placements hraw fun _ => List.mem_range.mp).mp ho).2

theorem longs_placements (hraw : Holds raw now) :
    ((placements order raw (List.range' 25 (rawSize - 25))).map
      fun o => o.2.1.toNat / 256).toFinset = longs now := by
  ext p
  rw [List.mem_toFinset, List.mem_map, mem_longs]
  constructor
  · intro hp
    obtain ⟨o, ho, hp⟩ := hp
    obtain ⟨hi, hlatest⟩ := (mem_long_placements hraw).mp ho
    obtain ⟨e, he, hlen, hip, -⟩ := mem_of_latest hlatest
    have := (long_lengths _ hi).2
    exact ⟨e, he, by omega, by rw [hip, hp]⟩
  · intro hp
    obtain ⟨e, he, hlen, hp⟩ := hp
    obtain ⟨g, hg⟩ := exists_latest he
    have hlt := hraw.len_lt e he
    refine ⟨(e.len, e.ip, g), (mem_long_placements hraw).mpr ⟨?_, hg⟩, hp⟩
    rw [List.mem_range'_1]
    unfold rawSize at hlt ⊢
    omega

theorem covered_placements (hraw : Holds raw now) (p : Nat) :
    (∀ o ∈ placements order raw (List.range' 0 25),
      ¬ (o.2.1.toNat / 256 ≤ p ∧ p < o.2.1.toNat / 256 + 2 ^ (24 - o.1))) ↔ ¬ Covered now p := by
  constructor
  · intro hnone hcov
    obtain ⟨e, he, hlen, hp⟩ := hcov
    obtain ⟨g, hg⟩ := exists_latest he
    exact hnone (e.len, e.ip, g) ((mem_short_placements hraw).mpr
      ⟨List.mem_range'_1.mpr ⟨Nat.zero_le _, by omega⟩, hg⟩) hp
  · intro hnone o ho hp
    obtain ⟨hi, hlatest⟩ := (mem_short_placements hraw).mp ho
    obtain ⟨e, he, hlen, hip, -⟩ := mem_of_latest hlatest
    have := (short_lengths _ hi).2
    exact hnone ⟨e, he, by omega, by rwa [hip, hlen]⟩

/-- What `construct_table` does to the blocks: afterwards those that have a longer
prefix below them are the ones that hold one. -/
theorem foldl_placements (order : IterationOrder) {before : List Insert} (hraw : Holds raw now)
    (hsub : before ⊆ now) (n : Nat) :
    (placements order raw (List.range rawSize)).foldl (fun a o => Allocation.place a o.1 o.2.1)
      ⟨longs before, n⟩ = ⟨longs now, n + freshBlocks before now⟩ := by
  have hgrow : longs before ⊆ longs now := by
    intro p hp
    obtain ⟨e, he, hrest⟩ := mem_longs.mp hp
    exact mem_longs.mpr ⟨e, hsub he, hrest⟩
  have hsplit : placements order raw (List.range rawSize) =
      placements order raw (List.range' 0 25) ++
        placements order raw (List.range' 25 (rawSize - 25)) := by
    unfold placements
    rw [range_rawSize, List.flatMap_append]
  rw [hsplit, List.foldl_append,
    Allocation.foldl_short fun o ho => (short_lengths _ ((mem_short_placements hraw).mp ho).1).2,
    Allocation.foldl_long fun o ho => (long_lengths _ ((mem_long_placements hraw).mp ho).1).2,
    longs_placements hraw]
  congr 1
  · exact Finset.union_eq_right.mpr ((Finset.filter_subset _ _).trans hgrow)
  · unfold freshBlocks
    congr 2
    ext p
    simp only [Finset.mem_sdiff, Finset.mem_filter, covered_placements hraw]
    tauto

end Placements

/-! ## Rounds -/

/-- A table after rounds that inserted `h` and handed out `n` blocks: the maps still hold all
inserts, the gates of short prefixes leave the overflow bit free, and the blocks are those of
the long ones. -/
structure After (t : IPLookup) (h : List Insert) (n : Nat) : Prop where
  holds : Holds t.rawEntries h
  gates : ∀ e ∈ h, e.len < 25 → e.gate &&& overflowMask = 0
  placed : ∃ block, Placed t ⟨longs h, n⟩ block

theorem After.new : After IPLookup.new [] 0 := by
  refine ⟨Holds.new, fun e he => absurd he List.not_mem_nil, fun _ => 0, rfl, rfl, rfl,
    fun p _ => ?_, fun p hp => ?_, fun p hp => ?_⟩
  · simp [IPLookup.new]
  · simp [longs] at hp
  · simp [longs] at hp

theorem new_view (x : UInt32) : IPLookup.new.view x.toNat = (bestGate [] x).getD 0 := by
  have hnone : bestGate [] x = none := List.findSome?_eq_none_iff.mpr fun _ _ => rfl
  rw [hnone]
  simp [IPLookup.view, IPLookup.new]

/-- The maps are no part of what the entries say. -/
theorem Placed.withRaw {t : IPLookup} {a : Allocation} {block : Nat → Nat} (h : Placed t a block)
    (raw : List (Std.HashMap UInt32 UInt16)) : Placed { t with rawEntries := raw } a block :=
  ⟨h.size24, h.sizeLong, h.current, h.short, h.long, h.apart⟩

/-- What a round keeps, whatever it inserts, if it returns. -/
theorem After.perform {t t' : IPLookup} {h : List Insert} {n : Nat} {r : Round}
    (ht : After t h n) (hgates : ∀ e ∈ r.inserts, e.len < 25 → e.gate &&& overflowMask = 0)
    (hok : r.perform t = .ok t') :
    After t' (h ++ r.inserts) (n + freshBlocks h (h ++ r.inserts)) := by
  rw [Round.perform, bind_eq_ok] at hok
  obtain ⟨t₁, hins, hok⟩ := hok
  obtain ⟨raw, rfl, hraw⟩ := ht.holds.inserts hins
  obtain ⟨block, hP⟩ := ht.placed
  have hall : ∀ e ∈ h ++ r.inserts, e.len < 25 → e.gate &&& overflowMask = 0 := by
    intro e he
    rcases List.mem_append.mp he with he | he
    · exact ht.gates e he
    · exact hgates e he
  rw [constructTable_eq _ hraw.length] at hok
  have hkeep := foldlM_invariant (fun a (o : Nat × UInt32 × UInt16) => a.place o.1 o.2.1)
    (R := fun (t' : IPLookup) a => t'.rawEntries = raw ∧ ∃ block, Placed t' a block)
    (fun o ho s a s' hs hstep => by
      obtain ⟨hs, block, hP⟩ := hs
      obtain ⟨e, he, hlen, -, hgate⟩ := insert_of_placement hraw ho
      exact ⟨(place_rawEntries hstep).trans hs, hP.place (hlen ▸ hgate ▸ hall e he) hstep⟩)
    ⟨rfl, block, hP.withRaw raw⟩ hok
  rw [foldl_placements _ hraw (List.subset_append_left _ _)] at hkeep
  exact ⟨hkeep.1 ▸ hraw, hall, hkeep.2⟩

theorem After.build {rounds : List Round} {t : IPLookup}
    (hgates : ∀ e ∈ inserted rounds, e.len < 25 → e.gate &&& overflowMask = 0)
    (hok : build rounds = .ok t) :
    After t (inserted rounds) (blocksAllocated rounds) := by
  have hkeep := foldlM_invariant tally (R := fun t s => After t s.1 s.2)
    (fun r hr s a s' hs hstep => hs.perform
      (fun e he => hgates e (List.mem_flatMap.mpr ⟨r, hr, he⟩)) hstep) (a := ([], 0))
    After.new hok
  rwa [foldl_tally_fst] at hkeep

/-- The blocks and the view, folded along together. -/
theorem foldl_place_paint (ops : List (Nat × UInt32 × UInt16)) (a : Allocation)
    (f : Nat → UInt16) :
    ops.foldl (fun s o => (s.1.place o.1 o.2.1, (addresses o.1 o.2).paint s.2)) (a, f) =
      (ops.foldl (fun a o => a.place o.1 o.2.1) a,
        paintAll f (ops.map fun o => addresses o.1 o.2)) := by
  induction ops generalizing a f with
  | nil => rfl
  | cons o ops ih => exact ih _ _

/-- An insert that is legal can be placed, wherever the tables stand. -/
theorem construct_total {t : IPLookup} {h : List Insert} {a : Allocation} {block : Nat → Nat}
    (order : IterationOrder) (hraw : Holds t.rawEntries h) (hlegal : ∀ e ∈ h, e.Legal)
    (hP : Placed t a block)
    (hblocks : ((placements order t.rawEntries (List.range rawSize)).foldl
      (fun a o => a.place o.1 o.2.1) a).blocks ≤ 2 ^ 16) :
    ∃ t', t.constructTable order = .ok t' ∧
      (((placements order t.rawEntries (List.range rawSize)).foldl
        (fun a o => a.place o.1 o.2.1) a).blocks ≤ 2 ^ 15 →
        t'.view = paintAll t.view ((placements order t.rawEntries (List.range rawSize)).map
          fun o => addresses o.1 o.2)) := by
  obtain ⟨t', hok, hR⟩ := foldlM_simulates
    (f := fun (t : IPLookup) (o : Nat × UInt32 × UInt16) => t.place o.1 o.2)
    (fun (s : Allocation × (Nat → UInt16)) o =>
      (s.1.place o.1 o.2.1, (addresses o.1 o.2).paint s.2))
    (fun s => s.1.blocks ≤ 2 ^ 16)
    (R := fun t s => (∃ block, Placed t s.1 block) ∧ (s.1.blocks ≤ 2 ^ 15 → t.view = s.2))
    (l := placements order t.rawEntries (List.range rawSize)) (s := t) (a := (a, t.view))
    (fun s o hgood => (s.1.blocks_le_place o.1 o.2.1).trans hgood)
    (fun o ho s f hs hgood => by
      obtain ⟨⟨block, hP⟩, hview⟩ := hs
      obtain ⟨e, he, hlen, hip, hgate⟩ := insert_of_placement hraw ho
      have halign : Aligned o.1 o.2.1 := hlen ▸ hip ▸ (hlegal e he).aligned
      have hsmall : o.2.2 &&& overflowMask = 0 :=
        hgate ▸ and_overflowMask_eq_zero.mpr (hlegal e he).gate_lt
      obtain ⟨s', hstep⟩ := hP.place_total halign hgood
      refine ⟨s', hstep, hP.place (fun _ => hsmall) hstep, fun hle => ?_⟩
      rw [place_view hP halign hsmall hle hstep,
        hview ((f.1.blocks_le_place o.1 o.2.1).trans hle)])
    ⟨⟨block, hP⟩, fun _ => rfl⟩ (by rw [foldl_place_paint]; exact hblocks)
  rw [foldl_place_paint] at hR
  refine ⟨t', ?_, hR.2⟩
  rw [constructTable_eq order hraw.length]
  exact hok

/-- Painting everything that was inserted over a view that knew some of it. -/
theorem paintAll_placements {order : IterationOrder} {raw : List (Std.HashMap UInt32 UInt16)}
    {h : List Insert} (hraw : Holds raw h) (hlegal : ∀ e ∈ h, e.Legal) (f : Nat → UInt16)
    (x : UInt32) :
    paintAll f ((placements order raw (List.range rawSize)).map fun o => addresses o.1 o.2)
        x.toNat = (bestGate h x).getD (f x.toNat) := by
  have halign : ∀ i < rawSize, ∀ kv ∈ entriesOf order raw i, Aligned i kv.1 := by
    intro i hi kv hkv
    obtain ⟨e, he, hlen, hip, -⟩ := mem_of_latest ((mem_entriesOf hraw hi).mp hkv)
    exact hlen ▸ hip ▸ (hlegal e he).aligned
  have hlayers : (placements order raw (List.range rawSize)).map (fun o => addresses o.1 o.2) =
      (List.range rawSize).flatMap fun i => (entriesOf order raw i).map (addresses i) := by
    unfold placements
    rw [List.map_flatMap]
    simp only [List.map_map]
    rfl
  rw [hlayers]
  refine paintAll_ranks (fun i hi l hl hcov => ?_) (fun i hi g hg => ?_) f
  · obtain ⟨kv, hkv, rfl⟩ := List.mem_map.mp hl
    rw [(addresses_covers (halign i hi kv hkv)).mp hcov]
    exact (mem_entriesOf hraw hi).mp hkv
  · have hkv : (network x i, g) ∈ entriesOf order raw i := (mem_entriesOf hraw hi).mpr hg
    exact ⟨_, List.mem_map_of_mem hkv, (addresses_covers (halign i hi _ hkv)).mpr rfl⟩

/-- A round of legal inserts succeeds while there are blocks, and afterwards the
table says what the longest prefix says. -/
theorem After.perform_total {t : IPLookup} {h : List Insert} {n : Nat} {r : Round}
    (ht : After t h n) (hlegal : ∀ e ∈ h ++ r.inserts, e.Legal)
    (hview : n ≤ 2 ^ 15 → ∀ x : UInt32, t.view x.toNat = (bestGate h x).getD 0)
    (hblocks : n + freshBlocks h (h ++ r.inserts) ≤ 2 ^ 16) :
    ∃ t', r.perform t = .ok t' ∧ (n + freshBlocks h (h ++ r.inserts) ≤ 2 ^ 15 →
      ∀ x : UInt32, t'.view x.toNat = (bestGate (h ++ r.inserts) x).getD 0) := by
  obtain ⟨block, hP⟩ := ht.placed
  obtain ⟨t₁, hins⟩ := ht.holds.inserts_total fun e he =>
    (hlegal e (List.mem_append_right _ he)).len_le
  obtain ⟨raw, rfl, hraw⟩ := ht.holds.inserts hins
  have hfold := foldl_placements r.order hraw (List.subset_append_left _ _) n
  obtain ⟨t', hok, hpaint⟩ := construct_total (t := { t with rawEntries := raw }) r.order hraw
    hlegal (hP.withRaw raw) (by rw [hfold]; exact hblocks)
  rw [hfold] at hpaint
  refine ⟨t', by rw [Round.perform, hins, bind_ok]; exact hok, fun hle x => ?_⟩
  rw [hpaint hle, paintAll_placements hraw hlegal]
  cases hbest : bestGate (h ++ r.inserts) x with
  | some g => rfl
  | none =>
    -- no prefix contains the address now, so none did before
    refine (hview (by omega) x).trans ?_
    rw [bestGate_append_none hbest]

/-- Rounds of legal inserts succeed while there are blocks. -/
theorem build_total {rounds : List Round} (hlegal : ∀ e ∈ inserted rounds, e.Legal)
    (hblocks : blocksAllocated rounds ≤ 2 ^ 16) :
    ∃ t, build rounds = .ok t ∧ After t (inserted rounds) (blocksAllocated rounds) ∧
      (blocksAllocated rounds ≤ 2 ^ 15 →
        ∀ x : UInt32, t.view x.toNat = (bestGate (inserted rounds) x).getD 0) := by
  have hlegalRound : ∀ r ∈ rounds, ∀ e ∈ r.inserts, e.Legal := fun r hr e he =>
    hlegal e (List.mem_flatMap.mpr ⟨r, hr, he⟩)
  obtain ⟨t, hok, hR⟩ := foldlM_simulates (f := Round.perform) tally (fun s => s.2 ≤ 2 ^ 16)
    (R := fun t s => (∀ e ∈ s.1, e.Legal) ∧ After t s.1 s.2 ∧
      (s.2 ≤ 2 ^ 15 → ∀ x : UInt32, t.view x.toNat = (bestGate s.1 x).getD 0))
    (l := rounds) (s := IPLookup.new) (a := ([], 0))
    (fun s r hgood => (Nat.le_add_right _ _).trans hgood)
    (fun r hr t s hs hgood => by
      obtain ⟨hold, hafter, hview⟩ := hs
      have hall : ∀ e ∈ s.1 ++ r.inserts, e.Legal := by
        intro e he
        rcases List.mem_append.mp he with he | he
        · exact hold e he
        · exact hlegalRound r hr e he
      obtain ⟨t', hok, hview'⟩ := hafter.perform_total hall hview hgood
      exact ⟨t', hok, hall, hafter.perform (fun e he _ =>
        and_overflowMask_eq_zero.mpr (hlegalRound r hr e he).gate_lt) hok, hview'⟩)
    ⟨fun e he => absurd he List.not_mem_nil, After.new, fun _ => new_view⟩ hblocks
  rw [foldl_tally_fst] at hR
  exact ⟨t, hok, hR.2.1, hR.2.2⟩

theorem Placed.lookupEntry {t : IPLookup} {a : Allocation} {block : Nat → Nat}
    (h : Placed t a block) (x : UInt32) : t.lookupEntry x = .ok (t.view x.toNat) := by
  have hsize24 := h.size24
  have hsizeLong := h.sizeLong
  unfold tbl24Size at hsize24 hsizeLong
  have hx := toNat_div_lt x
  unfold IPLookup.lookupEntry IPLookup.view
  dsimp only
  rw [IPLookup.shiftRight_eight, Cells.get_of_lt (by omega), bind_ok, IPLookup.and_ff,
    IPLookup.shiftLeft_eight, ← blockOf]
  by_cases hcell : t.tbl24.cell (x.toNat / 256) &&& overflowMask = 0
  · rw [if_neg (by simp [hcell]), if_pos hcell]
  · have hblock := blockOf_lt (t.tbl24.cell (x.toNat / 256))
    rw [if_pos (UInt16.pos_iff_ne_zero.mpr hcell), if_neg hcell, Cells.get_of_lt (by omega)]

/-- After any rounds of legal inserts that together need no more blocks than 15
bits can number, every lookup gives the gate last inserted for the longest prefix
that contains the address. -/
theorem lookupEntry_routes (rounds : List Round) (hlegal : ∀ e ∈ inserted rounds, e.Legal)
    (hblocks : blocksAllocated rounds ≤ 32768) :
    ∃ t, build rounds = .ok t ∧ t.currentTblLong = 256 * blocksAllocated rounds ∧
      ∀ x, ∃ g, t.lookupEntry x = .ok g ∧ Routes (inserted rounds) x g := by
  obtain ⟨t, hok, hafter, hview⟩ := build_total hlegal (by omega)
  obtain ⟨block, hP⟩ := hafter.placed
  refine ⟨t, hok, hP.current, fun x => ⟨_, hP.lookupEntry x, ?_⟩⟩
  rw [hview hblocks x]
  exact routes_bestGate hlegal x

/-- The maps yield their entries as `toList` does. -/
def IterationOrder.asListed : IterationOrder := ⟨fun _ l => l, fun _ l => .refl l⟩

/-- A short prefix over a long one, then a longer one and the short one again. -/
def twoRounds : List Round :=
  [⟨[⟨0x0a000000, 8, 1⟩, ⟨0x0a000000, 25, 2⟩], .asListed⟩,
   ⟨[⟨0x0a000080, 32, 3⟩, ⟨0x0a000000, 8, 4⟩], .asListed⟩]

theorem twoRounds_legal : ∀ e ∈ inserted twoRounds, e.Legal := by
  have hall : ∀ e ∈ inserted twoRounds,
      e.len ≤ 32 ∧ Aligned e.len e.ip ∧ e.gate.toNat < 0x8000 := by decide
  intro e he
  exact ⟨(hall e he).1, (hall e he).2.1, (hall e he).2.2⟩

theorem twoRounds_blocks : blocksAllocated twoRounds = 2 := by decide

theorem lookupEntry_routes_twoRounds :
    ∃ t, build twoRounds = .ok t ∧ t.currentTblLong = 256 * blocksAllocated twoRounds ∧
      ∀ x, ∃ g, t.lookupEntry x = .ok g ∧ Routes (inserted twoRounds) x g :=
  lookupEntry_routes twoRounds twoRounds_legal (by rw [twoRounds_blocks]; decide)

end NetBricks.Nf
