import NetBricks.Config.Reader

/-!
# When a configuration is read faithfully

The integers of a configuration should be those of the document, and a document with an
integer of another type or width should be turned away (`Lawful`). The reader turns away
all that is not `Readable`, with a configuration error (`readDocument_error`), but it
accepts more than it should. An integer is 64 bits wide in the document and is cut to 32
without a check. A string will do for `master_core`, and for the queues of a port
everything will that is not an array: an integer stands for the list of it, any other
value for no queues at all.

`Exact` documents are those without any of this. The reader is lawful for a document
exactly if being readable makes it exact (`read_lawful_iff`). Nothing is lost by writing
exact documents only: each configuration is read back from one
(`readConfigurationFromStr_write`, `exact_writeConfiguration`).
-/

namespace NetBricks.Config

open Lib Lib.Fallible

/-! ## Faithful reading -/

/-- An integer that an `i32` can hold. -/
def IsI32 (v : Value) : Prop := ∃ i, v = .integer i ∧ -2 ^ 31 ≤ i.toInt ∧ i.toInt < 2 ^ 31

/-- An integer that a `u32` can hold. -/
def IsU32 (v : Value) : Prop := ∃ i, v = .integer i ∧ 0 ≤ i.toInt ∧ i.toInt < 2 ^ 32

/-- An array of integers that an `i32` can hold. -/
def AreI32 (v : Value) : Prop := ∃ vs, v = .array vs ∧ ∀ w ∈ vs, IsI32 w

/-- The integers of a port have the type and the width they should have. -/
structure ExactPort (port : Value) : Prop where
  rxd : Key port "rxd" IsI32
  txd : Key port "txd" IsI32
  cores : Key port "cores" AreI32
  rxCores : Key port "rx_cores" AreI32
  txCores : Key port "tx_cores" AreI32

/-- All integers have the type and the width they should have: a TOML integer has 64 bits, and
the fields they are read into have 32, with a sign or without. -/
structure Exact (doc : Value) : Prop where
  masterCore : Key doc "master_core" IsI32
  poolSize : Key doc "pool_size" IsU32
  cacheSize : Key doc "cache_size" IsU32
  cores : Key doc "cores" AreI32
  ports : ∀ ps, doc.get "ports" = some (.array ps) → ∀ port ∈ ps, ExactPort port

/-- The same integers in the same order. -/
def SameIntegers : List Value → List Int32 → Prop :=
  List.Forall₂ fun v n => ∃ i, v = .integer i ∧ n.toInt = i.toInt

/-- The integers of a port are those of the document. -/
structure FaithfulPort (port : Value) (p : PortConfiguration) : Prop where
  name : port.get "name" = some (.string p.name)
  rxd : ∀ i, port.get "rxd" = some (.integer i) → p.rxd.toInt = i.toInt
  txd : ∀ i, port.get "txd" = some (.integer i) → p.txd.toInt = i.toInt
  cores : ∀ vs, port.get "cores" = some (.array vs) →
    SameIntegers vs p.rxQueues ∧ SameIntegers vs p.txQueues
  rxCores : ∀ vs, port.get "rx_cores" = some (.array vs) → SameIntegers vs p.rxQueues
  txCores : ∀ vs, port.get "tx_cores" = some (.array vs) → SameIntegers vs p.txQueues

/-- All integers are those of the document, and the ports are in its order. A key that is absent
stands for a default, of which nothing is said here. -/
structure Faithful (doc : Value) (c : NetbricksConfiguration) : Prop where
  masterCore : ∀ i, doc.get "master_core" = some (.integer i) → c.primaryCore.toInt = i.toInt
  poolSize : ∀ i, doc.get "pool_size" = some (.integer i) → (c.poolSize.toNat : Int) = i.toInt
  cacheSize : ∀ i, doc.get "cache_size" = some (.integer i) → (c.cacheSize.toNat : Int) = i.toInt
  cores : ∀ vs, doc.get "cores" = some (.array vs) → SameIntegers vs c.cores
  ports : ∀ ps, doc.get "ports" = some (.array ps) → List.Forall₂ FaithfulPort ps c.ports

/-- What reading should be: what is accepted is read faithfully, and a document with an
integer of another type or width is turned away. -/
structure Lawful (env : TomlEnv) (configuration : String) (doc : Value) : Prop where
  faithful : ∀ c, readConfigurationFromStr env configuration = .ok c → Faithful doc c
  rejects : ¬ Exact doc →
    ∃ message, readConfigurationFromStr env configuration = .error (.configurationError message)

theorem toInt_toInt32 {i : Int64} (hlo : -2 ^ 31 ≤ i.toInt) (hhi : i.toInt < 2 ^ 31) :
    i.toInt32.toInt = i.toInt := by
  rw [Int64.toInt_toInt32]
  exact Int.bmod_eq_of_le (by omega) (by omega)

theorem toInt_eq_bmod (i : Int64) : i.toInt = (i.toUInt64.toNat : Int).bmod (2 ^ 64) := by
  rw [← Int64.toInt_toBitVec, BitVec.toInt_eq_toNat_bmod, Int64.toNat_toBitVec]

theorem toNat_toUInt32 {i : Int64} (hlo : 0 ≤ i.toInt) (hhi : i.toInt < 2 ^ 32) :
    (i.toUInt64.toUInt32.toNat : Int) = i.toInt := by
  have hbits := toInt_eq_bmod i
  have hlt := i.toUInt64.toNat_lt
  rw [UInt64.toNat_toUInt32]
  rw [Int.bmod_def] at hbits
  split at hbits <;> omega

/-- An integer that fits is read as it is. -/
theorem toInt_of_takes {default a : Int32} {stands : Value → Int32 → Prop} {v : Value}
    {key : String} (hstands : ∀ {i}, stands (.integer i) a → some i.toInt32 = some a)
    (hkey : Key v key IsI32) (h : Takes default stands (v.get key) a) :
    ∀ i, v.get key = some (.integer i) → a.toInt = i.toInt := by
  intro i hi
  obtain ⟨j, hj, hlo, hhi⟩ := hkey _ hi
  cases hj
  rw [hi] at h
  cases hstands h
  exact toInt_toInt32 hlo hhi

theorem toNat_of_takes {default a : UInt32} {v : Value} {key : String} (hkey : Key v key IsU32)
    (h : Takes default (·.asU32 = some ·) (v.get key) a) :
    ∀ i, v.get key = some (.integer i) → (a.toNat : Int) = i.toInt := by
  intro i hi
  obtain ⟨j, hj, hlo, hhi⟩ := hkey _ hi
  cases hj
  rw [hi] at h
  cases h
  exact toNat_toUInt32 hlo hhi

theorem sameIntegers_of_areI32 {vs : List Value} {ns : List Int32} (hvs : AreI32 (.array vs))
    (h : List.Forall₂ (·.asI32 = some ·) vs ns) : SameIntegers vs ns := by
  obtain ⟨_, heq, hvs⟩ := hvs
  cases heq
  refine ((List.forall₂_and_left _ _).mpr ⟨hvs, h⟩).imp fun v n hvn => ?_
  obtain ⟨⟨i, rfl, hlo, hhi⟩, hn⟩ := hvn
  cases hn
  exact ⟨i, rfl, toInt_toInt32 hlo hhi⟩

theorem QueuesOf.both {v : Value} {rxCores txCores : Option Value} {rx tx : List Int32}
    (h : QueuesOf (some v) rxCores txCores rx tx) : QueueOf v rx ∧ QueueOf v tx := by
  cases h with
  | symmetric hqs => exact ⟨hqs, hqs⟩

theorem QueuesOf.receive {v : Value} {cores txCores : Option Value} {rx tx : List Int32}
    (h : QueuesOf cores (some v) txCores rx tx) : QueueOf v rx := by
  cases h with
  | separate hrx htx => exact hrx

theorem QueuesOf.transmit {v : Value} {cores rxCores : Option Value} {rx tx : List Int32}
    (h : QueuesOf cores rxCores (some v) rx tx) : QueueOf v tx := by
  cases h with
  | separate hrx htx => exact htx

theorem ReadsPort.faithful {port : Value} {p : PortConfiguration} (h : ReadsPort port p)
    (hexact : ExactPort port) : FaithfulPort port p := by
  have hqueues := h.queues
  refine ⟨h.name, toInt_of_takes id hexact.rxd h.rxd, toInt_of_takes id hexact.txd h.txd,
    fun vs hvs => ?_, fun vs hvs => ?_, fun vs hvs => ?_⟩
  · have hareI32 := hexact.cores _ hvs
    rw [hvs] at hqueues
    exact ⟨sameIntegers_of_areI32 hareI32 hqueues.both.1,
      sameIntegers_of_areI32 hareI32 hqueues.both.2⟩
  · have hareI32 := hexact.rxCores _ hvs
    rw [hvs] at hqueues
    exact sameIntegers_of_areI32 hareI32 hqueues.receive
  · have hareI32 := hexact.txCores _ hvs
    rw [hvs] at hqueues
    exact sameIntegers_of_areI32 hareI32 hqueues.transmit

theorem Takes.forall₂ {α : Type} {stands : Value → α → Prop} {v : Value} {key : String}
    {vs : List Value} {as : List α} (h : Takes [] (ArrayOf stands) (v.get key) as)
    (hvs : v.get key = some (.array vs)) : List.Forall₂ stands vs as := by
  rw [hvs] at h
  obtain ⟨_, heq, h⟩ := h
  cases heq
  exact h

theorem Reads.faithful {doc : Value} {c : NetbricksConfiguration} (h : Reads doc c)
    (hexact : Exact doc) : Faithful doc c where
  masterCore := toInt_of_takes id hexact.masterCore h.primaryCore
  poolSize := toNat_of_takes hexact.poolSize h.poolSize
  cacheSize := toNat_of_takes hexact.cacheSize h.cacheSize
  cores vs hvs := sameIntegers_of_areI32 (hexact.cores _ hvs) (h.cores.forall₂ hvs)
  ports ps hps := by
    refine ((List.forall₂_and_left _ _).mpr ⟨hexact.ports ps hps, h.ports.forall₂ hps⟩).imp ?_
    intro port p hport
    exact hport.2.faithful hport.1

/-! ## Errors -/

/-- The reader only fails with a configuration error. -/
def IsConfigurationError (e : ErrorKind) : Prop := ∃ message, e = .configurationError message

section Errors

variable {env : TomlEnv}

theorem failsOnly_take {α : Type} {accept : Value → Option α} {message : Value → String}
    (v : Value) : FailsOnly IsConfigurationError (take accept message v) := by
  unfold take
  split
  · exact failsOnly_ok
  · exact failsOnly_error.mpr ⟨_, rfl⟩

theorem failsOnly_takeOr {α : Type} {default : α} {accept : Value → Option α}
    {message : Value → String} (found : Option Value) :
    FailsOnly IsConfigurationError (takeOr default accept message found) := by
  cases found with
  | none => exact failsOnly_ok
  | some v => exact failsOnly_take v

theorem failsOnly_readQueueOr (found : Option Value) :
    FailsOnly IsConfigurationError (readQueueOr env found) := by
  unfold readQueueOr readQueue
  split
  · split
    · exact .mapM failsOnly_take
    · exact failsOnly_ok
    · exact failsOnly_ok
  · exact failsOnly_ok

theorem failsOnly_readQueues {name : String} {cores rxCores txCores : Option Value} :
    FailsOnly IsConfigurationError (readQueues env name cores rxCores txCores) := by
  unfold readQueues
  dsimp only
  split
  · exact failsOnly_error.mpr ⟨_, rfl⟩
  · refine FailsOnly.bind ?_ fun rx => FailsOnly.bind ?_ fun tx => failsOnly_ok
    · split <;> exact failsOnly_readQueueOr _
    · split
      · exact failsOnly_ok
      · exact failsOnly_readQueueOr _

theorem failsOnly_readName (found : Option Value) :
    FailsOnly IsConfigurationError (readName found) := by
  unfold readName
  split
  · exact failsOnly_ok
  · exact failsOnly_error.mpr ⟨_, rfl⟩

theorem failsOnly_readPort (port : Value) :
    FailsOnly IsConfigurationError (readPort env port) := by
  unfold readPort
  split
  · refine (failsOnly_readName _).bind fun name => ?_
    refine (failsOnly_takeOr _).bind fun rxd => (failsOnly_takeOr _).bind fun txd => ?_
    refine (failsOnly_takeOr _).bind fun loopback => (failsOnly_takeOr _).bind fun tso => ?_
    refine (failsOnly_takeOr _).bind fun csum => failsOnly_readQueues.bind fun queues => ?_
    exact failsOnly_ok
  · exact failsOnly_error.mpr ⟨_, rfl⟩

theorem failsOnly_readCores (found : Option Value) :
    FailsOnly IsConfigurationError (readCores env found) := by
  unfold readCores
  split
  · exact .mapM failsOnly_take
  · exact failsOnly_ok
  · exact failsOnly_error.mpr ⟨_, rfl⟩

theorem failsOnly_readPorts (found : Option Value) :
    FailsOnly IsConfigurationError (readPorts env found) := by
  unfold readPorts
  split
  · exact .mapM failsOnly_readPort
  · exact failsOnly_ok
  · exact failsOnly_error.mpr ⟨_, rfl⟩

theorem failsOnly_readDocument (doc : Value) :
    FailsOnly IsConfigurationError (readDocument env doc) := by
  unfold readDocument
  refine (failsOnly_takeOr _).bind fun name => (failsOnly_takeOr _).bind fun core => ?_
  refine (failsOnly_takeOr _).bind fun pool => (failsOnly_takeOr _).bind fun cache => ?_
  refine (failsOnly_takeOr _).bind fun secondary => (failsOnly_readCores _).bind fun cores => ?_
  refine (failsOnly_takeOr _).bind fun strict => (failsOnly_readPorts _).bind fun ports => ?_
  exact failsOnly_ok

end Errors

/-! ## The law -/

section Law

variable {env : TomlEnv} {configuration : String} {doc : Value}

theorem readConfigurationFromStr_eq (h : env.parse configuration = .ok doc) :
    readConfigurationFromStr env configuration = readDocument env doc := by
  simp only [readConfigurationFromStr, h]

/-- Exactly the readable documents are accepted. -/
theorem readDocument_ok_iff : (∃ c, readDocument env doc = .ok c) ↔ Readable doc := by
  simp only [readDocument_eq_ok, exists_reads]

theorem readDocument_error (h : ¬ Readable doc) :
    ∃ message, readDocument env doc = .error (.configurationError message) := by
  cases hread : readDocument env doc with
  | ok c => exact absurd (readDocument_ok_iff.mp ⟨c, hread⟩) h
  | error e =>
    obtain ⟨message, rfl⟩ := failsOnly_readDocument doc e hread
    exact ⟨message, rfl⟩

end Law

/-- Reading a document is lawful exactly if, should it be readable, its integers all have
the type and the width they should have. -/
theorem read_lawful_iff (env : TomlEnv) (configuration : String) (doc : Value)
    (hparse : env.parse configuration = .ok doc) :
    Lawful env configuration doc ↔ (Readable doc → Exact doc) := by
  have hread := readConfigurationFromStr_eq hparse
  constructor
  · intro hlawful hreadable
    by_contra hexact
    obtain ⟨message, herror⟩ := hlawful.rejects hexact
    have hok : ∃ c, readDocument env doc = .ok c := readDocument_ok_iff.mpr hreadable
    obtain ⟨c, hok⟩ := hok
    rw [hread, hok] at herror
    cases herror
  · intro hexact
    refine ⟨fun c hc => ?_, fun hinexact => ?_⟩
    · rw [hread] at hc
      exact (readDocument_eq_ok.mp hc).faithful (hexact (readDocument_ok_iff.mp ⟨c, hc⟩))
    · rw [hread]
      exact readDocument_error fun hreadable => hinexact (hexact hreadable)

/-! ## Writing a configuration -/

def writeI32 (n : Int32) : Value := .integer n.toInt64

def writeU32 (n : UInt32) : Value := .integer n.toUInt64.toInt64

def writeList (ns : List Int32) : Value := .array (ns.map writeI32)

/-- A port with all its keys. The cores are named separately, as they may differ. -/
def writePort (p : PortConfiguration) : Value :=
  .table [("name", .string p.name), ("rxd", writeI32 p.rxd), ("txd", writeI32 p.txd),
    ("loopback", .boolean p.loopback), ("tso", .boolean p.tso), ("checksum", .boolean p.csum),
    ("rx_cores", writeList p.rxQueues), ("tx_cores", writeList p.txQueues)]

/-- A document with all its keys. -/
def writeConfiguration (c : NetbricksConfiguration) : Value :=
  .table [("name", .string c.name), ("master_core", writeI32 c.primaryCore),
    ("pool_size", writeU32 c.poolSize), ("cache_size", writeU32 c.cacheSize),
    ("secondary", .boolean c.secondary), ("cores", writeList c.cores),
    ("strict", .boolean c.strict), ("ports", .array (c.ports.map writePort))]

theorem asI32_writeI32 (n : Int32) : (writeI32 n).asI32 = some n := by
  simp [writeI32, Value.asI32]

theorem asU32_writeU32 (n : UInt32) : (writeU32 n).asU32 = some n := by
  simp [writeU32, Value.asU32]

theorem forall₂_writeI32 (ns : List Int32) :
    List.Forall₂ (·.asI32 = some ·) (ns.map writeI32) ns := by
  rw [List.forall₂_map_left_iff, List.forall₂_same]
  exact fun n _ => asI32_writeI32 n

theorem readsPort_writePort (p : PortConfiguration) : ReadsPort (writePort p) p where
  name := rfl
  rxd := asI32_writeI32 p.rxd
  txd := asI32_writeI32 p.txd
  loopback := rfl
  tso := rfl
  csum := rfl
  queues := .separate (forall₂_writeI32 p.rxQueues) (forall₂_writeI32 p.txQueues)

theorem reads_writeConfiguration {c : NetbricksConfiguration} (hargs : c.dpdkArgs = none) :
    Reads (writeConfiguration c) c where
  name := rfl
  primaryCore := asI32_writeI32 c.primaryCore
  poolSize := asU32_writeU32 c.poolSize
  cacheSize := asU32_writeU32 c.cacheSize
  secondary := rfl
  cores := ⟨_, rfl, forall₂_writeI32 c.cores⟩
  strict := rfl
  ports := by
    refine ⟨_, rfl, ?_⟩
    rw [List.forall₂_map_left_iff, List.forall₂_same]
    exact fun p _ => readsPort_writePort p
  dpdkArgs := hargs

/-- A configuration that was written is read back, every field of it, for any parser that gives
the document that was written. `dpdk_args` has no key in a document. -/
theorem readConfigurationFromStr_write {env : TomlEnv} {configuration : String}
    {c : NetbricksConfiguration} (hargs : c.dpdkArgs = none)
    (hparse : env.parse configuration = .ok (writeConfiguration c)) :
    readConfigurationFromStr env configuration = .ok c := by
  rw [readConfigurationFromStr_eq hparse]
  exact readDocument_eq_ok.mpr (reads_writeConfiguration hargs)

theorem readConfigurationFromStr_write_port :
    readConfigurationFromStr
      { parse := fun _ => .ok (writeConfiguration
          { name := "nf", ports := [{ name := "p", rxQueues := [0], txQueues := [1] }] })
        debug := fun _ => "", display := fun _ => "" } "" =
      .ok { name := "nf", ports := [{ name := "p", rxQueues := [0], txQueues := [1] }] } :=
  readConfigurationFromStr_write rfl rfl

theorem isI32_writeI32 (n : Int32) : IsI32 (writeI32 n) := by
  refine ⟨_, rfl, ?_⟩
  rw [Int32.toInt_toInt64]
  exact ⟨n.le_toInt, n.toInt_lt⟩

theorem isU32_writeU32 (n : UInt32) : IsU32 (writeU32 n) := by
  have hlt := n.toNat_lt
  have hint : n.toUInt64.toInt64.toInt = n.toNat := by
    rw [toInt_eq_bmod, UInt64.toUInt64_toInt64, UInt32.toNat_toUInt64]
    exact Int.bmod_eq_of_le (by omega) (by omega)
  exact ⟨_, rfl, by omega, by omega⟩

theorem areI32_writeList (ns : List Int32) : AreI32 (writeList ns) := by
  refine ⟨_, rfl, fun w hw => ?_⟩
  obtain ⟨n, -, rfl⟩ := List.mem_map.mp hw
  exact isI32_writeI32 n

theorem exactPort_writePort (p : PortConfiguration) : ExactPort (writePort p) where
  rxd _ h := Option.some.inj h ▸ isI32_writeI32 p.rxd
  txd _ h := Option.some.inj h ▸ isI32_writeI32 p.txd
  cores _ h := by cases h
  rxCores _ h := Option.some.inj h ▸ areI32_writeList p.rxQueues
  txCores _ h := Option.some.inj h ▸ areI32_writeList p.txQueues

/-- What is written has integers of the right type and width only. -/
theorem exact_writeConfiguration (c : NetbricksConfiguration) : Exact (writeConfiguration c) where
  masterCore _ h := Option.some.inj h ▸ isI32_writeI32 c.primaryCore
  poolSize _ h := Option.some.inj h ▸ isU32_writeU32 c.poolSize
  cacheSize _ h := Option.some.inj h ▸ isU32_writeU32 c.cacheSize
  cores _ h := Option.some.inj h ▸ areI32_writeList c.cores
  ports ps h := by
    cases h
    intro port hport
    obtain ⟨p, -, rfl⟩ := List.mem_map.mp hport
    exact exactPort_writePort p

/-! ## Documents that are accepted all the same -/

/-- A `toml` crate that finds `doc` in every text. -/
def givenEnv (doc : Value) : TomlEnv :=
  { parse := fun _ => .ok doc, debug := fun _ => "", display := fun _ => "" }

/-- `pool_size = 4294967297`. -/
def widePool : Value := .table [("pool_size", .integer 4294967297)]

/-- A port that has a string for `tx_cores`. -/
def stringQueue : Value :=
  .table [("ports", .array [.table [("name", .string "p"), ("tx_cores", .string "x")]])]

theorem not_lawful_of_accepted {env : TomlEnv} {configuration : String} {doc : Value}
    {c : NetbricksConfiguration} (hok : readConfigurationFromStr env configuration = .ok c)
    (hexact : ¬ Exact doc) : ¬ Lawful env configuration doc := by
  intro hlawful
  obtain ⟨message, herror⟩ := hlawful.rejects hexact
  rw [hok] at herror
  cases herror

/-- The pool gets size 1, and the port no queue, where both should be turned away. -/
theorem wide_pool_accepted :
    readConfigurationFromStr (givenEnv widePool) "" = .ok { name := "zcsi", poolSize := 1 } ∧
    ¬ Lawful (givenEnv widePool) "" widePool ∧
    readConfigurationFromStr (givenEnv stringQueue) "" =
      .ok { name := "zcsi", ports := [{ name := "p", rxQueues := [], txQueues := [] }] } ∧
    ¬ Lawful (givenEnv stringQueue) "" stringQueue := by
  have hpool : readConfigurationFromStr (givenEnv widePool) "" =
      .ok { name := "zcsi", poolSize := 1 } := by rfl
  have hqueue : readConfigurationFromStr (givenEnv stringQueue) "" =
      .ok { name := "zcsi", ports := [{ name := "p", rxQueues := [], txQueues := [] }] } := by rfl
  refine ⟨hpool, not_lawful_of_accepted hpool fun hexact => ?_,
    hqueue, not_lawful_of_accepted hqueue fun hexact => ?_⟩
  · obtain ⟨i, hi, -, hhi⟩ := hexact.poolSize _ rfl
    cases hi
    exact absurd hhi (by decide)
  · have hport := hexact.ports _ rfl _ (List.mem_singleton_self _)
    obtain ⟨vs, hvs, -⟩ := hport.txCores _ rfl
    cases hvs

/-- `pool_size = 4096`. -/
def fittingPool : Value := .table [("pool_size", .integer 4096)]

theorem read_lawful_iff_pool :
    (givenEnv fittingPool).parse "" = .ok fittingPool ∧
      Lawful (givenEnv fittingPool) "" fittingPool := by
  refine ⟨rfl, (read_lawful_iff (givenEnv fittingPool) "" fittingPool rfl).mpr fun _ => ?_⟩
  refine ⟨?_, ?_, ?_, ?_, ?_⟩
  · intro v hv
    cases hv
  · intro v hv
    cases hv
    exact ⟨4096, rfl, by decide, by decide⟩
  · intro v hv
    cases hv
  · intro v hv
    cases hv
  · intro ps hps
    cases hps

end NetBricks.Config
