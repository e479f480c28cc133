import NetBricks.Common
import NetBricks.Config.Configuration
import NetBricks.Lib.Fallible

/-!
# Reading a configuration

`read_configuration_from_str` of `config/config_reader.rs`, over the document that the
`toml` crate hands it. `Reads` says key by key what a document is read as; the reader
succeeds exactly with what that relation gives (`readDocument_eq_ok`), and there is
something to read exactly in the documents that are `Readable` (`exists_reads`).

Mirroring notes:

* Parsing is a parameter, and so are the `{:?}` and the `{}` of a value (`TomlEnv`).
* A table is the list of its entries. It is only ever looked up in.
* What is printed is left out, and with it `filename`.
-/

namespace NetBricks.Config

open Lib Lib.Fallible

/-- `toml::Value`; a float is given by its bits, a date by its text. -/
inductive Value where
  | string (s : String)
  | integer (i : Int64)
  | float (bits : UInt64)
  | boolean (b : Bool)
  | datetime (text : String)
  | array (vs : List Value)
  | table (entries : List (String × Value))

namespace Value

/-- `Value::get` with a key. -/
def get : Value → String → Option Value
  | .table entries, key => entries.lookup key
  | _, _ => none

/-- `Value::Integer(i)` taken `as i32`. -/
def asI32 : Value → Option Int32
  | .integer i => some i.toInt32
  | _ => none

/-- `Value::Integer(i)` taken `as u32`. -/
def asU32 : Value → Option UInt32
  | .integer i => some i.toUInt64.toUInt32
  | _ => none

def asBoolean : Value → Option Bool
  | .boolean b => some b
  | _ => none

def asString : Value → Option String
  | .string s => some s
  | _ => none

end Value

/-- The `toml` crate: `from_str`, and values shown with `{:?}` and `{}`. -/
structure TomlEnv where
  parse : String → Except String Value
  debug : Value → String
  display : Value → String

/-- `{:?}` of `Some(v)`. -/
def TomlEnv.debugSome (env : TomlEnv) (v : Value) : String := "Some(" ++ env.debug v ++ ")"

/-! ## The reader -/

section Reader

variable {α : Type}

/-- What `accept` takes from a value; `message` is the error if there is nothing. -/
def take (accept : Value → Option α) (message : Value → String) (v : Value) :
    Except ErrorKind α :=
  match accept v with
  | some a => .ok a
  | none => .error (.configurationError (message v))

/-- The same for a key that may be absent. -/
def takeOr (default : α) (accept : Value → Option α) (message : Value → String) :
    Option Value → Except ErrorKind α
  | none => .ok default
  | some v => take accept message v

variable (env : TomlEnv)

/-- `read_queue`. -/
def readQueue : Value → Except ErrorKind (List Int32)
  | .array queues =>
    queues.mapM (take Value.asI32 fun q => "Could not parse queue spec " ++ env.debug q)
  | .integer core => .ok [core.toInt32]
  | _ => .ok []

/-- `read_queue` of a key, if it is there. -/
def readQueueOr : Option Value → Except ErrorKind (List Int32)
  | some v => readQueue env v
  | none => .ok []

/-- The queues of a port, from the three keys that can name their cores. -/
def readQueues (name : String) (cores rxCores txCores : Option Value) :
    Except ErrorKind (List Int32 × List Int32) :=
  let symmetricQueue := cores.isSome
  if symmetricQueue && (rxCores.isSome || txCores.isSome) then
    .error (.configurationError
      ("cores specified along with rx_cores and/or tx_cores for port " ++ name))
  else do
    let rxQueues ← (if symmetricQueue then readQueueOr env cores else readQueueOr env rxCores)
    let txQueues ← (if symmetricQueue then .ok rxQueues else readQueueOr env txCores)
    .ok (rxQueues, txQueues)

/-- The name of a port, which has to be there. -/
def readName : Option Value → Except ErrorKind String
  | some (.string name) => .ok name
  | _ => .error (.configurationError "Could not parse name for port")

/-- `read_port`. -/
def readPort : Value → Except ErrorKind PortConfiguration
  | .table portDef => do
    let name ← readName (portDef.lookup "name")
    let rxd ← takeOr numRxd Value.asI32
      (fun v => "Could not parse number of rx descriptors " ++ env.debugSome v)
      (portDef.lookup "rxd")
    let txd ← takeOr numTxd Value.asI32
      (fun v => "Could not parse number of tx descriptors " ++ env.debugSome v)
      (portDef.lookup "txd")
    let loopback ← takeOr false Value.asBoolean
      (fun v => "Could not parse loopback spec " ++ env.debugSome v) (portDef.lookup "loopback")
    let tso ← takeOr false Value.asBoolean
      (fun v => "Could not parse tso spec " ++ env.debugSome v) (portDef.lookup "tso")
    let csum ← takeOr false Value.asBoolean
      (fun v => "Could not parse csum spec " ++ env.debugSome v) (portDef.lookup "checksum")
    let (rxQueues, txQueues) ← readQueues env name (portDef.lookup "cores")
      (portDef.lookup "rx_cores") (portDef.lookup "tx_cores")
    .ok { name, rxQueues, txQueues, rxd, txd, loopback, csum, tso }
  | _ => .error (.configurationError "Could not understand port spec")

/-- The integer or the string that `master_core` can be. -/
def asCore : Value → Option Int32
  | .integer core => some core.toInt32
  | .string core => parseI32 core
  | _ => none

/-- What is said about a `master_core` that is neither. -/
def coreMessage : Value → String
  | .string core => "Could not parse " ++ core ++ " as core"
  | v => "Could not parse " ++ env.debugSome v ++ " as core"

/-- The cores of the document. -/
def readCores : Option Value → Except ErrorKind (List Int32)
  | some (.array c) =>
    c.mapM (take Value.asI32 fun core => "Could not parse core spec " ++ env.display core)
  | none => .ok []
  | some _ => .error (.configurationError "Cores is not an array")

/-- The ports of the document. -/
def readPorts : Option Value → Except ErrorKind (List PortConfiguration)
  | some (.array ports) => ports.mapM (readPort env)
  | none => .ok []
  | some _ => .error (.configurationError "Ports is not an array")

/-- What `read_configuration_from_str` does once the document is parsed. -/
def readDocument (toml : Value) : Except ErrorKind NetbricksConfiguration := do
  let name ← takeOr defaultName Value.asString (fun _ => "Could not parse name") (toml.get "name")
  let masterLcore ← takeOr defaultPrimaryCore asCore (coreMessage env) (toml.get "master_core")
  let poolSize ← takeOr defaultPoolSize Value.asU32 (fun _ => "Could not parse pool size")
    (toml.get "pool_size")
  let cacheSize ← takeOr defaultCacheSize Value.asU32 (fun _ => "Could not parse cache size")
    (toml.get "cache_size")
  let secondary ← takeOr defaultSecondary Value.asBoolean
    (fun _ => "Could not parse secondary processor spec") (toml.get "secondary")
  let cores ← readCores env (toml.get "cores")
  let strict ← takeOr false Value.asBoolean
    (fun v => "Could not parse strict spec (should be boolean) " ++ env.debugSome v)
    (toml.get "strict")
  let ports ← readPorts env (toml.get "ports")
  .ok { name, primaryCore := masterLcore, cores, strict, secondary, poolSize, cacheSize, ports
        dpdkArgs := none }

/-- `read_configuration_from_str`. -/
def readConfigurationFromStr (configuration : String) :
    Except ErrorKind NetbricksConfiguration :=
  match env.parse configuration with
  | .ok toml => readDocument env toml
  | .error error =>
    .error (.configurationError ("Experienced " ++ error ++ " parse errors in spec."))

end Reader

/-! ## What a document is read as -/

section Relation

variable {α : Type}

/-- An absent key is read as the default, a value as what it stands for. -/
def Takes (default : α) (stands : Value → α → Prop) (found : Option Value) (a : α) : Prop :=
  found.elim (a = default) (stands · a)

/-- A list that an array stands for, element by element. -/
def ArrayOf (stands : Value → α → Prop) (v : Value) (as : List α) : Prop :=
  ∃ vs, v = .array vs ∧ List.Forall₂ stands vs as

/-- The queues of a port: anything stands for some. -/
def QueueOf : Value → List Int32 → Prop
  | .array queues, qs => List.Forall₂ (·.asI32 = some ·) queues qs
  | .integer core, qs => qs = [core.toInt32]
  | _, qs => qs = []

/-- `cores` stands for the queues both ways, and nothing else may be given then. -/
inductive QueuesOf : Option Value → Option Value → Option Value → List Int32 → List Int32 → Prop
  | symmetric {v : Value} {qs : List Int32} : QueueOf v qs → QueuesOf (some v) none none qs qs
  | separate {rxCores txCores : Option Value} {rx tx : List Int32} :
    Takes [] QueueOf rxCores rx → Takes [] QueueOf txCores tx →
      QueuesOf none rxCores txCores rx tx

/-- The port that is read from a value: each field from its key, by the default of the field
where the key is absent, and the queues from `cores` or from the keys of the two directions. -/
structure ReadsPort (port : Value) (p : PortConfiguration) : Prop where
  name : port.get "name" = some (.string p.name)
  rxd : Takes numRxd (·.asI32 = some ·) (port.get "rxd") p.rxd
  txd : Takes numTxd (·.asI32 = some ·) (port.get "txd") p.txd
  loopback : Takes false (·.asBoolean = some ·) (port.get "loopback") p.loopback
  tso : Takes false (·.asBoolean = some ·) (port.get "tso") p.tso
  csum : Takes false (·.asBoolean = some ·) (port.get "checksum") p.csum
  queues : QueuesOf (port.get "cores") (port.get "rx_cores") (port.get "tx_cores")
    p.rxQueues p.txQueues

/-- The configuration that is read from a document. -/
structure Reads (doc : Value) (c : NetbricksConfiguration) : Prop where
  name : Takes defaultName (·.asString = some ·) (doc.get "name") c.name
  primaryCore : Takes defaultPrimaryCore (asCore · = some ·) (doc.get "master_core") c.primaryCore
  poolSize : Takes defaultPoolSize (·.asU32 = some ·) (doc.get "pool_size") c.poolSize
  cacheSize : Takes defaultCacheSize (·.asU32 = some ·) (doc.get "cache_size") c.cacheSize
  secondary : Takes defaultSecondary (·.asBoolean = some ·) (doc.get "secondary") c.secondary
  cores : Takes [] (ArrayOf (·.asI32 = some ·)) (doc.get "cores") c.cores
  strict : Takes false (·.asBoolean = some ·) (doc.get "strict") c.strict
  ports : Takes [] (ArrayOf ReadsPort) (doc.get "ports") c.ports
  dpdkArgs : c.dpdkArgs = none

variable {env : TomlEnv} {accept : Value → Option α} {message : Value → String}

theorem take_eq_ok {v : Value} {a : α} : take accept message v = .ok a ↔ accept v = some a := by
  unfold take
  cases accept v <;> simp

theorem mapM_take_eq_ok {vs : List Value} {as : List α} :
    vs.mapM (take accept message) = .ok as ↔ List.Forall₂ (accept · = some ·) vs as := by
  simp only [mapM_eq_ok, take_eq_ok]

theorem takeOr_eq_ok {default : α} {found : Option Value} {a : α} :
    takeOr default accept message found = .ok a ↔ Takes default (accept · = some ·) found a := by
  cases found with
  | none => simp [takeOr, Takes, eq_comm]
  | some v => exact take_eq_ok

theorem readQueue_eq_ok {v : Value} {qs : List Int32} :
    readQueue env v = .ok qs ↔ QueueOf v qs := by
  cases v with
  | array vs => exact mapM_take_eq_ok
  | _ => simp [readQueue, QueueOf, eq_comm]

theorem readQueueOr_eq_ok {found : Option Value} {qs : List Int32} :
    readQueueOr env found = .ok qs ↔ Takes [] QueueOf found qs := by
  cases found with
  | none => simp [readQueueOr, Takes, eq_comm]
  | some v => exact readQueue_eq_ok

theorem readName_eq_ok {found : Option Value} {name : String} :
    readName found = .ok name ↔ found = some (.string name) := by
  unfold readName
  split <;> simp_all

theorem readQueues_eq_ok {name : String} {cores rxCores txCores : Option Value}
    {rx tx : List Int32} :
    readQueues env name cores rxCores txCores = .ok (rx, tx) ↔
      QueuesOf cores rxCores txCores rx tx := by
  cases cores with
  | none =>
    have hiff : readQueues env name none rxCores txCores = .ok (rx, tx) ↔
        Takes [] QueueOf rxCores rx ∧ Takes [] QueueOf txCores tx := by
      simp [readQueues, bind_eq_ok, readQueueOr_eq_ok]
    rw [hiff]
    refine ⟨fun h => .separate h.1 h.2, fun h => ?_⟩
    cases h with
    | separate hrx htx => exact ⟨hrx, htx⟩
  | some v =>
    have hiff : readQueues env name (some v) rxCores txCores = .ok (rx, tx) ↔
        rxCores = none ∧ txCores = none ∧ QueueOf v tx ∧ tx = rx := by
      cases rxCores <;> cases txCores <;>
        simp [readQueues, readQueueOr, bind_eq_ok, readQueue_eq_ok]
    rw [hiff]
    constructor
    · intro h
      obtain ⟨rfl, rfl, hrx, rfl⟩ := h
      exact .symmetric hrx
    · intro h
      cases h with
      | symmetric hqs => exact ⟨rfl, rfl, hqs, rfl⟩

theorem readPort_eq_ok {port : Value} {p : PortConfiguration} :
    readPort env port = .ok p ↔ ReadsPort port p := by
  cases port with
  | table portDef =>
    simp only [readPort, bind_eq_ok, takeOr_eq_ok, readName_eq_ok, Prod.exists, readQueues_eq_ok]
    constructor
    · intro h
      obtain ⟨name, hname, rxd, hrxd, txd, htxd, loopback, hloopback, tso, htso, csum, hcsum,
        rxQueues, txQueues, hqueues, h⟩ := h
      cases h
      exact ⟨hname, hrxd, htxd, hloopback, htso, hcsum, hqueues⟩
    · intro h
      exact ⟨p.name, h.name, p.rxd, h.rxd, p.txd, h.txd, p.loopback, h.loopback, p.tso, h.tso,
        p.csum, h.csum, p.rxQueues, p.txQueues, h.queues, rfl⟩
  | _ =>
    refine ⟨fun h => ?_, fun h => ?_⟩
    · cases h
    · cases h.name

theorem readCores_eq_ok {found : Option Value} {cores : List Int32} :
    readCores env found = .ok cores ↔ Takes [] (ArrayOf (·.asI32 = some ·)) found cores := by
  cases found with
  | none => simp [readCores, Takes, eq_comm]
  | some v => cases v <;> simp [readCores, Takes, ArrayOf, mapM_take_eq_ok]

theorem readPorts_eq_ok {found : Option Value} {ports : List PortConfiguration} :
    readPorts env found = .ok ports ↔ Takes [] (ArrayOf ReadsPort) found ports := by
  cases found with
  | none => simp [readPorts, Takes, eq_comm]
  | some v => cases v <;> simp [readPorts, Takes, ArrayOf, mapM_eq_ok, readPort_eq_ok]

/-- The reader succeeds with what the document is read as. -/
theorem readDocument_eq_ok {doc : Value} {c : NetbricksConfiguration} :
    readDocument env doc = .ok c ↔ Reads doc c := by
  simp only [readDocument, bind_eq_ok, takeOr_eq_ok, readCores_eq_ok, readPorts_eq_ok]
  constructor
  · intro h
    obtain ⟨name, hname, core, hcore, pool, hpool, cache, hcache, secondary, hsecondary, cores,
      hcores, strict, hstrict, ports, hports, h⟩ := h
    cases h
    exact ⟨hname, hcore, hpool, hcache, hsecondary, hcores, hstrict, hports, rfl⟩
  · intro h
    refine ⟨c.name, h.name, c.primaryCore, h.primaryCore, c.poolSize, h.poolSize, c.cacheSize,
      h.cacheSize, c.secondary, h.secondary, c.cores, h.cores, c.strict, h.strict, c.ports,
      h.ports, ?_⟩
    rw [← h.dpdkArgs]

end Relation

/-! ## Which documents are accepted -/

/-- The key is absent, or has a value with `p`. -/
def Key (v : Value) (key : String) (p : Value → Prop) : Prop := ∀ w, v.get key = some w → p w

def IsString (v : Value) : Prop := ∃ s, v = .string s

def IsBoolean (v : Value) : Prop := ∃ b, v = .boolean b

def IsInteger (v : Value) : Prop := ∃ i, v = .integer i

/-- An array is one of integers. -/
def IntegersIfArray (v : Value) : Prop := ∀ vs, v = .array vs → ∀ w ∈ vs, IsInteger w

/-- A value from which a port can be read. -/
structure ReadablePort (port : Value) : Prop where
  name : ∃ s, port.get "name" = some (.string s)
  rxd : Key port "rxd" IsInteger
  txd : Key port "txd" IsInteger
  loopback : Key port "loopback" IsBoolean
  tso : Key port "tso" IsBoolean
  checksum : Key port "checksum" IsBoolean
  cores : Key port "cores" fun v =>
    port.get "rx_cores" = none ∧ port.get "tx_cores" = none ∧ IntegersIfArray v
  rxCores : Key port "rx_cores" IntegersIfArray
  txCores : Key port "tx_cores" IntegersIfArray

/-- A document from which a configuration can be read: every key that is given has a value of
the kind it should have, and every port can be read. -/
structure Readable (doc : Value) : Prop where
  name : Key doc "name" IsString
  masterCore : Key doc "master_core" fun v =>
    IsInteger v ∨ ∃ s, v = .string s ∧ (parseI32 s).isSome
  poolSize : Key doc "pool_size" IsInteger
  cacheSize : Key doc "cache_size" IsInteger
  secondary : Key doc "secondary" IsBoolean
  cores : Key doc "cores" fun v => ∃ vs, v = .array vs ∧ ∀ w ∈ vs, IsInteger w
  strict : Key doc "strict" IsBoolean
  ports : Key doc "ports" fun v => ∃ ps, v = .array ps ∧ ∀ port ∈ ps, ReadablePort port

theorem exists_takes {α : Type} {default : α} {stands : Value → α → Prop} {p : Value → Prop}
    (hstands : ∀ {w}, (∃ a, stands w a) ↔ p w) {v : Value} {key : String} :
    (∃ a, Takes default stands (v.get key) a) ↔ Key v key p := by
  unfold Key
  cases v.get key with
  | none => simp [Takes]
  | some w => simp [Takes, hstands]

theorem exists_forall₂ {α β : Type} {R : α → β → Prop} {xs : List α} :
    (∃ ys, List.Forall₂ R xs ys) ↔ ∀ x ∈ xs, ∃ y, R x y := by
  induction xs with
  | nil => simp
  | cons x xs ih => simp [List.forall₂_cons_left_iff, ← ih]

theorem exists_arrayOf {α : Type} {stands : Value → α → Prop} {p : Value → Prop}
    (hstands : ∀ {w}, (∃ a, stands w a) ↔ p w) {v : Value} :
    (∃ as, ArrayOf stands v as) ↔ ∃ vs, v = .array vs ∧ ∀ w ∈ vs, p w := by
  simp only [ArrayOf, ← hstands, ← exists_forall₂]
  tauto

theorem exists_asI32 {v : Value} : (∃ a, v.asI32 = some a) ↔ IsInteger v := by
  cases v <;> simp [Value.asI32, IsInteger]

theorem exists_asU32 {v : Value} : (∃ a, v.asU32 = some a) ↔ IsInteger v := by
  cases v <;> simp [Value.asU32, IsInteger]

theorem exists_asBoolean {v : Value} : (∃ a, v.asBoolean = some a) ↔ IsBoolean v := by
  cases v <;> simp [Value.asBoolean, IsBoolean]

theorem exists_asString {v : Value} : (∃ a, v.asString = some a) ↔ IsString v := by
  cases v <;> simp [Value.asString, IsString]

theorem exists_asCore {v : Value} :
    (∃ a, asCore v = some a) ↔ IsInteger v ∨ ∃ s, v = .string s ∧ (parseI32 s).isSome := by
  cases v <;> simp [asCore, IsInteger, Option.isSome_iff_exists]

theorem exists_queueOf {v : Value} : (∃ qs, QueueOf v qs) ↔ IntegersIfArray v := by
  cases v with
  | array vs => simp [QueueOf, IntegersIfArray, exists_forall₂, exists_asI32]
  | _ => simp [QueueOf, IntegersIfArray]

theorem exists_queuesOf {port : Value} :
    (∃ rx tx, QueuesOf (port.get "cores") (port.get "rx_cores") (port.get "tx_cores") rx tx) ↔
      Key port "cores" (fun v =>
        port.get "rx_cores" = none ∧ port.get "tx_cores" = none ∧ IntegersIfArray v) ∧
      Key port "rx_cores" IntegersIfArray ∧ Key port "tx_cores" IntegersIfArray := by
  constructor
  · intro h
    obtain ⟨rx, tx, h⟩ := h
    generalize hcores : port.get "cores" = cores at h
    generalize hrxCores : port.get "rx_cores" = rxCores at h
    generalize htxCores : port.get "tx_cores" = txCores at h
    cases h with
    | symmetric hqs => simpa [Key, hcores, hrxCores, htxCores] using exists_queueOf.mp ⟨_, hqs⟩
    | separate hrx htx =>
      subst hrxCores htxCores
      refine ⟨?_, (exists_takes exists_queueOf).mp ⟨rx, hrx⟩,
        (exists_takes exists_queueOf).mp ⟨tx, htx⟩⟩
      simp [Key, hcores]
  · intro h
    obtain ⟨hcores, hrx, htx⟩ := h
    cases hfound : port.get "cores" with
    | none =>
      obtain ⟨rx, hrx⟩ := (exists_takes exists_queueOf).mpr hrx
      obtain ⟨tx, htx⟩ := (exists_takes exists_queueOf).mpr htx
      exact ⟨rx, tx, .separate hrx htx⟩
    | some v =>
      obtain ⟨hrxNone, htxNone, hv⟩ := hcores v hfound
      obtain ⟨qs, hqs⟩ := exists_queueOf.mpr hv
      rw [hrxNone, htxNone]
      exact ⟨qs, qs, .symmetric hqs⟩

theorem exists_readsPort {port : Value} : (∃ p, ReadsPort port p) ↔ ReadablePort port := by
  constructor
  · intro h
    obtain ⟨p, h⟩ := h
    obtain ⟨hcores, hrx, htx⟩ := exists_queuesOf.mp ⟨_, _, h.queues⟩
    exact ⟨⟨_, h.name⟩, (exists_takes exists_asI32).mp ⟨_, h.rxd⟩,
      (exists_takes exists_asI32).mp ⟨_, h.txd⟩, (exists_takes exists_asBoolean).mp ⟨_, h.loopback⟩,
      (exists_takes exists_asBoolean).mp ⟨_, h.tso⟩, (exists_takes exists_asBoolean).mp ⟨_, h.csum⟩,
      hcores, hrx, htx⟩
  · intro h
    obtain ⟨name, hname⟩ := h.name
    obtain ⟨rxd, hrxd⟩ := (exists_takes exists_asI32).mpr h.rxd
    obtain ⟨txd, htxd⟩ := (exists_takes exists_asI32).mpr h.txd
    obtain ⟨loopback, hloopback⟩ := (exists_takes exists_asBoolean).mpr h.loopback
    obtain ⟨tso, htso⟩ := (exists_takes exists_asBoolean).mpr h.tso
    obtain ⟨csum, hcsum⟩ := (exists_takes exists_asBoolean).mpr h.checksum
    obtain ⟨rxQueues, txQueues, hqueues⟩ := exists_queuesOf.mpr ⟨h.cores, h.rxCores, h.txCores⟩
    exact ⟨{ name, rxQueues, txQueues, rxd, txd, loopback, tso, csum },
      hname, hrxd, htxd, hloopback, htso, hcsum, hqueues⟩

/-- A document is read as something exactly if it is readable. -/
theorem exists_reads {doc : Value} : (∃ c, Reads doc c) ↔ Readable doc := by
  constructor
  · intro h
    obtain ⟨c, h⟩ := h
    exact ⟨(exists_takes exists_asString).mp ⟨_, h.name⟩,
      (exists_takes exists_asCore).mp ⟨_, h.primaryCore⟩,
      (exists_takes exists_asU32).mp ⟨_, h.poolSize⟩,
      (exists_takes exists_asU32).mp ⟨_, h.cacheSize⟩,
      (exists_takes exists_asBoolean).mp ⟨_, h.secondary⟩,
      (exists_takes (exists_arrayOf exists_asI32)).mp ⟨_, h.cores⟩,
      (exists_takes exists_asBoolean).mp ⟨_, h.strict⟩,
      (exists_takes (exists_arrayOf exists_readsPort)).mp ⟨_, h.ports⟩⟩
  · intro h
    obtain ⟨name, hname⟩ := (exists_takes exists_asString).mpr h.name
    obtain ⟨primaryCore, hcore⟩ := (exists_takes exists_asCore).mpr h.masterCore
    obtain ⟨poolSize, hpool⟩ := (exists_takes exists_asU32).mpr h.poolSize
    obtain ⟨cacheSize, hcache⟩ := (exists_takes exists_asU32).mpr h.cacheSize
    obtain ⟨secondary, hsecondary⟩ := (exists_takes exists_asBoolean).mpr h.secondary
    obtain ⟨cores, hcores⟩ := (exists_takes (exists_arrayOf exists_asI32)).mpr h.cores
    obtain ⟨strict, hstrict⟩ := (exists_takes exists_asBoolean).mpr h.strict
    obtain ⟨ports, hports⟩ := (exists_takes (exists_arrayOf exists_readsPort)).mpr h.ports
    exact ⟨{ name, primaryCore, poolSize, cacheSize, secondary, cores, strict, ports },
      hname, hcore, hpool, hcache, hsecondary, hcores, hstrict, hports, rfl⟩

end NetBricks.Config
