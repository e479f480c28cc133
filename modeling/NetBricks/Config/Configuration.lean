/-!
# Configurations

The records of `config/mod.rs` and the default values of `config/config_reader.rs`.
-/

namespace NetBricks.Config

/-- `NUM_RXD`. -/
def numRxd : Int32 := 128

/-- `NUM_TXD`. -/
def numTxd : Int32 := 128

/-- `DEFAULT_POOL_SIZE`. -/
def defaultPoolSize : UInt32 := 2048 - 1

/-- `DEFAULT_CACHE_SIZE`. -/
def defaultCacheSize : UInt32 := 32

/-- `DEFAULT_SECONDARY`. -/
def defaultSecondary : Bool := false

/-- `DEFAULT_PRIMARY_CORE`. -/
def defaultPrimaryCore : Int32 := 0

/-- `DEFAULT_NAME`. -/
def defaultName : String := "zcsi"

/-- `PortConfiguration`. -/
structure PortConfiguration where
  name : String
  rxQueues : List Int32
  txQueues : List Int32
  rxd : Int32 := numRxd
  txd : Int32 := numTxd
  loopback : Bool := false
  tso : Bool := false
  csum : Bool := false
  deriving DecidableEq, Repr

/-- `NetbricksConfiguration`. -/
structure NetbricksConfiguration where
  name : String
  secondary : Bool := defaultSecondary
  primaryCore : Int32 := defaultPrimaryCore
  cores : List Int32 := []
  strict : Bool := false
  ports : List PortConfiguration := []
  poolSize : UInt32 := defaultPoolSize
  cacheSize : UInt32 := defaultCacheSize
  dpdkArgs : Option String := none
  deriving DecidableEq, Repr

end NetBricks.Config
