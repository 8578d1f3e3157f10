import OxidizedWall.Lib.KeyMap
import OxidizedWall.Runtime

/-!
# Configuration (`config.rs`)

The settings that the request pipeline reads. Durations are in seconds, sizes in bytes.
-/

namespace OxidizedWall

structure TimeoutConfig where
  cBodyTimeout : ℕ
  sConnect : ℕ
  sResponse : ℕ
  sWebsocketIdle : ℕ
  deriving DecidableEq

structure LimitConfig where
  maxUriSize : ℕ
  maxHeaderCount : ℕ
  maxBodySize : ℕ
  maxRps : ℕ
  maxBandwidth : ℕ
  deriving DecidableEq

structure BanConfig where
  banTimeout : ℕ
  banProtocol : ℕ
  banWaf : ℕ
  banRateLimit : ℕ
  deriving DecidableEq

/-- A shared counter, known by its address. -/
structure AtomicUsize where
  addr : ℕ
  deriving DecidableEq

structure VHostConfig where
  certPath : Str
  keyPath : Str
  routers : List (Str × List Str)
  routersState : KeyMap Str AtomicUsize

structure Config where
  timeout : TimeoutConfig
  limit : LimitConfig
  ban : BanConfig
  vhosts : KeyMap Str VHostConfig

end OxidizedWall
