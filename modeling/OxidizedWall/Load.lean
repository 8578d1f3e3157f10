import OxidizedWall.Lib.Prog
import OxidizedWall.Config

/-!
# Loading the configuration (`config.rs`)

`Config::load` and `Config::reload_certs`, from the parsed file on. Both read the certificate and
the key of one virtual host after another; they are programs over the file system and the
resolver, so that files may change between two reads.
-/

namespace OxidizedWall

structure CertifiedKey (Cert SigningKey : Type) where
  cert : List Cert
  key : SigningKey
  deriving DecidableEq

/-- What the code takes from `rustls` and `rustls_pemfile`; `none` is an error. -/
structure Tls where
  Cert : Type
  PrivateKey : Type
  SigningKey : Type
  /-- `ResolvesServerCertUsingSni`. -/
  Resolver : Type
  /-- `rustls_pemfile::certs`, all of them or the first error. -/
  certs : Bytes → Option (List Cert)
  privateKey : Bytes → Option (Option PrivateKey)
  anySupportedType : PrivateKey → Option SigningKey
  new : Resolver
  add : Resolver → Str → CertifiedKey Cert SigningKey → Option Resolver

inductive CertOp (Resolver : Type)
  | read (path : Str)
  | update (resolver : Resolver)
  deriving DecidableEq

@[reducible] def CertOp.Ans {Resolver : Type} : CertOp Resolver → Type
  | .read _ => Option Bytes
  | .update _ => Unit

abbrev CertProg (tls : Tls) := Prog (CertOp tls.Resolver) CertOp.Ans

/-! ## Certificates -/

/-- The key that the code makes of the bytes of two files. -/
def certifiedKey (tls : Tls) (certBytes keyBytes : Bytes) :
    Option (CertifiedKey tls.Cert tls.SigningKey) := do
  let certs ← tls.certs certBytes
  let privateKey ← (← tls.privateKey keyBytes)
  let key ← tls.anySupportedType privateKey
  return ⟨certs, key⟩

/-- The step of both loops for one virtual host: reads its files, and adds what they hold. -/
def addVHost (tls : Tls) (resolver : tls.Resolver) (domain certPath keyPath : Str) :
    CertProg tls (Option tls.Resolver) := do
  match ← Prog.perform (CertOp.read certPath) with
  | none => return none
  | some certBytes =>
    match ← Prog.perform (CertOp.read keyPath) with
    | none => return none
    | some keyBytes => return (certifiedKey tls certBytes keyBytes).bind (tls.add resolver domain)

/-- The loop of `Config::reload_certs`, over the virtual hosts in the order in which their map is
iterated. -/
def reloadVHosts (tls : Tls) : (vhosts : List (Str × VHostConfig)) → (newResolver : tls.Resolver) →
    CertProg tls (Option tls.Resolver)
  | [], newResolver => return some newResolver
  | (domain, vhost) :: vhosts, newResolver => do
    match ← addVHost tls newResolver domain vhost.certPath vhost.keyPath with
    | none => return none
    | some newResolver => reloadVHosts tls vhosts newResolver

def reloadCerts (tls : Tls) (vhosts : List (Str × VHostConfig)) :
    CertProg tls (Option Unit) := do
  match ← reloadVHosts tls vhosts tls.new with
  | none => return none
  | some newResolver =>
    Prog.perform (CertOp.update newResolver)
    return some ()

/-! ## The file -/

/-- An entry of the file. Its routers are a map: no two are of the same route, and they stand in
the order in which the map is iterated. -/
structure RawVHost where
  domain : Str
  certPath : Str
  keyPath : Str
  routers : List (Str × List Str)
  nodup : (routers.map Prod.fst).Nodup

structure RawConfig where
  timeout : TimeoutConfig
  limit : LimitConfig
  ban : BanConfig
  vhosts : List RawVHost

/-- The loop of `Config::load` over the routers of an entry: each gets a row and a new counter.
Counters are numbered from `next` on. -/
def loadRouters (next : ℕ) (routers : List (Str × List Str)) :
    List (Str × List Str) × KeyMap Str AtomicUsize × ℕ :=
  routers.foldl (fun (sortedRouters, routersState, next) (path, upstreams) =>
    (sortedRouters ++ [(path, upstreams)], routersState.insert path ⟨next⟩, next + 1))
    ([], .empty, next)

/-- `sort_by(|a, b| b.0.len().cmp(&a.0.len()))`, a stable sort. -/
def sortRouters (routers : List (Str × List Str)) : List (Str × List Str) :=
  routers.mergeSort fun a b => utf8Len b.1 ≤ utf8Len a.1

/-- What `Config::load` makes of an entry, and the number of the next counter. -/
def RawVHost.load (rv : RawVHost) (next : ℕ) : VHostConfig × ℕ :=
  let (sortedRouters, routersState, next) := loadRouters next rv.routers
  (⟨rv.certPath, rv.keyPath, sortRouters sortedRouters, routersState⟩, next)

def loadVHosts (tls : Tls) : List RawVHost → (next : ℕ) → (vhosts : KeyMap Str VHostConfig) →
    (resolver : tls.Resolver) → CertProg tls (Option (KeyMap Str VHostConfig × tls.Resolver))
  | [], _, vhosts, resolver => return some (vhosts, resolver)
  | rv :: rest, next, vhosts, resolver => do
    let (vhost, next) := rv.load next
    match ← addVHost tls resolver rv.domain rv.certPath rv.keyPath with
    | none => return none
    | some resolver => loadVHosts tls rest next (vhosts.insert rv.domain vhost) resolver

/-- `Config::load`, from the parsed file on, with the resolver that it installs. -/
def Config.load (tls : Tls) (raw : RawConfig) : CertProg tls (Option (Config × tls.Resolver)) := do
  match ← loadVHosts tls raw.vhosts 0 .empty tls.new with
  | none => return none
  | some (vhosts, resolver) => return some (⟨raw.timeout, raw.limit, raw.ban, vhosts⟩, resolver)

end OxidizedWall
