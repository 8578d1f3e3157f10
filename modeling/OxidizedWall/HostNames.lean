import OxidizedWall.Hosts
import OxidizedWall.Resolution

/-!
# Two ways to name a host

A host is a registered name or a bracketed literal, and letters of either case spell the same host.
The virtual hosts of a configuration are those for whose domains `rustls` took a certificate, and it
takes none for what is no DNS name, whatever the case of its letters.

So a literal has no virtual host, and a name has one only as it is spelled in the file:
`hosts_route_alike`.
-/

namespace OxidizedWall

/-- What `rustls` documents of the names in a `ResolvesServerCertUsingSni`: they are DNS names, kept
in lower case. -/
structure DnsResolver (tls : Tls) extends SniResolver tls where
  accepts_lower : ∀ name key, accepts (toLowercase name) key = accepts name key
  /-- There is no bracket and no colon in a DNS name. -/
  isDnsName : ∀ name key, accepts name key = true → '[' ∉ name ∧ ':' ∉ name

namespace Proxy

variable {tls : Tls} {raw : RawConfig} {config : Config} {resolver : tls.Resolver}

/-- Some answers of the file system make `Config::load` return this configuration. -/
def Loadable (tls : Tls) (config : Config) : Prop :=
  ∃ raw resolver, (Config.load tls raw).Yields (some (config, resolver))

/-- Some files hold a certificate and a key that can be added for the name. -/
def Certifiable (dns : DnsResolver tls) (name : Str) : Prop :=
  ∃ certBytes keyBytes key, certifiedKey tls certBytes keyBytes = some key ∧
    dns.accepts name key = true

theorem Certifiable.congr {dns : DnsResolver tls} {h h' : Str}
    (hsame : toLowercase h = toLowercase h') (hh : Certifiable dns h) : Certifiable dns h' := by
  obtain ⟨certBytes, keyBytes, key, hkey, haccepts⟩ := hh
  refine ⟨certBytes, keyBytes, key, hkey, ?_⟩
  rw [← dns.accepts_lower, ← hsame, dns.accepts_lower]
  exact haccepts

theorem addVHost_yields {added : tls.Resolver} {domain certPath keyPath : Str} :
    (addVHost tls resolver domain certPath keyPath).Yields (some added) ↔
      ∃ certBytes keyBytes key, certifiedKey tls certBytes keyBytes = some key ∧
        tls.add resolver domain key = some added := by
  constructor
  · rintro ⟨certAnswer, h⟩
    cases certAnswer with
    | none => cases h
    | some certBytes =>
      obtain ⟨keyAnswer, h⟩ := h
      cases keyAnswer with
      | none => cases h
      | some keyBytes =>
        obtain ⟨key, hkey, hadd⟩ := Option.bind_eq_some_iff.mp h
        exact ⟨certBytes, keyBytes, key, hkey, hadd⟩
  · rintro ⟨certBytes, keyBytes, key, hkey, hadd⟩
    exact ⟨some certBytes, some keyBytes, Option.bind_eq_some_iff.mpr ⟨key, hkey, hadd⟩⟩

/-- Loading has found a certificate for each domain of the file. -/
theorem loadVHosts_certifiable (dns : DnsResolver tls) {rvs : List RawVHost} {next : ℕ}
    {vhosts vhosts' : KeyMap Str VHostConfig} {resolver' : tls.Resolver}
    (h : (loadVHosts tls rvs next vhosts resolver).Yields (some (vhosts', resolver'))) :
    ∀ rv ∈ rvs, Certifiable dns rv.domain := by
  induction rvs generalizing next vhosts resolver with
  | nil => exact fun rv hrv => absurd hrv List.not_mem_nil
  | cons rv rvs ih =>
    obtain ⟨added, hadded, h⟩ := Prog.yields_bind.mp h
    cases added with
    | none => cases h
    | some added =>
      refine List.forall_mem_cons.mpr ⟨?_, ih h⟩
      obtain ⟨certBytes, keyBytes, key, hkey, hadd⟩ := addVHost_yields.mp hadded
      refine ⟨certBytes, keyBytes, key, hkey, ?_⟩
      rw [← dns.add_isSome resolver, hadd]
      rfl

/-- A virtual host is for a name that can be certified. -/
theorem Loadable.certifiable (dns : DnsResolver tls) (h : Loadable tls config) {domain : Str}
    {vhost : VHostConfig} (hget : config.vhosts.get domain = some vhost) :
    Certifiable dns domain := by
  obtain ⟨raw, resolver, hload⟩ := h
  rcases load_get hload domain with ⟨-, hnone⟩ | ⟨rv, next, hlast, -⟩
  · cases hnone.symm.trans hget
  · obtain ⟨hrv, rfl⟩ := lastEntry_mem hlast
    obtain ⟨loaded, hloaded, h⟩ := Prog.yields_bind.mp hload
    cases loaded with
    | none => cases h
    | some r => exact loadVHosts_certifiable dns hloaded rv hrv

theorem Loadable.get_eq_none (dns : DnsResolver tls) (h : Loadable tls config) {domain : Str}
    (hno : ¬ Certifiable dns domain) : config.vhosts.get domain = none :=
  Option.eq_none_iff_forall_ne_some.mpr fun _ hget => hno (h.certifiable dns hget)

/-- A file with one entry is loaded if its name can be certified. -/
theorem Certifiable.exists_loadable {dns : DnsResolver tls} {name : Str}
    (h : Certifiable dns name) : ∃ config vhost, Loadable tls config ∧
      config.vhosts = KeyMap.empty.insert name vhost := by
  obtain ⟨certBytes, keyBytes, key, hkey, haccepts⟩ := h
  obtain ⟨added, hadded⟩ := Option.isSome_iff_exists.mp
    ((dns.add_isSome tls.new name key).trans haccepts)
  have hyields : (addVHost tls tls.new name [] []).Yields (some added) :=
    addVHost_yields.mpr ⟨certBytes, keyBytes, key, hkey, hadded⟩
  refine ⟨_, _, ⟨⟨⟨0, 0, 0, 0⟩, ⟨0, 0, 0, 0, 0⟩, ⟨0, 0, 0, 0⟩, [⟨name, [], [], [], by simp⟩]⟩,
    added, Prog.yields_bind.mpr ⟨some (_, added), Prog.yields_bind.mpr ⟨some added, hyields, rfl⟩,
      rfl⟩⟩, rfl⟩

/-! ## Where a request names its host -/

/-- A registered name, or a bracketed literal. -/
def IsHost (h : Str) : Prop := ':' ∉ h ∨ h.head? = some '['

inductive Place
  | uri
  | header
  deriving DecidableEq

/-- A port behind its colon. -/
def portText : Option Str → Str
  | some port => ':' :: port
  | none => []

/-- The request names the host `h`, with or without a port: in its URI, or in its `Host` header
if its URI has no authority. -/
def Names (req : Request) (h : Str) : Place → Prop
  | .uri => ∃ port, req.uri.authority = some ⟨h, port⟩
  | .header => req.uri.authority = none ∧ ∃ port,
    (req.headers.get HOST).bind HeaderValue.toStr = some (h ++ portText port)

/-- What `get_host` makes of a host. -/
def lookedUp (h : Str) : Place → Str
  | .uri => h
  | .header => beforeColon h

variable {req req' : Request} {h h' : Str} {place place' : Place}

theorem beforeColon_portText (h : Str) (port : Option Str) :
    beforeColon (h ++ portText port) = beforeColon h := by
  cases port with
  | none => rw [portText, List.append_nil]
  | some port =>
    by_cases hmem : ':' ∈ h
    · obtain ⟨a, b, rfl, ha⟩ := List.eq_append_cons_of_mem hmem
      rw [List.append_assoc, List.cons_append, beforeColon_append_colon ha,
        beforeColon_append_colon ha]
    · rw [portText, beforeColon_append_colon hmem, beforeColon_of_not_mem hmem]

theorem getHost_of_names (hnames : Names req h place) : getHost req = lookedUp h place := by
  rw [getHost_eq]
  cases place with
  | uri =>
    obtain ⟨port, hport⟩ := hnames
    unfold Uri.host
    rw [hport]
    rfl
  | header =>
    obtain ⟨hnone, port, hport⟩ := hnames
    unfold Uri.host
    rw [hnone, hport]
    exact beforeColon_portText h port

theorem lookedUp_of_name (hname : ':' ∉ h) (place : Place) : lookedUp h place = h := by
  cases place with
  | uri => rfl
  | header => exact beforeColon_of_not_mem hname

/-- Of a literal at least the bracket is looked up. -/
theorem bracket_mem_lookedUp (hliteral : h.head? = some '[') (place : Place) :
    '[' ∈ lookedUp h place := by
  obtain ⟨rest, rfl⟩ := List.head?_eq_some_iff.mp hliteral
  cases place with
  | uri => exact List.mem_cons_self
  | header =>
    show '[' ∈ beforeColon ('[' :: rest)
    unfold beforeColon
    rw [List.takeWhile_cons_of_pos (by decide)]
    exact List.mem_cons_self

theorem not_certifiable_of_bracket (dns : DnsResolver tls) (hmem : '[' ∈ h) :
    ¬ Certifiable dns h := by
  rintro ⟨-, -, key, -, haccepts⟩
  exact (dns.isDnsName h key haccepts).1 hmem

/-- A host that cannot be certified has no virtual host, wherever it is named. -/
theorem lookup_eq_none (dns : DnsResolver tls) (hload : Loadable tls config)
    (hnames : Names req h place) (hhost : IsHost h) (hno : ¬ Certifiable dns h) :
    config.vhosts.get (getHost req) = none := by
  rw [getHost_of_names hnames]
  refine hload.get_eq_none dns ?_
  rcases hhost with hname | hliteral
  · rwa [lookedUp_of_name hname]
  · exact not_certifiable_of_bracket dns (bracket_mem_lookedUp hliteral place)

/-- A host that can be certified is looked up as it is spelled. -/
theorem getHost_of_certifiable (dns : DnsResolver tls) (hnames : Names req h place)
    (hyes : Certifiable dns h) : getHost req = h := by
  obtain ⟨-, -, key, -, haccepts⟩ := hyes
  rw [getHost_of_names hnames, lookedUp_of_name (dns.isDnsName h key haccepts).2]

/-- **Two requests for one host select the same virtual host** in every configuration that can be
loaded if they spell the host alike, or if no certificate can be had for it, as for a literal: then
there is no virtual host. A name in two spellings is found under one of them only. -/
theorem hosts_route_alike (dns : DnsResolver tls) (hnames : Names req h place)
    (hnames' : Names req' h' place') (hhost : IsHost h) (hhost' : IsHost h')
    (hsame : toLowercase h = toLowercase h') :
    (∀ config, Loadable tls config →
      config.vhosts.get (getHost req) = config.vhosts.get (getHost req')) ↔
      h = h' ∨ ¬ Certifiable dns h := by
  constructor
  · intro hall
    by_contra hno
    obtain ⟨hne, hyes⟩ := not_or.mp hno
    rw [not_not] at hyes
    -- a configuration that knows the first spelling alone
    obtain ⟨config, vhost, hload, hvhosts⟩ := hyes.exists_loadable
    have hget := hall config hload
    rw [getHost_of_certifiable dns hnames hyes,
      getHost_of_certifiable dns hnames' (hyes.congr hsame), hvhosts, KeyMap.get_insert_self,
      KeyMap.get_insert_of_ne (Ne.symm hne)] at hget
    cases hget
  · intro hcond config hload
    by_cases hyes : Certifiable dns h
    · have heq := hcond.resolve_right (not_not.mpr hyes)
      rw [getHost_of_certifiable dns hnames hyes,
        getHost_of_certifiable dns hnames' (hyes.congr hsame), heq]
    · have hno' : ¬ Certifiable dns h' := fun hyes' => hyes (hyes'.congr hsame.symm)
      rw [lookup_eq_none dns hload hnames hhost hyes, lookup_eq_none dns hload hnames' hhost' hno']

end Proxy

theorem toLowercase_toLowercase (s : Str) : toLowercase (toLowercase s) = toLowercase s := by
  unfold toLowercase
  rw [List.map_map]
  refine List.map_congr_left fun c _ => ?_
  show c.toLower.toLower = c.toLower
  unfold Char.toLower
  grind

namespace Pem

theorem not_mem_of_accepts {name : Str} {key : CertifiedKey Bytes Bytes}
    (h : accepts name key = true) {c : Char} (hlower : c.toLower = c)
    (hc : (c.isAlphanum || c == '-' || c == '_' || c == '.') = false) : c ∉ name := by
  intro hmem
  unfold accepts isDnsName at h
  simp only [Bool.and_eq_true, List.all_eq_true] at h
  have hall := h.1.2 c (hlower ▸ List.mem_map_of_mem hmem)
  rw [hc] at hall
  cases hall

def dns : DnsResolver tls where
  toSniResolver := sni
  accepts_lower name key := by
    show accepts (toLowercase name) key = accepts name key
    unfold accepts
    rw [toLowercase_toLowercase]
  isDnsName name key h :=
    ⟨not_mem_of_accepts h rfl rfl, not_mem_of_accepts h rfl rfl⟩

end Pem

namespace Proxy

/-- A request with this host in its URI. -/
def inUri (host : String) : Request where
  method := .GET
  uri := ⟨some ⟨host.toList, none⟩, some ⟨"/".toList, none⟩⟩
  version := .HTTP_2
  headers := .new
  body := .empty

/-- A request in origin form with this `Host` header. -/
def originForm (host : String) : Request where
  method := .GET
  uri := ⟨none, some ⟨"/".toList, none⟩⟩
  version := .HTTP_11
  headers := ⟨[(HOST, HeaderValue.fromStatic host)]⟩
  body := .empty

theorem certifiable_a : Certifiable Pem.dns "a".toList :=
  ⟨certPem, keyPem, heldKey certPem, certifiedKey_certPem.1, certifiedKey_certPem.2.1⟩

/-- `A` is the host `a`, and has another virtual host or none. -/
theorem letters_route_apart : Names (inUri "a") "a".toList .uri ∧
    Names (originForm "A") "A".toList .header ∧ toLowercase "a".toList = toLowercase "A".toList ∧
    ∃ config, Loadable Pem.tls config ∧
      config.vhosts.get (getHost (inUri "a")) ≠ config.vhosts.get (getHost (originForm "A")) := by
  obtain ⟨config, vhost, hload, hvhosts⟩ := certifiable_a.exists_loadable
  refine ⟨⟨none, rfl⟩, ⟨rfl, none, by decide⟩, by decide, config, hload, fun heq => ?_⟩
  have hlower : getHost (inUri "a") = "a".toList := by decide
  have hcapital : getHost (originForm "A") = "A".toList := by decide
  rw [hlower, hcapital, hvhosts, KeyMap.get_insert_self, KeyMap.get_insert_of_ne (by decide)] at heq
  cases heq

/-- The same spelling with a port, and a literal in both places. -/
theorem hosts_route_alike_port : ∃ config, Loadable Pem.tls config ∧
    (config.vhosts.get (getHost (inUri "a"))).isSome ∧
    config.vhosts.get (getHost (inUri "a")) = config.vhosts.get (getHost (originForm "a:443")) ∧
    config.vhosts.get (getHost (inUri "[::1]")) =
      config.vhosts.get (getHost (originForm "[::1]:443")) := by
  obtain ⟨config, vhost, hload, hvhosts⟩ := certifiable_a.exists_loadable
  have huri : Names (inUri "a") "a".toList .uri := ⟨none, rfl⟩
  have hport : Names (originForm "a:443") "a".toList .header := ⟨rfl, some "443".toList, by decide⟩
  have hbare : Names (inUri "[::1]") "[::1]".toList .uri := ⟨none, rfl⟩
  have hliteral : Names (originForm "[::1]:443") "[::1]".toList .header :=
    ⟨rfl, some "443".toList, by decide⟩
  have hname : IsHost "a".toList := .inl (by decide)
  refine ⟨config, hload, ?_, (hosts_route_alike Pem.dns huri hport hname hname rfl).mpr (.inl rfl)
    config hload, (hosts_route_alike Pem.dns hbare hliteral (.inr rfl) (.inr rfl) rfl).mpr
      (.inr (not_certifiable_of_bracket Pem.dns (by decide))) config hload⟩
  have hlower : getHost (inUri "a") = "a".toList := by decide
  rw [hlower, hvhosts, KeyMap.get_insert_self]
  rfl

end Proxy

end OxidizedWall
