import OxidizedWall.Lib.Checks
import OxidizedWall.Lib.Cut
import OxidizedWall.Forward

/-!
# Hosts

The host of a request is given in its URI or in its `Host` header, with or without a port, as a
name or as a bracketed literal. `get_host` prefers the URI, and cuts the header at its first
colon.

1. `beforeColon_eq_hostPart_iff`: when the cut finds the host part of the header.
2. `routed_by_host`: when the host that selects the route is that of the forwarded header.
-/

namespace OxidizedWall

/-- The bytes of a header value as characters. -/
def HeaderValue.text (v : HeaderValue) : Str := v.map fun b => Char.ofNat b.toNat

theorem HeaderValue.toStr_eq_some {v : HeaderValue} {s : Str} (h : v.toStr = some s) :
    s = v.text := by
  unfold HeaderValue.toStr at h
  split at h
  · exact (Option.some.inj h).symm
  · cases h

/-! ## The host part -/

/-- The bracketed literal at the start of a `Host` value, without the closing bracket. -/
def literal (s : Str) : Str :=
  if s.head? = some '[' ∧ ']' ∈ s then s.takeWhile (· ≠ ']') else []

/-- What stands before the port: all up to the first colon that is not in a literal. -/
def hostPart (s : Str) : Str := literal s ++ (s.drop (literal s).length).takeWhile (· ≠ ':')

/-- What `get_host` takes of a `Host` value. -/
def beforeColon (s : Str) : Str := s.takeWhile (· ≠ ':')

theorem literal_append_drop (s : Str) : literal s ++ s.drop (literal s).length = s := by
  apply List.prefix_iff_eq_append.mp
  unfold literal
  split
  · exact List.takeWhile_prefix _
  · exact List.nil_prefix

theorem beforeColon_append {s : Str} (h : ':' ∉ s) (t : Str) :
    beforeColon (s ++ t) = s ++ beforeColon t := takeWhile_ne_append h t

theorem beforeColon_of_not_mem {s : Str} (h : ':' ∉ s) : beforeColon s = s :=
  takeWhile_ne_of_not_mem h

theorem beforeColon_append_colon {s : Str} (h : ':' ∉ s) (t : Str) :
    beforeColon (s ++ ':' :: t) = s := takeWhile_ne_append_cons h t

/-- A text with a colon is cut short, whatever follows. -/
theorem length_beforeColon_append {s : Str} (h : ':' ∈ s) (t : Str) :
    (beforeColon (s ++ t)).length < s.length := by
  obtain ⟨a, b, rfl, ha⟩ := List.eq_append_cons_of_mem h
  rw [List.append_assoc, List.cons_append, beforeColon_append_colon ha, List.length_append,
    List.length_cons]
  omega

/-- The first colon ends the host part, unless it stands in a bracketed literal. -/
theorem beforeColon_eq_hostPart_iff (s : Str) : beforeColon s = hostPart s ↔ ':' ∉ literal s := by
  have hsplit := literal_append_drop s
  constructor
  · intro heq hmem
    have hlt := length_beforeColon_append hmem (s.drop (literal s).length)
    rw [hsplit, heq] at hlt
    unfold hostPart at hlt
    rw [List.length_append] at hlt
    omega
  · intro hmem
    nth_rewrite 1 [← hsplit]
    exact beforeColon_append hmem _

namespace Proxy

theorem getHost_eq (req : Request) : getHost req = match req.uri.host with
    | some host => host
    | none => match (req.headers.get HOST).bind HeaderValue.toStr with
      | some s => beforeColon s
      | none => "localhost".toList := by
  unfold getHost
  cases req.uri.host with
  | some host => rfl
  | none => cases (req.headers.get HOST).bind HeaderValue.toStr <;> rfl

/-! ## The forwarded host -/

/-- The host of the URI, if there is one, is the host part of the `Host` value `v`; if there is
none, `v` can be read and its first colon is not in a bracketed literal, or it names `localhost`
though it cannot be read. -/
def HostAgrees (uri : Uri) (v : HeaderValue) : Prop :=
  match uri.host with
  | some host => host = hostPart v.text
  | none => match v.toStr with
    | some s => ':' ∉ literal s
    | none => hostPart v.text = "localhost".toList

theorem getHost_eq_hostPart_iff {req : Request} {v : HeaderValue}
    (hhost : req.headers.get HOST = some v) :
    getHost req = hostPart v.text ↔ HostAgrees req.uri v := by
  rw [getHost_eq, hhost, Option.bind_some]
  unfold HostAgrees
  cases req.uri.host with
  | some host => rfl
  | none =>
    cases hv : v.toStr with
    | some s =>
      rw [← HeaderValue.toStr_eq_some hv]
      exact beforeColon_eq_hostPart_iff s
    | none => exact eq_comm

variable {lib : Externals} {env : Env} {config : Config} {req fwd : Request}
  {remoteAddr : SocketAddr} {addr : Str} {v : HeaderValue}

theorem Verified.validateHost (h : Verified env config req) :
    Protocol.validateHost req.headers req.method req.uri = .ok () := by
  have hprotocol := h.protocol
  unfold checkProtocol at hprotocol
  exact (Checks.andThen_eq_ok.mp (Checks.andThen_eq_ok.mp hprotocol).2).1

/-- A verified request has at most one `Host` header. -/
theorem Verified.getAll_host (h : Verified env config req) (hhost : req.headers.get HOST = some v) :
    req.headers.getAll HOST = [v] := by
  have hmethod : req.method ≠ .CONNECT := by
    intro hconnect
    have := h.method
    rw [hconnect] at this
    revert this
    decide
  have hvalid := h.validateHost
  unfold Protocol.validateHost at hvalid
  rw [if_pos hmethod] at hvalid
  simp only at hvalid
  split at hvalid
  · cases hvalid
  split at hvalid
  · cases hvalid
  rename_i hlen
  unfold HeaderMap.get at hhost
  obtain ⟨vs, hvs⟩ := List.head?_eq_some_iff.mp hhost
  rw [hvs, List.length_cons] at hlen
  have hnil : vs = [] := List.eq_nil_of_length_eq_zero (by omega)
  rw [hvs, hnil]

theorem headers_forwarded (q : Request) (addr : Str) : (forwarded lib q addr).headers = q.headers := by
  unfold forwarded
  split <;> rfl

/-- **The host that selects the route is the host of the forwarded header** if the URI has none,
and the header can be read and is no bracketed literal with a colon in it, or if the two happen to
agree: nothing compares them. -/
theorem routed_by_host
    (hsend : (httpsProxy lib env config req remoteAddr).Performs (.send addr fwd))
    (hhost : fwd.headers.get HOST = some v) :
    (∃ vhost upstreams counter, config.vhosts.get (getHost req) = some vhost ∧
      bestMatch vhost req.uri.path = some (upstreams, counter) ∧ addr ∈ upstreams) ∧
    fwd.headers.getAll HOST = [v] ∧
    (getHost req = hostPart v.text ↔ HostAgrees req.uri v) := by
  have hverified := verified_of_send hsend
  obtain ⟨q, hq, hdispatch, -⟩ := send_httpsProxy hsend
  obtain ⟨-, huri, hheaders, -⟩ := hq.same
  have hfwd : fwd.headers = req.headers := by
    rw [sends_dispatch _ hdispatch, headers_forwarded, hheaders]
  rw [hfwd] at hhost ⊢
  refine ⟨?_, hverified.getAll_host hhost, getHost_eq_hostPart_iff hhost⟩
  obtain ⟨⟨upstreams, counter⟩, hroute, haddr⟩ := route_of_send hdispatch
  obtain ⟨vhost, hvhost, hmatch⟩ := Option.bind_eq_some_iff.mp hroute
  have hgetHost : getHost q = getHost req := by
    unfold getHost
    rw [huri, hheaders]
  rw [hgetHost] at hvhost
  rw [huri] at hmatch
  exact ⟨vhost, upstreams, counter, hvhost, hmatch, haddr⟩

/-- A request in absolute form for another host than that of its header. -/
def absoluteRequest : Request where
  method := .GET
  uri := ⟨some ⟨"a".toList, none⟩, some ⟨"/".toList, none⟩⟩
  version := .HTTP_11
  headers := ⟨[(HOST, HeaderValue.fromStatic "b")]⟩
  body := .empty

theorem absolute_routes_apart : ∃ addr fwd v,
    (httpsProxy sampleExternals sampleEnv sampleConfig absoluteRequest sampleAddr).Performs
      (.send addr fwd) ∧ fwd.headers.get HOST = some v ∧
      getHost absoluteRequest ≠ hostPart v.text := by
  refine ⟨sampleUpstream, rewriteRequest sampleExternals absoluteRequest sampleUpstream,
    HeaderValue.fromStatic "b", ⟨0, by decide +kernel⟩, rfl, ?_⟩
  decide

theorem routed_by_host_plain : getHost plainPost = "a".toList := by
  have hagrees : HostAgrees plainPost.uri (HeaderValue.fromStatic "a") := by
    show ':' ∉ literal "a".toList
    decide
  have hroute := routed_by_host (v := HeaderValue.fromStatic "a") sends_plainPost rfl
  exact hroute.2.2.mpr hagrees

end Proxy

end OxidizedWall
