import OxidizedWall.Hosts
import Mathlib.Algebra.Order.BigOperators.Group.List

/-!
# Limits on a request

Some limits are given to the HTTP library, and the others are checked by `verify_request`. The size of
a field is among the first, and is given to the library for HTTP/2 alone: `within_limits_iff`.
-/

namespace OxidizedWall

/-- The settings that only `configure_builder` reads. -/
structure ConnectionConfig where
  cHeaderRead : ℕ
  cKeepAliveIdle : ℕ
  cKeepAliveTimeout : ℕ
  maxHeaderSize : ℕ
  cH2MaxStreams : ℕ
  deriving DecidableEq

/-! ## The builder -/

structure Http1Builder where
  headerReadTimeout : Option ℕ
  maxHeaders : Option ℕ
  deriving DecidableEq

structure Http2Builder where
  keepAliveInterval : Option ℕ
  keepAliveTimeout : Option ℕ
  maxConcurrentStreams : Option ℕ
  maxHeaderListSize : Option ℕ
  deriving DecidableEq

structure Builder where
  http1 : Http1Builder
  http2 : Http2Builder
  deriving DecidableEq

/-- `auto::Builder::new`: nothing is set. -/
def Builder.new : Builder := ⟨⟨none, none⟩, ⟨none, none, none, none⟩⟩

/-- `configure_builder`. The header size is cast to `u32`. -/
def configureBuilder (builder : Builder) (config : Config) (conn : ConnectionConfig) : Builder where
  http1 := { builder.http1 with
    headerReadTimeout := some (fromSecs conn.cHeaderRead)
    maxHeaders := some config.limit.maxHeaderCount }
  http2 := { builder.http2 with
    keepAliveInterval := some (fromSecs conn.cKeepAliveIdle)
    keepAliveTimeout := some (fromSecs conn.cKeepAliveTimeout)
    maxConcurrentStreams := some conn.cH2MaxStreams
    maxHeaderListSize := some (conn.maxHeaderSize % 2 ^ 32) }

/-! ## What the library enforces -/

def fieldSize (f : HeaderName × HeaderValue) : ℕ := utf8Len f.1 + f.2.length

/-- The size of a header list, as HTTP/2 counts it. -/
def listSize (headers : HeaderMap) : ℕ := (headers.fields.map fun f => fieldSize f + 32).sum

/-- The HTTP library: the requests that a connection of a builder hands on, and the limits that it
enforces of those that are set. -/
structure Hyper where
  delivers : Builder → Request → Prop
  http1_count : ∀ b req limit, delivers b req → req.version = .HTTP_11 →
    b.http1.maxHeaders = some limit → req.headers.len ≤ limit
  http2_list : ∀ b req limit, delivers b req → req.version = .HTTP_2 →
    b.http2.maxHeaderListSize = some limit → listSize req.headers ≤ limit

namespace Proxy

variable {hyper : Hyper} {builder : Builder} {env : Env} {config : Config} {conn : ConnectionConfig}
  {req : Request} {remoteAddr : SocketAddr}

/-- The length of the path and query, as they stand. -/
def pathAndQueryLen (uri : Uri) : ℕ := uri.pathAndQuery.elim 0 fun pq => utf8Len pq.asStr

structure WithinLimits (config : Config) (conn : ConnectionConfig) (req : Request) : Prop where
  uriSize : pathAndQueryLen req.uri ≤ config.limit.maxUriSize
  headerCount : req.headers.len ≤ config.limit.maxHeaderCount
  headerSize : ∀ f ∈ req.headers.fields, fieldSize f ≤ conn.maxHeaderSize
  oneHost : (req.headers.getAll HOST).length ≤ 1
  someHost : req.headers.getAll HOST ≠ [] ∨ req.uri.authority ≠ none
  framing : ¬ (req.headers.containsKey CONTENT_LENGTH = true ∧
    req.headers.containsKey TRANSFER_ENCODING = true)

/-- The length that is checked is at least that of the path and query. -/
theorem pathAndQueryLen_le (uri : Uri) : pathAndQueryLen uri ≤ uriLen uri := by
  unfold pathAndQueryLen uriLen Uri.path Uri.query
  cases uri.pathAndQuery with
  | none => exact Nat.zero_le _
  | some pq =>
    obtain ⟨path, query⟩ := pq
    have hmark (q : Str) : utf8Len ('?' :: q) = utf8Len q + 1 := Nat.add_comm _ _
    have happend (s t : Str) : utf8Len (s ++ t) = utf8Len s + utf8Len t := by
      unfold utf8Len
      rw [List.map_append, List.sum_append]
    have hslash : utf8Len ['/'] = 1 := rfl
    show utf8Len (PathAndQuery.asStr ⟨path, query⟩) ≤ _
    unfold PathAndQuery.asStr
    cases query with
    | none =>
      by_cases hpath : path = []
      · subst hpath
        exact Nat.le_refl _
      · simp [hpath]
    | some q =>
      by_cases hpath : path = []
      · subst hpath
        simp [hmark, hslash]
      · simp [hpath, happend, hmark]

/-- What `verify_request` checks itself. -/
theorem Verified.withinLimits (h : Verified env config req)
    (hsize : ∀ f ∈ req.headers.fields, fieldSize f ≤ conn.maxHeaderSize) :
    WithinLimits config conn req := by
  have hmethod : req.method ≠ .CONNECT := by
    intro hconnect
    have := h.method
    rw [hconnect] at this
    revert this
    decide
  have hhost := h.validateHost
  unfold Protocol.validateHost at hhost
  rw [if_pos hmethod] at hhost
  simp only at hhost
  split at hhost
  · cases hhost
  rename_i hsome
  split at hhost
  · cases hhost
  rename_i hone
  have hprotocol := h.protocol
  unfold checkProtocol at hprotocol
  have hframing := (Checks.andThen_eq_ok.mp (Checks.andThen_eq_ok.mp hprotocol).2).2
  unfold Protocol.validateSmuggling at hframing
  split at hframing
  · cases hframing
  rename_i hboth
  exact {
    uriSize := (pathAndQueryLen_le req.uri).trans h.uriSize
    headerCount := h.headerCount
    headerSize := hsize
    oneHost := Nat.not_lt.mp hone
    someHost := by
      by_contra hno
      obtain ⟨hnone, hauthority⟩ := not_or.mp hno
      refine hsome ⟨not_not.mp hnone, ?_⟩
      unfold Uri.host
      rw [not_not.mp hauthority, Option.map_none]
    framing := fun hcl => hboth (Bool.and_eq_true_iff.mpr hcl) }

theorem fieldSize_le_listSize {headers : HeaderMap} {f : HeaderName × HeaderValue}
    (hf : f ∈ headers.fields) : fieldSize f ≤ listSize headers := by
  unfold listSize
  have := List.le_sum_of_mem (List.mem_map_of_mem (f := fun f => fieldSize f + 32) hf)
  omega

/-- **When admission enforces every limit.** A request that a connection hands on, and that
`verify_request` lets through, keeps to all limits if it came over HTTP/2; if it came over HTTP/1.1
it does exactly if none of its fields is too large, and nothing looks at that. -/
theorem within_limits_iff (hdelivers : hyper.delivers (configureBuilder builder config conn) req)
    (hok : (verifyRequest env req remoteAddr config).Returns (.ok ())) :
    WithinLimits config conn req ↔
      req.version = .HTTP_2 ∨ ∀ f ∈ req.headers.fields, fieldSize f ≤ conn.maxHeaderSize := by
  have hverified := verdict_eq_none.mp (returns_verifyRequest_ok.mp hok)
  constructor
  · exact fun h => .inr h.headerSize
  · rintro (htwo | hsize)
    · refine hverified.withinLimits fun f hf => ?_
      calc fieldSize f ≤ listSize req.headers := fieldSize_le_listSize hf
        _ ≤ conn.maxHeaderSize % 2 ^ 32 := hyper.http2_list _ _ _ hdelivers htwo rfl
        _ ≤ conn.maxHeaderSize := Nat.mod_le _ _
    · exact hverified.withinLimits hsize

/-- The read buffer of an HTTP/1.1 connection. -/
def defaultBuffer : ℕ := 8192 + 4096 * 100

/-- A library that enforces what is set, and holds the fields of an HTTP/1.1 request in its buffer. -/
def sampleHyper : Hyper where
  delivers b req :=
    req.version = .HTTP_11 ∧ (∀ limit, b.http1.maxHeaders = some limit → req.headers.len ≤ limit) ∧
        listSize req.headers ≤ defaultBuffer ∨
      req.version = .HTTP_2 ∧ ∀ limit, b.http2.maxHeaderListSize = some limit →
        listSize req.headers ≤ limit
  http1_count b req limit := by
    rintro (⟨-, hcount, -⟩ | ⟨htwo, -⟩) hversion hlimit
    · exact hcount limit hlimit
    · rw [htwo] at hversion
      cases hversion
  http2_list b req limit := by
    rintro (⟨hone, -⟩ | ⟨-, hlist⟩) hversion hlimit
    · rw [hone] at hversion
      cases hversion
    · exact hlist limit hlimit

/-- Fields of at most 16 bytes. -/
def shortFields : ConnectionConfig := ⟨10, 60, 20, 16, 100⟩

def longField : Request := sampleRequest .GET [("X-Long", "0123456789abcdef")] []

theorem admits_longField :
    sampleHyper.delivers (configureBuilder .new sampleConfig shortFields) longField ∧
    longField.version = .HTTP_11 ∧
    (verifyRequest sampleEnv longField sampleAddr sampleConfig).Returns (.ok ()) ∧
    ¬ WithinLimits sampleConfig shortFields longField := by
  have hverdict : verdict sampleEnv sampleConfig longField = none := by decide +kernel
  refine ⟨.inl ⟨rfl, ?_, by decide⟩, rfl, returns_verifyRequest_ok.mpr hverdict, fun h => ?_⟩
  · rintro _ ⟨⟩
    decide
  · have hlong := h.headerSize (headerName "X-Long", .fromStatic "0123456789abcdef")
      (.tail _ (.head _))
    revert hlong
    decide

theorem within_limits_plain : WithinLimits sampleConfig shortFields plainPost := by
  have hdelivers : sampleHyper.delivers (configureBuilder .new sampleConfig shortFields)
      plainPost := by
    refine .inl ⟨rfl, ?_, by decide⟩
    rintro _ ⟨⟩
    decide
  have hverdict : verdict sampleEnv sampleConfig plainPost = none := by decide +kernel
  have hok : (verifyRequest sampleEnv plainPost sampleAddr sampleConfig).Returns (.ok ()) :=
    returns_verifyRequest_ok.mpr hverdict
  exact (within_limits_iff hdelivers hok).mpr (.inr (by decide))

end Proxy

end OxidizedWall
