import OxidizedWall.Runtime

/-!
# HTTP messages

The types of `hyper` and `http` that the proxy reads and writes: methods, header maps, URIs,
bodies, requests and responses, with the accessors the code calls.

A header map is the list of its fields. Names are kept in lower case, as `HeaderName` does. Two
maps are compared by `HeaderMap.Equiv`: the same values under every name, in the same order.
-/

namespace OxidizedWall

inductive Method
  | GET | POST | PUT | DELETE | PATCH | HEAD | OPTIONS | CONNECT | TRACE
  | extension (token : Str)
  deriving DecidableEq, Repr

inductive Version
  | HTTP_09 | HTTP_10 | HTTP_11 | HTTP_2 | HTTP_3
  deriving DecidableEq, Repr

abbrev StatusCode := ℕ

namespace StatusCode

def SWITCHING_PROTOCOLS : StatusCode := 101
def PERMANENT_REDIRECT : StatusCode := 308
def BAD_REQUEST : StatusCode := 400
def FORBIDDEN : StatusCode := 403
def METHOD_NOT_ALLOWED : StatusCode := 405
def PAYLOAD_TOO_LARGE : StatusCode := 413
def URI_TOO_LONG : StatusCode := 414
def TOO_MANY_REQUESTS : StatusCode := 429
def INTERNAL_SERVER_ERROR : StatusCode := 500
def BAD_GATEWAY : StatusCode := 502
def GATEWAY_TIMEOUT : StatusCode := 504

end StatusCode

/-- An error of the HTTP library. -/
structure HyperError where
  deriving DecidableEq, Repr

/-! ## Headers -/

/-- A header name, in lower case. -/
abbrev HeaderName := Str

/-- The name spelled `s`. -/
def headerName (s : String) : HeaderName := s.toList.map Char.toLower

def HOST : HeaderName := headerName "Host"
def UPGRADE : HeaderName := headerName "Upgrade"
def USER_AGENT : HeaderName := headerName "User-Agent"
def CONTENT_TYPE : HeaderName := headerName "Content-Type"
def CONTENT_LENGTH : HeaderName := headerName "Content-Length"
def TRANSFER_ENCODING : HeaderName := headerName "Transfer-Encoding"

abbrev HeaderValue := Bytes

namespace HeaderValue

/-- `HeaderValue::from_static`. -/
def fromStatic (s : String) : HeaderValue := s.toList.map fun c => UInt8.ofNat c.toNat

/-- `HeaderValue::to_str`: the text of a value of visible ASCII characters and tabs. -/
def toStr (v : HeaderValue) : Option Str :=
  if v.all fun b => (32 ≤ b && b < 127) || b == 9 then some (v.map fun b => Char.ofNat b.toNat)
  else none

end HeaderValue

structure HeaderMap where
  fields : List (HeaderName × HeaderValue)
  deriving DecidableEq

namespace HeaderMap

/-- `HeaderMap::new`. -/
def new : HeaderMap := ⟨[]⟩

/-- `HeaderMap::get_all`. -/
def getAll (h : HeaderMap) (n : HeaderName) : List HeaderValue :=
  (h.fields.filter fun f => f.1 = n).map Prod.snd

/-- `HeaderMap::get`. -/
def get (h : HeaderMap) (n : HeaderName) : Option HeaderValue := (h.getAll n).head?

/-- `HeaderMap::contains_key`. -/
def containsKey (h : HeaderMap) (n : HeaderName) : Bool := h.fields.any fun f => f.1 = n

/-- `HeaderMap::len`. -/
def len (h : HeaderMap) : ℕ := h.fields.length

/-- `HeaderMap::remove`. -/
def remove (h : HeaderMap) (n : HeaderName) : HeaderMap :=
  ⟨h.fields.filter fun f => f.1 ≠ n⟩

/-- `HeaderMap::insert`. -/
def insert (h : HeaderMap) (n : HeaderName) (v : HeaderValue) : HeaderMap :=
  ⟨(h.remove n).fields ++ [(n, v)]⟩

/-- The same values under every name, as `HeaderMap`'s own equality has it. -/
def Equiv (h h' : HeaderMap) : Prop := ∀ n, h.getAll n = h'.getAll n

theorem getAll_remove (h : HeaderMap) (n m : HeaderName) :
    (h.remove n).getAll m = if m = n then [] else h.getAll m := by
  unfold getAll remove
  rw [List.filter_filter]
  by_cases hm : m = n
  · subst hm
    rw [if_pos rfl, List.filter_eq_nil_iff.mpr (by simp), List.map_nil]
  · rw [if_neg hm]
    congr 1
    apply List.filter_congr
    intro f _
    by_cases hf : f.1 = m <;> simp [hf, hm]

theorem getAll_insert (h : HeaderMap) (n m : HeaderName) (v : HeaderValue) :
    (h.insert n v).getAll m = if m = n then [v] else h.getAll m := by
  have hsplit : (h.insert n v).getAll m =
      (h.remove n).getAll m ++ if n = m then [v] else [] := by
    unfold getAll insert
    rw [List.filter_append, List.map_append]
    by_cases hm : n = m <;> simp [hm]
  rw [hsplit, getAll_remove]
  by_cases hm : m = n
  · rw [if_pos hm, if_pos hm, if_pos hm.symm, List.nil_append]
  · rw [if_neg hm, if_neg hm, if_neg (Ne.symm hm), List.append_nil]

theorem get_congr {h h' : HeaderMap} {n : HeaderName} (e : h.getAll n = h'.getAll n) :
    h.get n = h'.get n := by
  unfold get; rw [e]

end HeaderMap

/-! ## URIs -/

structure Authority where
  host : Str
  port : Option Str
  deriving DecidableEq

structure PathAndQuery where
  path : Str
  query : Option Str
  deriving DecidableEq

namespace PathAndQuery

/-- `PathAndQuery::as_str`. -/
def asStr (pq : PathAndQuery) : Str :=
  let data := pq.path ++ match pq.query with
    | some q => '?' :: q
    | none => []
  if data = [] then ['/'] else data

end PathAndQuery

/-- A parsed URI: `pathAndQuery` is absent in authority form only. -/
structure Uri where
  authority : Option Authority
  pathAndQuery : Option PathAndQuery
  deriving DecidableEq

namespace Uri

/-- `Uri::host`: the host of the authority, without the port. -/
def host (u : Uri) : Option Str := u.authority.map Authority.host

/-- `Uri::path`. -/
def path (u : Uri) : Str :=
  match u.pathAndQuery with
  | some pq => if pq.path = [] then ['/'] else pq.path
  | none => []

/-- `Uri::query`. -/
def query (u : Uri) : Option Str := u.pathAndQuery.bind PathAndQuery.query

/-- `uri.path_and_query().map(|pq| pq.as_str()).unwrap_or("/")`, as the code writes it wherever
it needs the target. -/
def target (u : Uri) : Str := (u.pathAndQuery.map PathAndQuery.asStr).getD ['/']

end Uri

/-! ## Messages -/

inductive Frame
  | data (bytes : Bytes)
  | trailers (headers : HeaderMap)
  deriving DecidableEq

/-- `Frame::data_ref`. -/
def Frame.dataRef : Frame → Option Bytes
  | data bytes => some bytes
  | trailers _ => none

/-- How a body ends. -/
inductive BodyEnd
  | endOfStream
  | error
  deriving DecidableEq, Repr

/-- A body as its reader will find it: its frames, each with the time it takes to come after the
one before, and the time and manner of its end (`none`: it stalls). -/
structure Body where
  frames : List (ℕ × Frame)
  finish : Option (ℕ × BodyEnd)
  deriving DecidableEq

namespace Body

/-- `Full::new`. -/
def full (bytes : Bytes) : Body :=
  ⟨if bytes = [] then [] else [(0, .data bytes)], some (0, .endOfStream)⟩

/-- `Empty::new`. -/
def empty : Body := ⟨[], some (0, .endOfStream)⟩

/-- The data of the body, `Collected::to_bytes` of all of it. -/
def bytes (b : Body) : Bytes := b.frames.flatMap fun f => (f.2.dataRef).getD []

/-- How long the frames of the body take to come. -/
def delay (b : Body) : ℕ := (b.frames.map Prod.fst).sum

/-- The trailers of the body. -/
def trailers (b : Body) : List HeaderMap := b.frames.filterMap fun f =>
  match f.2 with
  | .data _ => none
  | .trailers h => some h

@[simp] theorem bytes_full (bs : Bytes) : (full bs).bytes = bs := by
  unfold full bytes
  by_cases h : bs = []
  · simp [h]
  · simp [h, Frame.dataRef]

@[simp] theorem trailers_full (bs : Bytes) : (full bs).trailers = [] := by
  unfold full trailers
  by_cases h : bs = [] <;> simp [h]

end Body

structure Request where
  method : Method
  uri : Uri
  version : Version
  headers : HeaderMap
  body : Body
  deriving DecidableEq

structure Response where
  status : StatusCode
  version : Version
  headers : HeaderMap
  body : Body
  deriving DecidableEq

/-- The length a `Content-Length` header announces. -/
def contentLength (h : HeaderMap) : Option ℕ := do
  let s ← (← h.get CONTENT_LENGTH).toStr
  if s ≠ [] ∧ s.all Char.isDigit then some (IpAddr.ofDigits 10 s) else none

end OxidizedWall
