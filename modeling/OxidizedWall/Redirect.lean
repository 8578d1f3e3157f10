import OxidizedWall.Hosts

/-!
# The redirect to HTTPS

`http_proxy` names the host on its own: it takes the `Host` header as it is, or `localhost`. Admission
also accepts a request whose URI names the host, which is where `get_host` looks first:
`redirect_keeps_target_iff`.
-/

namespace OxidizedWall.Proxy

variable {env : Env} {config : Config} {req : Request} {remoteAddr : SocketAddr}

def LOCATION : HeaderName := headerName "Location"

/-- A port behind its colon, or nothing. -/
def IsPort (s : Str) : Prop :=
  s = [] ∨ ∃ digits : Str, s = ':' :: digits ∧ digits.all Char.isDigit = true

/-- The response redirects to the host of the request, a port, and its path and query. -/
def RedirectsToSame (req : Request) (res : Response) : Prop :=
  res.status = .PERMANENT_REDIRECT ∧ ∃ port, IsPort port ∧ res.headers.get LOCATION =
    some (Utf8.encode ("https://".toList ++ getHost req ++ port ++ req.uri.target))

/-- The host of the redirect, as `http_proxy` reads it. -/
def redirectHost (headers : HeaderMap) : Str :=
  ((headers.get HOST).bind HeaderValue.toStr).getD "localhost".toList

/-- The host of the URI stands before a port in the `Host` header (or is `localhost`, if there is no
header that can be read); or the URI has no host, and what follows the first colon of the header is
a port. -/
def NamesOneHost (req : Request) : Prop :=
  match req.uri.host with
  | some host => ∃ port, IsPort port ∧ redirectHost req.headers = host ++ port
  | none => IsPort ((redirectHost req.headers).dropWhile (· ≠ ':'))

/-! ## The value of the header -/

/-- The bytes that a header value may have. -/
def isValueByte (b : UInt8) : Bool := (32 ≤ b && b != 127) || b == 9

theorem headerValueOf_eq_some {s : Str} (h : (Utf8.encode s).all isValueByte = true) :
    headerValueOf s = some (Utf8.encode s) := if_pos h

/-- Text without control characters can be the value of a header. -/
theorem all_isValueByte_of_not_control {s : Str} (h : ∀ c ∈ s, isControl c = false) :
    (Utf8.encode s).all isValueByte = true := by
  rw [List.all_eq_true]
  intro b hb
  obtain ⟨c, hc, hb⟩ := List.mem_flatMap.mp hb
  have hbyte : ∀ n < 256, isControl (Char.ofNat n) = false ∨ 128 ≤ n →
      isValueByte (UInt8.ofNat n) = true := by decide +kernel
  rcases Utf8.encodeChar_cases c with ⟨hascii, hcode⟩ | hbeyond
  · rw [hcode] at hb
    obtain rfl := List.mem_singleton.mp hb
    exact hbyte c.toNat (by omega) (.inl (by rw [Char.ofNat_toNat]; exact h c hc))
  · have hb128 := UInt8.le_iff_toNat_le.mp (hbeyond b hb)
    have := hbyte b.toNat b.toNat_lt (.inr hb128)
    rwa [UInt8.ofNat_toNat] at this

/-- A value that can be read can be written. -/
theorem all_isValueByte_toStr {v : HeaderValue} {s : Str} (h : v.toStr = some s) :
    (Utf8.encode s).all isValueByte = true := by
  have hbyte : ∀ n < 256, (32 ≤ UInt8.ofNat n && UInt8.ofNat n < 127 || UInt8.ofNat n == 9) = true →
      (Utf8.encode [Char.ofNat n]).all isValueByte = true := by decide +kernel
  unfold HeaderValue.toStr at h
  split at h
  · rename_i hall
    obtain rfl := Option.some.inj h
    rw [List.all_eq_true] at hall ⊢
    intro b hb
    obtain ⟨c, hc, hb⟩ := List.mem_flatMap.mp hb
    obtain ⟨b', hb', rfl⟩ := List.mem_map.mp hc
    have hread := hbyte b'.toNat b'.toNat_lt (by rw [UInt8.ofNat_toNat]; exact hall b' hb')
    exact List.all_eq_true.mp hread b (List.mem_flatMap.mpr ⟨_, List.mem_singleton_self _, hb⟩)
  · cases h

theorem all_isValueByte_redirectHost (headers : HeaderMap) :
    (Utf8.encode (redirectHost headers)).all isValueByte = true := by
  unfold redirectHost
  cases hhost : (headers.get HOST).bind HeaderValue.toStr with
  | none => decide
  | some s =>
    obtain ⟨v, -, hv⟩ := Option.bind_eq_some_iff.mp hhost
    exact all_isValueByte_toStr hv

/-- The target of a verified request has no control characters. -/
theorem Verified.target_not_control (h : Verified env config req) :
    ∀ c ∈ req.uri.target, isControl c = false := by
  have hprotocol := h.protocol
  unfold checkProtocol at hprotocol
  have huri := (Checks.andThen_eq_ok.mp hprotocol).1
  unfold Protocol.validateUri at huri
  split at huri
  · cases huri
  · rename_i hfind
    exact fun c hc => by simpa using List.find?_eq_none.mp hfind c hc

/-! ## The response -/

/-- Where the redirect goes. -/
def httpsUri (req : Request) : Str :=
  "https://".toList ++ redirectHost req.headers ++ req.uri.target

/-- A verified request is redirected, and its target and host always make a header value. -/
theorem returns_httpProxy (h : Verified env config req) {r : Except HyperError Response} :
    (httpProxy env config req remoteAddr).Returns r ↔ r = .ok ⟨.PERMANENT_REDIRECT, .HTTP_11,
      HeaderMap.new.insert LOCATION (Utf8.encode (httpsUri req)), .empty⟩ := by
  have hvalue : headerValueOf (httpsUri req) = some (Utf8.encode (httpsUri req)) := by
    refine headerValueOf_eq_some ?_
    unfold httpsUri
    rw [Utf8.encode_append, Utf8.encode_append, List.all_append, List.all_append,
      all_isValueByte_redirectHost, all_isValueByte_of_not_control h.target_not_control]
    decide
  have hok : (verifyRequest env req remoteAddr config).Returns (.ok ()) :=
    returns_verifyRequest_ok.mpr (verdict_eq_none.mpr h)
  unfold httpsUri redirectHost at hvalue
  unfold httpProxy
  rw [Future.returns_bind]
  constructor
  · rintro ⟨x, hx, hr⟩
    obtain rfl := hx.unique hok
    simp only [hvalue] at hr
    exact (Future.returns_pure.mp hr).symm
  · rintro rfl
    refine ⟨.ok (), hok, ?_⟩
    simp only [hvalue]
    exact Future.returns_pure.mpr rfl

/-! ## The host of the redirect -/

/-- The redirect goes to the same place if its host is that of the request before a port. -/
theorem redirectsToSame_iff (h : Verified env config req) :
    (∃ res, (httpProxy env config req remoteAddr).Returns (.ok res) ∧ RedirectsToSame req res) ↔
      ∃ port, IsPort port ∧ redirectHost req.headers = getHost req ++ port := by
  have hlocation (v : HeaderValue) : (HeaderMap.new.insert LOCATION v).get LOCATION = some v := by
    unfold HeaderMap.get
    rw [HeaderMap.getAll_insert, if_pos rfl, List.head?_cons]
  constructor
  · rintro ⟨res, hres, -, port, hport, hloc⟩
    obtain rfl := Except.ok.inj ((returns_httpProxy h).mp hres)
    rw [hlocation] at hloc
    have huri := Utf8.encode_injective (Option.some.inj hloc)
    unfold httpsUri at huri
    rw [List.append_assoc _ (getHost req) port] at huri
    exact ⟨port, hport, List.append_cancel_left (List.append_cancel_right huri)⟩
  · rintro ⟨port, hport, hhost⟩
    refine ⟨_, (returns_httpProxy h).mpr rfl, rfl, port, hport, ?_⟩
    rw [hlocation]
    unfold httpsUri
    rw [hhost, ← List.append_assoc]

/-- What `get_host` takes from the header is what stands before the first colon. -/
theorem getHost_of_no_authority (h : req.uri.host = none) :
    getHost req = beforeColon (redirectHost req.headers) := by
  rw [getHost_eq, h]
  unfold redirectHost
  cases (req.headers.get HOST).bind HeaderValue.toStr with
  | none => decide
  | some s => rfl

theorem namesOneHost_iff (req : Request) : NamesOneHost req ↔
    ∃ port, IsPort port ∧ redirectHost req.headers = getHost req ++ port := by
  unfold NamesOneHost
  cases huri : req.uri.host with
  | some host =>
    have hhost : getHost req = host := by rw [getHost_eq, huri]
    rw [hhost]
  | none =>
    rw [getHost_of_no_authority huri]
    have hsplit : beforeColon (redirectHost req.headers) ++
        (redirectHost req.headers).dropWhile (· ≠ ':') = redirectHost req.headers :=
      List.takeWhile_append_dropWhile
    constructor
    · exact fun hport => ⟨_, hport, hsplit.symm⟩
    · rintro ⟨port, hport, heq⟩
      rwa [← List.append_cancel_left (hsplit.trans heq)] at hport

/-- **When the redirect keeps the target.** Every verified request is redirected, and to its own host,
path and query exactly if its URI and its `Host` header name one host. -/
theorem redirect_keeps_target_iff
    (h : (verifyRequest env req remoteAddr config).Returns (.ok ())) :
    (∃ res, (httpProxy env config req remoteAddr).Returns (.ok res) ∧ RedirectsToSame req res) ↔
      NamesOneHost req := by
  have hverified := verdict_eq_none.mp (returns_verifyRequest_ok.mp h)
  rw [namesOneHost_iff, redirectsToSame_iff hverified]

/-- A request for `a` in absolute form, without a `Host` header. -/
def hostlessRequest : Request := { absoluteRequest with headers := .new }

theorem redirected_to_localhost :
    (verifyRequest sampleEnv hostlessRequest sampleAddr sampleConfig).Returns (.ok ()) ∧
    httpsUri hostlessRequest = "https://localhost/".toList ∧
    ¬ ∃ res, (httpProxy sampleEnv sampleConfig hostlessRequest sampleAddr).Returns (.ok res) ∧
      RedirectsToSame hostlessRequest res := by
  have hverdict : verdict sampleEnv sampleConfig hostlessRequest = none := by decide +kernel
  refine ⟨returns_verifyRequest_ok.mpr hverdict, by decide, ?_⟩
  rw [redirectsToSame_iff (verdict_eq_none.mp hverdict)]
  rintro ⟨port, -, hhost⟩
  have hhead : some 'l' = some 'a' := congrArg List.head? hhost
  revert hhead
  decide

theorem redirect_keeps_target_plain : ∃ res,
    (httpProxy sampleEnv sampleConfig plainPost sampleAddr).Returns (.ok res) ∧
      RedirectsToSame plainPost res := by
  have hverdict : verdict sampleEnv sampleConfig plainPost = none := by decide +kernel
  exact (redirect_keeps_target_iff (returns_verifyRequest_ok.mpr hverdict)).mpr (.inl (by decide))

end OxidizedWall.Proxy
