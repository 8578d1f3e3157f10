import OxidizedWall.Forward
import OxidizedWall.Masking

/-!
# What the client gets back

The pooled client's responses are stripped, given the security headers and masked. The response
that answers a WebSocket handshake without switching protocols is passed on as it is.

1. `outbound_finishHttp`: the three protections, on the path of `handle_http`.
2. `send_answered`: which of the two paths an upstream's response takes.
3. `delivered_alike`: what the two paths deliver is the same for the responses that need none of
   the protections, and for no others.
-/

namespace OxidizedWall.Proxy

variable {lib : Externals} {env : Env} {config : Config} {req : Request} {remoteAddr : SocketAddr}
  {ip : IpAddr} {maxBw : ℕ} {up : Response}

/-! ## Headers -/

theorem getAll_foldl_remove (ns : List HeaderName) (h : HeaderMap) (m : HeaderName) :
    (ns.foldl HeaderMap.remove h).getAll m = if m ∈ ns then [] else h.getAll m := by
  induction ns generalizing h with
  | nil => simp
  | cons n ns ih =>
    rw [List.foldl_cons, ih, HeaderMap.getAll_remove]
    by_cases hm : m ∈ ns <;> by_cases hn : m = n <;> simp [hm, hn]

/-- Inserted under distinct names, each value is the only one of its name. -/
theorem getAll_foldl_insert {kvs : List (HeaderName × HeaderValue)}
    (hnodup : (kvs.map Prod.fst).Nodup) (h : HeaderMap) :
    (∀ kv ∈ kvs, (kvs.foldl (fun h kv => h.insert kv.1 kv.2) h).getAll kv.1 = [kv.2]) ∧
      ∀ m ∉ kvs.map Prod.fst,
        (kvs.foldl (fun h kv => h.insert kv.1 kv.2) h).getAll m = h.getAll m := by
  induction kvs generalizing h with
  | nil => exact ⟨by simp, fun _ _ => rfl⟩
  | cons kv kvs ih =>
    rw [List.map_cons, List.nodup_cons] at hnodup
    obtain ⟨hin, hout⟩ := ih hnodup.2 (h.insert kv.1 kv.2)
    constructor
    · intro kv' hkv'
      rcases List.mem_cons.mp hkv' with rfl | hkv'
      · rw [List.foldl_cons, hout _ hnodup.1, HeaderMap.getAll_insert, if_pos rfl]
      · exact hin kv' hkv'
    · intro m hm
      rw [List.map_cons, List.mem_cons, not_or] at hm
      rw [List.foldl_cons, hout m hm.2, HeaderMap.getAll_insert, if_neg hm.1]

/-- The names that `sanitize_response_headers` strips. -/
def strippedHeaders : List HeaderName := identifyingHeaders ++ [CONTENT_LENGTH, TRANSFER_ENCODING]

theorem nodup_securityHeaders : (securityHeaders.map Prod.fst).Nodup := by decide

theorem strippedHeaders_disjoint :
    ∀ n ∈ strippedHeaders, n ∉ securityHeaders.map Prod.fst := by decide

theorem getAll_sanitize_security (h : HeaderMap) {kv : HeaderName × HeaderValue}
    (hkv : kv ∈ securityHeaders) : (sanitizeResponseHeaders h).getAll kv.1 = [kv.2] := by
  unfold sanitizeResponseHeaders
  exact (getAll_foldl_insert nodup_securityHeaders _).1 kv hkv

theorem getAll_sanitize_of_not_mem (h : HeaderMap) {m : HeaderName}
    (hm : m ∉ securityHeaders.map Prod.fst) : (sanitizeResponseHeaders h).getAll m =
      if m ∈ strippedHeaders then [] else h.getAll m := by
  unfold sanitizeResponseHeaders
  rw [(getAll_foldl_insert nodup_securityHeaders _).2 m hm, HeaderMap.getAll_remove,
    HeaderMap.getAll_remove, getAll_foldl_remove]
  unfold strippedHeaders
  by_cases h1 : m = TRANSFER_ENCODING <;> by_cases h2 : m = CONTENT_LENGTH <;>
    by_cases h3 : m ∈ identifyingHeaders <;> simp [h1, h2, h3]

/-- Headers that `sanitize_response_headers` has nothing to do with: the stripped names are
absent, and the security headers have their one value. -/
structure Sanitized (h : HeaderMap) : Prop where
  stripped : ∀ n ∈ strippedHeaders, h.getAll n = []
  security : ∀ kv ∈ securityHeaders, h.getAll kv.1 = [kv.2]

theorem sanitized_sanitize (h : HeaderMap) : Sanitized (sanitizeResponseHeaders h) := by
  constructor
  · intro n hn
    rw [getAll_sanitize_of_not_mem h (strippedHeaders_disjoint n hn), if_pos hn]
  · intro kv hkv
    exact getAll_sanitize_security h hkv

theorem Sanitized.congr {h h' : HeaderMap} (hs : Sanitized h') (e : h.Equiv h') : Sanitized h :=
  ⟨fun n hn => (e n).trans (hs.stripped n hn), fun kv hkv => (e kv.1).trans (hs.security kv hkv)⟩

theorem Sanitized.equiv {h : HeaderMap} (hs : Sanitized h) :
    h.Equiv (sanitizeResponseHeaders h) := by
  intro m
  by_cases hm : m ∈ securityHeaders.map Prod.fst
  · obtain ⟨kv, hkv, rfl⟩ := List.mem_map.mp hm
    rw [hs.security kv hkv, getAll_sanitize_security h hkv]
  · rw [getAll_sanitize_of_not_mem h hm]
    by_cases hn : m ∈ strippedHeaders
    · rw [if_pos hn, hs.stripped m hn]
    · rw [if_neg hn]

theorem isText_sanitize (h : HeaderMap) :
    Waf.isText (sanitizeResponseHeaders h) = Waf.isText h := by
  have hct : (sanitizeResponseHeaders h).getAll CONTENT_TYPE = h.getAll CONTENT_TYPE := by
    rw [getAll_sanitize_of_not_mem h (by decide), if_neg (by decide)]
  unfold Waf.isText
  rw [HeaderMap.get_congr hct]

/-! ## Bodies and responses -/

/-- The same data, trailers and end, in whatever frames and at whatever times. -/
structure SameBody (b b' : Body) : Prop where
  bytes : b.bytes = b'.bytes
  trailers : b.trailers = b'.trailers
  finish : b.finish.map Prod.snd = b'.finish.map Prod.snd

theorem SameBody.refl (b : Body) : SameBody b b := ⟨rfl, rfl, rfl⟩

structure SameResponse (r r' : Response) : Prop where
  status : r.status = r'.status
  version : r.version = r'.version
  headers : r.headers.Equiv r'.headers
  body : SameBody r.body r'.body

theorem SameResponse.refl (r : Response) : SameResponse r r := ⟨rfl, rfl, fun _ => rfl, .refl _⟩

/-- The three outbound protections: `body` is what comes out of the throttle. -/
structure Outbound (lib : Externals) (body : Body) (res : Response) : Prop where
  identifying : ∀ n ∈ identifyingHeaders, res.headers.getAll n = []
  security : ∀ kv ∈ securityHeaders, res.headers.getAll kv.1 = [kv.2]
  masked : Waf.isText res.headers = true → ∃ b,
    (Waf.applyDlp lib.unicode res.headers body : Handler Body).Returns b ∧ SameBody res.body b

/-- A response that the protections leave as it is: its headers are sanitized, and if it is a
text, its body is UTF-8 without trailers, comes to its end, and has nothing to mask. -/
structure NeedsNothing (lib : Externals) (headers : HeaderMap) (body : Body) : Prop where
  sanitized : Sanitized headers
  text : Waf.isText headers = true → (∃ t, body.finish = some (t, .endOfStream)) ∧
    body.trailers = [] ∧
      ∃ s, body.bytes = Utf8.encode s ∧ Dlp.maskSensitiveInfo lib.unicode s = s

theorem returns_finishHttp {res : Response} : (finishHttp lib env ip maxBw up).Returns res ↔
    ∃ b, (Waf.applyDlp lib.unicode (sanitizeResponseHeaders up.headers)
      (env.throttle ip maxBw up.body) : Handler Body).Returns b ∧
        ⟨up.status, up.version, sanitizeResponseHeaders up.headers, b⟩ = res := by
  unfold finishHttp
  rw [Future.returns_bind]
  simp only [Future.returns_pure]

/-- **The protections of `handle_http`**, whatever the upstream sends. -/
theorem outbound_finishHttp {res : Response} (h : (finishHttp lib env ip maxBw up).Returns res) :
    Outbound lib (env.throttle ip maxBw up.body) res := by
  obtain ⟨b, hb, rfl⟩ := returns_finishHttp.mp h
  have hs := sanitized_sanitize up.headers
  exact ⟨fun n hn => hs.stripped n (List.mem_append_left _ hn), hs.security,
    fun _ => ⟨b, hb, .refl b⟩⟩

/-- Masking keeps the bytes of a text with nothing to mask, and no others. -/
theorem bytes_maskedBody_iff {unicode : Unicode} {bytes : Bytes} :
    (Waf.maskedBody unicode bytes).bytes = bytes ↔
      ∃ s, bytes = Utf8.encode s ∧ Dlp.maskSensitiveInfo unicode s = s := by
  unfold Waf.maskedBody
  rw [Body.bytes_full]
  constructor
  · intro h
    refine ⟨_, h.symm, ?_⟩
    have hdec := congrArg Utf8.decodeLossy h
    rw [Utf8.decodeLossy_encode] at hdec
    exact congrArg _ hdec
  · rintro ⟨s, rfl, hs⟩
    rw [Utf8.decodeLossy_encode, hs]

/-! ## From the upstream's response to the client's -/

/-- A handler that sends `fwd` and gets `up` in time returns what it makes of `up`. -/
theorem returns_of_answer {fwd : Request} {addr : Str} {d limit : ℕ}
    {answer : Option (ℕ × Except HyperError Response)} (hup : answer = some (d, .ok up))
    (hd : d ≤ limit) {finish : Response → Handler Response}
    {r : Except HyperError Response} :
    (do
      Future.emit (.send addr fwd)
      match ← Future.timeout limit (Future.wait answer) with
      | some (.ok res) => return .ok (← finish res)
      | _ => return .ok (errorResponse .GATEWAY_TIMEOUT) : Handler (Except HyperError Response)).Returns
        r ↔ ∃ res, (finish up).Returns res ∧ .ok res = r := by
  have hanswer : (Future.timeout limit (Future.wait answer) : Handler _).Returns (some (.ok up)) :=
    Future.returns_timeout_some.mpr ⟨d, hd, hup⟩
  have hsent : (Future.emit (.send addr fwd) : Handler Unit).Returns () := ⟨0, rfl⟩
  rw [(Future.goesOn_bind hsent).returns, (Future.goesOn_bind hanswer).returns]
  simp only [Future.returns_bind, Future.returns_pure]

theorem returns_handleHttp {addr : Str} {d timeoutSec : ℕ}
    (hup : env.request addr (rewriteRequest lib req addr) = some (d, .ok up))
    (hd : d ≤ fromSecs timeoutSec) {r : Except HyperError Response} :
    (handleHttp lib env req addr timeoutSec ip maxBw).Returns r ↔
      ∃ res, (finishHttp lib env ip maxBw up).Returns res ∧ .ok res = r :=
  returns_of_answer hup hd

/-- Where no protocol is switched, the response is passed on. -/
theorem returns_finishWebsocket {idleSec : ℕ} (hstatus : up.status ≠ .SWITCHING_PROTOCOLS)
    {res : Response} : (finishWebsocket env idleSec ip maxBw up).Returns res ↔
      { up with body := env.throttle ip maxBw up.body } = res := by
  unfold finishWebsocket
  rw [if_neg hstatus, Future.returns_pure]

theorem returns_handleWebsocket {addr : Str} {d timeoutSec idleSec : ℕ}
    (hsend : (handleWebsocket env req addr timeoutSec idleSec ip maxBw).Performs
      (.send addr (upgradeRequest req)))
    (hup : env.sendRequest addr (upgradeRequest req) = some (d, .ok up))
    (hd : d ≤ fromSecs timeoutSec) {r : Except HyperError Response} :
    (handleWebsocket env req addr timeoutSec idleSec ip maxBw).Returns r ↔
      ∃ res, (finishWebsocket env idleSec ip maxBw up).Returns res ∧ .ok res = r := by
  unfold handleWebsocket at hsend ⊢
  obtain ⟨ok, -, h, hgo⟩ := hsend.of_bind Future.performs_wait.mp
  rw [hgo.returns]
  cases ok with
  | false => exact absurd h Future.performs_pure.mp
  | true => exact returns_of_answer hup hd

/-- What a path makes of the upstream's response. -/
def finishAnswer (lib : Externals) (env : Env) (config : Config) (req : Request) (ip : IpAddr)
    (up : Response) : Handler Response :=
  if isWebsocket req then
    finishWebsocket env config.timeout.sWebsocketIdle ip config.limit.maxBandwidth up
  else finishHttp lib env ip config.limit.maxBandwidth up

/-- What a path makes of a response that switches no protocol: `handle_http` protects it,
`handle_websocket` only throttles it. -/
def Delivers (lib : Externals) (env : Env) (req : Request) (ip : IpAddr) (maxBw : ℕ)
    (up res : Response) : Prop :=
  if isWebsocket req then { up with body := env.throttle ip maxBw up.body } = res
  else (finishHttp lib env ip maxBw up).Returns res

theorem returns_finishAnswer (hstatus : up.status ≠ .SWITCHING_PROTOCOLS) {res : Response} :
    (finishAnswer lib env config req ip up).Returns res ↔
      Delivers lib env req ip config.limit.maxBandwidth up res := by
  unfold finishAnswer Delivers
  by_cases hws : isWebsocket req = true
  · rw [if_pos hws, if_pos hws]
    exact returns_finishWebsocket hstatus
  · rw [if_neg hws, if_neg hws]

/-- The upstream's answer to `fwd`, on the path of `req`. -/
def answerTo (env : Env) (req : Request) (addr : Str) (fwd : Request) :
    Option (ℕ × Except HyperError Response) :=
  if isWebsocket req then env.sendRequest addr fwd else env.request addr fwd

theorem returns_forward {addr : Str} {fwd : Request} {d : ℕ}
    (hsend : (forward lib env config ip req addr).Performs (.send addr fwd))
    (hup : answerTo env req addr fwd = some (d, .ok up))
    (hd : d ≤ fromSecs config.timeout.sResponse)
    {r : Option (Except HyperError Response)} : (forward lib env config ip req addr).Returns r ↔
      ∃ res, (finishAnswer lib env config req ip up).Returns res ∧ some (.ok res) = r := by
  have hfwd : fwd = forwarded lib req addr := (sends_forward _ hsend).2
  unfold answerTo at hup
  unfold forwarded at hfwd
  unfold forward at hsend ⊢
  unfold finishAnswer
  have hok : ∀ {P : Response → Prop}, (∃ a, (∃ res, P res ∧ Except.ok res = a) ∧ some a = r) ↔
      ∃ res, P res ∧ some (.ok res) = r := by
    intro P
    constructor
    · rintro ⟨_, ⟨res, hres, rfl⟩, rfl⟩
      exact ⟨res, hres, rfl⟩
    · rintro ⟨res, hres, rfl⟩
      exact ⟨_, ⟨res, hres, rfl⟩, rfl⟩
  by_cases hws : isWebsocket req = true
  · simp only [if_pos hws] at hsend hup hfwd ⊢
    subst hfwd
    obtain ⟨_, -, h₁, hgo₁⟩ := hsend.of_bind fun h => by cases Future.performs_emit.mp h
    obtain ⟨v, -, h₂, hgo₂⟩ := h₁.of_bind fun h => Future.performs_wait.mp h.of_timeout
    rw [hgo₁.returns, hgo₂.returns]
    match v with
    | some true =>
      have h₃ := (Future.performs_bind.mp h₂).resolve_right
        fun ⟨_, _, h⟩ => Future.performs_pure.mp h
      simp only [Future.returns_bind, returns_handleWebsocket h₃ hup hd, Future.returns_pure]
      exact hok
    | some false => exact absurd h₂ Future.performs_pure.mp
    | none => exact absurd h₂ Future.performs_pure.mp
  · simp only [if_neg hws] at hsend hup hfwd ⊢
    subst hfwd
    simp only [Future.returns_bind, returns_handleHttp hup hd, Future.returns_pure]
    exact hok

theorem returns_dispatch {addr : Str} {fwd : Request} {d : ℕ}
    (hsend : (dispatch lib env config ip req).Performs (.send addr fwd))
    (hup : answerTo env req addr fwd = some (d, .ok up))
    (hd : d ≤ fromSecs config.timeout.sResponse)
    {r : Option (Except HyperError Response)} : (dispatch lib env config ip req).Returns r ↔
      ∃ res, (finishAnswer lib env config req ip up).Returns res ∧ some (.ok res) = r := by
  unfold dispatch at hsend ⊢
  split at hsend
  · exact absurd hsend Future.performs_pure.mp
  · obtain ⟨v, -, h, hgo⟩ := hsend.of_bind not_sends_selectUpstream
    rw [hgo.returns]
    cases v with
    | none => exact absurd h Future.performs_pure.mp
    | some addr' =>
      obtain rfl : addr = addr' := (sends_forward _ h).1
      exact returns_forward h hup hd

/-- **The answer to a request that was sent**, unless the deadline passes, which punishes the
client. -/
theorem send_answered {addr : Str} {fwd : Request} {d : ℕ}
    (hsend : (httpsProxy lib env config req remoteAddr).Performs (.send addr fwd))
    (hup : answerTo env req addr fwd = some (d, .ok up))
    (hd : d ≤ fromSecs config.timeout.sResponse) (hstatus : up.status ≠ .SWITCHING_PROTOCOLS)
    (htime : ∀ ip, ¬ (httpsProxy lib env config req remoteAddr).Performs (.punish ip .timeout)) :
    ∃ res, (httpsProxy lib env config req remoteAddr).Returns (.ok res) ∧
      Delivers lib env req (getRealIp req.headers remoteAddr) config.limit.maxBandwidth up res := by
  obtain ⟨q, hq, hdispatch, hgo⟩ := send_httpsProxy hsend
  have hws := isWebsocket_congr hq.same.2.2.1
  have hup' : answerTo env q addr fwd = some (d, .ok up) := by
    unfold answerTo at hup ⊢
    rw [hws]
    exact hup
  obtain ⟨v, hv⟩ := Future.exists_returns_timeout
    (dispatch lib env config (getRealIp req.headers remoteAddr) q)
    (fromSecs config.timeout.cBodyTimeout)
  have hgo' := hgo.trans (Future.goesOn_bind hv)
  cases v with
  | none =>
    refine absurd (hgo'.performs _ ?_) (htime (getRealIp req.headers remoteAddr))
    exact Future.performs_bind.mpr (.inl (Future.performs_emit.mpr rfl))
  | some r =>
    obtain ⟨t, -, ht⟩ := Future.returns_timeout_some.mp hv
    obtain ⟨res, hres, rfl⟩ := (returns_dispatch hdispatch hup' hd).mp ⟨t, ht⟩
    refine ⟨res, (hgo'.returns _).mpr (Future.returns_pure.mpr rfl), ?_⟩
    rw [returns_finishAnswer hstatus] at hres
    unfold Delivers at hres ⊢
    rw [hws] at hres
    exact hres

/-! ## The two paths compared -/

/-- The client's response says what `handle_http` would have delivered for the upstream's, and
has the three protections. -/
def Alike (lib : Externals) (env : Env) (ip : IpAddr) (maxBw : ℕ) (up res : Response) : Prop :=
  (∃ r, (finishHttp lib env ip maxBw up).Returns r ∧ SameResponse res r) ∧
    Outbound lib (env.throttle ip maxBw up.body) res

theorem finish_maskedEnd {unicode : Unicode} {body : Body} {e : BodyEnd} :
    (Waf.maskedEnd unicode body e).finish = some (0, .endOfStream) := by
  cases e <;> rfl

/-- Masking keeps a body that is UTF-8, has no trailers, ends well and has nothing to mask, and
no other. -/
theorem sameBody_maskedEnd {unicode : Unicode} {body : Body} {t : ℕ} {e : BodyEnd}
    (hend : body.finish = some (t, e)) : SameBody body (Waf.maskedEnd unicode body e) ↔
      e = .endOfStream ∧ body.trailers = [] ∧
        ∃ s, body.bytes = Utf8.encode s ∧ Dlp.maskSensitiveInfo unicode s = s := by
  constructor
  · intro h
    have he := h.finish
    rw [hend, finish_maskedEnd] at he
    cases he
    exact ⟨rfl, h.trailers.trans (Body.trailers_full _), bytes_maskedBody_iff.mp h.bytes.symm⟩
  · rintro ⟨rfl, htrailers, hs⟩
    refine ⟨(bytes_maskedBody_iff.mpr hs).symm, htrailers.trans (Body.trailers_full _).symm, ?_⟩
    rw [hend, finish_maskedEnd]
    rfl

/-- A response that is passed on is what `handle_http` would deliver if it needs nothing. -/
theorem alike_passed_on : Alike lib env ip maxBw up
    { up with body := env.throttle ip maxBw up.body } ↔
      NeedsNothing lib up.headers (env.throttle ip maxBw up.body) := by
  set body := env.throttle ip maxBw up.body with hbody
  constructor
  · rintro ⟨⟨r, hr, hsame⟩, -⟩
    obtain ⟨b, hb, rfl⟩ := returns_finishHttp.mp hr
    refine ⟨(sanitized_sanitize up.headers).congr hsame.headers, fun htext => ?_⟩
    rw [← isText_sanitize] at htext
    obtain ⟨t, e, hend, rfl⟩ := (Waf.returns_applyDlp_of_text htext).mp hb
    obtain ⟨rfl, hrest⟩ := (sameBody_maskedEnd hend).mp hsame.body
    exact ⟨⟨t, hend⟩, hrest⟩
  · rintro ⟨hsanitized, htext⟩
    -- both times masking returns the body as it is
    have hmask : ∀ headers, Waf.isText headers = Waf.isText up.headers →
        ∃ b, (Waf.applyDlp lib.unicode headers body : Handler Body).Returns b ∧
          SameBody body b := by
      intro headers hheaders
      cases h : Waf.isText up.headers with
      | false =>
        rw [h] at hheaders
        exact ⟨body, (Waf.returns_applyDlp_of_not_text hheaders).mpr rfl, .refl body⟩
      | true =>
        rw [h] at hheaders
        obtain ⟨⟨t, hend⟩, hrest⟩ := htext h
        exact ⟨_, (Waf.returns_applyDlp_of_text hheaders).mpr ⟨t, _, hend, rfl⟩,
          (sameBody_maskedEnd hend).mpr ⟨rfl, hrest⟩⟩
    obtain ⟨b, hb, hsame⟩ := hmask _ (isText_sanitize up.headers)
    refine ⟨⟨_, returns_finishHttp.mpr ⟨b, hb, rfl⟩, rfl, rfl, hsanitized.equiv, hsame⟩, ?_⟩
    exact ⟨fun n hn => hsanitized.stripped n (List.mem_append_left _ hn), hsanitized.security,
      fun _ => hmask _ rfl⟩

/-- **The path of a response does not matter**, for the responses that the outbound protections
leave as they are. Every other one reaches the client unprotected if the request went through
`handle_websocket`. -/
theorem delivered_alike {addr : Str} {fwd : Request} {d : ℕ}
    (hsend : (httpsProxy lib env config req remoteAddr).Performs (.send addr fwd))
    (hup : answerTo env req addr fwd = some (d, .ok up))
    (hd : d ≤ fromSecs config.timeout.sResponse) (hstatus : up.status ≠ .SWITCHING_PROTOCOLS)
    (htime : ∀ ip, ¬ (httpsProxy lib env config req remoteAddr).Performs (.punish ip .timeout)) :
    ∃ res, (httpsProxy lib env config req remoteAddr).Returns (.ok res) ∧
      (Alike lib env (getRealIp req.headers remoteAddr) config.limit.maxBandwidth up res ↔
        (isWebsocket req = true → NeedsNothing lib up.headers (env.throttle
          (getRealIp req.headers remoteAddr) config.limit.maxBandwidth up.body))) := by
  obtain ⟨res, hres, hdelivers⟩ := send_answered hsend hup hd hstatus htime
  refine ⟨res, hres, ?_⟩
  unfold Delivers at hdelivers
  by_cases hws : isWebsocket req = true
  · rw [if_pos hws] at hdelivers
    rw [← hdelivers, alike_passed_on]
    exact ⟨fun h _ => h, fun h => h hws⟩
  · rw [if_neg hws] at hdelivers
    exact ⟨fun _ h => absurd h hws,
      fun _ => ⟨⟨res, hdelivers, .refl res⟩, outbound_finishHttp hdelivers⟩⟩

/-! ## Concrete runs -/

/-- A response that names its server. -/
def leakyResponse : Response :=
  ⟨200, .HTTP_11, ⟨[(headerName "Server", HeaderValue.fromStatic "nginx")]⟩, .full [0x68, 0x69]⟩

/-- The sample environment, with this answer from the upstream on both paths. -/
def leakyEnv : Env :=
  { sampleEnv with
    request := fun _ _ => some (1, .ok leakyResponse)
    sendRequest := fun _ _ => some (1, .ok leakyResponse) }

/-- A request that asks for a WebSocket. -/
def handshake : Request := sampleRequest .GET [("Upgrade", "websocket")] []

theorem handshake_leaks_server :
    ∃ res, (httpsProxy sampleExternals leakyEnv sampleConfig handshake sampleAddr).Returns
      (.ok res) ∧ ¬ Alike sampleExternals leakyEnv (.v4 0x0A000001#32) 0 leakyResponse res := by
  refine ⟨leakyResponse, ⟨1, by decide +kernel⟩, fun h => ?_⟩
  have hserver := h.2.identifying (headerName "Server") (by decide)
  revert hserver
  decide

/-- The same response to a plain request. -/
theorem delivered_alike_plain :
    ∃ res, (httpsProxy sampleExternals leakyEnv sampleConfig plainPost sampleAddr).Returns
      (.ok res) ∧ Alike sampleExternals leakyEnv (.v4 0x0A000001#32) 0 leakyResponse res := by
  have hsend : (httpsProxy sampleExternals leakyEnv sampleConfig plainPost sampleAddr).Performs
      (.send sampleUpstream (rewriteRequest sampleExternals plainPost sampleUpstream)) :=
    ⟨0, by decide +kernel⟩
  have heffects : (httpsProxy sampleExternals leakyEnv sampleConfig plainPost
      sampleAddr).effects.all (fun e => match e.2 with
        | .punish _ _ => false
        | _ => true) = true := by
    decide +kernel
  have htime : ∀ ip, ¬ (httpsProxy sampleExternals leakyEnv sampleConfig plainPost
      sampleAddr).Performs (.punish ip .timeout) := fun ip ⟨t, ht⟩ =>
    absurd (List.all_eq_true.mp heffects _ ht) (by simp)
  have hws : isWebsocket plainPost = false := by decide
  obtain ⟨res, hres, halike⟩ := delivered_alike hsend (d := 1) rfl (by decide) (by decide) htime
  exact ⟨res, hres, halike.mpr fun h => by rw [hws] at h; cases h⟩

end OxidizedWall.Proxy
