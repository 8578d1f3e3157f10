import OxidizedWall.Firewall
import OxidizedWall.Redirect

/-!
# When and what a handler answers

1. `answered_in_time`: `https_proxy` answers every request, in bounded time, unless the client
   stalls in the middle of a body that is buffered.
2. `unsanitized_iff`: every answer carries the security headers and no others of their names, and
   none of the headers that are stripped, but for two kinds.
-/

namespace OxidizedWall.Proxy

variable {lib : Externals} {env : Env} {config : Config} {req : Request} {remoteAddr : SocketAddr}
  {ip : IpAddr} {t : ℕ}

/-! ## The time of an answer -/

/-- The time of conditional buffering. -/
def payloadTime (config : Config) (req : Request) : Option ℕ :=
  if req.method ∈ bufferedMethods then (req.body.limited config.limit.maxBodySize).time else some 0

/-- The client stalls in the middle of a body that is buffered, within its limit. -/
def Stalls (config : Config) (req : Request) : Prop :=
  req.method ∈ bufferedMethods ∧ req.body.finish = none ∧
    req.body.bytes.length ≤ config.limit.maxBodySize

theorem time_bufferBody (lib : Externals) (config : Config) (ip : IpAddr) (req : Request) :
    (bufferBody lib config ip req).time = payloadTime config req := by
  have h := payload_outcome lib config ip req
  have hlimited : req.body.bytes.length ≤ config.limit.maxBodySize →
      (req.body.limited config.limit.maxBodySize).time = req.body.time :=
    fun hle => congrArg Body.time (Body.limitedFrom_of_le hle)
  unfold payloadTime
  generalize bufferBody lib config ip req = x at h ⊢
  cases h with
  | streamed hm => rw [if_neg hm]; rfl
  | stalled hm hfinish hle =>
    rw [if_pos hm, hlimited hle]
    unfold Body.time
    rw [hfinish]
    rfl
  | broken t hm _ ht => rw [if_pos hm, ht]; rfl
  | suspicious t hm _ hle ht _ => rw [if_pos hm, hlimited hle, ht]; rfl
  | passed t hm _ hle ht _ => rw [if_pos hm, hlimited hle, ht]; rfl

/-- Buffering waits for good exactly if the client stalls. -/
theorem payloadTime_eq_none_iff : payloadTime config req = none ↔ Stalls config req := by
  unfold payloadTime Stalls
  by_cases hm : req.method ∈ bufferedMethods
  · rw [if_pos hm, and_iff_right hm]
    by_cases hle : req.body.bytes.length ≤ config.limit.maxBodySize
    · rw [and_iff_left hle]
      have hlimited : req.body.limited config.limit.maxBodySize = req.body :=
        Body.limitedFrom_of_le hle
      rw [hlimited]
      exact Option.map_eq_none_iff
    · obtain ⟨t, ht⟩ : ∃ t, (req.body.limited config.limit.maxBodySize).finish =
          some (t, .error) := Body.limitedFrom_of_lt (Nat.not_le.mp hle)
      rw [time_of_finish ht]
      exact ⟨fun h => (nomatch h), fun h => absurd h.2 hle⟩
  · rw [if_neg hm]
    exact ⟨fun h => (nomatch h), fun h => absurd h.1 hm⟩

/-- Buffering takes no longer than the body. -/
theorem payloadTime_le (h : req.body.time = some t) : (payloadTime config req).getD 0 ≤ t := by
  unfold payloadTime
  by_cases hm : req.method ∈ bufferedMethods
  · rw [if_pos hm]
    obtain ⟨⟨u, e⟩, hfinish, rfl⟩ := Option.map_eq_some_iff.mp h
    obtain ⟨u', e', hfinish', hle⟩ := Body.limitedFrom_delay_le req.body.frames
      config.limit.maxBodySize hfinish
    have htime : (req.body.limited config.limit.maxBodySize).time =
        some ((req.body.limited config.limit.maxBodySize).delay + u') := time_of_finish hfinish'
    rw [htime]
    exact hle
  · rw [if_neg hm]
    exact Nat.zero_le _

/-- A dispatch with its deadline, and what is made of its outcome. -/
theorem time_concluded (d : ℕ) :
    ((dispatch lib env config ip req).timeout d >>= conclude ip).time =
      some ((serviceTime lib env config ip req).elim d fun t => min t d) := by
  have hconclude : ∀ r, (conclude ip r).time = some 0 := by
    intro r
    match r with
    | some (some _) => rfl
    | some none => rfl
    | none => rfl
  rw [Future.time_bind_of_instant hconclude, Future.time_timeout, time_dispatch]

/-- A refused request is answered at once. -/
theorem time_of_refused {v : Violation × StatusCode} (h : verdict env config req = some v) :
    (httpsProxy lib env config req remoteAddr).time = some 0 := by
  have hverify : (verifyRequest env req remoteAddr config).result =
      some (0, .error (errorResponse v.2)) := by
    rw [result_verifyRequest, h]
    rfl
  unfold httpsProxy
  rw [Future.time_bind hverify]
  rfl

/-- A verified one once it is buffered, or once its dispatch is concluded. -/
theorem time_of_verified (h : verdict env config req = none) :
    (httpsProxy lib env config req remoteAddr).time =
      match (bufferBody lib config (getRealIp req.headers remoteAddr) req).result with
      | some (t, .ok q) =>
        some (t + (serviceTime lib env config (getRealIp req.headers remoteAddr) q).elim
          (fromSecs config.timeout.cBodyTimeout) fun u => min u (fromSecs config.timeout.cBodyTimeout))
      | some (t, .error _) => some t
      | none => none := by
  have hverify : (verifyRequest env req remoteAddr config).result = some (0, .ok ()) := by
    rw [result_verifyRequest, h]
    rfl
  unfold httpsProxy
  rw [Future.time_bind hverify]
  simp only [Nat.zero_add, Option.map_id']
  match hbuffer : (bufferBody lib config (getRealIp req.headers remoteAddr) req).result with
  | none => exact Future.time_bind_of_stalled hbuffer
  | some (t, .error _) =>
    rw [Future.time_bind hbuffer]
    rfl
  | some (t, .ok q) =>
    rw [Future.time_bind hbuffer]
    simp only
    rw [time_concluded]
    rfl

/-- **Every request is answered in time**, unless it is verified and its client stalls. The answer
comes at most `c_body_timeout` after the payload is read, which takes no longer than the body, and
whatever the upstream does. -/
theorem answered_in_time (lib : Externals) (env : Env) (config : Config) (req : Request)
    (remoteAddr : SocketAddr) :
    ((httpsProxy lib env config req remoteAddr).time = none ↔
      (env.rateOk = true ∧ WellFormed config req ∧ CleanHead req) ∧ Stalls config req) ∧
    (∀ t, (httpsProxy lib env config req remoteAddr).time = some t →
      t ≤ (payloadTime config req).getD 0 + fromSecs config.timeout.cBodyTimeout) ∧
    ∀ t, req.body.time = some t → (payloadTime config req).getD 0 ≤ t := by
  refine ⟨?_, ?_, fun t => payloadTime_le⟩
  · rw [← payloadTime_eq_none_iff, ← verdict_eq_none_iff,
      ← time_bufferBody lib config (getRealIp req.headers remoteAddr)]
    cases hverdict : verdict env config req with
    | some v =>
      rw [time_of_refused hverdict]
      exact ⟨fun h => (nomatch h), fun h => (nomatch h.1)⟩
    | none =>
      rw [time_of_verified hverdict]
      unfold Future.time
      match (bufferBody lib config (getRealIp req.headers remoteAddr) req).result with
      | none => exact ⟨fun _ => ⟨rfl, rfl⟩, fun _ => rfl⟩
      | some (t, .error _) => exact ⟨fun h => (nomatch h), fun h => (nomatch h.2)⟩
      | some (t, .ok q) => exact ⟨fun h => (nomatch h), fun h => (nomatch h.2)⟩
  · intro t ht
    rw [← time_bufferBody lib config (getRealIp req.headers remoteAddr)]
    cases hverdict : verdict env config req with
    | some v =>
      rw [time_of_refused hverdict] at ht
      cases ht
      exact Nat.zero_le _
    | none =>
      rw [time_of_verified hverdict] at ht
      unfold Future.time
      match hbuffer : (bufferBody lib config (getRealIp req.headers remoteAddr) req).result with
      | none =>
        rw [hbuffer] at ht
        cases ht
      | some (u, .error _) =>
        rw [hbuffer] at ht
        cases ht
        exact Nat.le_add_right _ _
      | some (u, .ok q) =>
        rw [hbuffer] at ht
        cases ht
        simp only [Option.map_some, Option.getD_some]
        apply Nat.add_le_add_left
        cases serviceTime lib env config (getRealIp req.headers remoteAddr) q with
        | none => exact le_refl _
        | some u => exact min_le_right _ _

/-! ## The kinds of answers -/

/-- What `https_proxy` may answer: an error of its own, what it makes of the upstream's answer to
the request that it sent, or nothing but the end of the connection. -/
inductive Answer (lib : Externals) (env : Env) (config : Config) (ip : IpAddr) (req : Request) :
    Except HyperError Response → Prop
  | refused (status : StatusCode) : Answer lib env config ip req (.ok (errorResponse status))
  | proxied (addr : Str) (d : ℕ) (up : Response) {res : Response} : isWebsocket req = false →
    env.request addr (rewriteRequest lib req addr) = some (d, .ok up) →
    (finishHttp lib env ip config.limit.maxBandwidth up).Returns res →
    Answer lib env config ip req (.ok res)
  | upgraded (addr : Str) (d : ℕ) (up : Response) {res : Response} : isWebsocket req = true →
    env.sendRequest addr (upgradeRequest req) = some (d, .ok up) →
    (finishWebsocket env config.timeout.sWebsocketIdle ip config.limit.maxBandwidth up).Returns
      res →
    Answer lib env config ip req (.ok res)
  | dropped (e : HyperError) : isWebsocket req = true → Answer lib env config ip req (.error e)

/-- Waiting for an answer and finishing it, as both paths do. -/
theorem gives_answer {P : Except HyperError Response → Prop} {fwd : Request} {addr : Str}
    {limit : ℕ} {answer : Option (ℕ × Except HyperError Response)}
    {finish : Response → Handler Response}
    (hfinish : ∀ d up, answer = some (d, .ok up) → (finish up).Gives fun res => P (.ok res))
    (htimeout : P (.ok (errorResponse .GATEWAY_TIMEOUT))) :
    (do
      Future.emit (.send addr fwd)
      match ← Future.timeout limit (Future.wait answer) with
      | some (.ok res) => return .ok (← finish res)
      | _ => return .ok (errorResponse .GATEWAY_TIMEOUT) :
        Handler (Except HyperError Response)).Gives P := by
  have hanswer : (Future.wait answer : Handler (Except HyperError Response)).Gives fun r =>
      ∃ d, answer = some (d, r) := .wait fun t r h => ⟨t, h⟩
  refine .bind (.of_forall fun _ => trivial) fun _ _ => .bind (hanswer.timeout limit) fun r hr => ?_
  match r with
  | some (.ok up) =>
    obtain ⟨d, hup⟩ := hr _ rfl
    exact .bind (hfinish d up hup) fun _ => .pure
  | some (.error _) => exact .pure htimeout
  | none => exact .pure htimeout

theorem gives_forward {addr : Str} : (forward lib env config ip req addr).Gives fun r =>
    ∀ a ∈ r, Answer lib env config ip req a := by
  unfold forward
  simp only
  split
  · rename_i hws
    refine .bind (.of_forall fun _ => trivial) fun _ _ =>
      .bind (.of_forall fun _ => trivial) fun r _ => ?_
    split
    · refine .bind ?_ fun a ha => .pure fun a' h => Option.some.inj h ▸ ha
      unfold handleWebsocket
      refine .bind (.of_forall fun _ => trivial) fun ok _ => ?_
      split
      · exact .pure (.dropped _ hws)
      · exact gives_answer (fun d up hup _ h => .upgraded addr d up hws hup h) (.refused _)
    · exact .pure fun _ h => nomatch h
  · rename_i hws
    refine .bind ?_ fun a ha => .pure fun a' h => Option.some.inj h ▸ ha
    exact gives_answer (fun d up hup _ h => .proxied addr d up (Bool.eq_false_iff.mpr hws) hup h)
      (.refused _)

theorem gives_dispatch : (dispatch lib env config ip req).Gives fun r =>
    ∀ a ∈ r, Answer lib env config ip req a := by
  unfold dispatch
  split
  · exact .pure fun _ h => nomatch h
  · refine .bind (.of_forall fun _ => trivial) fun r _ => ?_
    split
    · exact .pure fun _ h => nomatch h
    · exact gives_forward

/-- Every answer of `https_proxy` is of one of the kinds. -/
theorem gives_httpsProxy : (httpsProxy lib env config req remoteAddr).Gives
    (Answer lib env config (getRealIp req.headers remoteAddr) (buffered req)) := by
  have hverify : (verifyRequest env req remoteAddr config).Gives fun r =>
      ∀ res, r = .error res → ∃ status, res = errorResponse status := by
    rintro r ⟨t, ht⟩ res rfl
    rw [result_verifyRequest] at ht
    cases hverdict : verdict env config req with
    | none =>
      rw [hverdict] at ht
      cases ht
    | some v =>
      rw [hverdict] at ht
      cases ht
      exact ⟨v.2, rfl⟩
  have hbuffer : (bufferBody lib config (getRealIp req.headers remoteAddr) req).Gives fun r =>
      (∀ res, r = .error res → ∃ status, res = errorResponse status) ∧
        ∀ q, r = .ok q → q = buffered req := by
    intro r hr
    constructor
    · rintro res rfl
      have h := bufferBody_outcome lib config (getRealIp req.headers remoteAddr) req
      generalize bufferBody lib config (getRealIp req.headers remoteAddr) req = x at h hr
      obtain ⟨t, ht⟩ := hr
      cases h with
      | stalled _ _ => cases ht
      | passed _ _ _ => cases ht
      | refused _ _ status =>
        cases ht
        exact ⟨status, rfl⟩
    · rintro q rfl
      exact (returns_bufferBody_iff.mp hr).2.symm
  refine .bind hverify fun r hr => ?_
  match r with
  | .error res =>
    obtain ⟨status, rfl⟩ := hr res rfl
    exact .pure (.refused status)
  | .ok _ =>
    refine .bind hbuffer fun r hr => ?_
    match r with
    | .error res =>
      obtain ⟨status, rfl⟩ := hr.1 res rfl
      exact .pure (.refused status)
    | .ok q =>
      obtain rfl := hr.2 q rfl
      refine .bind (gives_dispatch.timeout _) fun r hr => ?_
      match r with
      | some (some a) => exact .pure (hr _ rfl a rfl)
      | some none => exact .pure (.refused _)
      | none => exact .bind (.of_forall fun _ => trivial) fun _ _ => .pure (.refused _)

/-! ## The headers of the answers -/

/-- The answer of an upstream to a handshake, without switching protocols, is passed on with headers
that are not sanitized. -/
def PassesOn (env : Env) (config : Config) (ip : IpAddr) (req : Request) (res : Response) : Prop :=
  isWebsocket req = true ∧ ∃ addr d up,
    env.sendRequest addr (upgradeRequest req) = some (d, .ok up) ∧
    up.status ≠ .SWITCHING_PROTOCOLS ∧ ¬ Sanitized up.headers ∧
    res = { up with body := env.throttle ip config.limit.maxBandwidth up.body }

theorem sanitized_errorResponse (status : StatusCode) : Sanitized (errorResponse status).headers :=
  sanitized_sanitize _

theorem Answer.sanitized {q : Request} {res : Response}
    (h : Answer lib env config ip q (.ok res)) (hno : ¬ PassesOn env config ip q res) :
    Sanitized res.headers := by
  generalize hr : Except.ok res = r at h
  cases h with
  | refused status =>
    cases hr
    exact sanitized_errorResponse status
  | proxied addr d up _ _ hres =>
    cases hr
    obtain ⟨_, _, rfl⟩ := returns_finishHttp.mp hres
    exact sanitized_sanitize _
  | upgraded addr d up hws hup hres =>
    cases hr
    by_cases hstatus : up.status = .SWITCHING_PROTOCOLS
    · unfold finishWebsocket at hres
      rw [if_pos hstatus, Future.returns_bind] at hres
      obtain ⟨_, -, hres⟩ := hres
      obtain rfl := Future.returns_pure.mp hres
      exact sanitized_sanitize _
    · obtain rfl := (returns_finishWebsocket hstatus).mp hres
      by_contra hbare
      exact hno ⟨hws, addr, d, up, hup, hstatus, hbare, rfl⟩
  | dropped _ _ => cases hr

/-- A redirect to another address. -/
def redirectTo (location : HeaderValue) : Response :=
  ⟨.PERMANENT_REDIRECT, .HTTP_11, HeaderMap.new.insert LOCATION location, .empty⟩

theorem not_sanitized_redirectTo (location : HeaderValue) :
    ¬ Sanitized (redirectTo location).headers := by
  intro h
  have hframes : (headerName "X-Frame-Options", HeaderValue.fromStatic "DENY") ∈ securityHeaders := by
    decide
  have hone := h.security _ hframes
  unfold redirectTo at hone
  rw [HeaderMap.getAll_insert, if_neg (by decide)] at hone
  cases hone

/-- The answers of `http_proxy`. -/
theorem answer_httpProxy {res : Response}
    (h : (httpProxy env config req remoteAddr).Returns (.ok res)) :
    (∃ status, res = errorResponse status) ∨ ∃ location, res = redirectTo location := by
  cases hverdict : verdict env config req with
  | some v =>
    obtain ⟨r, ⟨t, hr⟩, hres⟩ := Future.returns_bind.mp h
    rw [result_verifyRequest, hverdict] at hr
    cases hr
    cases Future.returns_pure.mp hres
    exact .inl ⟨_, rfl⟩
  | none =>
    cases (returns_httpProxy (verdict_eq_none.mp hverdict)).mp h
    exact .inr ⟨_, rfl⟩

/-- **The answers without the protections**: of the plain listener the redirects, and of the other
the answers that an upstream gives to a handshake without switching protocols. Every other answer
has the security headers, each with its one value, and none of the stripped headers. -/
theorem unsanitized_iff {listener : Listener} {res : Response}
    (h : (Server.handler lib env config listener req remoteAddr).Returns (.ok res)) :
    ¬ Sanitized res.headers ↔ match listener with
      | .http => ∃ location, res = redirectTo location
      | .https => PassesOn env config (getRealIp req.headers remoteAddr) (buffered req) res := by
  cases listener with
  | http =>
    constructor
    · intro hbare
      rcases answer_httpProxy h with ⟨status, rfl⟩ | hredirect
      · exact absurd (sanitized_errorResponse status) hbare
      · exact hredirect
    · rintro ⟨location, rfl⟩
      exact not_sanitized_redirectTo location
  | https =>
    constructor
    · intro hbare
      by_contra hno
      exact hbare ((gives_httpsProxy _ h).sanitized hno)
    · rintro ⟨-, _, _, up, -, -, hbare, rfl⟩
      exact hbare

/-- The redirect of a plain request for the root. -/
theorem unsanitized_iff_redirect :
    ¬ Sanitized (redirectTo (.fromStatic "https://a/")).headers ↔
      ∃ location, redirectTo (.fromStatic "https://a/") = redirectTo location :=
  unsanitized_iff (show (Server.handler sampleExternals sampleEnv sampleConfig .http plainGet
    sampleAddr).Returns (.ok (redirectTo (.fromStatic "https://a/"))) from ⟨0, by decide +kernel⟩)

end OxidizedWall.Proxy
