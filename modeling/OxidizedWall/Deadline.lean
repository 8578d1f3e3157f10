import OxidizedWall.Charges

/-!
# The deadline of the dispatch

`c_body_timeout` is the time that a client has for its body, and `https_proxy` spends it on
something else: on routing, on the upstream, and on reading a text response to its end. A buffered
body is read before. `serviceTime` is the time of the dispatch, from the delays of its parts, and
`punished_iff_late` compares it with the time of the body.
-/

namespace OxidizedWall

/-- How long a body takes to come to its end. -/
def Body.time (b : Body) : Option ℕ := b.finish.map fun e => b.delay + e.1

namespace Proxy

variable {lib : Externals} {env : Env} {config : Config} {req : Request} {remoteAddr : SocketAddr}
  {ip : IpAddr}

/-! ## The time of a dispatch -/

/-- The time of an answer that is awaited until `limit`, and of what is then done with it. -/
def answerTime (limit : ℕ) (finish : Response → Option ℕ) :
    Option (ℕ × Except HyperError Response) → Option ℕ
  | some (t, .ok up) => if t ≤ limit then (finish up).map (t + ·) else some limit
  | some (t, .error _) => some (min t limit)
  | none => some limit

/-- The time of `handle_http`: a text is read to its end. -/
def httpTime (lib : Externals) (env : Env) (config : Config) (ip : IpAddr) (req : Request)
    (addr : Str) : Option ℕ :=
  answerTime (fromSecs config.timeout.sResponse)
    (fun up => if Waf.isText up.headers then
      (env.throttle ip config.limit.maxBandwidth up.body).time else some 0)
    (env.request addr (rewriteRequest lib req addr))

/-- The time of `handle_websocket`. -/
def upgradeTime (env : Env) (config : Config) (req : Request) (addr : Str) : Option ℕ :=
  match env.handshake addr with
  | some (t, true) => (answerTime (fromSecs config.timeout.sResponse) (fun _ => some 0)
      (env.sendRequest addr (upgradeRequest req))).map (t + ·)
  | some (t, false) => some t
  | none => none

/-- The time of a connection and of what is done over it. -/
def websocketTime (env : Env) (config : Config) (req : Request) (addr : Str) : Option ℕ :=
  match env.connect addr with
  | some (t, connected) =>
    if t ≤ fromSecs config.timeout.sConnect then
      if connected then (upgradeTime env config req addr).map (t + ·) else some t
    else some (fromSecs config.timeout.sConnect)
  | none => some (fromSecs config.timeout.sConnect)

/-- The upstream that a request goes to. -/
def upstreamOf (lib : Externals) (env : Env) (config : Config) (req : Request) : Option Str := do
  let (upstreams, counter) ← route config req
  firstHealthy lib.usizeBits upstreams (env.fetchAdd counter) env.health

/-- The time from the end of the payload checks to the response. -/
def serviceTime (lib : Externals) (env : Env) (config : Config) (ip : IpAddr) (req : Request) :
    Option ℕ :=
  match upstreamOf lib env config req with
  | some addr =>
    if isWebsocket req then websocketTime env config req addr
    else httpTime lib env config ip req addr
  | none => some 0

theorem time_collect (b : Body) : (b.collect : Handler _).time = b.time := by
  unfold Body.collect Body.time
  rw [Future.time_wait, Option.map_map]
  rfl

theorem time_applyDlp {unicode : Unicode} {headers : HeaderMap} {b : Body} :
    (Waf.applyDlp unicode headers b : Handler Body).time =
      if Waf.isText headers then b.time else some 0 := by
  unfold Waf.applyDlp
  cases Waf.isText headers with
  | false => rfl
  | true =>
    simp only [Bool.not_true, Bool.false_eq_true, if_false, if_true]
    rw [Future.time_bind_of_instant, time_collect]
    intro r
    cases r <;> rfl

theorem time_finishHttp {maxBw : ℕ} {up : Response} : (finishHttp lib env ip maxBw up).time =
    if Waf.isText up.headers then (env.throttle ip maxBw up.body).time else some 0 := by
  unfold finishHttp
  rw [Future.time_bind_of_instant fun _ => Future.time_pure, time_applyDlp, isText_sanitize]

theorem time_finishWebsocket {idleSec maxBw : ℕ} {up : Response} :
    (finishWebsocket env idleSec ip maxBw up).time = some 0 := by
  unfold finishWebsocket spawnRelay
  split
  · split <;> rfl
  · rfl

/-- Waiting for an answer and finishing it, as both paths do. -/
theorem time_answer {fwd : Request} {addr : Str} {limit : ℕ}
    {answer : Option (ℕ × Except HyperError Response)} {finish : Response → Handler Response} :
    (do
      Future.emit (.send addr fwd)
      match ← Future.timeout limit (Future.wait answer) with
      | some (.ok res) => return .ok (← finish res)
      | _ => return .ok (errorResponse .GATEWAY_TIMEOUT) : Handler (Except HyperError Response)).time
        = answerTime limit (fun up => (finish up).time) answer := by
  rw [Future.time_emit_bind]
  match answer with
  | none =>
    have hwait : (Future.timeout limit (Future.wait none) :
        Handler (Option (Except HyperError Response))).result = some (limit, none) := rfl
    rw [Future.time_bind hwait]
    rfl
  | some (t, r) =>
    have hwait : (Future.timeout limit (Future.wait (some (t, r))) :
        Handler (Option (Except HyperError Response))).result =
          if t ≤ limit then some (t, some r) else some (limit, none) := Future.result_timeout_wait
    by_cases ht : t ≤ limit
    · rw [if_pos ht] at hwait
      rw [Future.time_bind hwait]
      cases r with
      | error _ => exact congrArg some (Nat.min_eq_left ht).symm
      | ok up =>
        simp only [answerTime, if_pos ht]
        rw [Future.time_bind_of_instant fun _ => Future.time_pure]
    · rw [if_neg ht] at hwait
      rw [Future.time_bind hwait]
      cases r with
      | error _ => exact congrArg some (Nat.min_eq_right (Nat.le_of_not_le ht)).symm
      | ok up =>
        simp only [answerTime, if_neg ht]
        rfl

theorem time_handleHttp {addr : Str} :
    (handleHttp lib env req addr config.timeout.sResponse ip config.limit.maxBandwidth).time =
      httpTime lib env config ip req addr := by
  unfold handleHttp httpTime
  refine time_answer.trans ?_
  simp only [time_finishHttp]

theorem time_handleWebsocket {addr : Str} :
    (handleWebsocket env req addr config.timeout.sResponse config.timeout.sWebsocketIdle ip
      config.limit.maxBandwidth).time = upgradeTime env config req addr := by
  unfold handleWebsocket upgradeTime
  cases hhandshake : env.handshake addr with
  | none => exact Future.time_bind_of_stalled rfl
  | some r =>
    obtain ⟨t, ok⟩ := r
    have hwait : (Future.wait (some (t, ok)) : Handler Bool).result = some (t, ok) := rfl
    rw [Future.time_bind hwait]
    cases ok with
    | false => rfl
    | true =>
      simp only [Bool.not_true, Bool.false_eq_true, if_false]
      refine congrArg _ (time_answer.trans ?_)
      simp only [time_finishWebsocket]

theorem time_forward {addr : Str} : (forward lib env config ip req addr).time =
    if isWebsocket req then websocketTime env config req addr
    else httpTime lib env config ip req addr := by
  unfold forward
  by_cases hws : isWebsocket req = true
  · simp only [if_pos hws]
    unfold websocketTime
    rw [Future.time_emit_bind]
    match env.connect addr with
    | none =>
      have hwait : (Future.timeout (fromSecs config.timeout.sConnect) (Future.wait none) :
          Handler (Option Bool)).result = some (fromSecs config.timeout.sConnect, none) := rfl
      rw [Future.time_bind hwait]
      exact congrArg some (Nat.add_zero _)
    | some (t, connected) =>
      have hwait : (Future.timeout (fromSecs config.timeout.sConnect)
          (Future.wait (some (t, connected))) : Handler (Option Bool)).result =
            if t ≤ fromSecs config.timeout.sConnect then some (t, some connected)
            else some (fromSecs config.timeout.sConnect, none) := Future.result_timeout_wait
      by_cases ht : t ≤ fromSecs config.timeout.sConnect
      · rw [if_pos ht] at hwait
        rw [Future.time_bind hwait]
        cases connected with
        | false =>
          simp only [if_pos ht]
          rfl
        | true =>
          simp only [if_pos ht, if_true]
          rw [Future.time_bind_of_instant fun _ => Future.time_pure, time_handleWebsocket]
      · rw [if_neg ht] at hwait
        rw [Future.time_bind hwait]
        simp only [if_neg ht]
        exact congrArg some (Nat.add_zero _)
  · simp only [if_neg hws]
    rw [Future.time_bind_of_instant fun _ => Future.time_pure, time_handleHttp]

/-- **The time of a dispatch**, from the delays of its parts. -/
theorem time_dispatch : (dispatch lib env config ip req).time =
    serviceTime lib env config ip req := by
  unfold dispatch serviceTime upstreamOf
  cases route config req with
  | none => rfl
  | some m =>
    obtain ⟨upstreams, counter⟩ := m
    have hselect : (selectUpstream lib env upstreams counter).result = some (0,
        firstHealthy lib.usizeBits upstreams (env.fetchAdd counter) env.health) := rfl
    simp only [Option.bind_eq_bind, Option.bind_some]
    rw [Future.time_bind hselect]
    cases firstHealthy lib.usizeBits upstreams (env.fetchAdd counter) env.health with
    | none => rfl
    | some addr =>
      simp only [time_forward, Nat.zero_add, Option.map_id']

/-! ## The client's time -/

/-- The client takes longer than `c_body_timeout` to deliver its request body. -/
def Late (config : Config) (req : Request) : Prop :=
  Future.Exceeds req.body.time (fromSecs config.timeout.cBodyTimeout)

/-- The request after conditional buffering. -/
def buffered (req : Request) : Request :=
  if req.method ∈ bufferedMethods then { req with body := .full req.body.bytes } else req

theorem Buffered.eq_buffered {q : Request} (h : Buffered lib config req q) : q = buffered req := by
  unfold Buffered at h
  unfold buffered
  split at h
  · rw [if_pos ‹_›]
    exact h.1
  · rw [if_neg ‹_›]
    exact h

theorem mem_charges_iff {c : Prop} [Decidable c] : Effect.punish ip .timeout ∈
    .rateCheck ip :: (if c then [.punish ip .timeout] else []) ↔ c := by
  by_cases hc : c <;> simp [hc]

/-- **Who misses the deadline.** After verification and the payload checks a client is punished
for a timeout exactly if it was late, provided that its buffered body comes to an end, and that
the dispatch takes longer than `c_body_timeout` exactly if the body of the client does. -/
theorem punished_iff_late
    (hverify : (verifyRequest env req remoteAddr config).Returns (.ok ()))
    (hpayload : ∀ res, ¬ (bufferBody lib config (getRealIp req.headers remoteAddr) req).Returns
      (.error res)) :
    ((httpsProxy lib env config req remoteAddr).Performs
        (.punish (getRealIp req.headers remoteAddr) .timeout) ↔ Late config req) ↔
      (req.method ∈ bufferedMethods → req.body.time ≠ none) ∧
        (Future.Exceeds
            (serviceTime lib env config (getRealIp req.headers remoteAddr) (buffered req))
            (fromSecs config.timeout.cBodyTimeout) ↔ Late config req) := by
  obtain ⟨v, hv, hnone⟩ := charges_bufferBody lib config (getRealIp req.headers remoteAddr) req
  obtain rfl := hnone hpayload
  have hcharges : ∀ violation, (httpsProxy lib env config req remoteAddr).Performs
      (.punish (getRealIp req.headers remoteAddr) violation) ↔
        .punish (getRealIp req.headers remoteAddr) violation ∈
          (httpsProxy lib env config req remoteAddr).doing Effect.charges := fun violation =>
    ⟨fun h => Future.mem_doing.mpr ⟨h, rfl⟩, fun h => (Future.mem_doing.mp h).1⟩
  rw [hcharges, charges_verified (returns_verifyRequest_ok.mp hverify), hv]
  have h := bufferBody_outcome lib config (getRealIp req.headers remoteAddr) req
  generalize bufferBody lib config (getRealIp req.headers remoteAddr) req = x at h hpayload
  cases h with
  | stalled hm hstalled =>
    -- the handler waits for the body, and nobody is punished
    have htime : req.body.time = none := by
      unfold Body.time
      rw [hstalled]
      rfl
    have hlate : Late config req := by
      unfold Late
      rw [htime]
      intro t ht
      cases ht
    constructor
    · intro h
      have hmem := h.mpr hlate
      simp at hmem
    · exact fun h => absurd htime (h.1 hm)
  | passed t hq hend =>
    obtain rfl := hq.eq_buffered
    simp only [time_dispatch, Option.toList_none, List.map_nil, List.nil_append]
    rw [mem_charges_iff]
    refine ⟨fun h => ⟨fun hm hnone => ?_, h⟩, And.right⟩
    exact hend hm (Option.map_eq_none_iff.mp hnone)
  | refused t violation status => exact absurd ⟨t, rfl⟩ (hpayload _)

/-! ## Concrete runs -/

/-- A page of the upstream that takes 31 seconds. -/
def slowPage : Response :=
  ⟨200, .HTTP_11, ⟨[(CONTENT_TYPE, HeaderValue.fromStatic "text/html")]⟩,
    ⟨[(fromSecs 31, .data [0x68, 0x69])], some (0, .endOfStream)⟩⟩

/-- The sample environment, with this answer from the upstream. -/
def slowEnv : Env := { sampleEnv with request := fun _ _ => some (1, .ok slowPage) }

/-- A request without a body. -/
def plainGet : Request := sampleRequest .GET [] []

/-- A body of two bytes that takes 31 seconds. -/
def slowPost : Request :=
  { plainPost with body := ⟨[(fromSecs 31, .data [0x68, 0x69])], some (0, .endOfStream)⟩ }

/-- A slow upstream gets the client banned, and a slow client does not. -/
theorem deadline_misses_client :
    ((verifyRequest slowEnv plainGet sampleAddr sampleConfig).Returns (.ok ()) ∧
      (bufferBody sampleExternals sampleConfig sampleAddr.ip plainGet).Returns (.ok plainGet) ∧
      (httpsProxy sampleExternals slowEnv sampleConfig plainGet sampleAddr).Performs
        (.punish sampleAddr.ip .timeout) ∧ ¬ Late sampleConfig plainGet) ∧
    ((verifyRequest leakyEnv slowPost sampleAddr sampleConfig).Returns (.ok ()) ∧
      (bufferBody sampleExternals sampleConfig sampleAddr.ip slowPost).Returns (.ok plainPost) ∧
      ¬ (httpsProxy sampleExternals leakyEnv sampleConfig slowPost sampleAddr).Performs
        (.punish sampleAddr.ip .timeout) ∧ Late sampleConfig slowPost) := by
  have hfrugal : (httpsProxy sampleExternals leakyEnv sampleConfig slowPost
      sampleAddr).doing Effect.charges = [.rateCheck sampleAddr.ip] := by
    decide +kernel
  refine ⟨⟨⟨0, by decide +kernel⟩, ⟨0, by decide +kernel⟩, ⟨fromSecs 30, ?_⟩, ?_⟩,
    ⟨⟨0, by decide +kernel⟩, ⟨fromSecs 31, by decide +kernel⟩, ?_, ?_⟩⟩
  · decide +kernel
  · unfold Late
    decide +kernel
  · intro h
    have hmem := (Future.mem_doing (p := Effect.charges)).mpr ⟨h, rfl⟩
    rw [hfrugal] at hmem
    simp at hmem
  · unfold Late
    decide +kernel

/-- The sample request and its answer are in time. -/
theorem punished_iff_late_plain :
    (httpsProxy sampleExternals leakyEnv sampleConfig plainPost sampleAddr).Performs
      (.punish sampleAddr.ip .timeout) ↔ Late sampleConfig plainPost := by
  have hbuffered : (bufferBody sampleExternals sampleConfig sampleAddr.ip plainPost).Returns
      (.ok plainPost) :=
    ⟨0, by decide +kernel⟩
  refine (punished_iff_late ⟨0, by decide +kernel⟩
    fun _ h => nomatch h.unique hbuffered).mpr ⟨fun _ => by decide +kernel, ?_⟩
  unfold Late
  decide +kernel

end Proxy

end OxidizedWall
