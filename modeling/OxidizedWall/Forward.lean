import OxidizedWall.Lib.Cut
import OxidizedWall.Verify

/-!
# What reaches the upstream

`sends_httpsProxy` is the one fact about a whole run of `https_proxy`: a request that it sends is
built by `forwarded` from a request that `bufferBody` let through. From it:

1. `forwarded_same_iff`: when the sent request is the client's.
2. `forwarded_inspected`: which body bytes reach the upstream, and what was checked of them.
-/

namespace OxidizedWall.Proxy

variable {lib : Externals} {env : Env} {config : Config} {req : Request} {remoteAddr : SocketAddr}
  {ip : IpAddr}

/-! ## The sends of a handler -/

/-- A condition on the sends among the effects. -/
def OnSend (P : Str → Request → Prop) : Effect → Prop
  | .send addr req => P addr req
  | _ => True

/-- A condition on the acts of forwarding: it does not judge the client. -/
def OnForward (P : Str → Request → Prop) : Effect → Prop
  | .send addr req => P addr req
  | .rateCheck _ => False
  | .punish _ _ => False
  | _ => True

/-- The effects of judging a client. -/
def Judges : Effect → Prop
  | .rateCheck _ => True
  | .punish _ _ => True
  | _ => False

/-- A relay is the client's and has the limits of the configuration, and both of its connections
have been upgraded. -/
def OnRelay (env : Env) (config : Config) (ip : IpAddr) : Effect → Prop
  | .relay ip' maxBw idleSec => env.upClient = true ∧ env.upBackend = true ∧ ip' = ip ∧
      maxBw = config.limit.maxBandwidth ∧ idleSec = config.timeout.sWebsocketIdle
  | _ => True

theorem Judges.onSend {P : Str → Request → Prop} (e : Effect) (he : Judges e) : OnSend P e := by
  cases e with
  | send addr r => exact absurd he id
  | _ => trivial

theorem Judges.onRelay (e : Effect) (he : Judges e) : OnRelay env config ip e := by
  cases e with
  | relay ip' maxBw idleSec => exact absurd he id
  | _ => trivial

theorem OnForward.mono {P Q : Str → Request → Prop} (h : ∀ addr r, P addr r → Q addr r)
    (e : Effect) (he : OnForward P e) : OnForward Q e := by
  cases e with
  | send addr r => exact h addr r he
  | rateCheck _ => exact he
  | punish _ _ => exact he
  | _ => trivial

theorem OnForward.onSend {P : Str → Request → Prop} (e : Effect) (he : OnForward P e) :
    OnSend P e := by
  cases e with
  | send addr r => exact he
  | _ => trivial

/-- The request that a mode of proxying sends to `addr`. -/
def forwarded (lib : Externals) (req : Request) (addr : Str) : Request :=
  if isWebsocket req then upgradeRequest req else rewriteRequest lib req addr

/-- `q` is `req` after conditional buffering: a buffered body was within the limit and passed the
inspection of payloads. -/
def Buffered (lib : Externals) (config : Config) (req q : Request) : Prop :=
  if req.method ∈ bufferedMethods then
    q = { req with body := .full req.body.bytes } ∧
      req.body.bytes.length ≤ config.limit.maxBodySize ∧
      Waf.body lib.unicode req.headers req.body.bytes = .ok ()
  else q = req

theorem judges_verifyRequest : (verifyRequest env req remoteAddr config).Acts Judges := by
  rintro e ⟨t, ht⟩
  rw [effects_verifyRequest] at ht
  rcases List.mem_cons.mp ht with h | h
  · cases h
    trivial
  · obtain ⟨_, -, h⟩ := List.mem_map.mp h
    cases h
    trivial

/-- Verification sends nothing. -/
theorem sends_verifyRequest {P : Str → Request → Prop} :
    (verifyRequest env req remoteAddr config).Acts (OnSend P) := judges_verifyRequest.mono Judges.onSend

/-- The outcomes of conditional buffering: a buffered body stalls, the request is passed on, or
the client is punished. -/
inductive BufferOutcome (lib : Externals) (config : Config) (ip : IpAddr) (req : Request) :
    Handler (Except Response Request) → Prop
  | stalled : req.method ∈ bufferedMethods → req.body.finish = none →
    BufferOutcome lib config ip req ⟨[], none⟩
  | passed (t : ℕ) {q : Request} : Buffered lib config req q →
    (req.method ∈ bufferedMethods → req.body.finish ≠ none) →
    BufferOutcome lib config ip req ⟨[], some (t, .ok q)⟩
  | refused (t : ℕ) (violation : Violation) (status : StatusCode) :
    BufferOutcome lib config ip req
      ⟨[(t, .punish ip violation)], some (t, .error (errorResponse status))⟩

theorem bufferBody_outcome (lib : Externals) (config : Config) (ip : IpAddr) (req : Request) :
    BufferOutcome lib config ip req (bufferBody lib config ip req) := by
  unfold bufferBody
  by_cases hm : req.method ∈ bufferedMethods
  · simp only [if_pos hm]
    have hwait : ((req.body.limited config.limit.maxBodySize).collect : Handler _) =
        .wait ((req.body.limited config.limit.maxBodySize).collect : Handler _).result := rfl
    rw [hwait]
    cases hcollect : ((req.body.limited config.limit.maxBodySize).collect :
        Handler (Except HyperError Bytes)).result with
    | none =>
      rw [Future.wait_bind_none]
      exact .stalled hm (Body.limitedFrom_stalled (Option.map_eq_none_iff.mp hcollect))
    | some r =>
      obtain ⟨t, r⟩ := r
      rw [Future.wait_bind_some]
      cases r with
      | error _ => exact .refused t .protocol .PAYLOAD_TOO_LARGE
      | ok bytes =>
        obtain ⟨hbytes, t', hend⟩ := Body.collect_ok hcollect
        obtain ⟨heq, hle⟩ := Body.limited_complete hend
        rw [heq] at hbytes hend
        subst hbytes
        simp only
        cases hwaf : Waf.body lib.unicode req.headers req.body.bytes with
        | error _ => exact .refused t .waf .FORBIDDEN
        | ok _ =>
          refine .passed t ?_ fun _ => hend ▸ Option.some_ne_none _
          unfold Buffered
          rw [if_pos hm]
          exact ⟨rfl, hle, hwaf⟩
  · simp only [if_neg hm]
    refine .passed 0 ?_ fun h => absurd h hm
    unfold Buffered
    rw [if_neg hm]

theorem judges_bufferBody : (bufferBody lib config ip req).Acts Judges := by
  have h := bufferBody_outcome lib config ip req
  generalize bufferBody lib config ip req = x at h ⊢
  rintro e ⟨t, ht⟩
  cases h with
  | stalled _ _ => cases ht
  | passed _ _ _ => cases ht
  | refused _ _ _ =>
    cases List.mem_singleton.mp ht
    trivial

/-- Buffering sends nothing. -/
theorem sends_bufferBody {P : Str → Request → Prop} :
    (bufferBody lib config ip req).Acts (OnSend P) := judges_bufferBody.mono Judges.onSend

/-- What buffering hands on. -/
theorem buffered_of_returns {q : Request} (h : (bufferBody lib config ip req).Returns (.ok q)) :
    Buffered lib config req q := by
  obtain ⟨t, ht⟩ := h
  have h := bufferBody_outcome lib config ip req
  generalize bufferBody lib config ip req = x at h ht
  cases h with
  | stalled _ _ => cases ht
  | passed _ hq _ =>
    cases ht
    exact hq
  | refused _ _ _ => cases ht

/-- Finishing a response does nothing. -/
theorem acts_finishHttp {P : Effect → Prop} {maxBw : ℕ} {res : Response} :
    (finishHttp lib env ip maxBw res).Acts P := by
  refine .bind ?_ fun _ => .pure _
  unfold Waf.applyDlp
  split
  · exact .pure _
  · refine .bind (.wait _) fun r => ?_
    cases r <;> exact .pure _

theorem acts_finishWebsocket {P : Str → Request → Prop} {idleSec maxBw : ℕ} {res : Response} :
    (finishWebsocket env idleSec ip maxBw res).Acts (OnForward P) := by
  unfold finishWebsocket spawnRelay
  split
  · refine .bind ?_ fun _ => .pure _
    split
    · exact .emit trivial
    · exact .pure _
  · exact .pure _

/-- `handle_http` sends the rewritten request. -/
theorem acts_handleHttp {addr : Str} {timeoutSec maxBw : ℕ} :
    (handleHttp lib env req addr timeoutSec ip maxBw).Acts
      (OnForward fun addr' q => addr' = addr ∧ q = rewriteRequest lib req addr) := by
  refine .bind (.emit ⟨rfl, rfl⟩) fun _ => .bind (.timeout (.wait _) _) fun r => ?_
  split
  · exact .bind acts_finishHttp fun _ => .pure _
  · exact .pure _

/-- `handle_websocket` sends the head of the request. -/
theorem acts_handleWebsocket {addr : Str} {timeoutSec idleSec maxBw : ℕ} :
    (handleWebsocket env req addr timeoutSec idleSec ip maxBw).Acts
      (OnForward fun addr' q => addr' = addr ∧ q = upgradeRequest req) := by
  refine .bind (.wait _) fun ok => ?_
  split
  · exact .pure _
  · refine .bind (.emit ⟨rfl, rfl⟩) fun _ => .bind (.timeout (.wait _) _) fun r => ?_
    split
    · exact .bind acts_finishWebsocket fun _ => .pure _
    · exact .pure _

/-- Forwarding sends the request of its mode, to the upstream selected. -/
theorem acts_forward {addr : Str} : (forward lib env config ip req addr).Acts
    (OnForward fun addr' q => addr' = addr ∧ q = forwarded lib req addr) := by
  unfold forward forwarded
  by_cases hws : isWebsocket req = true
  · simp only [if_pos hws]
    refine .bind (.emit trivial) fun _ => .bind (.timeout (.wait _) _) fun r => ?_
    split
    · exact .bind acts_handleWebsocket fun _ => .pure _
    · exact .pure _
  · simp only [if_neg hws]
    exact .bind acts_handleHttp fun _ => .pure _

theorem sends_forward {addr : Str} : (forward lib env config ip req addr).Acts
    (OnSend fun addr' q => addr' = addr ∧ q = forwarded lib req addr) :=
  acts_forward.mono OnForward.onSend

theorem acts_dispatch : (dispatch lib env config ip req).Acts
    (OnForward fun addr q => q = forwarded lib req addr) := by
  unfold dispatch
  split
  · exact .pure _
  · refine .bind (.bind (.emit trivial) fun _ => .pure _) fun r => ?_
    split
    · exact .pure _
    · exact acts_forward.mono (OnForward.mono fun _ _ h => h.1 ▸ h.2)

theorem sends_dispatch : (dispatch lib env config ip req).Acts
    (OnSend fun addr q => q = forwarded lib req addr) := acts_dispatch.mono OnForward.onSend

theorem relays_finishWebsocket {res : Response} :
    (finishWebsocket env config.timeout.sWebsocketIdle ip config.limit.maxBandwidth res).Acts
      (OnRelay env config ip) := by
  unfold finishWebsocket spawnRelay
  split
  · refine .bind ?_ fun _ => .pure _
    split
    · rename_i hboth
      exact .emit ⟨hboth.1, hboth.2, rfl, rfl, rfl⟩
    · exact .pure _
  · exact .pure _

theorem relays_forward {addr : Str} :
    (forward lib env config ip req addr).Acts (OnRelay env config ip) := by
  unfold forward
  by_cases hws : isWebsocket req = true
  · simp only [if_pos hws]
    refine .bind (.emit trivial) fun _ => .bind (.timeout (.wait _) _) fun r => ?_
    split
    · refine .bind (.bind (.wait _) fun ok => ?_) fun _ => .pure _
      split
      · exact .pure _
      · refine .bind (.emit trivial) fun _ => .bind (.timeout (.wait _) _) fun r => ?_
        split
        · exact .bind relays_finishWebsocket fun _ => .pure _
        · exact .pure _
    · exact .pure _
  · simp only [if_neg hws]
    refine .bind (.bind (.emit trivial) fun _ => .bind (.timeout (.wait _) _) fun r => ?_)
      fun _ => .pure _
    split
    · exact .bind acts_finishHttp fun _ => .pure _
    · exact .pure _

/-- **The relays of `https_proxy`.** -/
theorem relays_httpsProxy : (httpsProxy lib env config req remoteAddr).Acts
    (OnRelay env config (getRealIp req.headers remoteAddr)) := by
  refine .bind (judges_verifyRequest.mono Judges.onRelay) fun verified => ?_
  split
  · exact .pure _
  · refine .bind (judges_bufferBody.mono Judges.onRelay) fun r => ?_
    split
    · exact .pure _
    · refine .bind (.timeout ?_ _) fun result => ?_
      · unfold dispatch
        split
        · exact .pure _
        · refine .bind (.bind (.emit trivial) fun _ => .pure _) fun selected => ?_
          split
          · exact .pure _
          · exact relays_forward
      · unfold conclude
        split
        · exact .pure _
        · exact .pure _
        · exact .bind (.emit trivial) fun _ => .pure _

/-- A request is sent only by a run that passed verification and buffering. -/
theorem send_httpsProxy {addr : Str} {fwd : Request}
    (h : (httpsProxy lib env config req remoteAddr).Performs (.send addr fwd)) :
    ∃ q, Buffered lib config req q ∧
      (dispatch lib env config (getRealIp req.headers remoteAddr) q).Performs (.send addr fwd) ∧
      (httpsProxy lib env config req remoteAddr).GoesOn (Future.timeout
        (fromSecs config.timeout.cBodyTimeout)
        (dispatch lib env config (getRealIp req.headers remoteAddr) q) >>=
          conclude (getRealIp req.headers remoteAddr)) := by
  have hnone : OnSend (fun _ _ => False) (.send addr fwd) → False := id
  obtain ⟨verified, -, h₁, hgo₁⟩ := h.of_bind fun h => hnone (sends_verifyRequest _ h)
  cases verified with
  | error _ => exact absurd h₁ Future.performs_pure.mp
  | ok _ =>
    obtain ⟨r, hr, h₂, hgo₂⟩ := h₁.of_bind fun h => hnone (sends_bufferBody _ h)
    cases r with
    | error _ => exact absurd h₂ Future.performs_pure.mp
    | ok q =>
      refine ⟨q, buffered_of_returns hr, ?_, hgo₁.trans hgo₂⟩
      rcases Future.performs_bind.mp h₂ with h₃ | ⟨v, -, h₃⟩
      · exact h₃.of_timeout
      · match v with
        | some (some _) => exact absurd h₃ Future.performs_pure.mp
        | some none => exact absurd h₃ Future.performs_pure.mp
        | none =>
          obtain ⟨_, -, h₄, -⟩ := h₃.of_bind fun h => by cases Future.performs_emit.mp h
          exact absurd h₄ Future.performs_pure.mp

/-! ## Verification and routing -/

theorem verified_of_send {addr : Str} {fwd : Request}
    (h : (httpsProxy lib env config req remoteAddr).Performs (.send addr fwd)) :
    Verified env config req := by
  have hnone : OnSend (fun _ _ => False) (.send addr fwd) → False := id
  obtain ⟨verified, hverified, h₁, -⟩ := h.of_bind fun h => hnone (sends_verifyRequest _ h)
  cases verified with
  | error _ => exact absurd h₁ Future.performs_pure.mp
  | ok _ => exact verdict_eq_none.mp (returns_verifyRequest_ok.mp hverified)

theorem mem_of_firstHealthy {usizeBits startIdx : ℕ} {upstreams : List Str}
    {health : HealthManager} {addr : Str}
    (h : firstHealthy usizeBits upstreams startIdx health = some addr) : addr ∈ upstreams := by
  obtain ⟨i, -, hi⟩ := List.exists_of_findSome?_eq_some h
  exact List.mem_of_getElem? (Option.filter_eq_some_iff.mp hi).1

theorem not_sends_selectUpstream {upstreams : List Str} {counter : AtomicUsize} {addr : Str}
    {fwd : Request} : ¬ (selectUpstream lib env upstreams counter).Performs (.send addr fwd) := by
  intro h
  rcases Future.performs_bind.mp h with h | ⟨_, -, h⟩
  · cases Future.performs_emit.mp h
  · exact Future.performs_pure.mp h

/-- A request is sent only to an upstream of its route. -/
theorem route_of_send {addr : Str} {fwd : Request}
    (h : (dispatch lib env config ip req).Performs (.send addr fwd)) :
    ∃ m, route config req = some m ∧ addr ∈ m.1 := by
  unfold dispatch at h
  cases hroute : route config req with
  | none =>
    rw [hroute] at h
    exact absurd h Future.performs_pure.mp
  | some m =>
    rw [hroute] at h
    obtain ⟨selected, hselected, h₁, -⟩ := h.of_bind not_sends_selectUpstream
    cases selected with
    | none => exact absurd h₁ Future.performs_pure.mp
    | some addr' =>
      obtain ⟨_, -, hfirst⟩ := Future.returns_bind.mp hselected
      obtain rfl : addr = addr' := (sends_forward _ h₁).1
      exact ⟨m, rfl, mem_of_firstHealthy (Future.returns_pure.mp hfirst)⟩

/-- **The sends of `https_proxy`.** -/
theorem sends_httpsProxy {addr : Str} {fwd : Request}
    (h : (httpsProxy lib env config req remoteAddr).Performs (.send addr fwd)) :
    ∃ q, Buffered lib config req q ∧ fwd = forwarded lib q addr := by
  obtain ⟨q, hq, hdispatch, -⟩ := send_httpsProxy h
  exact ⟨q, hq, sends_dispatch _ hdispatch⟩

/-! ## The same request -/

/-- Whether a character ends the authority of an absolute URI. -/
def endsAuthority (c : Char) : Bool := c == '/' || c == '?' || c == '#'

/-- The path and query of `http://` followed by `rest`: what follows the authority, up to the
fragment. -/
def targetOf (rest : Str) : Str :=
  let data := (rest.dropWhile fun c => !endsAuthority c).takeWhile (· ≠ '#')
  if data = [] then ['/'] else data

theorem targetOf_ne_nil (rest : Str) : targetOf rest ≠ [] := by
  unfold targetOf
  simp only
  split
  · exact List.cons_ne_nil _ _
  · assumption

/-- The parser takes an absolute URI apart as RFC 3986 says. -/
def SplitsUris (parse : Str → Option Uri) : Prop :=
  ∀ rest u, parse ("http://".toList ++ rest) = some u → u.target = targetOf rest

/-- After an address without path, query and fragment, such as `IP:PORT`, a target that starts
with a slash is the target of the whole. -/
theorem targetOf_append {addr path : Str} (haddr : addr.any endsAuthority = false)
    (hpath : '#' ∉ path) : targetOf (addr ++ '/' :: path) = '/' :: path := by
  unfold targetOf
  have hdrop : (addr ++ '/' :: path).dropWhile (fun c => !endsAuthority c) = '/' :: path := by
    rw [List.dropWhile_append_of_pos fun c hc => by simpa using List.any_eq_false.mp haddr c hc]
    rfl
  have htake : ('/' :: path).takeWhile (fun c => decide (c ≠ '#')) = '/' :: path := by
    apply takeWhile_ne_of_not_mem
    simpa using hpath
  simp only [hdrop, htake]
  rfl

/-- The rewritten URI keeps the target. -/
def KeepsTarget (lib : Externals) (addr target : Str) : Prop :=
  lib.parseUri ("http://".toList ++ addr ++ target) = none ∨ targetOf (addr ++ target) = target

/-- `fwd` says what `req` says, with a body of the announced length. -/
structure SameRequest (req fwd : Request) : Prop where
  method : fwd.method = req.method
  target : fwd.uri.target = req.uri.target
  headers : fwd.headers = req.headers
  bytes : fwd.body.bytes = req.body.bytes
  length : ∀ n, contentLength fwd.headers = some n → fwd.body.bytes.length = n

/-- Buffering keeps everything but the frames of the body. -/
theorem Buffered.same {q : Request} (h : Buffered lib config req q) :
    q.method = req.method ∧ q.uri = req.uri ∧ q.headers = req.headers ∧
      q.body.bytes = req.body.bytes := by
  unfold Buffered at h
  split at h
  · rw [h.1]
    exact ⟨rfl, rfl, rfl, Body.bytes_full _⟩
  · rw [h]
    exact ⟨rfl, rfl, rfl, rfl⟩

theorem isWebsocket_congr {q : Request} (h : q.headers = req.headers) :
    isWebsocket q = isWebsocket req := by
  unfold isWebsocket; rw [h]

theorem target_rewriteRequest (hparse : SplitsUris lib.parseUri) (addr : Str) :
    (rewriteRequest lib req addr).uri.target = req.uri.target ↔
      KeepsTarget lib addr req.uri.target := by
  unfold rewriteRequest KeepsTarget
  cases hu : lib.parseUri ("http://".toList ++ addr ++ req.uri.target) with
  | none => simp
  | some u =>
    rw [List.append_assoc] at hu
    rw [Option.getD_some, hparse _ u hu]
    exact ⟨.inr, fun h => h.resolve_left (by simp)⟩

/-! ## A sample deployment -/

/-- A target as its path and its query. -/
def splitTarget (target : Str) : PathAndQuery :=
  let path := target.takeWhile (· ≠ '?')
  ⟨path, (target.dropWhile (· ≠ '?')).tail?⟩

theorem asStr_splitTarget {target : Str} (h : target ≠ []) : (splitTarget target).asStr = target := by
  have hsplit := List.takeWhile_append_dropWhile (p := fun c => decide (c ≠ '?')) (l := target)
  unfold PathAndQuery.asStr splitTarget
  rcases dropWhile_ne_cases '?' target with hq | ⟨q, hq⟩
  · rw [hq, List.append_nil] at hsplit
    simp only [hq, List.tail?_nil, List.append_nil, hsplit]
    exact if_neg h
  · rw [hq] at hsplit
    simp only [hq, List.tail?_cons, hsplit]
    exact if_neg h

/-- A name or an IPv4 address, and the port behind its colon. -/
def splitAuthority (s : Str) : Authority :=
  ⟨s.takeWhile (· ≠ ':'), (s.dropWhile (· ≠ ':')).tail?⟩

/-- A parser of `http` URIs without user information. -/
def splitUri (s : Str) : Option Uri :=
  if "http://".toList.isPrefixOf s then
    some ⟨some (splitAuthority ((s.drop 7).takeWhile fun c => !endsAuthority c)),
      some (splitTarget (targetOf (s.drop 7)))⟩
  else none

theorem splitUri_splits : SplitsUris splitUri := by
  intro rest u hu
  unfold splitUri at hu
  split at hu
  · cases hu
    have hrest : ("http://".toList ++ rest).drop 7 = rest := rfl
    rw [Uri.target, Option.map_some, hrest, asStr_splitTarget (targetOf_ne_nil rest)]
    rfl
  · cases hu

/-- Third-party code, as far as the sample requests need it. -/
def sampleExternals : Externals := ⟨.ascii, splitUri, 64⟩

/-- An environment without delays: every upstream can be reached, but none answers. -/
def sampleEnv : Env where
  rateOk := true
  fetchAdd _ := 0
  health := ⟨.empty⟩
  connect _ := some (0, true)
  handshake _ := some (0, true)
  request _ _ := none
  sendRequest _ _ := none
  upClient := false
  upBackend := false
  throttle _ _ b := b
  throttle_zero _ _ := rfl

/-- The upstream of the configuration below. -/
def sampleUpstream : Str := "10.0.0.2:80".toList

/-- One virtual host with one route, bodies of at most two bytes, and no bans. -/
def sampleConfig : Config where
  timeout := ⟨30, 5, 30, 60⟩
  limit := ⟨100, 10, 2, 0, 0⟩
  ban := ⟨0, 0, 0, 0⟩
  vhosts := KeyMap.empty.insert "a".toList ⟨"certs/a.pem".toList, "certs/a.key".toList,
    [("/".toList, [sampleUpstream])], KeyMap.empty.insert "/".toList ⟨0⟩⟩

/-- A request for `http://a/`. -/
def sampleRequest (method : Method) (headers : List (String × String)) (bytes : Bytes) : Request where
  method := method
  uri := ⟨none, some ⟨"/".toList, none⟩⟩
  version := .HTTP_11
  headers := ⟨(("Host", "a") :: headers).map fun (k, v) => (headerName k, HeaderValue.fromStatic v)⟩
  body := .full bytes

def sampleAddr : SocketAddr := ⟨.v4 0x0A000001#32, 40000⟩

/-! ## When the request is the same -/

/-- **The inspected request is the forwarded one** if it goes to the pooled client and the
upstream's address and the target make a URI with that target, or if it goes out as a WebSocket
handshake and has no body: the handshake never carries the body, but keeps its headers. -/
theorem forwarded_same_iff (hparse : SplitsUris lib.parseUri)
    (hlen : ∀ n, contentLength req.headers = some n → req.body.bytes.length = n)
    {addr : Str} {fwd : Request}
    (hsend : (httpsProxy lib env config req remoteAddr).Performs (.send addr fwd)) :
    SameRequest req fwd ↔
      if isWebsocket req then req.body.bytes = [] else KeepsTarget lib addr req.uri.target := by
  obtain ⟨q, hq, rfl⟩ := sends_httpsProxy hsend
  obtain ⟨hmethod, huri, hheaders, hbytes⟩ := hq.same
  unfold forwarded
  rw [isWebsocket_congr hheaders]
  by_cases hws : isWebsocket req = true
  · rw [if_pos hws, if_pos hws]
    constructor
    · exact fun h => h.bytes.symm
    · intro hempty
      refine ⟨hmethod, congrArg Uri.target huri, hheaders, hempty.symm, fun n hn => ?_⟩
      have : contentLength req.headers = some n := hheaders ▸ hn
      rw [← hlen n this, hempty]
      rfl
  · rw [if_neg hws, if_neg hws, ← huri, ← target_rewriteRequest hparse]
    constructor
    · exact fun h => h.target.trans (congrArg Uri.target huri.symm)
    · intro htarget
      refine ⟨hmethod, htarget.trans (congrArg Uri.target huri), hheaders, hbytes, fun n hn => ?_⟩
      exact (congrArg List.length hbytes).trans (hlen n (hheaders ▸ hn))

/-- A handshake request with a body of two bytes. -/
def handshakeWithBody : Request :=
  sampleRequest .POST [("Upgrade", "websocket"), ("Content-Length", "2")] [0x68, 0x69]

/-- Its body is dropped, and its `Content-Length` is not. -/
theorem handshake_drops_body :
    contentLength handshakeWithBody.headers = some handshakeWithBody.body.bytes.length ∧
    ∃ addr fwd, (httpsProxy sampleExternals sampleEnv sampleConfig handshakeWithBody
      sampleAddr).Performs (.send addr fwd) ∧ ¬ SameRequest handshakeWithBody fwd := by
  refine ⟨by decide, sampleUpstream, upgradeRequest handshakeWithBody, ⟨0, by decide +kernel⟩,
    fun h => ?_⟩
  have hbytes := h.bytes
  revert hbytes
  decide

/-- A request that is forwarded as it came. -/
def plainPost : Request := sampleRequest .POST [("Content-Length", "2")] [0x68, 0x69]

theorem sends_plainPost :
    (httpsProxy sampleExternals sampleEnv sampleConfig plainPost sampleAddr).Performs
      (.send sampleUpstream (rewriteRequest sampleExternals plainPost sampleUpstream)) :=
  ⟨0, by decide +kernel⟩

theorem forwarded_same_plain :
    SameRequest plainPost (rewriteRequest sampleExternals plainPost sampleUpstream) := by
  have hlen : contentLength plainPost.headers = some 2 := by decide
  refine (forwarded_same_iff splitUri_splits (fun n hn => ?_) sends_plainPost).mpr ?_
  · rw [hlen] at hn
    cases hn
    rfl
  · exact .inr (targetOf_append (by decide) (by decide))

/-! ## The inspected bytes -/

/-- Every body byte that `fwd` carries is part of a body within the limit that passed
`waf::body`. -/
def BytesChecked (lib : Externals) (config : Config) (req fwd : Request) : Prop :=
  fwd.body.bytes ≠ [] → fwd.body.bytes.length ≤ config.limit.maxBodySize ∧
    Waf.body lib.unicode req.headers fwd.body.bytes = .ok ()

theorem bytes_forwarded (q : Request) (addr : Str) : (forwarded lib q addr).body =
    if isWebsocket q then .empty else q.body := by
  unfold forwarded
  split <;> rfl

/-- **The bytes of a buffered method are checked**, and so are the none of a WebSocket handshake.
The body of every other request is streamed as it comes. -/
theorem forwarded_inspected {addr : Str} {fwd : Request}
    (hsend : (httpsProxy lib env config req remoteAddr).Performs (.send addr fwd)) :
    (req.method ∈ bufferedMethods ∨ isWebsocket req = true → BytesChecked lib config req fwd) ∧
      (req.method ∉ bufferedMethods → isWebsocket req = false → fwd.body = req.body) := by
  obtain ⟨q, hq, rfl⟩ := sends_httpsProxy hsend
  obtain ⟨-, -, hheaders, hbytes⟩ := hq.same
  unfold BytesChecked
  rw [bytes_forwarded, isWebsocket_congr hheaders]
  unfold Buffered at hq
  constructor
  · intro hmode hne
    by_cases hws : isWebsocket req = true
    · rw [if_pos hws] at hne
      exact absurd rfl hne
    · rw [if_neg hws, hbytes]
      rw [if_pos (hmode.resolve_right hws)] at hq
      exact hq.2
  · intro hmethod hws
    rw [if_neg hmethod] at hq
    rw [hq, hws]
    rfl

/-- A body of three bytes, one over the limit, in a request of an unbuffered method. -/
def streamedGet : Request := sampleRequest .GET [("Content-Length", "3")] [0x68, 0x69, 0x21]

theorem get_bytes_unchecked : ∃ addr fwd,
    (httpsProxy sampleExternals sampleEnv sampleConfig streamedGet sampleAddr).Performs
      (.send addr fwd) ∧ ¬ BytesChecked sampleExternals sampleConfig streamedGet fwd := by
  refine ⟨sampleUpstream, rewriteRequest sampleExternals streamedGet sampleUpstream,
    ⟨0, by decide +kernel⟩, fun h => ?_⟩
  exact absurd (h (by decide)).1 (by decide)

theorem forwarded_inspected_plain : BytesChecked sampleExternals sampleConfig plainPost
    (rewriteRequest sampleExternals plainPost sampleUpstream) :=
  (forwarded_inspected sends_plainPost).1 (.inl (by decide))

end OxidizedWall.Proxy
