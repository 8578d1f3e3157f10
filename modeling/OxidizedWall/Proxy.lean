import OxidizedWall.Ban
import OxidizedWall.Health
import OxidizedWall.Protocol
import OxidizedWall.Waf

/-!
# The request pipeline (`proxy.rs`)

Verification, buffering, routing, and the two ways of forwarding a request. A handler is a timed
computation that acts on the shared managers and on the network. What others do is in an `Env`:
the answers of the managers, of the network and of the upstream servers, for one request.
-/

namespace OxidizedWall

/-- Third-party code, and the word size. -/
structure Externals where
  unicode : Unicode
  /-- `<Uri as FromStr>::from_str`. -/
  parseUri : Str → Option Uri
  usizeBits : ℕ

/-- What a handler meets. Each `Option ℕ` is the time that an answer takes, `none` if it never
comes. -/
structure Env where
  /-- The answer of `RateLimiter::check`. -/
  rateOk : Bool
  /-- The value that `fetch_add` finds in a counter. -/
  fetchAdd : AtomicUsize → ℕ
  health : HealthManager
  /-- `TcpStream::connect`: whether it connects. -/
  connect : Str → Option (ℕ × Bool)
  /-- The client handshake on a new connection: whether it succeeds. -/
  handshake : Str → Option (ℕ × Bool)
  /-- The pooled client's answer to a request. -/
  request : Str → Request → Option (ℕ × Except HyperError Response)
  /-- The answer to a request on a connection of its own. -/
  sendRequest : Str → Request → Option (ℕ × Except HyperError Response)
  /-- Whether `hyper::upgrade::on` succeeds for the client's connection and for the upstream's. -/
  upClient : Bool
  upBackend : Bool
  /-- What comes out of `ThrottledBody::new`, given the other readers of the address's bucket. -/
  throttle : IpAddr → (maxBw : ℕ) → Body → Body
  throttle_zero : ∀ ip b, throttle ip 0 b = b

inductive Effect
  | rateCheck (ip : IpAddr)
  | punish (ip : IpAddr) (violation : Violation)
  | fetchAdd (counter : AtomicUsize)
  | connect (addr : Str)
  | send (addr : Str) (req : Request)
  | relay (ip : IpAddr) (maxBw idleSec : ℕ)
  deriving DecidableEq

abbrev Handler := Future Effect

namespace Proxy

/-! ## Responses -/

/-- The headers that `sanitize_response_headers` strips first. -/
def identifyingHeaders : List HeaderName :=
  ["Server", "X-Powered-By", "X-AspNet-Version", "X-Runtime"].map headerName

def securityHeaders : List (HeaderName × HeaderValue) :=
  [("Strict-Transport-Security", "max-age=31536000; includeSubDomains; preload"),
    ("X-Frame-Options", "DENY"),
    ("X-Content-Type-Options", "nosniff"),
    ("X-XSS-Protection", "1; mode=block"),
    ("Referrer-Policy", "strict-origin-when-cross-origin"),
    ("Permissions-Policy", "geolocation=(), microphone=(), camera=()")].map
      fun (k, v) => (headerName k, HeaderValue.fromStatic v)

def sanitizeResponseHeaders (headers : HeaderMap) : HeaderMap :=
  let headers := identifyingHeaders.foldl HeaderMap.remove headers
  let headers := (headers.remove CONTENT_LENGTH).remove TRANSFER_ENCODING
  securityHeaders.foldl (fun h kv => h.insert kv.1 kv.2) headers

def errorResponse (status : StatusCode) : Response :=
  ⟨status, .HTTP_11, sanitizeResponseHeaders .new, .empty⟩

/-! ## The client's address and the request's host -/

def CF_CONNECTING_IP : HeaderName := headerName "CF-Connecting-IP"

def getRealIp (headers : HeaderMap) (remoteAddr : SocketAddr) : IpAddr :=
  ((headers.get CF_CONNECTING_IP).bind HeaderValue.toStr |>.bind IpAddr.parse).getD remoteAddr.ip

def getHost (req : Request) : Str :=
  (req.uri.host.or (((req.headers.get HOST).bind HeaderValue.toStr).map
    fun h => h.takeWhile (· ≠ ':'))).getD "localhost".toList

def isWebsocket (req : Request) : Bool :=
  ((req.headers.get UPGRADE).bind HeaderValue.toStr).any fun s =>
    contains (toLowercase s) "websocket".toList

/-! ## Verification -/

def punish (ip : IpAddr) (violation : Violation) : Handler Unit := Future.emit (.punish ip violation)

def checkRate (env : Env) (ip : IpAddr) : Handler Bool := do
  Future.emit (.rateCheck ip)
  return env.rateOk

def reject (ip : IpAddr) (violation : Violation) (status : StatusCode) :
    Handler (Except Response Unit) := do
  punish ip violation
  return .error (errorResponse status)

def checkProtocol (req : Request) : Except ProtocolError Unit := do
  Protocol.validateUri req.uri
  Protocol.validateHost req.headers req.method req.uri
  Protocol.validateSmuggling req.headers

/-- The length of a target, its `?` included. -/
def uriLen (uri : Uri) : ℕ :=
  utf8Len uri.path + match uri.query with
    | some q => utf8Len q + 1
    | none => 0

def allowedMethods : List Method := [.GET, .POST, .PUT, .DELETE, .PATCH, .HEAD, .OPTIONS]

def verifyRequest (env : Env) (req : Request) (remoteAddr : SocketAddr) (config : Config) :
    Handler (Except Response Unit) := do
  let ip := getRealIp req.headers remoteAddr
  if !(← checkRate env ip) then
    reject ip .rateLimit .TOO_MANY_REQUESTS
  else match checkProtocol req with
  | .error _ => reject ip .protocol .BAD_REQUEST
  | .ok _ =>
    if req.headers.len > config.limit.maxHeaderCount then reject ip .protocol .BAD_REQUEST
    else if uriLen req.uri > config.limit.maxUriSize then reject ip .protocol .URI_TOO_LONG
    else if req.method ∉ allowedMethods then reject ip .protocol .METHOD_NOT_ALLOWED
    else match Waf.header req.uri req.method req.headers with
    | .error _ => reject ip .waf .FORBIDDEN
    | .ok _ => return .ok ()

/-! ## Routing -/

/-- The loop of `select_upstream`, from the counter's value `startIdx` on. Index sums wrap. -/
def firstHealthy (usizeBits : ℕ) (upstreams : List Str) (startIdx : ℕ) (health : HealthManager) :
    Option Str :=
  (List.range upstreams.length).findSome? fun i =>
    let idx := (startIdx + i) % 2 ^ usizeBits % upstreams.length
    (upstreams[idx]?).filter health.isHealthy

def selectUpstream (lib : Externals) (env : Env) (upstreams : List Str) (counter : AtomicUsize) :
    Handler (Option Str) := do
  Future.emit (.fetchAdd counter)
  return firstHealthy lib.usizeBits upstreams (env.fetchAdd counter) env.health

/-- The loop over the routers of a virtual host. -/
def bestMatch (vhost : VHostConfig) (path : Str) : Option (List Str × AtomicUsize) :=
  vhost.routers.findSome? fun (routePath, upstreams) =>
    if routePath.isPrefixOf path then
      (vhost.routersState.get routePath).map fun counter => (upstreams, counter)
    else none

def route (config : Config) (req : Request) : Option (List Str × AtomicUsize) := do
  let vhost ← config.vhosts.get (getHost req)
  bestMatch vhost req.uri.path

/-! ## Forwarding -/

/-- The request that `handle_http` hands to the client. -/
def rewriteRequest (lib : Externals) (req : Request) (upstreamAddr : Str) : Request :=
  { req with
    version := if req.version = .HTTP_2 then .HTTP_11 else req.version
    uri := (lib.parseUri ("http://".toList ++ upstreamAddr ++ req.uri.target)).getD req.uri }

/-- What `handle_http` makes of the upstream's response. -/
def finishHttp (lib : Externals) (env : Env) (remoteIp : IpAddr) (maxBw : ℕ) (res : Response) :
    Handler Response := do
  let headers := sanitizeResponseHeaders res.headers
  let finalBody ← Waf.applyDlp lib.unicode headers (env.throttle remoteIp maxBw res.body)
  return ⟨res.status, res.version, headers, finalBody⟩

def handleHttp (lib : Externals) (env : Env) (req : Request) (upstreamAddr : Str)
    (timeoutSec : ℕ) (remoteIp : IpAddr) (maxBw : ℕ) : Handler (Except HyperError Response) := do
  let req := rewriteRequest lib req upstreamAddr
  Future.emit (.send upstreamAddr req)
  match ← Future.timeout (fromSecs timeoutSec) (Future.wait (env.request upstreamAddr req)) with
  | some (.ok res) => return .ok (← finishHttp lib env remoteIp maxBw res)
  | _ => return .ok (errorResponse .GATEWAY_TIMEOUT)

/-- The request that `handle_websocket` sends: the head of the client's request. -/
def upgradeRequest (req : Request) : Request := { req with body := .empty }

/-- The task that `handle_websocket` spawns: it relays if both upgrades succeed. -/
def spawnRelay (env : Env) (idleTimeoutSec : ℕ) (remoteIp : IpAddr) (maxBw : ℕ) : Handler Unit :=
  if env.upClient ∧ env.upBackend then Future.emit (.relay remoteIp maxBw idleTimeoutSec)
  else return ()

def finishWebsocket (env : Env) (idleTimeoutSec : ℕ) (remoteIp : IpAddr) (maxBw : ℕ)
    (res : Response) : Handler Response := do
  if res.status = .SWITCHING_PROTOCOLS then
    spawnRelay env idleTimeoutSec remoteIp maxBw
    return ⟨.SWITCHING_PROTOCOLS, .HTTP_11, sanitizeResponseHeaders res.headers, .empty⟩
  else
    return { res with body := env.throttle remoteIp maxBw res.body }

def handleWebsocket (env : Env) (req : Request) (addr : Str) (rsTimeoutSec idleTimeoutSec : ℕ)
    (remoteIp : IpAddr) (maxBw : ℕ) : Handler (Except HyperError Response) := do
  if !(← Future.wait (env.handshake addr)) then return .error ⟨⟩
  else
    Future.emit (.send addr (upgradeRequest req))
    let answer := Future.wait (env.sendRequest addr (upgradeRequest req))
    match ← Future.timeout (fromSecs rsTimeoutSec) answer with
    | some (.ok res) => return .ok (← finishWebsocket env idleTimeoutSec remoteIp maxBw res)
    | _ => return .ok (errorResponse .GATEWAY_TIMEOUT)

/-- Proxying mode selection in `https_proxy`, once the upstream is known. -/
def forward (lib : Externals) (env : Env) (config : Config) (remoteIp : IpAddr) (req : Request)
    (addr : Str) : Handler (Option (Except HyperError Response)) := do
  let maxBw := config.limit.maxBandwidth
  if isWebsocket req then
    Future.emit (.connect addr)
    match ← Future.timeout (fromSecs config.timeout.sConnect) (Future.wait (env.connect addr)) with
    | some true =>
      return some (← handleWebsocket env req addr config.timeout.sResponse
        config.timeout.sWebsocketIdle remoteIp maxBw)
    | _ => return none
  else
    return some (← handleHttp lib env req addr config.timeout.sResponse remoteIp maxBw)

/-- Routing and dispatch in `https_proxy`: the block under `c_body_timeout`. -/
def dispatch (lib : Externals) (env : Env) (config : Config) (remoteIp : IpAddr) (req : Request) :
    Handler (Option (Except HyperError Response)) := do
  match route config req with
  | none => return none
  | some (upstreams, counter) =>
    match ← selectUpstream lib env upstreams counter with
    | none => return none
    | some addr => forward lib env config remoteIp req addr

/-! ## The two services -/

/-- `HeaderValue::try_from` for a `String`. -/
def headerValueOf (s : Str) : Option HeaderValue :=
  let bytes := Utf8.encode s
  if bytes.all fun b => (32 ≤ b && b != 127) || b == 9 then some bytes else none

def httpProxy (env : Env) (config : Config) (req : Request)
    (remoteAddr : SocketAddr) : Handler (Except HyperError Response) := do
  match ← verifyRequest env req remoteAddr config with
  | .error errRes => return .ok errRes
  | .ok _ =>
    let host := ((req.headers.get HOST).bind HeaderValue.toStr).getD "localhost".toList
    let httpsUri := "https://".toList ++ host ++ req.uri.target
    match headerValueOf httpsUri with
    | some v =>
      return .ok ⟨.PERMANENT_REDIRECT, .HTTP_11, HeaderMap.new.insert (headerName "Location") v,
        .empty⟩
    | none => return .ok (errorResponse .INTERNAL_SERVER_ERROR)

def bufferedMethods : List Method := [.POST, .PUT, .PATCH]

/-- Conditional body buffering in `https_proxy`. -/
def bufferBody (lib : Externals) (config : Config) (remoteIp : IpAddr) (req : Request) :
    Handler (Except Response Request) := do
  if req.method ∈ bufferedMethods then
    match ← (req.body.limited config.limit.maxBodySize).collect with
    | .error _ =>
      punish remoteIp .protocol
      return .error (errorResponse .PAYLOAD_TOO_LARGE)
    | .ok bodyBytes =>
      match Waf.body lib.unicode req.headers bodyBytes with
      | .error _ =>
        punish remoteIp .waf
        return .error (errorResponse .FORBIDDEN)
      | .ok _ => return .ok { req with body := .full bodyBytes }
  else return .ok req

/-- The last part of `https_proxy`: the outcome of the dispatch, or of its deadline. -/
def conclude (remoteIp : IpAddr) :
    Option (Option (Except HyperError Response)) → Handler (Except HyperError Response)
  | some (some res) => return res
  | some none => return .ok (errorResponse .BAD_GATEWAY)
  | none => do
    punish remoteIp .timeout
    return .ok (errorResponse .GATEWAY_TIMEOUT)

def httpsProxy (lib : Externals) (env : Env) (config : Config) (req : Request)
    (remoteAddr : SocketAddr) : Handler (Except HyperError Response) := do
  match ← verifyRequest env req remoteAddr config with
  | .error errRes => return .ok errRes
  | .ok _ =>
    let remoteIp := getRealIp req.headers remoteAddr
    match ← bufferBody lib config remoteIp req with
    | .error errRes => return .ok errRes
    | .ok finalReq =>
      let result ← Future.timeout (fromSecs config.timeout.cBodyTimeout)
        (dispatch lib env config remoteIp finalReq)
      conclude remoteIp result

end Proxy

end OxidizedWall
