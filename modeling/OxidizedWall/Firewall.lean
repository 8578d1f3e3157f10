import OxidizedWall.Admission
import OxidizedWall.Deadline
import OxidizedWall.Nesting
import OxidizedWall.Payload
import OxidizedWall.Pollution
import OxidizedWall.Signatures
import OxidizedWall.Traversal

/-!
# Who passes

The checks of a request, as conditions on the request: `WellFormed` for the protocol and its
limits, `CleanHead` for the target and the headers, `CleanPayload` for a body. With them,

1. `sends_iff`: the requests that an upstream gets to see, and in what form.
2. `punished_iff`: the requests that are punished, and as which violation.
-/

namespace OxidizedWall

/-! ## The conditions -/

/-- A text of a signature stands in the bytes. -/
def Core.ShowsSignature (x : Bytes) : Prop :=
  ∃ t, (Core.Wildcard t ∨ Core.Fixed t) ∧ Utf8.encode t <:+: x

/-- The user agents of attack tools have one of these names in them. -/
def toolNames : List String := ["sqlmap", "nikto", "nmap", "masscan", "dirbuster", "gobuster"]

/-- The beginnings of executables and scripts. -/
def executableSignatures : List Bytes :=
  [File.bytesOf "MZ", [0x7F, 0x45, 0x4C, 0x46], File.bytesOf "#!/", File.bytesOf "<?php"]

/-- A request that keeps to the protocol and to the limits. -/
structure WellFormed (config : Config) (req : Request) : Prop where
  printable : ∀ c ∈ req.uri.target, isControl c = false
  addressed : req.headers.getAll HOST ≠ [] ∨ req.uri.host ≠ none
  oneHost : (req.headers.getAll HOST).length ≤ 1
  framed : ¬ (req.headers.containsKey CONTENT_LENGTH = true ∧
    req.headers.containsKey TRANSFER_ENCODING = true)
  headerCount : req.headers.len ≤ config.limit.maxHeaderCount
  uriSize : Proxy.uriLen req.uri ≤ config.limit.maxUriSize
  method : req.method ∈ Proxy.allowedMethods

/-- Nothing that the firewall knows is in the decoded target, no key stands twice in the query, and
the client is no attack tool. -/
structure CleanHead (req : Request) : Prop where
  noTraversal : ¬ Path.DotsBeforeSeparator (Path.normalizeUrl req.uri.target)
  noTarget : ¬ Path.NamesTarget (Path.normalizeUrl req.uri.target)
  noSignature : ¬ Core.ShowsSignature (Utf8.encode (Path.normalizeUrl req.uri.target))
  distinctKeys : ∀ q ∈ req.uri.query, ¬ Structure.SharesKey (q.splitOn '&')
  noTool : ∀ ua ∈ (req.headers.get USER_AGENT).bind HeaderValue.toStr,
    ∀ tool ∈ toolNames, ¬ tool.toList <:+: toLowercase ua

/-- The payload is no executable and what it is declared to be, and as a text it is neither nested
too deep nor dense, shares no keys and shows no signature. -/
structure CleanPayload (unicode : Unicode) (headers : HeaderMap) (bytes : Bytes) : Prop where
  notExecutable : 4 ≤ bytes.length → ∀ sig ∈ executableSignatures, ¬ sig <+: bytes
  asDeclared : 4 ≤ bytes.length → ∀ ct ∈ (headers.get CONTENT_TYPE).bind HeaderValue.toStr,
    ∀ s ∈ File.signatures, ct = s.1.toList → s.2 <+: bytes
  shallow : ∀ w, w <:+: Utf8.decodeLossy bytes → w.countP Json.opens ≤ 10 + w.countP Json.closes
  sparse : ¬ (0.4 : Float32) < Structure.density unicode (Utf8.decodeLossy bytes)
  distinctKeys : ¬ Structure.SharesKey ((Utf8.decodeLossy bytes).splitOn '&')
  noSignature : ¬ Core.ShowsSignature bytes

/-! ## The checks -/

theorem isMaliciousBot_iff {ua : Str} : Structure.isMaliciousBot ua = true ↔
    ∃ tool ∈ toolNames, tool.toList <:+: toLowercase ua := by
  unfold Structure.isMaliciousBot toolNames
  simp only [List.any_eq_true, Path.contains_iff]

theorem checkMagicNumber_iff {bytes : Bytes} : File.checkMagicNumber bytes = .ok () ↔
    (4 ≤ bytes.length → ∀ sig ∈ executableSignatures, ¬ sig <+: bytes) := by
  unfold File.checkMagicNumber executableSignatures
  simp only [← List.isPrefixOf_iff_prefix, List.forall_mem_cons, List.not_mem_nil, false_implies,
    implies_true, and_true]
  by_cases hshort : bytes.length < 4
  · rw [if_pos hshort]
    exact ⟨fun _ h => absurd hshort (Nat.not_lt.mpr h), fun _ => rfl⟩
  · rw [if_neg hshort]
    have hlong : 4 ≤ bytes.length := Nat.not_lt.mp hshort
    split_ifs with hmz helf hscript
    · exact ⟨fun h => (nomatch h), fun h => absurd hmz (h hlong).1⟩
    · exact ⟨fun h => (nomatch h), fun h => absurd helf (h hlong).2.1⟩
    · refine ⟨fun h => (nomatch h), fun h => ?_⟩
      rcases Bool.or_eq_true_iff.mp hscript with hsh | hphp
      · exact absurd hsh (h hlong).2.2.1
      · exact absurd hphp (h hlong).2.2.2
    · rw [Bool.or_eq_true, not_or] at hscript
      exact ⟨fun _ _ => ⟨hmz, helf, hscript⟩, fun _ => rfl⟩

theorem cleanHead_iff {req : Request} :
    Waf.header req.uri req.method req.headers = .ok () ↔ CleanHead req := by
  rw [Waf.header_eq_ok_iff, Path.isTraversal_iff, Core.isAttack_iff, any_pollution_iff, not_or]
  unfold Waf.fromBot QueryRepeats
  simp only [Option.any_eq_true, isMaliciousBot_iff, ← Structure.sharesKey_iff, not_exists, not_and]
  constructor
  · rintro ⟨⟨hdots, htarget⟩, hattack, hkeys, htool⟩
    exact ⟨hdots, htarget, fun ⟨t, ht⟩ => hattack t ht.1 ht.2, hkeys, htool⟩
  · intro h
    exact ⟨⟨h.noTraversal, h.noTarget⟩, fun t ht hx => h.noSignature ⟨t, ht, hx⟩, h.distinctKeys,
      h.noTool⟩

theorem shallow_iff {t : Str} {maxDepth : ℕ} : Structure.checkJsonDepth t maxDepth = true ↔
    ∀ w, w <:+: t → w.countP Json.opens ≤ maxDepth + w.countP Json.closes := by
  rw [← Bool.not_eq_false, Structure.checkJsonDepth_eq_false_iff]
  unfold Structure.TooDeep Excess.Exceeds
  simp only [not_exists, not_and, Nat.not_lt]

/-- The density of the empty text is no number, and above no limit. -/
theorem dense_iff_lt_density {unicode : Unicode} {t : Str} :
    Structure.isHighDensity unicode t (0.4 : Float32) = true ↔
      (0.4 : Float32) < Structure.density unicode t := by
  unfold Structure.isHighDensity Structure.density
  by_cases hempty : t = []
  · subst hempty
    rw [if_pos rfl]
    show false = true ↔ (0.4 : Float32) < ((0 : ℕ) : Float32) / ((0 : ℕ) : Float32)
    decide +kernel
  · rw [if_neg hempty]
    exact decide_eq_true_iff

/-- A share just above two fifths is rounded to the limit. -/
example : (2 / 5 : ℚ) < (4000001 : ℕ) / (10000002 : ℕ) ∧
    ¬ (0.4 : Float32) < ((4000001 : ℕ) : Float32) / ((10000002 : ℕ) : Float32) :=
  ⟨by norm_num, by decide +kernel⟩

theorem cleanPayload_iff {unicode : Unicode} {headers : HeaderMap} {bytes : Bytes} :
    Waf.body unicode headers bytes = .ok () ↔ CleanPayload unicode headers bytes := by
  rw [Waf.body_eq_ok_iff, checkMagicNumber_iff, Core.isAttack_iff, Bool.not_eq_true',
    Bool.not_eq_false, shallow_iff, dense_iff_lt_density,
    Structure.hasParameterPollution_iff, ← Structure.sharesKey_iff]
  simp only [Option.any_eq_true, Bool.not_eq_true', File.isAllowedFileType_eq_false_iff, not_exists,
    not_and, not_not]
  constructor
  · rintro ⟨hmagic, htype, hshallow, hsparse, hkeys, hattack⟩
    exact ⟨hmagic, fun hlong ct hct s hs heq => htype ct hct hlong s hs heq, hshallow, hsparse,
      hkeys, fun ⟨t, ht⟩ => hattack t ht.1 ht.2⟩
  · intro h
    exact ⟨h.notExecutable, fun ct hct hlong s hs heq => h.asDeclared hlong ct hct s hs heq,
      h.shallow, h.sparse, h.distinctKeys, fun t ht hx => h.noSignature ⟨t, ht, hx⟩⟩

/-! ## Verification -/

namespace Proxy

variable {lib : Externals} {env : Env} {config : Config} {req : Request} {remoteAddr : SocketAddr}
  {ip : IpAddr}

theorem validateUri_iff {uri : Uri} :
    Protocol.validateUri uri = .ok () ↔ ∀ c ∈ uri.target, isControl c = false := by
  unfold Protocol.validateUri
  have hfind := List.find?_eq_none (p := isControl) (l := uri.target)
  cases h : uri.target.find? isControl with
  | none => simpa only [Bool.not_eq_true, true_iff] using hfind.mp h
  | some c =>
    refine ⟨fun h' => (nomatch h'), fun hall => ?_⟩
    rw [hfind.mpr fun c hc => by simp [hall c hc]] at h
    cases h

theorem validateHost_iff {headers : HeaderMap} {method : Method} {uri : Uri}
    (hmethod : method ≠ .CONNECT) : Protocol.validateHost headers method uri = .ok () ↔
      (headers.getAll HOST ≠ [] ∨ uri.host ≠ none) ∧ (headers.getAll HOST).length ≤ 1 := by
  unfold Protocol.validateHost
  rw [if_pos hmethod]
  simp only
  split_ifs with hnone hmany
  · exact ⟨fun h => (nomatch h), fun h => absurd hnone (not_and_or.mpr h.1)⟩
  · exact ⟨fun h => (nomatch h), fun h => absurd hmany (Nat.not_lt.mpr h.2)⟩
  · exact ⟨fun _ => ⟨not_and_or.mp hnone, Nat.not_lt.mp hmany⟩, fun _ => rfl⟩

theorem validateSmuggling_iff {headers : HeaderMap} :
    Protocol.validateSmuggling headers = .ok () ↔
      ¬ (headers.containsKey CONTENT_LENGTH = true ∧
        headers.containsKey TRANSFER_ENCODING = true) := by
  unfold Protocol.validateSmuggling
  rw [← Bool.and_eq_true_iff]
  split_ifs with hboth
  · exact ⟨fun h => (nomatch h), fun h => absurd hboth h⟩
  · exact ⟨fun _ => hboth, fun _ => rfl⟩

/-- The checks up to the firewall. -/
theorem wellFormed_iff : WellFormed config req ↔ checkProtocol req = .ok () ∧
    req.headers.len ≤ config.limit.maxHeaderCount ∧ uriLen req.uri ≤ config.limit.maxUriSize ∧
      req.method ∈ allowedMethods := by
  have hconnect (h : req.method ∈ allowedMethods) : req.method ≠ .CONNECT := by
    intro heq
    rw [heq] at h
    revert h
    decide
  unfold checkProtocol
  rw [Checks.andThen_eq_ok, Checks.andThen_eq_ok, validateUri_iff, validateSmuggling_iff]
  constructor
  · intro h
    exact ⟨⟨h.printable, (validateHost_iff (hconnect h.method)).mpr ⟨h.addressed, h.oneHost⟩,
      h.framed⟩, h.headerCount, h.uriSize, h.method⟩
  · rintro ⟨⟨hprintable, hhost, hframed⟩, hcount, hsize, hmethod⟩
    obtain ⟨haddressed, hone⟩ := (validateHost_iff (hconnect hmethod)).mp hhost
    exact ⟨hprintable, haddressed, hone, hframed, hcount, hsize, hmethod⟩

/-- The verdicts, and what they say about the request. -/
inductive VerdictOutcome (env : Env) (config : Config) (req : Request) :
    Option (Violation × StatusCode) → Prop
  | limited : env.rateOk = false →
    VerdictOutcome env config req (some (.rateLimit, .TOO_MANY_REQUESTS))
  | malformed (status : StatusCode) : env.rateOk = true → ¬ WellFormed config req →
    VerdictOutcome env config req (some (.protocol, status))
  | suspicious : env.rateOk = true → WellFormed config req → ¬ CleanHead req →
    VerdictOutcome env config req (some (.waf, .FORBIDDEN))
  | passed : env.rateOk = true → WellFormed config req → CleanHead req →
    VerdictOutcome env config req none

theorem verdict_outcome (env : Env) (config : Config) (req : Request) :
    VerdictOutcome env config req (verdict env config req) := by
  unfold verdict
  cases hrate : env.rateOk with
  | false => exact .limited hrate
  | true =>
    simp only [Bool.not_true, Bool.false_eq_true, if_false]
    cases hprotocol : checkProtocol req with
    | error _ =>
      refine .malformed _ hrate fun h => ?_
      cases hprotocol.symm.trans (wellFormed_iff.mp h).1
    | ok _ =>
      simp only
      by_cases hcount : req.headers.len > config.limit.maxHeaderCount
      · rw [if_pos hcount]
        exact .malformed _ hrate fun h => absurd hcount (Nat.not_lt.mpr h.headerCount)
      rw [if_neg hcount]
      by_cases hsize : uriLen req.uri > config.limit.maxUriSize
      · rw [if_pos hsize]
        exact .malformed _ hrate fun h => absurd hsize (Nat.not_lt.mpr h.uriSize)
      rw [if_neg hsize]
      by_cases hmethod : req.method ∉ allowedMethods
      · rw [if_pos hmethod]
        exact .malformed _ hrate fun h => absurd h.method hmethod
      rw [if_neg hmethod]
      have hformed : WellFormed config req := wellFormed_iff.mpr
        ⟨hprotocol, Nat.not_lt.mp hcount, Nat.not_lt.mp hsize, not_not.mp hmethod⟩
      cases hwaf : Waf.header req.uri req.method req.headers with
      | error _ =>
        refine .suspicious hrate hformed fun h => ?_
        cases hwaf.symm.trans (cleanHead_iff.mpr h)
      | ok _ => exact .passed hrate hformed (cleanHead_iff.mp hwaf)

theorem verified_iff : Verified env config req ↔
    env.rateOk = true ∧ WellFormed config req ∧ CleanHead req := by
  rw [← verdict_eq_none]
  have h := verdict_outcome env config req
  generalize verdict env config req = v at h ⊢
  cases h with
  | limited hrate => simp [hrate]
  | malformed _ _ hformed => exact ⟨fun h => (nomatch h), fun h => absurd h.2.1 hformed⟩
  | suspicious _ _ hclean => exact ⟨fun h => (nomatch h), fun h => absurd h.2.2 hclean⟩
  | passed hrate hformed hclean => exact ⟨fun _ => ⟨hrate, hformed, hclean⟩, fun _ => rfl⟩

/-! ## Payloads -/

theorem time_of_finish {b : Body} {t : ℕ} {e : BodyEnd} (h : b.finish = some (t, e)) :
    b.time = some (b.delay + t) := by
  unfold Body.time
  rw [h]
  rfl

/-- The body comes to its end, with `e`. -/
def Ends (b : Body) (e : BodyEnd) : Prop := ∃ t, b.finish = some (t, e)

/-- The payload passes: it is not looked at, or it is complete, within the limit and clean. -/
def PayloadPasses (lib : Externals) (config : Config) (req : Request) : Prop :=
  req.method ∈ bufferedMethods → Ends req.body .endOfStream ∧
    req.body.bytes.length ≤ config.limit.maxBodySize ∧
    CleanPayload lib.unicode req.headers req.body.bytes

/-- The runs of conditional buffering, and what they say about the body. -/
inductive PayloadOutcome (lib : Externals) (config : Config) (ip : IpAddr) (req : Request) :
    Handler (Except Response Request) → Prop
  | streamed : req.method ∉ bufferedMethods →
    PayloadOutcome lib config ip req ⟨[], some (0, .ok req)⟩
  | stalled : req.method ∈ bufferedMethods → req.body.finish = none →
    req.body.bytes.length ≤ config.limit.maxBodySize → PayloadOutcome lib config ip req ⟨[], none⟩
  | broken (t : ℕ) : req.method ∈ bufferedMethods →
    config.limit.maxBodySize < req.body.bytes.length ∨ Ends req.body .error →
    (req.body.limited config.limit.maxBodySize).time = some t →
    PayloadOutcome lib config ip req
      ⟨[(t, .punish ip .protocol)], some (t, .error (errorResponse .PAYLOAD_TOO_LARGE))⟩
  | suspicious (t : ℕ) : req.method ∈ bufferedMethods → Ends req.body .endOfStream →
    req.body.bytes.length ≤ config.limit.maxBodySize → req.body.time = some t →
    ¬ CleanPayload lib.unicode req.headers req.body.bytes →
    PayloadOutcome lib config ip req
      ⟨[(t, .punish ip .waf)], some (t, .error (errorResponse .FORBIDDEN))⟩
  | passed (t : ℕ) : req.method ∈ bufferedMethods → Ends req.body .endOfStream →
    req.body.bytes.length ≤ config.limit.maxBodySize → req.body.time = some t →
    CleanPayload lib.unicode req.headers req.body.bytes →
    PayloadOutcome lib config ip req ⟨[], some (t, .ok (buffered req))⟩

/-- The value of a body that comes to its end. -/
def collected (b : Body) : BodyEnd → Except HyperError Bytes
  | .endOfStream => .ok b.bytes
  | .error => .error ⟨⟩

theorem collect_of_finish {b : Body} {t : ℕ} {e : BodyEnd} (h : b.finish = some (t, e)) :
    (b.collect : Handler (Except HyperError Bytes)) = .wait (some (b.delay + t, collected b e)) := by
  unfold Body.collect
  rw [h]
  cases e <;> rfl

theorem payload_outcome (lib : Externals) (config : Config) (ip : IpAddr) (req : Request) :
    PayloadOutcome lib config ip req (bufferBody lib config ip req) := by
  unfold bufferBody
  by_cases hm : req.method ∈ bufferedMethods
  · simp only [if_pos hm]
    by_cases hlong : config.limit.maxBodySize < req.body.bytes.length
    · obtain ⟨t, ht⟩ : ∃ t, (req.body.limited config.limit.maxBodySize).finish =
          some (t, .error) := Body.limitedFrom_of_lt hlong
      rw [collect_of_finish ht, Future.wait_bind_some]
      exact .broken _ hm (.inl hlong) (time_of_finish ht)
    · have hle := Nat.not_lt.mp hlong
      have hlimited : req.body.limited config.limit.maxBodySize = req.body :=
        Body.limitedFrom_of_le hle
      rw [hlimited]
      match hfinish : req.body.finish with
      | none =>
        have hnone : (req.body.collect : Handler (Except HyperError Bytes)) = .wait none := by
          unfold Body.collect
          rw [hfinish, Option.map_none]
        rw [hnone, Future.wait_bind_none]
        exact .stalled hm hfinish hle
      | some (t, .error) =>
        rw [collect_of_finish hfinish, Future.wait_bind_some]
        refine .broken _ hm (.inr ⟨t, hfinish⟩) ?_
        rw [hlimited]
        exact time_of_finish hfinish
      | some (t, .endOfStream) =>
        rw [collect_of_finish hfinish, Future.wait_bind_some]
        simp only [collected]
        have htime := time_of_finish hfinish
        cases hwaf : Waf.body lib.unicode req.headers req.body.bytes with
        | error _ =>
          refine .suspicious _ hm ⟨t, hfinish⟩ hle htime fun h => ?_
          cases hwaf.symm.trans (cleanPayload_iff.mpr h)
        | ok _ =>
          have hpassed : PayloadOutcome lib config ip req
              ⟨[], some (req.body.delay + t, .ok (buffered req))⟩ :=
            .passed _ hm ⟨t, hfinish⟩ hle htime (cleanPayload_iff.mp hwaf)
          unfold buffered at hpassed
          rw [if_pos hm] at hpassed
          exact hpassed
  · simp only [if_neg hm]
    exact .streamed hm

theorem returns_bufferBody_iff {q : Request} : (bufferBody lib config ip req).Returns (.ok q) ↔
    PayloadPasses lib config req ∧ buffered req = q := by
  have h := payload_outcome lib config ip req
  unfold PayloadPasses
  generalize bufferBody lib config ip req = x at h ⊢
  have hreturns : ∀ {effects : List (ℕ × Effect)} {t : ℕ} {r : Except Response Request},
      Future.Returns ⟨effects, some (t, r)⟩ (.ok q) ↔ r = .ok q := by
    intro effects t r
    constructor
    · rintro ⟨_, h⟩
      cases h
      rfl
    · rintro rfl
      exact ⟨t, rfl⟩
  have herror : ∀ {b : Body}, Ends b .error → ¬ Ends b .endOfStream := by
    rintro b ⟨t, ht⟩ ⟨t', ht'⟩
    cases ht.symm.trans ht'
  cases h with
  | streamed hm =>
    rw [hreturns, Except.ok.injEq]
    unfold buffered
    rw [if_neg hm]
    exact ⟨fun h => ⟨fun h' => absurd h' hm, h⟩, And.right⟩
  | stalled hm hfinish _ =>
    refine ⟨fun ⟨_, h⟩ => (nomatch h), fun ⟨h, _⟩ => ?_⟩
    obtain ⟨t, ht⟩ := (h hm).1
    cases hfinish.symm.trans ht
  | broken t hm hbroken _ =>
    rw [hreturns]
    refine ⟨fun h => (nomatch h), fun ⟨h, _⟩ => ?_⟩
    rcases hbroken with hlong | hend
    · exact absurd hlong (Nat.not_lt.mpr (h hm).2.1)
    · exact absurd (h hm).1 (herror hend)
  | suspicious t hm _ _ _ hclean =>
    rw [hreturns]
    exact ⟨fun h => (nomatch h), fun ⟨h, _⟩ => absurd (h hm).2.2 hclean⟩
  | passed t hm hend hle _ hclean =>
    rw [hreturns, Except.ok.injEq]
    exact ⟨fun h => ⟨fun _ => ⟨hend, hle, hclean⟩, h⟩, And.right⟩

/-! ## The way to the upstream -/

/-- The request goes out `t` after its checks: at once, or over a connection of its own, once that
is there. -/
def GoesOutAt (env : Env) (config : Config) (req : Request) (addr : Str) (t : ℕ) : Prop :=
  if isWebsocket req then
    ∃ s u, env.connect addr = some (s, true) ∧ s ≤ fromSecs config.timeout.sConnect ∧
      env.handshake addr = some (u, true) ∧ s + u = t
  else t = 0

section
variable {addr addr' : Str} {fwd q : Request} {t : ℕ}

/-- What sends nothing, sends nothing at any time. -/
theorem not_does_of_acts {α : Type} {x : Handler α} (h : x.Acts (OnSend fun _ _ => False)) :
    ¬ x.Does t (.send addr fwd) := fun hdoes => h _ ⟨t, hdoes⟩

theorem does_answer {limit : ℕ} {answer : Option (ℕ × Except HyperError Response)}
    {finish : Response → Handler Response}
    (hfinish : ∀ up, (finish up).Acts (OnSend fun _ _ => False)) :
    (do
      Future.emit (.send addr fwd)
      match ← Future.timeout limit (Future.wait answer) with
      | some (.ok res) => return .ok (← finish res)
      | _ => return .ok (errorResponse .GATEWAY_TIMEOUT) :
        Handler (Except HyperError Response)).Does t (.send addr' q) ↔
      t = 0 ∧ addr' = addr ∧ q = fwd := by
  have hsent : (Future.emit (.send addr fwd) : Handler Unit).result = some (0, ()) := rfl
  rw [Future.does_bind hsent, Future.does_emit, Effect.send.injEq]
  refine ⟨fun h => h.resolve_right ?_, .inl⟩
  rintro ⟨u, hdoes, -⟩
  revert hdoes
  refine not_does_of_acts (.bind (.timeout (.wait _) _) fun r => ?_)
  split
  · exact .bind (hfinish _) fun _ => .pure _
  · exact .pure _

theorem does_handleHttp {timeoutSec maxBw : ℕ} :
    (handleHttp lib env req addr timeoutSec ip maxBw).Does t (.send addr' q) ↔
      t = 0 ∧ addr' = addr ∧ q = rewriteRequest lib req addr :=
  does_answer fun _ => acts_finishHttp.mono OnForward.onSend

theorem does_handleWebsocket {timeoutSec idleSec maxBw : ℕ} :
    (handleWebsocket env req addr timeoutSec idleSec ip maxBw).Does t (.send addr' q) ↔
      env.handshake addr = some (t, true) ∧ addr' = addr ∧ q = upgradeRequest req := by
  unfold handleWebsocket
  cases hhandshake : env.handshake addr with
  | none =>
    rw [Future.does_bind_of_stalled rfl]
    exact ⟨fun h => absurd h Future.not_does_wait, fun h => (nomatch h.1)⟩
  | some r =>
    obtain ⟨s, ok⟩ := r
    have hwait : (Future.wait (some (s, ok)) : Handler Bool).result = some (s, ok) := rfl
    rw [Future.does_bind hwait, or_iff_right Future.not_does_wait]
    cases ok with
    | false =>
      constructor
      · rintro ⟨u, hdoes, -⟩
        exact absurd hdoes Future.not_does_pure
      · exact fun h => (nomatch h.1)
    | true =>
      simp only [Bool.not_true, Bool.false_eq_true, if_false, Option.some.injEq, Prod.mk.injEq,
        and_true]
      constructor
      · rintro ⟨u, hdoes, rfl⟩
        obtain ⟨rfl, h⟩ := (does_answer fun _ => acts_finishWebsocket.mono OnForward.onSend).mp hdoes
        exact ⟨rfl, h⟩
      · rintro ⟨rfl, h⟩
        exact ⟨0, (does_answer fun _ => acts_finishWebsocket.mono OnForward.onSend).mpr ⟨rfl, h⟩,
          rfl⟩

theorem does_forward : (forward lib env config ip req addr).Does t (.send addr' q) ↔
    GoesOutAt env config req addr t ∧ addr' = addr ∧ q = forwarded lib req addr := by
  unfold forward GoesOutAt forwarded
  by_cases hws : isWebsocket req = true
  · simp only [if_pos hws]
    have hconnect : (Future.emit (.connect addr) : Handler Unit).result = some (0, ()) := rfl
    have hno : ∀ {u : ℕ}, ¬ (Future.emit (.connect addr) : Handler Unit).Does u (.send addr' q) :=
      fun h => nomatch (Future.does_emit.mp h).2
    have hwaits : ∀ {d u : ℕ} {r : Option (ℕ × Bool)},
        ¬ (Future.timeout d (Future.wait r) : Handler (Option Bool)).Does u (.send addr' q) :=
      fun h => Future.not_does_wait ((Future.does_timeout .wait).mp h).1
    rw [Future.does_bind hconnect, or_iff_right hno]
    simp only [Nat.zero_add, exists_eq_right]
    match env.connect addr with
    | none =>
      have hwait : (Future.timeout (fromSecs config.timeout.sConnect) (Future.wait none) :
          Handler (Option Bool)).result = some (fromSecs config.timeout.sConnect, none) := rfl
      rw [Future.does_bind hwait, or_iff_right hwaits]
      constructor
      · rintro ⟨_, hdoes, -⟩
        exact absurd hdoes Future.not_does_pure
      · rintro ⟨⟨_, _, h, -⟩, -⟩
        cases h
    | some (s, connected) =>
      have hwait : (Future.timeout (fromSecs config.timeout.sConnect)
          (Future.wait (some (s, connected))) : Handler (Option Bool)).result =
            if s ≤ fromSecs config.timeout.sConnect then some (s, some connected)
            else some (fromSecs config.timeout.sConnect, none) := Future.result_timeout_wait
      by_cases hs : s ≤ fromSecs config.timeout.sConnect
      · rw [if_pos hs] at hwait
        rw [Future.does_bind hwait, or_iff_right hwaits]
        cases connected with
        | false =>
          constructor
          · rintro ⟨_, hdoes, -⟩
            exact absurd hdoes Future.not_does_pure
          · rintro ⟨⟨_, _, h, -⟩, -⟩
            cases h
        | true =>
          simp only [Future.does_bind_pure, does_handleWebsocket]
          constructor
          · rintro ⟨u, ⟨hu, h⟩, rfl⟩
            exact ⟨⟨s, u, rfl, hs, hu, rfl⟩, h⟩
          · rintro ⟨⟨_, u, heq, -, hu, rfl⟩, h⟩
            cases heq
            exact ⟨u, ⟨hu, h⟩, rfl⟩
      · rw [if_neg hs] at hwait
        rw [Future.does_bind hwait, or_iff_right hwaits]
        constructor
        · rintro ⟨_, hdoes, -⟩
          exact absurd hdoes Future.not_does_pure
        · rintro ⟨⟨_, _, heq, hle, -⟩, -⟩
          cases heq
          exact absurd hle hs
  · simp only [if_neg hws]
    rw [Future.does_bind_pure, does_handleHttp]

/-- What a dispatch sends, where and when. -/
theorem does_dispatch : (dispatch lib env config ip req).Does t (.send addr q) ↔
    upstreamOf lib env config req = some addr ∧ GoesOutAt env config req addr t ∧
      q = forwarded lib req addr := by
  unfold dispatch upstreamOf
  cases route config req with
  | none => exact ⟨fun h => absurd h Future.not_does_pure, fun h => nomatch h.1⟩
  | some m =>
    obtain ⟨upstreams, counter⟩ := m
    have hselect : (selectUpstream lib env upstreams counter).result = some (0,
        firstHealthy lib.usizeBits upstreams (env.fetchAdd counter) env.health) := rfl
    have hno : ¬ (selectUpstream lib env upstreams counter).Does t (.send addr q) :=
      fun h => not_sends_selectUpstream ⟨t, h⟩
    simp only [Option.bind_eq_bind, Option.bind_some]
    rw [Future.does_bind hselect, or_iff_right hno]
    simp only [Nat.zero_add, exists_eq_right]
    cases firstHealthy lib.usizeBits upstreams (env.fetchAdd counter) env.health with
    | none => exact ⟨fun h => absurd h Future.not_does_pure, fun h => nomatch h.1⟩
    | some addr' =>
      simp only [does_forward, Option.some.injEq]
      constructor
      · rintro ⟨hout, rfl, h⟩
        exact ⟨rfl, hout, h⟩
      · rintro ⟨rfl, hout, h⟩
        exact ⟨hout, rfl, h⟩

/-- A dispatch has done everything when it completes. -/
theorem causal_dispatch : (dispatch lib env config ip req).Causal := by
  have hanswer : ∀ {limit : ℕ} {answer : Option (ℕ × Except HyperError Response)}
      {finish : Response → Handler Response} {addr : Str} {fwd : Request},
      (∀ up, (finish up).Causal) → (do
        Future.emit (.send addr fwd)
        match ← Future.timeout limit (Future.wait answer) with
        | some (.ok res) => return .ok (← finish res)
        | _ => return .ok (errorResponse .GATEWAY_TIMEOUT) :
          Handler (Except HyperError Response)).Causal := by
    intro limit answer finish addr fwd hfinish
    refine .bind .emit fun _ => .bind (.timeout .wait _) fun r => ?_
    split
    · exact .bind (hfinish _) fun _ => .pure
    · exact .pure
  have hhttp : ∀ up, (finishHttp lib env ip config.limit.maxBandwidth up).Causal := by
    intro up
    refine .bind ?_ fun _ => .pure
    unfold Waf.applyDlp
    split
    · exact .pure
    · refine .bind .wait fun r => ?_
      split <;> exact .pure
  have hwebsocket : ∀ up, (finishWebsocket env config.timeout.sWebsocketIdle ip
      config.limit.maxBandwidth up).Causal := by
    intro up
    unfold finishWebsocket spawnRelay
    split
    · refine .bind ?_ fun _ => .pure
      split
      · exact .emit
      · exact .pure
    · exact .pure
  unfold dispatch
  split
  · exact .pure
  · refine .bind (.bind .emit fun _ => .pure) fun r => ?_
    split
    · exact .pure
    · unfold forward
      simp only
      split
      · refine .bind .emit fun _ => .bind (.timeout .wait _) fun r => ?_
        split
        · refine .bind ?_ fun _ => .pure
          unfold handleWebsocket
          refine .bind .wait fun ok => ?_
          split
          · exact .pure
          · exact hanswer hwebsocket
        · exact .pure
      · exact .bind (hanswer hhttp) fun _ => .pure

end

/-! ## The whole pipeline -/

theorem verdict_eq_none_iff : verdict env config req = none ↔
    env.rateOk = true ∧ WellFormed config req ∧ CleanHead req := verdict_eq_none.trans verified_iff

/-- What `https_proxy` does: it verifies, it buffers, and it dispatches. -/
theorem performs_httpsProxy {e : Effect} :
    (httpsProxy lib env config req remoteAddr).Performs e ↔
      (verifyRequest env req remoteAddr config).Performs e ∨
      (env.rateOk = true ∧ WellFormed config req ∧ CleanHead req) ∧
        ((bufferBody lib config (getRealIp req.headers remoteAddr) req).Performs e ∨
        PayloadPasses lib config req ∧
          (Future.timeout (fromSecs config.timeout.cBodyTimeout)
            (dispatch lib env config (getRealIp req.headers remoteAddr) (buffered req)) >>=
              conclude (getRealIp req.headers remoteAddr)).Performs e) := by
  unfold httpsProxy
  rw [Future.performs_bind]
  refine or_congr_right ?_
  have hverify : (verifyRequest env req remoteAddr config).Returns (.ok ()) ↔
      env.rateOk = true ∧ WellFormed config req ∧ CleanHead req :=
    returns_verifyRequest_ok.trans verdict_eq_none_iff
  rw [← hverify]
  constructor
  · rintro ⟨verified, hverified, h⟩
    cases verified with
    | error _ => exact absurd h Future.performs_pure.mp
    | ok _ =>
      refine ⟨hverified, ?_⟩
      rcases Future.performs_bind.mp h with h | ⟨r, hr, h⟩
      · exact .inl h
      · cases r with
        | error _ => exact absurd h Future.performs_pure.mp
        | ok q =>
          obtain ⟨hpasses, rfl⟩ := returns_bufferBody_iff.mp hr
          exact .inr ⟨hpasses, h⟩
  · rintro ⟨hverified, h⟩
    refine ⟨_, hverified, Future.performs_bind.mpr ?_⟩
    rcases h with h | ⟨hpasses, h⟩
    · exact .inl h
    · exact .inr ⟨_, returns_bufferBody_iff.mpr ⟨hpasses, rfl⟩, h⟩

/-- **What an upstream gets to see.** A request is sent if and only if the rate limiter admits it,
it is well-formed, its head is clean, and its payload passes; an upstream is selected for it; and
it can go out before the deadline. It is sent there in the form of its mode. -/
theorem sends_iff {addr : Str} {fwd : Request} :
    (httpsProxy lib env config req remoteAddr).Performs (.send addr fwd) ↔
      (env.rateOk = true ∧ WellFormed config req ∧ CleanHead req) ∧ PayloadPasses lib config req ∧
      upstreamOf lib env config req = some addr ∧
      (∃ t ≤ fromSecs config.timeout.cBodyTimeout, GoesOutAt env config req addr t) ∧
      fwd = forwarded lib (buffered req) addr := by
  have hsame : (buffered req).uri = req.uri ∧ (buffered req).headers = req.headers := by
    unfold buffered
    split <;> exact ⟨rfl, rfl⟩
  have hupstream : upstreamOf lib env config (buffered req) = upstreamOf lib env config req := by
    unfold upstreamOf route getHost
    rw [hsame.1, hsame.2]
  have hout : ∀ {t : ℕ},
      GoesOutAt env config (buffered req) addr t ↔ GoesOutAt env config req addr t := by
    intro t
    unfold GoesOutAt
    rw [isWebsocket_congr hsame.2]
  have hnone : OnSend (fun _ _ => False) (.send addr fwd) → False := id
  have hconclude : ∀ r, ¬ (conclude (getRealIp req.headers remoteAddr) r).Performs
      (.send addr fwd) := by
    intro r h
    match r with
    | some (some _) => exact Future.performs_pure.mp h
    | some none => exact Future.performs_pure.mp h
    | none =>
      obtain ⟨_, -, h, -⟩ := h.of_bind fun h => nomatch Future.performs_emit.mp h
      exact Future.performs_pure.mp h
  rw [performs_httpsProxy, or_iff_right fun h => hnone (sends_verifyRequest _ h)]
  refine and_congr_right fun _ => ?_
  rw [or_iff_right fun h => hnone (sends_bufferBody _ h)]
  refine and_congr_right fun _ => ?_
  rw [Future.performs_bind, or_iff_left fun ⟨r, _, h⟩ => hconclude r h]
  show (∃ t, Future.Does _ t _) ↔ _
  simp only [Future.does_timeout causal_dispatch, does_dispatch, hupstream, hout]
  constructor
  · rintro ⟨t, ⟨haddr, hgoes, hfwd⟩, ht⟩
    exact ⟨haddr, ⟨t, ht, hgoes⟩, hfwd⟩
  · rintro ⟨haddr, ⟨t, ht, hgoes⟩, hfwd⟩
    exact ⟨t, ⟨haddr, hgoes, hfwd⟩, ht⟩

/-! ## Punishments -/

/-- The payload is cut off at the limit, or breaks off. -/
def BrokenPayload (config : Config) (req : Request) : Prop :=
  req.method ∈ bufferedMethods ∧
    (config.limit.maxBodySize < req.body.bytes.length ∨ Ends req.body .error)

/-- The payload is complete, and it is not clean. -/
def SuspiciousPayload (lib : Externals) (config : Config) (req : Request) : Prop :=
  req.method ∈ bufferedMethods ∧ Ends req.body .endOfStream ∧
    req.body.bytes.length ≤ config.limit.maxBodySize ∧
    ¬ CleanPayload lib.unicode req.headers req.body.bytes

/-- What a client is punished for before its payload is read. -/
def HeadOffence (env : Env) (config : Config) (req : Request) : Violation → Prop
  | .rateLimit => env.rateOk = false
  | .protocol => env.rateOk = true ∧ ¬ WellFormed config req
  | .waf => env.rateOk = true ∧ WellFormed config req ∧ ¬ CleanHead req
  | .timeout => False

/-- What a client is punished for. -/
def Offence (lib : Externals) (env : Env) (config : Config) (ip : IpAddr) (req : Request) :
    Violation → Prop
  | .rateLimit => env.rateOk = false
  | .protocol => env.rateOk = true ∧
    (¬ WellFormed config req ∨ WellFormed config req ∧ CleanHead req ∧ BrokenPayload config req)
  | .waf => env.rateOk = true ∧ WellFormed config req ∧
    (¬ CleanHead req ∨ CleanHead req ∧ SuspiciousPayload lib config req)
  | .timeout => (env.rateOk = true ∧ WellFormed config req ∧ CleanHead req) ∧
    PayloadPasses lib config req ∧
    Future.Exceeds (serviceTime lib env config ip (buffered req))
      (fromSecs config.timeout.cBodyTimeout)

section
variable {ip' : IpAddr} {violation : Violation}

theorem punishes_verifyRequest :
    (verifyRequest env req remoteAddr config).Performs (.punish ip violation) ↔
      ip = getRealIp req.headers remoteAddr ∧
        ∃ status, verdict env config req = some (violation, status) := by
  unfold Future.Performs
  rw [effects_verifyRequest]
  cases verdict env config req with
  | none => simp
  | some v =>
    obtain ⟨violation', status⟩ := v
    simp only [Option.toList_some, List.map_cons, List.map_nil, List.mem_cons, Prod.mk.injEq,
      reduceCtorEq, and_false, List.not_mem_nil, or_false, false_or, Effect.punish.injEq,
      Option.some.injEq]
    constructor
    · rintro ⟨_, -, rfl, rfl⟩
      exact ⟨rfl, status, rfl, rfl⟩
    · rintro ⟨rfl, _, rfl, -⟩
      exact ⟨0, rfl, rfl, rfl⟩

theorem punishes_bufferBody :
    (bufferBody lib config ip req).Performs (.punish ip' violation) ↔ ip' = ip ∧
      (violation = .protocol ∧ BrokenPayload config req ∨
        violation = .waf ∧ SuspiciousPayload lib config req) := by
  have h := payload_outcome lib config ip req
  unfold BrokenPayload SuspiciousPayload
  generalize bufferBody lib config ip req = x at h ⊢
  have hsilent : ∀ {r : Option (ℕ × Except Response Request)},
      ¬ Future.Performs ⟨[], r⟩ (Effect.punish ip' violation) := fun ⟨_, h⟩ => nomatch h
  have hone : ∀ {t : ℕ} {v : Violation} {r : Option (ℕ × Except Response Request)},
      Future.Performs ⟨[(t, Effect.punish ip v)], r⟩ (.punish ip' violation) ↔
        ip' = ip ∧ violation = v := by
    intro t v r
    constructor
    · rintro ⟨_, h⟩
      cases List.mem_singleton.mp h
      exact ⟨rfl, rfl⟩
    · rintro ⟨rfl, rfl⟩
      exact ⟨t, List.mem_singleton.mpr rfl⟩
  have hends : ∀ {b : Body} {e e' : BodyEnd}, Ends b e → Ends b e' → e = e' := by
    rintro b e e' ⟨t, ht⟩ ⟨t', ht'⟩
    cases ht.symm.trans ht'
    rfl
  cases h with
  | streamed hm => simp [hsilent, hm]
  | stalled hm hfinish hle =>
    have hno : ∀ e, ¬ Ends req.body e := fun e ⟨t, ht⟩ => nomatch hfinish.symm.trans ht
    simp [hsilent, hno, Nat.not_lt.mpr hle]
  | broken t hm hbroken _ =>
    rw [hone]
    refine and_congr_right fun _ => ⟨fun hv => .inl ⟨hv, hm, hbroken⟩, fun h => ?_⟩
    rcases h with ⟨hv, -⟩ | ⟨-, -, hend, hle, -⟩
    · exact hv
    · rcases hbroken with hlong | herror
      · exact absurd hlong (Nat.not_lt.mpr hle)
      · cases hends hend herror
  | suspicious t hm hend hle _ hclean =>
    rw [hone]
    refine and_congr_right fun _ => ⟨fun hv => .inr ⟨hv, hm, hend, hle, hclean⟩, fun h => ?_⟩
    rcases h with ⟨-, -, hlong | herror⟩ | ⟨hv, -⟩
    · exact absurd hlong (Nat.not_lt.mpr hle)
    · cases hends hend herror
    · exact hv
  | passed t hm hend hle _ hclean =>
    refine ⟨fun h => absurd h hsilent, ?_⟩
    rintro ⟨-, ⟨-, -, hlong | herror⟩ | ⟨-, -, -, -, hdirty⟩⟩
    · exact absurd hlong (Nat.not_lt.mpr hle)
    · cases hends hend herror
    · exact absurd hclean hdirty

theorem punishes_concluded {d : ℕ} :
    ((dispatch lib env config ip req).timeout d >>= conclude ip).Performs
      (.punish ip' violation) ↔ ip' = ip ∧ violation = .timeout ∧
        Future.Exceeds (serviceTime lib env config ip req) d := by
  have hcharge : ((dispatch lib env config ip req).timeout d >>= conclude ip).Performs
      (.punish ip' violation) ↔ .punish ip' violation ∈
        ((dispatch lib env config ip req).timeout d >>= conclude ip).doing Effect.charges :=
    ⟨fun h => Future.mem_doing.mpr ⟨h, rfl⟩, fun h => (Future.mem_doing.mp h).1⟩
  rw [hcharge, charges_concluded, time_dispatch]
  split
  · rename_i hlate
    rw [List.mem_singleton, Effect.punish.injEq]
    exact ⟨fun h => ⟨h.1, h.2, hlate⟩, fun h => ⟨h.1, h.2.1⟩⟩
  · rename_i hmet
    exact ⟨fun h => (nomatch h), fun h => absurd h.2.2 hmet⟩

theorem punishes_httpProxy : (httpProxy env config req remoteAddr).Performs
    (.punish ip violation) ↔ ip = getRealIp req.headers remoteAddr ∧
      HeadOffence env config req violation := by
  have hquiet : (httpProxy env config req remoteAddr).Performs (.punish ip violation) ↔
      (verifyRequest env req remoteAddr config).Performs (.punish ip violation) := by
    unfold httpProxy
    rw [Future.performs_bind, or_iff_left]
    rintro ⟨verified, -, h⟩
    split at h
    · exact Future.performs_pure.mp h
    · simp only at h
      split at h <;> exact Future.performs_pure.mp h
  rw [hquiet, punishes_verifyRequest]
  have h := verdict_outcome env config req
  generalize verdict env config req = v at h
  unfold HeadOffence
  cases h with
  | limited hrate => cases violation <;> simp [hrate]
  | malformed status hrate hformed => cases violation <;> simp [hrate, hformed]
  | suspicious hrate hformed hclean => cases violation <;> simp [hrate, hformed, hclean]
  | passed hrate hformed hclean => cases violation <;> simp [hrate, hformed, hclean]

theorem punishes_httpsProxy : (httpsProxy lib env config req remoteAddr).Performs
    (.punish ip violation) ↔ ip = getRealIp req.headers remoteAddr ∧
      Offence lib env config (getRealIp req.headers remoteAddr) req violation := by
  rw [performs_httpsProxy, punishes_verifyRequest, punishes_bufferBody, punishes_concluded]
  have h := verdict_outcome env config req
  generalize hv : verdict env config req = v at h
  unfold Offence
  cases h with
  | limited hrate => cases violation <;> simp [hrate]
  | malformed status hrate hformed => cases violation <;> simp [hrate, hformed]
  | suspicious hrate hformed hclean => cases violation <;> simp [hrate, hformed, hclean]
  | passed hrate hformed hclean =>
    cases violation with
    | timeout => simp [hrate, hformed, hclean, and_left_comm]
    | _ => simp [hrate, hformed, hclean]

end

end Proxy

namespace Server

/-- What a client is punished for on a listener. -/
def Commits (lib : Externals) (env : Env) (config : Config) (ip : IpAddr) (req : Request) :
    Listener → Violation → Prop
  | .http, violation => Proxy.HeadOffence env config req violation
  | .https, violation => Proxy.Offence lib env config ip req violation

/-- **Who is punished, and for what.** On both listeners exactly the address that `get_real_ip`
gives is punished, and exactly for the offence of the request. -/
theorem punished_iff {lib : Externals} {env : Env} {config : Config} {listener : Listener}
    {req : Request} {remoteAddr : SocketAddr} {ip : IpAddr} {violation : Violation} :
    (handler lib env config listener req remoteAddr).Performs (.punish ip violation) ↔
      ip = Proxy.getRealIp req.headers remoteAddr ∧
        Commits lib env config (Proxy.getRealIp req.headers remoteAddr) req listener violation := by
  cases listener with
  | http => exact Proxy.punishes_httpProxy
  | https => exact Proxy.punishes_httpsProxy

end Server

end OxidizedWall
