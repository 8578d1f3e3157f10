import OxidizedWall.Proxy

/-!
# Verification (`proxy.rs`)

`verify_request` asks the rate limiter, and answers at once. `verdict` is the first of its checks
that fails.
-/

namespace OxidizedWall.Proxy

variable {env : Env} {config : Config} {req : Request} {remoteAddr : SocketAddr}

/-- The violation that `verify_request` finds, and the status it answers with. -/
def verdict (env : Env) (config : Config) (req : Request) : Option (Violation × StatusCode) :=
  if !env.rateOk then some (.rateLimit, .TOO_MANY_REQUESTS)
  else match checkProtocol req with
  | .error _ => some (.protocol, .BAD_REQUEST)
  | .ok _ =>
    if req.headers.len > config.limit.maxHeaderCount then some (.protocol, .BAD_REQUEST)
    else if uriLen req.uri > config.limit.maxUriSize then some (.protocol, .URI_TOO_LONG)
    else if req.method ∉ allowedMethods then some (.protocol, .METHOD_NOT_ALLOWED)
    else match Waf.header req.uri req.method req.headers with
    | .error _ => some (.waf, .FORBIDDEN)
    | .ok _ => none

/-- Verification is one question to the rate limiter, and the verdict. -/
theorem verifyRequest_eq : verifyRequest env req remoteAddr config =
    checkRate env (getRealIp req.headers remoteAddr) >>= fun _ =>
      match verdict env config req with
      | some (violation, status) => reject (getRealIp req.headers remoteAddr) violation status
      | none => return .ok () := by
  have hrate : ∀ f : Bool → Handler (Except Response Unit),
      checkRate env (getRealIp req.headers remoteAddr) >>= f =
        checkRate env (getRealIp req.headers remoteAddr) >>= fun _ => f env.rateOk := fun _ => rfl
  unfold verifyRequest verdict
  simp only
  rw [hrate]
  congr 1
  funext _
  by_cases hok : (!env.rateOk) = true
  · rw [if_pos hok, if_pos hok]
  · rw [if_neg hok, if_neg hok]
    cases checkProtocol req with
    | error _ => rfl
    | ok _ =>
      simp only
      by_cases hcount : req.headers.len > config.limit.maxHeaderCount
      · rw [if_pos hcount, if_pos hcount]
      · rw [if_neg hcount, if_neg hcount]
        by_cases hsize : uriLen req.uri > config.limit.maxUriSize
        · rw [if_pos hsize, if_pos hsize]
        · rw [if_neg hsize, if_neg hsize]
          by_cases hmethod : req.method ∉ allowedMethods
          · rw [if_pos hmethod, if_pos hmethod]
          · rw [if_neg hmethod, if_neg hmethod]
            cases Waf.header req.uri req.method req.headers <;> rfl

theorem effects_verifyRequest : (verifyRequest env req remoteAddr config).effects =
    (0, .rateCheck (getRealIp req.headers remoteAddr)) :: (verdict env config req).toList.map
      fun v => (0, .punish (getRealIp req.headers remoteAddr) v.1) := by
  rw [verifyRequest_eq]
  cases verdict env config req <;> rfl

theorem result_verifyRequest : (verifyRequest env req remoteAddr config).result =
    some (0, (verdict env config req).elim (.ok ()) fun v => .error (errorResponse v.2)) := by
  rw [verifyRequest_eq]
  cases verdict env config req <;> rfl

theorem returns_verifyRequest_ok :
    (verifyRequest env req remoteAddr config).Returns (.ok ()) ↔ verdict env config req = none := by
  unfold Future.Returns
  rw [result_verifyRequest]
  cases verdict env config req with
  | none => exact ⟨fun _ => rfl, fun _ => ⟨0, rfl⟩⟩
  | some v =>
    constructor
    · rintro ⟨_, h⟩
      cases h
    · exact fun h => nomatch h

/-- What `verify_request` has checked of a request that it lets through. -/
structure Verified (env : Env) (config : Config) (req : Request) : Prop where
  rate : env.rateOk = true
  protocol : checkProtocol req = .ok ()
  headerCount : req.headers.len ≤ config.limit.maxHeaderCount
  uriSize : uriLen req.uri ≤ config.limit.maxUriSize
  method : req.method ∈ allowedMethods
  waf : Waf.header req.uri req.method req.headers = .ok ()

theorem verdict_eq_none : verdict env config req = none ↔ Verified env config req := by
  unfold verdict
  constructor
  · intro h
    split at h
    · cases h
    rename_i hrate
    split at h
    · cases h
    rename_i hprotocol
    split at h
    · cases h
    rename_i hcount
    split at h
    · cases h
    rename_i hsize
    split at h
    · cases h
    rename_i hmethod
    split at h
    · cases h
    rename_i hwaf
    exact ⟨by simpa using hrate, hprotocol, Nat.not_lt.mp hcount, Nat.not_lt.mp hsize,
      not_not.mp hmethod, hwaf⟩
  · intro h
    rw [h.rate, Bool.not_true, if_neg Bool.false_ne_true, h.protocol]
    simp only
    rw [if_neg (Nat.not_lt.mpr h.headerCount), if_neg (Nat.not_lt.mpr h.uriSize),
      if_neg (not_not.mpr h.method), h.waf]

end OxidizedWall.Proxy
