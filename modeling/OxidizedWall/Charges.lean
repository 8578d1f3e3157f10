import OxidizedWall.Response
import OxidizedWall.Server

/-!
# Who is charged

A handler asks the rate limiter once, and punishes at most once: `charges_httpsProxy` follows the
exits of the pipeline. Both times it names the address that `get_real_ip` gives for its request,
so `charged_once` leaves the records of all others alone.
-/

namespace OxidizedWall

/-- The acts on the managers of clients. -/
def Effect.charges : Effect → Bool
  | .rateCheck _ => true
  | .punish _ _ => true
  | _ => false

/-- An act that charges nobody but `ip`. -/
def Effect.ChargesOnly (ip : IpAddr) : Effect → Prop
  | .rateCheck ip' => ip' = ip
  | .punish ip' _ => ip' = ip
  | _ => True

theorem Effect.chargesOnly_of_charges {ip : IpAddr} {e : Effect}
    (h : e.charges = true → e = .rateCheck ip ∨ ∃ violation, e = .punish ip violation) :
    e.ChargesOnly ip := by
  cases e with
  | rateCheck _ =>
    rcases h rfl with h | ⟨_, h⟩
    · cases h
      rfl
    · cases h
  | punish _ _ =>
    rcases h rfl with h | ⟨_, h⟩
    · cases h
    · cases h
      rfl
  | _ => trivial

namespace Proxy

variable {lib : Externals} {env : Env} {config : Config} {req : Request} {remoteAddr : SocketAddr}
  {ip : IpAddr}

/-! ## The exits of a handler -/

theorem charges_verifyRequest : (verifyRequest env req remoteAddr config).doing Effect.charges =
    .rateCheck (getRealIp req.headers remoteAddr) :: (verdict env config req).toList.map
      fun v => .punish (getRealIp req.headers remoteAddr) v.1 := by
  unfold Future.doing
  rw [effects_verifyRequest]
  cases verdict env config req <;> rfl

/-- Buffering punishes a client once, and only if it fails. -/
theorem charges_bufferBody (lib : Externals) (config : Config) (ip : IpAddr) (req : Request) :
    ∃ v : Option Violation,
    (bufferBody lib config ip req).doing Effect.charges = v.toList.map (.punish ip) ∧
      ((∀ res, ¬ (bufferBody lib config ip req).Returns (.error res)) → v = none) := by
  have h := bufferBody_outcome lib config ip req
  generalize bufferBody lib config ip req = x at h ⊢
  cases h with
  | stalled _ _ => exact ⟨none, rfl, fun _ => rfl⟩
  | passed _ _ _ => exact ⟨none, rfl, fun _ => rfl⟩
  | refused t violation _ => exact ⟨some violation, rfl, fun h => absurd ⟨t, rfl⟩ (h _)⟩

/-- Forwarding judges nobody. -/
theorem charges_dispatch (d : ℕ) :
    ((dispatch lib env config ip req).timeout d).doing Effect.charges = [] := by
  apply Future.Acts.doing_eq_nil
  intro e he
  have hforward := Future.Acts.timeout acts_dispatch d e he
  cases e with
  | rateCheck _ => exact hforward.elim
  | punish _ _ => exact hforward.elim
  | _ => rfl

theorem charges_conclude (r : Option (Option (Except HyperError Response))) :
    (conclude ip r).doing Effect.charges = if r = none then [.punish ip .timeout] else [] := by
  match r with
  | some (some _) => rfl
  | some none => rfl
  | none => rfl

/-- After buffering, only the deadline punishes. -/
theorem charges_concluded (d : ℕ) :
    ((dispatch lib env config ip req).timeout d >>= conclude ip).doing Effect.charges =
      if Future.Exceeds (dispatch lib env config ip req).time d then [.punish ip .timeout]
      else [] := by
  obtain ⟨r, hr⟩ := Future.exists_returns_timeout (dispatch lib env config ip req) d
  rw [Future.doing_bind hr, charges_dispatch, charges_conclude, List.nil_append]
  by_cases hnone : r = none
  · subst hnone
    rw [if_pos rfl, if_pos (Future.returns_timeout_none.mp hr)]
  · rw [if_neg hnone, if_neg fun h => hnone (hr.unique (Future.returns_timeout_none.mpr h))]

/-- The rest of `https_proxy`, after verification. -/
theorem charges_verified (hverdict : verdict env config req = none) :
    (httpsProxy lib env config req remoteAddr).doing Effect.charges =
      .rateCheck (getRealIp req.headers remoteAddr) ::
        ((bufferBody lib config (getRealIp req.headers remoteAddr) req).doing Effect.charges ++
          match (bufferBody lib config (getRealIp req.headers remoteAddr) req).result with
          | some (_, .ok q) =>
            if Future.Exceeds (dispatch lib env config (getRealIp req.headers remoteAddr) q).time
                (fromSecs config.timeout.cBodyTimeout) then
              [.punish (getRealIp req.headers remoteAddr) .timeout]
            else []
          | _ => []) := by
  have hverify : (verifyRequest env req remoteAddr config).Returns (.ok ()) :=
    returns_verifyRequest_ok.mpr hverdict
  unfold httpsProxy
  rw [Future.doing_bind hverify, charges_verifyRequest, hverdict]
  simp only [Option.toList_none, List.map_nil, List.cons_append, List.nil_append]
  congr 1
  cases hbuffer : (bufferBody lib config (getRealIp req.headers remoteAddr) req).result with
  | none => rw [Future.doing_bind_of_stalled hbuffer, List.append_nil]
  | some r =>
    obtain ⟨t, r⟩ := r
    rw [Future.doing_bind ⟨t, hbuffer⟩]
    cases r with
    | error _ => rfl
    | ok q => exact congrArg _ (charges_concluded _)

/-- One check, and at most one punishment: none if the request is verified and buffered, and its
dispatch meets the deadline. -/
theorem charges_httpsProxy (lib : Externals) (env : Env) (config : Config) (req : Request)
    (remoteAddr : SocketAddr) : ∃ v : Option Violation,
    (httpsProxy lib env config req remoteAddr).doing Effect.charges =
      .rateCheck (getRealIp req.headers remoteAddr) ::
        v.toList.map (.punish (getRealIp req.headers remoteAddr)) ∧
      ∀ q, verdict env config req = none →
        (bufferBody lib config (getRealIp req.headers remoteAddr) req).Returns (.ok q) →
        ¬ Future.Exceeds (dispatch lib env config (getRealIp req.headers remoteAddr) q).time
          (fromSecs config.timeout.cBodyTimeout) → v = none := by
  cases hverdict : verdict env config req with
  | some v =>
    refine ⟨some v.1, ?_, fun _ h => nomatch h⟩
    have hverify : (verifyRequest env req remoteAddr config).Returns
        (.error (errorResponse v.2)) :=
      ⟨0, by rw [result_verifyRequest, hverdict]; rfl⟩
    unfold httpsProxy
    rw [Future.doing_bind hverify, charges_verifyRequest, hverdict]
    rfl
  | none =>
    rw [charges_verified hverdict]
    obtain ⟨v, hv, hok⟩ := charges_bufferBody lib config
      (getRealIp req.headers remoteAddr) req
    rw [hv]
    cases hbuffer : (bufferBody lib config (getRealIp req.headers remoteAddr) req).result with
    | none =>
      refine ⟨v, congrArg _ (List.append_nil _), fun q _ ⟨t, h⟩ => ?_⟩
      cases hbuffer.symm.trans h
    | some r =>
      obtain ⟨t, r⟩ := r
      cases r with
      | error _ =>
        refine ⟨v, congrArg _ (List.append_nil _), fun q _ ⟨t, h⟩ => ?_⟩
        cases hbuffer.symm.trans h
      | ok q =>
        obtain rfl := hok fun _ h => nomatch h.unique ⟨t, hbuffer⟩
        simp only
        split
        · rename_i hlate
          refine ⟨some .timeout, rfl, fun q' _ ⟨t', h⟩ hmet => ?_⟩
          cases hbuffer.symm.trans h
          exact absurd hlate hmet
        · exact ⟨none, rfl, fun _ _ _ _ => rfl⟩

theorem charges_httpProxy : (httpProxy env config req remoteAddr).doing Effect.charges =
    .rateCheck (getRealIp req.headers remoteAddr) :: (verdict env config req).toList.map
      fun v => .punish (getRealIp req.headers remoteAddr) v.1 := by
  unfold httpProxy
  rw [Future.doing_bind ⟨0, result_verifyRequest⟩, charges_verifyRequest]
  cases verdict env config req with
  | some v => rfl
  | none =>
    simp only [Option.elim_none]
    split <;> rfl

end Proxy

/-! ## The managers -/

/-- The managers that keep records of clients. -/
structure Managers where
  banManager : BanManager
  rateLimiter : RateLimiter

/-- Every record about another address is as it was. -/
structure OnlyClient (ip : IpAddr) (m m' : Managers) : Prop where
  bans : ∀ ip', ip' ≠ ip → m'.banManager.bannedIps.get ip' = m.banManager.bannedIps.get ip'
  rates : ∀ ip', ip' ≠ ip → m'.rateLimiter.records.get ip' = m.rateLimiter.records.get ip'

theorem OnlyClient.refl (ip : IpAddr) (m : Managers) : OnlyClient ip m m :=
  ⟨fun _ _ => rfl, fun _ _ => rfl⟩

theorem OnlyClient.trans {ip : IpAddr} {m m' m'' : Managers} (h : OnlyClient ip m m')
    (h' : OnlyClient ip m' m'') : OnlyClient ip m m'' :=
  ⟨fun ip' hne => (h'.bans ip' hne).trans (h.bans ip' hne),
    fun ip' hne => (h'.rates ip' hne).trans (h.rates ip' hne)⟩

namespace Managers

/-- What an act of a handler does to them, at the time `now`. -/
def act (config : Config) (m : Managers) (now : ℕ) : Effect → Managers
  | .rateCheck ip => { m with rateLimiter := (m.rateLimiter.check now ip config.limit.maxRps).2 }
  | .punish ip violation =>
    { m with banManager := ((BanManager.punish ip violation config.ban).run
        (BanManager.handle now) m.banManager).2 }
  | _ => m

/-- The managers after the acts of a handler that began at `now`. -/
def after (config : Config) (m : Managers) (now : ℕ) (effects : List (ℕ × Effect)) : Managers :=
  effects.foldl (fun m e => m.act config (now + e.1) e.2) m

variable {config : Config} {m : Managers} {now : ℕ} {ip : IpAddr} {effects : List (ℕ × Effect)}

theorem onlyClient_act {e : Effect} (h : e.ChargesOnly ip) :
    OnlyClient ip m (m.act config now e) := by
  cases e with
  | rateCheck _ =>
    obtain rfl := h
    exact ⟨fun _ _ => rfl, fun _ hne => RateLimiter.get_check_of_ne hne⟩
  | punish _ violation =>
    obtain rfl := h
    exact ⟨fun _ hne => BanManager.get_punish_of_ne hne, fun _ _ => rfl⟩
  | _ => exact .refl ip m

/-- Acts that charge nobody but `ip` leave the records of all others alone. -/
theorem onlyClient_after (h : ∀ e ∈ effects, e.2.ChargesOnly ip) :
    OnlyClient ip m (m.after config now effects) := by
  induction effects generalizing m with
  | nil => exact .refl ip m
  | cons e es ih =>
    exact (onlyClient_act (h e List.mem_cons_self)).trans
      (ih fun e' he' => h e' (List.mem_cons_of_mem _ he'))

theorem banManager_act {e : Effect} (h : ∀ ip violation, e ≠ .punish ip violation) :
    (m.act config now e).banManager = m.banManager := by
  cases e with
  | punish ip violation => exact absurd rfl (h ip violation)
  | _ => rfl

/-- Without punishments nobody is banned. -/
theorem banManager_after (h : ∀ e ∈ effects, ∀ ip violation, e.2 ≠ .punish ip violation) :
    (m.after config now effects).banManager = m.banManager := by
  induction effects generalizing m with
  | nil => rfl
  | cons e es ih =>
    exact (ih fun e' he' => h e' (List.mem_cons_of_mem _ he')).trans
      (banManager_act (h e List.mem_cons_self))

end Managers

/-! ## One client -/

/-- The request is answered with `res`, which was made of an upstream's response `up`: it was
verified, buffered and sent, `up` came within `s_response`, and `res` within `c_body_timeout`. -/
def AnsweredWith (lib : Externals) (env : Env) (config : Config) (req : Request)
    (remoteAddr : SocketAddr) (up res : Response) : Listener → Prop
  | .http => False
  | .https =>
    let ip := Proxy.getRealIp req.headers remoteAddr
    ∃ q addr d t, (Proxy.verifyRequest env req remoteAddr config).Returns (.ok ()) ∧
      (Proxy.bufferBody lib config ip req).Returns (.ok q) ∧
      (Proxy.dispatch lib env config ip q).Performs (.send addr (Proxy.forwarded lib q addr)) ∧
      Proxy.answerTo env q addr (Proxy.forwarded lib q addr) = some (d, .ok up) ∧
      d ≤ fromSecs config.timeout.sResponse ∧
      (Proxy.dispatch lib env config ip q).result = some (t, some (.ok res)) ∧
      t ≤ fromSecs config.timeout.cBodyTimeout

section
variable {lib : Externals} {env : Env} {config : Config} {req : Request}
  {remoteAddr : SocketAddr} {listener : Listener}

theorem AnsweredWith.returns {up res : Response}
    (h : AnsweredWith lib env config req remoteAddr up res listener) :
    (Server.handler lib env config listener req remoteAddr).Returns (.ok res) := by
  cases listener with
  | http => exact h.elim
  | https =>
    obtain ⟨q, addr, d, t, hverify, hbuffer, -, -, -, hresult, ht⟩ := h
    show (Proxy.httpsProxy lib env config req remoteAddr).Returns _
    unfold Proxy.httpsProxy
    rw [(Future.goesOn_bind hverify).returns]
    simp only
    rw [(Future.goesOn_bind hbuffer).returns]
    simp only
    rw [(Future.goesOn_bind (Future.returns_timeout_some.mpr ⟨t, ht, hresult⟩)).returns]
    exact Future.returns_pure.mpr rfl

theorem AnsweredWith.made {up res : Response}
    (h : AnsweredWith lib env config req remoteAddr up res listener) :
    (Proxy.finishAnswer lib env config req (Proxy.getRealIp req.headers remoteAddr) up).Returns
      res := by
  cases listener with
  | http => exact h.elim
  | https =>
    obtain ⟨q, addr, d, t, -, hbuffer, hsend, hup, hd, hresult, -⟩ := h
    obtain ⟨_, hmade, heq⟩ := (Proxy.returns_dispatch hsend hup hd).mp ⟨t, hresult⟩
    cases heq
    unfold Proxy.finishAnswer at hmade ⊢
    rwa [Proxy.isWebsocket_congr (Proxy.buffered_of_returns hbuffer).same.2.2.1] at hmade

/-- The charges of either service. -/
theorem charges_handler (lib : Externals) (env : Env) (config : Config) (listener : Listener)
    (req : Request) (remoteAddr : SocketAddr) : ∃ v : Option Violation,
    (Server.handler lib env config listener req remoteAddr).doing Effect.charges =
      .rateCheck (Proxy.getRealIp req.headers remoteAddr) ::
        v.toList.map (.punish (Proxy.getRealIp req.headers remoteAddr)) ∧
      ∀ up res, AnsweredWith lib env config req remoteAddr up res listener → v = none := by
  cases listener with
  | http =>
    refine ⟨(Proxy.verdict env config req).map Prod.fst, ?_, fun _ _ h => h.elim⟩
    rw [Server.handler, Proxy.charges_httpProxy]
    cases Proxy.verdict env config req <;> rfl
  | https =>
    obtain ⟨v, hv, hnone⟩ := Proxy.charges_httpsProxy lib env config req remoteAddr
    refine ⟨v, hv, ?_⟩
    rintro up res ⟨q, addr, d, t, hverify, hbuffer, -, -, -, hresult, ht⟩
    refine hnone q (Proxy.returns_verifyRequest_ok.mp hverify) hbuffer fun h => ?_
    exact absurd (h t (congrArg (Option.map Prod.fst) hresult)) (Nat.not_lt.mpr ht)

/-- **One request, one client.** A handler asks the rate limiter once and punishes at most once,
under the address that `get_real_ip` gives; the records of other addresses stay as they are, and
so do all bans if the request is answered with an upstream's response. -/
theorem charged_once (lib : Externals) (env : Env) (config : Config) (listener : Listener)
    (req : Request) (remoteAddr : SocketAddr) :
    (∃ v : Option Violation,
      (Server.handler lib env config listener req remoteAddr).doing Effect.charges =
        .rateCheck (Proxy.getRealIp req.headers remoteAddr) ::
          v.toList.map (.punish (Proxy.getRealIp req.headers remoteAddr))) ∧
    (∀ (m : Managers) (now : ℕ), OnlyClient (Proxy.getRealIp req.headers remoteAddr) m
      (m.after config now (Server.handler lib env config listener req remoteAddr).effects)) ∧
    ∀ up res, AnsweredWith lib env config req remoteAddr up res listener →
      (Server.handler lib env config listener req remoteAddr).Returns (.ok res) ∧
      (Proxy.finishAnswer lib env config req (Proxy.getRealIp req.headers remoteAddr) up).Returns
        res ∧
      ∀ (m : Managers) (now : ℕ), (m.after config now
        (Server.handler lib env config listener req remoteAddr).effects).banManager =
          m.banManager := by
  obtain ⟨v, hv, hnone⟩ := charges_handler lib env config listener req remoteAddr
  have hmem : ∀ e ∈ (Server.handler lib env config listener req remoteAddr).effects,
      e.2.charges = true → e.2 = .rateCheck (Proxy.getRealIp req.headers remoteAddr) ∨
        ∃ violation, v = some violation ∧
          e.2 = .punish (Proxy.getRealIp req.headers remoteAddr) violation := by
    intro e he hcharges
    have hdoing := Future.mem_doing.mpr ⟨⟨e.1, he⟩, hcharges⟩
    rw [hv] at hdoing
    rcases List.mem_cons.mp hdoing with h | h
    · exact .inl h
    · obtain ⟨violation, hviolation, heq⟩ := List.mem_map.mp h
      exact .inr ⟨violation, Option.mem_toList.mp hviolation, heq.symm⟩
  refine ⟨⟨v, hv⟩, fun m now => Managers.onlyClient_after fun e he => ?_,
    fun up res h => ⟨h.returns, h.made, fun m now => ?_⟩⟩
  · apply Effect.chargesOnly_of_charges
    intro hcharges
    exact (hmem e he hcharges).imp_right fun ⟨violation, _, heq⟩ => ⟨violation, heq⟩
  · apply Managers.banManager_after
    intro e he ip violation heq
    rcases hmem e he (heq ▸ rfl) with h' | ⟨_, hsome, -⟩
    · cases heq.symm.trans h'
    · cases (hnone up res h).symm.trans hsome

end

end OxidizedWall
