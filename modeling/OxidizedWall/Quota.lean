import OxidizedWall.Firewall

/-!
# The quota of a client

The bound of the rate limiter, for the server as a whole: however its listeners, connections and
handlers are interleaved, an upstream gets a request at most once, and only if the limiter admitted
it when it came. So `forwards_bound` bounds the requests of a client that come in an interval and
are ever forwarded.
-/

namespace OxidizedWall

/-- The requests that a handler sends. -/
def Effect.isSend : Effect → Bool
  | .send _ _ => true
  | _ => false

theorem Effect.isSend_of_onSend {e : Effect} (h : Proxy.OnSend (fun _ _ => False) e) :
    e.isSend = false := by
  cases e with
  | send _ _ => exact h.elim
  | _ => rfl

/-! ## One handler -/

namespace Proxy

variable {lib : Externals} {env : Env} {config : Config} {req : Request} {remoteAddr : SocketAddr}
  {ip : IpAddr}

theorem silent {α : Type} {x : Handler α} (h : x.Acts (OnSend fun _ _ => False)) :
    x.Acts fun e => e.isSend = false := h.mono fun _ => Effect.isSend_of_onSend

theorem sendsOnce_answer {fwd : Request} {addr : Str} {limit : ℕ}
    {answer : Option (ℕ × Except HyperError Response)} {finish : Response → Handler Response}
    (hfinish : ∀ up, (finish up).Acts (OnSend fun _ _ => False)) :
    (do
      Future.emit (.send addr fwd)
      match ← Future.timeout limit (Future.wait answer) with
      | some (.ok res) => return .ok (← finish res)
      | _ => return .ok (errorResponse .GATEWAY_TIMEOUT) :
        Handler (Except HyperError Response)).AtMost Effect.isSend 1 := by
  refine .before_silent (.emit _) fun _ => silent (.bind (.timeout (.wait _) _) fun r => ?_)
  split
  · exact .bind (hfinish _) fun _ => .pure _
  · exact .pure _

theorem sendsOnce_forward {addr : Str} :
    (forward lib env config ip req addr).AtMost Effect.isSend 1 := by
  unfold forward
  simp only
  split
  · refine .after_silent (.emit rfl) fun _ => ?_
    refine .after_silent (silent (.timeout (.wait _) _)) fun r => ?_
    split
    · refine .before_silent ?_ fun _ => .pure _
      unfold handleWebsocket
      refine .after_silent (.wait _) fun ok => ?_
      split
      · exact .silent (.pure _)
      · exact sendsOnce_answer fun _ => acts_finishWebsocket.mono OnForward.onSend
    · exact .silent (.pure _)
  · exact .before_silent (sendsOnce_answer fun _ => acts_finishHttp.mono OnForward.onSend)
      fun _ => .pure _

theorem sendsOnce_dispatch : (dispatch lib env config ip req).AtMost Effect.isSend 1 := by
  unfold dispatch
  split
  · exact .silent (.pure _)
  · refine .after_silent (.bind (.emit rfl) fun _ => .pure _) fun r => ?_
    split
    · exact .silent (.pure _)
    · exact sendsOnce_forward

/-- No request is sent twice. -/
theorem sendsOnce_httpsProxy :
    (httpsProxy lib env config req remoteAddr).AtMost Effect.isSend 1 := by
  unfold httpsProxy
  refine .after_silent (silent sends_verifyRequest) fun verified => ?_
  split
  · exact .silent (.pure _)
  · refine .after_silent (silent sends_bufferBody) fun r => ?_
    split
    · exact .silent (.pure _)
    · refine .before_silent (sendsOnce_dispatch.timeout _) fun r => ?_
      unfold conclude
      split
      · exact .pure _
      · exact .pure _
      · exact .bind (.emit rfl) fun _ => .pure _

end Proxy

/-- What a handler sends has passed verification. -/
theorem passes_of_send {lib : Externals} {env : Env} {config : Config} {listener : Listener}
    {req : Request} {remoteAddr : SocketAddr} {addr : Str} {fwd : Request}
    (h : (Server.handler lib env config listener req remoteAddr).Performs (.send addr fwd)) :
    Server.passes (Proxy.verifyRequest env req remoteAddr config) = true := by
  have hnone : Proxy.verdict env config req = none := by
    cases listener with
    | http =>
      have hnone : (Proxy.httpProxy env config req remoteAddr).Acts
          (Proxy.OnSend fun _ _ => False) := by
        refine .bind Proxy.sends_verifyRequest fun verified => ?_
        split
        · exact .pure _
        · simp only
          split <;> exact .pure _
      exact (hnone _ h).elim
    | https => exact Proxy.verdict_eq_none.mpr (Proxy.verified_of_send h)
  unfold Server.passes
  rw [Proxy.result_verifyRequest, hnone]
  rfl

/-- A handler sends at most once. -/
theorem sendsOnce_handler {lib : Externals} {env : Env} {config : Config} {listener : Listener}
    {req : Request} {remoteAddr : SocketAddr} :
    (Server.handler lib env config listener req remoteAddr).AtMost Effect.isSend 1 := by
  cases listener with
  | http =>
    refine .after_silent (Proxy.silent Proxy.sends_verifyRequest) fun verified => ?_
    split
    · exact .silent (.pure _)
    · simp only
      split <;> exact .silent (.pure _)
  | https => exact Proxy.sendsOnce_httpsProxy

/-! ## The steps of the server -/

/-- A request that is being handled: its handler, when it came, and its client. -/
structure Handled where
  task : ℕ
  start : ℕ
  client : IpAddr
  deriving DecidableEq

namespace Server

/-- The call of the rate limiter that a step makes. -/
def rateEvent (s : Server) : ServerEvent → Option RateEvent
  | .request i c req _ =>
    match s.conns.get c, s.tasks.get i with
    | some conn, none => some (.check (Proxy.getRealIp req.headers conn.remoteAddr))
    | _, _ => none
  | .rateCleanup => some .cleanup
  | _ => none

/-- The request that passes its verification in a step. -/
def admits (lib : Externals) (config : Config) (s : Server) (now : ℕ) : ServerEvent → List Handled
  | .request i c req env => (request lib config s now i c req env).2.filterMap fun
    | .processed _ ip true => some ⟨i, now, ip⟩
    | _ => none
  | _ => []

/-- The request that goes to an upstream in a step. -/
def forwardsNow (s : Server) (now : ℕ) : ServerEvent → List Handled
  | .act i =>
    match s.tasks.get i with
    | some ⟨_, client, start, (t, .send _ _) :: _⟩ =>
      if start + t ≤ now then [⟨i, start, client⟩] else []
    | _ => []
  | _ => []

/-- What `f` says about the steps of a run, in their order. -/
def tell {α : Type} (lib : Externals) (config : Config) (f : Server → ℕ → ServerEvent → List α) :
    Server → List (ℕ × ServerEvent) → List α
  | _, [] => []
  | s, (now, e) :: evs =>
    match s.step lib config now e with
    | some (s', _) => f s now e ++ tell lib config f s' evs
    | none => []

/-- The calls of the rate limiter in a run. -/
def rateCalls (lib : Externals) (config : Config) : Server → List (ℕ × ServerEvent) →
    List (ℕ × RateEvent) :=
  tell lib config fun s now e => (s.rateEvent e).toList.map fun r => (now, r)

/-- The requests that pass their verification in a run. -/
def admitted (lib : Externals) (config : Config) : Server → List (ℕ × ServerEvent) → List Handled :=
  tell lib config (admits lib config)

/-- The requests that go to an upstream in a run. -/
def forwards (lib : Externals) (config : Config) : Server → List (ℕ × ServerEvent) → List Handled :=
  tell lib config forwardsNow

variable {lib : Externals} {config : Config} {s s' : Server} {now : ℕ} {e : ServerEvent}
  {marks : List Mark} {evs : List (ℕ × ServerEvent)}

/-- What a step does to the handlers and to the rate limiter. -/
inductive Stepped (lib : Externals) (config : Config) (s : Server) (now : ℕ) :
    ServerEvent → Server → Prop
  | quiet {e : ServerEvent} {s' : Server} : s'.tasks = s.tasks → s'.rateLimiter = s.rateLimiter →
    s.rateEvent e = none → admits lib config s now e = [] → s.forwardsNow now e = [] →
    Stepped lib config s now e s'
  | cleaned {s' : Server} : s'.tasks = s.tasks →
    s'.rateLimiter = s.rateLimiter.cleanup now → Stepped lib config s now .rateCleanup s'
  | began {i c : ℕ} {req : Request} {env : Env} {conn : Conn} {s' : Server} :
    s.conns.get c = some conn → s.tasks.get i = none →
    s'.tasks = s.tasks.insert i ⟨c, Proxy.getRealIp req.headers conn.remoteAddr, now,
      (handler lib { env with rateOk := (s.rateLimiter.check now
        (Proxy.getRealIp req.headers conn.remoteAddr) config.limit.maxRps).1 } config conn.listener
          req conn.remoteAddr).effects⟩ →
    s'.rateLimiter = (s.rateLimiter.check now (Proxy.getRealIp req.headers conn.remoteAddr)
      config.limit.maxRps).2 → Stepped lib config s now (.request i c req env) s'
  | acted {i c : ℕ} {client : IpAddr} {start t : ℕ} {e : Effect} {rest : List (ℕ × Effect)}
    {s' : Server} : s.tasks.get i = some ⟨c, client, start, (t, e) :: rest⟩ → start + t ≤ now →
    s'.tasks = s.tasks.insert i ⟨c, client, start, rest⟩ → s'.rateLimiter = s.rateLimiter →
    Stepped lib config s now (.act i) s'

theorem stepped_act {i : ℕ} (h : act config s now i = some (s', marks)) :
    Stepped lib config s now (.act i) s' := by
  unfold act at h
  match htask : s.tasks.get i with
  | none =>
    rw [htask] at h
    cases h
    exact .quiet rfl rfl rfl rfl (by simp [forwardsNow, htask])
  | some ⟨c, client, start, []⟩ =>
    rw [htask] at h
    cases h
    exact .quiet rfl rfl rfl rfl (by simp [forwardsNow, htask])
  | some ⟨c, client, start, (t, e) :: rest⟩ =>
    rw [htask] at h
    simp only at h
    split at h
    · rename_i hdue
      split at h
      · obtain ⟨_, -, heq⟩ := Option.map_eq_some_iff.mp h
        cases heq
        exact .acted htask hdue rfl rfl
      · cases h
        exact .acted htask hdue rfl rfl
      · cases h
        exact .acted htask hdue rfl rfl
    · rename_i hwaits
      cases h
      refine .quiet rfl rfl rfl rfl ?_
      unfold forwardsNow
      cases e <;> simp [htask, hwaits]

theorem stepped (h : s.step lib config now e = some (s', marks)) :
    Stepped lib config s now e s' := by
  cases e with
  | accept c listener remoteAddr =>
    obtain rfl := congrArg Prod.fst (Option.some.inj h)
    have hsame : (s.accept now c listener remoteAddr).1.tasks = s.tasks ∧
        (s.accept now c listener remoteAddr).1.rateLimiter = s.rateLimiter := by
      unfold accept
      split
      · exact ⟨rfl, rfl⟩
      · simp only
        split <;> exact ⟨rfl, rfl⟩
    exact .quiet hsame.1 hsame.2 rfl rfl rfl
  | request i c req env =>
    obtain heq := Option.some.inj h
    unfold request at heq
    cases hconn : s.conns.get c with
    | none =>
      rw [hconn] at heq
      cases heq
      exact .quiet rfl rfl (by simp [rateEvent, hconn]) (by simp [admits, request, hconn]) rfl
    | some conn =>
      cases htask : s.tasks.get i with
      | none =>
        rw [hconn, htask] at heq
        cases heq
        exact .began hconn htask rfl rfl
      | some task =>
        rw [hconn, htask] at heq
        cases heq
        exact .quiet rfl rfl (by simp [rateEvent, hconn, htask])
          (by simp [admits, request, hconn, htask]) rfl
  | act i => exact stepped_act h
  | banCleanup =>
    cases h
    exact .quiet rfl rfl rfl rfl rfl
  | rateCleanup =>
    cases h
    exact .cleaned rfl rfl

/-! ## What is admitted -/

theorem tell_cons {α : Type} {f : Server → ℕ → ServerEvent → List α}
    (h : s.step lib config now e = some (s', marks)) :
    tell lib config f s ((now, e) :: evs) = f s now e ++ tell lib config f s' evs := by
  rw [tell, h]

/-- A run ends with a step that panics. -/
theorem tell_cons_of_panic {α : Type} {f : Server → ℕ → ServerEvent → List α}
    (h : s.step lib config now e = none) : tell lib config f s ((now, e) :: evs) = [] := by
  rw [tell, h]

theorem rateOk_of_passes {env : Env} {req : Request} {remoteAddr : SocketAddr}
    (h : passes (Proxy.verifyRequest env req remoteAddr config) = true) : env.rateOk = true := by
  cases hverdict : Proxy.verdict env config req with
  | none => exact (Proxy.verdict_eq_none.mp hverdict).rate
  | some v =>
    unfold passes at h
    rw [Proxy.result_verifyRequest, hverdict] at h
    cases h

theorem admits_began {i c : ℕ} {req : Request} {env : Env} {conn : Conn}
    (hconn : s.conns.get c = some conn) (hnew : s.tasks.get i = none) :
    admits lib config s now (.request i c req env) =
      if passes (Proxy.verifyRequest { env with rateOk := (s.rateLimiter.check now
        (Proxy.getRealIp req.headers conn.remoteAddr) config.limit.maxRps).1 } req conn.remoteAddr
          config) then [⟨i, now, Proxy.getRealIp req.headers conn.remoteAddr⟩] else [] := by
  unfold admits request
  simp only [hconn, hnew]
  cases passes (Proxy.verifyRequest { env with rateOk := (s.rateLimiter.check now
    (Proxy.getRealIp req.headers conn.remoteAddr) config.limit.maxRps).1 } req conn.remoteAddr
      config) <;> rfl

/-- The requests that pass are calls of the rate limiter that it admitted. -/
theorem admitted_sublist (lib : Externals) (config : Config) (evs : List (ℕ × ServerEvent))
    (s : Server) : ((admitted lib config s evs).map fun h => (h.client, h.start)).Sublist
      (((RateLimiter.answers config.limit.maxRps s.rateLimiter
        (rateCalls lib config s evs)).filter RateAnswer.ok).map fun a => (a.ip, a.time)) := by
  induction evs generalizing s with
  | nil => exact List.nil_sublist _
  | cons e evs ih =>
    obtain ⟨now, e⟩ := e
    unfold admitted rateCalls at ih ⊢
    cases hstep : s.step lib config now e with
    | none =>
      rw [tell_cons_of_panic hstep]
      exact List.nil_sublist _
    | some r =>
      obtain ⟨s', marks⟩ := r
      rw [tell_cons hstep, tell_cons hstep]
      cases stepped hstep with
      | quiet _ hlimiter hrate hadmits _ =>
        rw [hadmits, hrate, ← hlimiter]
        exact ih s'
      | cleaned _ hlimiter =>
        have := ih s'
        rw [hlimiter] at this
        exact this
      | @began i c req env conn _ hconn hnew _ hlimiter =>
        have hrate : s.rateEvent (.request i c req env) =
            some (.check (Proxy.getRealIp req.headers conn.remoteAddr)) := by
          simp only [rateEvent, hconn, hnew]
        have hrest := ih s'
        rw [hlimiter] at hrest
        rw [hrate, admits_began hconn hnew]
        simp only [Option.toList_some, List.map_cons, List.map_nil, List.cons_append,
          List.nil_append, RateLimiter.answers]
        split
        · rename_i hpasses
          have hok : (s.rateLimiter.check now (Proxy.getRealIp req.headers conn.remoteAddr)
              config.limit.maxRps).1 = true := rateOk_of_passes hpasses
          rw [List.filter_cons_of_pos (p := RateAnswer.ok) hok]
          exact hrest.cons_cons _
        · exact hrest.trans ((List.sublist_cons_self _ _).filter _ |>.map _)
      | acted _ _ _ hlimiter =>
        have := ih s'
        rw [hlimiter] at this
        exact this

/-! ## What is forwarded -/

/-- The request is still to be sent. -/
def Pending (s : Server) (h : Handled) : Prop :=
  ∃ c rest, s.tasks.get h.task = some ⟨c, h.client, h.start, rest⟩ ∧
    ∃ a ∈ rest, Effect.isSend a.2 = true

/-- The handler will send nothing more. -/
def Spent (s : Server) (i : ℕ) : Prop :=
  ∃ task, s.tasks.get i = some task ∧ ∀ a ∈ task.rest, Effect.isSend a.2 = false

/-- No handler has more than one request to send. -/
def SendsOnce (s : Server) : Prop :=
  ∀ i task, s.tasks.get i = some task → (task.rest.filter fun a => Effect.isSend a.2).length ≤ 1

variable {h : Handled} {i : ℕ}

/-- A request that goes out was still to be sent, and it is the last of its handler. -/
theorem of_forwardsNow (hmem : h ∈ s.forwardsNow now e) : e = .act h.task ∧
    ∃ c t addr q rest, s.tasks.get h.task = some ⟨c, h.client, h.start, (t, .send addr q) :: rest⟩ ∧
      h.start + t ≤ now := by
  cases e with
  | act i =>
    unfold forwardsNow at hmem
    simp only at hmem
    split at hmem
    · rename_i c client start t addr q rest htask
      split at hmem
      · obtain rfl := List.mem_singleton.mp hmem
        exact ⟨rfl, c, t, addr, q, rest, htask, ‹_›⟩
      · cases hmem
    · cases hmem
  | _ => cases hmem

theorem pending_of_forwardsNow (hmem : h ∈ s.forwardsNow now e) : s.Pending h := by
  obtain ⟨-, c, t, addr, q, rest, htask, -⟩ := of_forwardsNow hmem
  exact ⟨c, _, htask, _, List.mem_cons_self, rfl⟩

/-- What is to be sent after a step was to be sent before it, or has just been admitted. -/
theorem pending_step (hstep : Stepped lib config s now e s') (hpending : s'.Pending h) :
    s.Pending h ∨ h ∈ admits lib config s now e := by
  obtain ⟨c, rest, htask, a, ha, hsend⟩ := hpending
  cases hstep with
  | quiet htasks _ _ _ _ => exact .inl ⟨c, rest, htasks ▸ htask, a, ha, hsend⟩
  | cleaned htasks _ => exact .inl ⟨c, rest, htasks ▸ htask, a, ha, hsend⟩
  | @began i c' req env conn _ hconn hnew htasks _ =>
    rw [htasks, KeyMap.get_insert] at htask
    split at htask
    · rename_i hi
      obtain ⟨-, hclient, hstart, rfl⟩ := Task.mk.inj (Option.some.inj htask)
      right
      have hperforms : (handler lib { env with rateOk := (s.rateLimiter.check now
          (Proxy.getRealIp req.headers conn.remoteAddr) config.limit.maxRps).1 } config
            conn.listener req conn.remoteAddr).Performs a.2 := ⟨a.1, ha⟩
      obtain ⟨t, a⟩ := a
      cases a with
      | send addr q =>
        rw [admits_began hconn hnew, if_pos (passes_of_send hperforms), List.mem_singleton, ← hi,
          hclient, hstart]
      | _ => cases hsend
    · exact .inl ⟨c, rest, htask, a, ha, hsend⟩
  | acted hold _ htasks _ =>
    rw [htasks, KeyMap.get_insert] at htask
    split at htask
    · rename_i hi
      obtain ⟨rfl, rfl, rfl, rfl⟩ := Task.mk.inj (Option.some.inj htask)
      exact .inl ⟨_, _, hi ▸ hold, a, List.mem_cons_of_mem _ ha, hsend⟩
    · exact .inl ⟨c, rest, htask, a, ha, hsend⟩

/-- Every request that is sent in a run was to be sent at its start, or is admitted in it. -/
theorem forwards_subset (evs : List (ℕ × ServerEvent)) (s : Server)
    (hmem : h ∈ forwards lib config s evs) : s.Pending h ∨ h ∈ admitted lib config s evs := by
  induction evs generalizing s with
  | nil => cases hmem
  | cons e evs ih =>
    obtain ⟨now, e⟩ := e
    unfold forwards admitted at *
    cases hstep : s.step lib config now e with
    | none =>
      rw [tell_cons_of_panic hstep] at hmem
      cases hmem
    | some r =>
      obtain ⟨s', marks⟩ := r
      rw [tell_cons hstep] at hmem ⊢
      rcases List.mem_append.mp hmem with hnow | hlater
      · exact .inl (pending_of_forwardsNow hnow)
      · rcases ih s' hlater with hpending | hadmitted
        · rcases pending_step (stepped hstep) hpending with h | h
          · exact .inl h
          · exact .inr (List.mem_append_left _ h)
        · exact .inr (List.mem_append_right _ hadmitted)

theorem subset_admitted (evs : List (ℕ × ServerEvent)) :
    forwards lib config .new evs ⊆ admitted lib config .new evs := by
  intro h hmem
  rcases forwards_subset evs .new hmem with ⟨c, rest, hnone, -⟩ | hadmitted
  · cases hnone
  · exact hadmitted

/-! ## No request goes out twice -/

theorem sendsOnce_new : (new : Server).SendsOnce := fun _ _ h => nomatch h

theorem sendsOnce_step (hstep : Stepped lib config s now e s') (hs : s.SendsOnce) :
    s'.SendsOnce := by
  intro i task htask
  cases hstep with
  | quiet htasks _ _ _ _ => exact hs i task (htasks ▸ htask)
  | cleaned htasks _ => exact hs i task (htasks ▸ htask)
  | @began i' c req env conn _ _ _ htasks _ =>
    rw [htasks, KeyMap.get_insert] at htask
    split at htask
    · cases htask
      have honce : (handler lib { env with rateOk := (s.rateLimiter.check now
          (Proxy.getRealIp req.headers conn.remoteAddr) config.limit.maxRps).1 } config
            conn.listener req conn.remoteAddr).AtMost Effect.isSend 1 := sendsOnce_handler
      unfold Future.AtMost Future.doing at honce
      rw [List.filter_map, List.length_map] at honce
      exact honce
    · exact hs i task htask
  | acted hold _ htasks _ =>
    rw [htasks, KeyMap.get_insert] at htask
    split at htask
    · cases htask
      exact ((List.sublist_cons_self _ _).filter _).length_le.trans (hs _ _ hold)
    · exact hs i task htask

theorem spent_step (hstep : Stepped lib config s now e s') (hspent : s.Spent i) : s'.Spent i := by
  obtain ⟨task, htask, hrest⟩ := hspent
  cases hstep with
  | quiet htasks _ _ _ _ => exact ⟨task, htasks ▸ htask, hrest⟩
  | cleaned htasks _ => exact ⟨task, htasks ▸ htask, hrest⟩
  | @began i' c req env conn _ _ hnew htasks _ =>
    have hne : i ≠ i' := by
      rintro rfl
      rw [hnew] at htask
      cases htask
    exact ⟨task, by rw [htasks, KeyMap.get_insert_of_ne hne, htask], hrest⟩
  | @acted i' c client start t e rest _ hold _ htasks _ =>
    by_cases hi : i = i'
    · subst hi
      rw [hold] at htask
      cases htask
      exact ⟨_, by rw [htasks, KeyMap.get_insert_self],
        fun a ha => hrest a (List.mem_cons_of_mem _ ha)⟩
    · exact ⟨task, by rw [htasks, KeyMap.get_insert_of_ne hi, htask], hrest⟩

theorem spent_of_forwardsNow (hstep : Stepped lib config s now e s') (hs : s.SendsOnce)
    (hmem : h ∈ s.forwardsNow now e) : s'.Spent h.task := by
  obtain ⟨rfl, c, t, addr, q, rest, htask, -⟩ := of_forwardsNow hmem
  cases hstep with
  | quiet _ _ _ _ hnone =>
    rw [hnone] at hmem
    cases hmem
  | acted hold _ htasks _ =>
    rw [htask] at hold
    cases hold
    have hone := hs _ _ htask
    rw [List.filter_cons_of_pos rfl, List.length_cons] at hone
    have hnone : (rest.filter fun a => Effect.isSend a.2) = [] := by
      apply List.eq_nil_of_length_eq_zero
      omega
    refine ⟨_, by rw [htasks, KeyMap.get_insert_self], fun a ha => ?_⟩
    simpa using List.filter_eq_nil_iff.mp hnone a ha

theorem not_forwarded_of_spent (evs : List (ℕ × ServerEvent)) (s : Server) (hspent : s.Spent i) :
    ∀ h ∈ forwards lib config s evs, h.task ≠ i := by
  induction evs generalizing s with
  | nil => exact fun _ h => nomatch h
  | cons e evs ih =>
    obtain ⟨now, e⟩ := e
    unfold forwards at *
    cases hstep : s.step lib config now e with
    | none =>
      rw [tell_cons_of_panic hstep]
      exact fun _ h => nomatch h
    | some r =>
      obtain ⟨s', marks⟩ := r
      rw [tell_cons hstep]
      intro h hmem
      rcases List.mem_append.mp hmem with hnow | hlater
      · rintro rfl
        obtain ⟨-, c, t, addr, q, rest, hsends, -⟩ := of_forwardsNow hnow
        obtain ⟨task, htask, hrest⟩ := hspent
        rw [hsends] at htask
        cases htask
        cases hrest _ List.mem_cons_self
      · exact ih s' (spent_step (stepped hstep) hspent) h hlater

theorem nodup_forwards (evs : List (ℕ × ServerEvent)) (s : Server) (hs : s.SendsOnce) :
    ((forwards lib config s evs).map Handled.task).Nodup := by
  induction evs generalizing s with
  | nil => exact List.nodup_nil
  | cons e evs ih =>
    obtain ⟨now, e⟩ := e
    unfold forwards at ih ⊢
    cases hstep : s.step lib config now e with
    | none =>
      rw [tell_cons_of_panic hstep]
      exact List.nodup_nil
    | some r =>
      obtain ⟨s', marks⟩ := r
      have hrest := ih s' (sendsOnce_step (stepped hstep) hs)
      rw [tell_cons hstep]
      match hnow : s.forwardsNow now e with
      | [] => exact hrest
      | h :: hs' =>
        have hlone : hs' = [] := by
          cases e with
          | act i =>
            unfold forwardsNow at hnow
            simp only at hnow
            split at hnow
            · split at hnow
              · cases hnow
                rfl
              · cases hnow
            · cases hnow
          | _ => cases hnow
        subst hlone
        have hspent := spent_of_forwardsNow (stepped hstep) hs (hnow ▸ List.mem_singleton_self h)
        refine List.nodup_cons.mpr ⟨fun hagain => ?_, hrest⟩
        obtain ⟨h', hmem, htask⟩ := List.mem_map.mp hagain
        exact not_forwarded_of_spent evs s' hspent h' hmem htask

/-- **At most once.** However the steps of the server are interleaved, no request goes to an
upstream twice, and none that did not pass its verification when it came goes there at all. -/
theorem forwards_verified_once (lib : Externals) (config : Config) (evs : List (ℕ × ServerEvent)) :
    ((forwards lib config .new evs).map Handled.task).Nodup ∧
      ∀ h ∈ forwards lib config .new evs, h ∈ admitted lib config .new evs :=
  ⟨nodup_forwards evs .new sendsOnce_new, subset_admitted evs⟩

/-! ## The bound -/

/-- The limiter is called at times of the run, in order. -/
theorem rateCalls_times (lib : Externals) (config : Config) (evs : List (ℕ × ServerEvent))
    (s : Server) : ((rateCalls lib config s evs).map Prod.fst).Sublist (evs.map Prod.fst) := by
  induction evs generalizing s with
  | nil => exact List.nil_sublist _
  | cons e evs ih =>
    obtain ⟨now, e⟩ := e
    unfold rateCalls at ih ⊢
    cases hstep : s.step lib config now e with
    | none =>
      rw [tell_cons_of_panic hstep]
      exact List.nil_sublist _
    | some r =>
      rw [tell_cons hstep, List.map_append]
      cases s.rateEvent e with
      | none => exact (ih r.1).cons _
      | some r' => exact (ih r.1).cons_cons _

end Server

/-- The admitted calls of one address in an interval. -/
theorem RateLimiter.admitted_length_le {maxRps : ℕ} (hpos : 0 < maxRps)
    {evs : List (ℕ × RateEvent)} (hsorted : (evs.map Prod.fst).Pairwise (· ≤ ·)) (ip : IpAddr)
    (a : ℝ) {L : ℝ} (hL : 0 < L) :
    ((((answers maxRps .new evs).filter RateAnswer.ok).map fun r => (r.ip, r.time)).filter
      fun r => r.1 = ip ∧ a ≤ (asSecs r.2 : ℝ) ∧ (asSecs r.2 : ℝ) < a + L).length ≤
        maxRps * (⌈L⌉₊ + 1) := by
  obtain ⟨st, ws, hws, htimes⟩ := answers_windowed hpos hsorted ip
  rw [← answers_matches evs (t := 0) (.inl rfl)
    (List.pairwise_cons.mpr ⟨fun _ _ => Nat.zero_le _, hsorted⟩)] at htimes
  set inside : ℕ → Bool := fun t => a ≤ (asSecs t : ℝ) ∧ (asSecs t : ℝ) < a + L with hinside
  have hcount : ((ws.map Prod.fst).filter inside).length ≤ maxRps * (⌈L⌉₊ + 1) := by
    rw [List.filter_map, List.length_map]
    exact hws.length_le a hL
  rw [htimes, List.filter_map, List.length_map] at hcount
  rw [List.filter_map, List.length_map]
  convert hcount using 2
  rw [List.filter_filter, List.filter_filter, List.filter_filter]
  congr 1
  funext r
  simp only [hinside, Function.comp, Bool.decide_and]
  cases r.ok <;> cases decide (r.ip = ip) <;> simp

/-- **Quota.** Of the requests that a client makes in an interval of `L` seconds, however it lies,
at most `maxRps * (⌈L⌉ + 1)` are ever forwarded. -/
theorem forwards_bound (lib : Externals) {config : Config} (hpos : 0 < config.limit.maxRps)
    (evs : List (ℕ × ServerEvent)) (hsorted : (evs.map Prod.fst).Pairwise (· ≤ ·)) (ip : IpAddr)
    (a : ℝ) {L : ℝ} (hL : 0 < L) :
    ((Server.forwards lib config .new evs).filter fun h => h.client = ip ∧
      a ≤ (asSecs h.start : ℝ) ∧ (asSecs h.start : ℝ) < a + L).length ≤
        config.limit.maxRps * (⌈L⌉₊ + 1) := by
  have hnodup : (Server.forwards lib config .new evs).Nodup :=
    (Server.nodup_forwards evs .new Server.sendsOnce_new).of_map _
  set inside : IpAddr × ℕ → Bool := fun r =>
    r.1 = ip ∧ a ≤ (asSecs r.2 : ℝ) ∧ (asSecs r.2 : ℝ) < a + L with hinside
  calc ((Server.forwards lib config .new evs).filter fun h => h.client = ip ∧
        a ≤ (asSecs h.start : ℝ) ∧ (asSecs h.start : ℝ) < a + L).length
      ≤ ((Server.admitted lib config .new evs).filter fun h => inside (h.client, h.start)).length :=
        ((hnodup.subperm (Server.subset_admitted evs)).filter _).length_le
    _ = (((Server.admitted lib config .new evs).map fun h => (h.client, h.start)).filter
          inside).length := by
        rw [List.filter_map, List.length_map]
        rfl
    _ ≤ ((((RateLimiter.answers config.limit.maxRps .new
          (Server.rateCalls lib config .new evs)).filter RateAnswer.ok).map
            fun r => (r.ip, r.time)).filter inside).length :=
        ((Server.admitted_sublist lib config evs .new).filter _).length_le
    _ ≤ config.limit.maxRps * (⌈L⌉₊ + 1) :=
        RateLimiter.admitted_length_le hpos
          (hsorted.sublist (Server.rateCalls_times lib config evs .new)) ip a hL

/-- A request a second, when the limit is one a second. -/
def everySecond : List (ℕ × ServerEvent) :=
  [(0, .accept 0 .https Proxy.sampleAddr),
    (0, .request 0 0 (Proxy.sampleRequest .GET [] []) Proxy.sampleEnv),
    (0, .act 0), (0, .act 0), (0, .act 0),
    (fromSecs 1, .request 1 0 (Proxy.sampleRequest .GET [] []) Proxy.sampleEnv),
    (fromSecs 1, .act 1), (fromSecs 1, .act 1), (fromSecs 1, .act 1)]

theorem forwards_bound_everySecond :
    Server.forwards Proxy.sampleExternals { Proxy.sampleConfig with limit := ⟨100, 10, 2, 1, 0⟩ }
        .new everySecond =
      [⟨0, 0, .v4 0x0A000001#32⟩, ⟨1, fromSecs 1, .v4 0x0A000001#32⟩] ∧
    ((Server.forwards Proxy.sampleExternals
        { Proxy.sampleConfig with limit := ⟨100, 10, 2, 1, 0⟩ } .new everySecond).filter fun h =>
      h.client = .v4 0x0A000001#32 ∧ (0 : ℝ) ≤ (asSecs h.start : ℝ) ∧
        (asSecs h.start : ℝ) < 0 + 2).length ≤ 1 * (⌈(2 : ℝ)⌉₊ + 1) :=
  ⟨by decide +kernel, forwards_bound Proxy.sampleExternals
    (show 0 < { Proxy.sampleConfig with limit := ⟨100, 10, 2, 1, 0⟩ }.limit.maxRps by decide)
    everySecond (by decide) _ 0 (by norm_num)⟩

end OxidizedWall
