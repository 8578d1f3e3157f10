import OxidizedWall.Forward
import OxidizedWall.RateLimit

/-!
# The listeners (`server.rs`)

The accept loops, the connections they leave open, and the handlers running on them, as a machine
whose steps are the steps of any of them, in any order. An accept loop asks the ban manager about
the peer's address, once per connection; a handler acts on the managers under the address that
`get_real_ip` gives for its request.

A step appends what it does to a log. `bans_honoured` is about logs: a request is not served while
its client is banned, in the runs in which a banned client's requests come from the address that
was checked, and on connections that were checked after the ban.
-/

namespace OxidizedWall

/-- The two kinds of listeners. -/
inductive Listener
  | http
  | https
  deriving DecidableEq

/-- A connection that was let in. -/
structure Conn where
  listener : Listener
  remoteAddr : SocketAddr

/-- A running handler: its connection, the address it takes for the client's, when it began, and
what it has still to do. -/
structure Task where
  conn : ℕ
  client : IpAddr
  start : ℕ
  rest : List (ℕ × Effect)

structure Server where
  banManager : BanManager
  rateLimiter : RateLimiter
  conns : KeyMap ℕ Conn
  tasks : KeyMap ℕ Task

/-- The steps of the server. A connection that is closed and a handler that is dropped are those
that make no further steps. -/
inductive ServerEvent
  | accept (c : ℕ) (listener : Listener) (remoteAddr : SocketAddr)
  | request (i c : ℕ) (req : Request) (env : Env)
  | act (i : ℕ)
  | banCleanup
  | rateCleanup

/-- What a step does, as far as bans are concerned. `processed` is a step of a handler on the
connection `c` for the client `ip`; it is `served` if it passes verification, or forwards the
request. -/
inductive Mark
  | accepted (c : ℕ) (ip : IpAddr)
  | refused (ip : IpAddr)
  | processed (c : ℕ) (ip : IpAddr) (served : Bool)
  | punished (ip : IpAddr) (violation : Violation)
  | cleaned
  deriving DecidableEq

namespace Server

/-- Nothing is banned, counted or open. -/
def new : Server := ⟨.new, .new, .empty, .empty⟩

/-- The service of a connection. -/
def handler (lib : Externals) (env : Env) (config : Config) (listener : Listener) (req : Request)
    (remoteAddr : SocketAddr) : Handler (Except HyperError Response) :=
  match listener with
  | .http => Proxy.httpProxy env config req remoteAddr
  | .https => Proxy.httpsProxy lib env config req remoteAddr

/-- Whether a verification lets its request pass. -/
def passes (verified : Handler (Except Response Unit)) : Bool :=
  match verified.result with
  | some (_, .ok _) => true
  | _ => false

/-- The loop body of `http_server` and `https_server`. -/
def accept (s : Server) (now c : ℕ) (listener : Listener) (remoteAddr : SocketAddr) :
    Server × List Mark :=
  if (s.conns.get c).isSome then (s, [])
  else
    let r := (BanManager.check remoteAddr.ip).run (BanManager.handle now) s.banManager
    if r.1 then ({ s with banManager := r.2 }, [.refused remoteAddr.ip])
    else ({ s with banManager := r.2, conns := s.conns.insert c ⟨listener, remoteAddr⟩ },
      [.accepted c remoteAddr.ip])

/-- A request arrives and its handler begins, with the rate limiter's answer. -/
def request (lib : Externals) (config : Config) (s : Server) (now i c : ℕ) (req : Request)
    (env : Env) : Server × List Mark :=
  match s.conns.get c, s.tasks.get i with
  | some conn, none =>
    let ip := Proxy.getRealIp req.headers conn.remoteAddr
    let r := s.rateLimiter.check now ip config.limit.maxRps
    let env := { env with rateOk := r.1 }
    let effects := (handler lib env config conn.listener req conn.remoteAddr).effects
    ({ s with rateLimiter := r.2, tasks := s.tasks.insert i ⟨c, ip, now, effects⟩ },
      [.processed c ip (passes (Proxy.verifyRequest env req conn.remoteAddr config))])
  | _, _ => (s, [])

/-- The next effect of a handler, once its time has come; `none` where it panics. The rate limiter
was asked when the handler began. -/
def act (config : Config) (s : Server) (now i : ℕ) : Option (Server × List Mark) :=
  match s.tasks.get i with
  | some ⟨c, client, start, (t, e) :: rest⟩ =>
    if start + t ≤ now then
      let s := { s with tasks := s.tasks.insert i ⟨c, client, start, rest⟩ }
      match e with
      | .punish ip violation =>
        let r := (BanManager.punish ip violation config.ban).run (BanManager.handle now) s.banManager
        r.1.map fun _ => ({ s with banManager := r.2 },
          [.processed c client false, .punished ip violation])
      | .send _ _ => some (s, [.processed c client true])
      | _ => some (s, [.processed c client false])
    else some (s, [])
  | _ => some (s, [])

/-- One step at the time `now`. -/
def step (lib : Externals) (config : Config) (s : Server) (now : ℕ) :
    ServerEvent → Option (Server × List Mark)
  | .accept c listener remoteAddr => some (s.accept now c listener remoteAddr)
  | .request i c req env => some (request lib config s now i c req env)
  | .act i => act config s now i
  | .banCleanup =>
    let r := BanManager.cleanup.run (BanManager.handle now) s.banManager
    some ({ s with banManager := r.2 }, [.cleaned])
  | .rateCleanup => some ({ s with rateLimiter := s.rateLimiter.cleanup now }, [])

/-- The state and the log after the steps `evs`. -/
def run (lib : Externals) (config : Config) (evs : List (ℕ × ServerEvent)) :
    Option (Server × List (ℕ × Mark)) :=
  evs.foldlM (fun (s, log) e => (s.step lib config e.1 e.2).map fun (s, marks) =>
    (s, log ++ marks.map fun mark => (e.1, mark))) (new, [])

theorem run_concat (lib : Externals) (config : Config) (evs : List (ℕ × ServerEvent))
    (e : ℕ × ServerEvent) : run lib config (evs ++ [e]) =
      (run lib config evs).bind fun (s, log) => (s.step lib config e.1 e.2).map fun (s, marks) =>
        (s, log ++ marks.map fun mark => (e.1, mark)) := by
  unfold run
  rw [List.foldlM_append]
  congr 1
  funext sl
  exact bind_pure _

end Server

/-! ## The ban manager behind the log -/

/-- The call of the ban manager that a mark stands for. -/
def Mark.banEvent : Mark → Option BanEvent
  | accepted _ ip => some (.check ip)
  | refused ip => some (.check ip)
  | processed _ _ _ => none
  | punished ip violation => some (.punish ip violation)
  | cleaned => some .cleanup

/-- The calls of the ban manager in a log. -/
def banLog (log : List (ℕ × Mark)) : List (ℕ × BanEvent) :=
  log.filterMap fun e => e.2.banEvent.map fun b => (e.1, b)

/-- The instant until which an entry of the log bans `ip`. -/
def bannedUntil (config : Config) (ip : IpAddr) (e : ℕ × Mark) : Option ℕ :=
  e.2.banEvent.bind fun b => bansUntil config.ban ip (e.1, b)

/-- The log up to `now` accounts for the state `m` of the ban manager, and no connection was
accepted from an address that was banned at that moment. -/
structure Logged (config : Config) (now : ℕ) (m : BanManager) (log : List (ℕ × Mark)) : Prop where
  sorted : (log.map Prod.fst).Pairwise (· ≤ ·)
  le_now : ∀ e ∈ log, e.1 ≤ now
  run : BanManager.new.run config.ban (banLog log) = some m
  accepted : ∀ p a c ip q, log = p ++ (a, .accepted c ip) :: q →
    ∃ m, BanManager.new.run config.ban (banLog p) = some m ∧ m.isBanned a ip = false

namespace Logged

variable {config : Config} {now t : ℕ} {m m' : BanManager} {log : List (ℕ × Mark)} {mark : Mark}

theorem nil : Logged config now .new [] :=
  ⟨List.Pairwise.nil, fun _ h => absurd h List.not_mem_nil, rfl, fun p a c ip q h => by
    cases p <;> cases h⟩

theorem mono (h : Logged config t m log) (ht : t ≤ now) : Logged config now m log :=
  ⟨h.sorted, fun e he => (h.le_now e he).trans ht, h.run, h.accepted⟩

/-- One more entry, whose call of the ban manager, if any, leads to `m'`. -/
theorem concat (h : Logged config now m log)
    (hrun : BanManager.new.run config.ban (banLog (log ++ [(now, mark)])) = some m')
    (haccepted : ∀ c ip, mark = .accepted c ip → m.isBanned now ip = false) :
    Logged config now m' (log ++ [(now, mark)]) := by
  refine ⟨?_, fun e he => ?_, hrun, fun p a c ip q heq => ?_⟩
  · exact times_concat.mpr ⟨h.sorted, h.le_now⟩
  · rcases List.mem_append.mp he with he | he
    · exact h.le_now e he
    · obtain rfl := List.mem_singleton.mp he
      exact le_refl _
  · rcases List.eq_nil_or_concat q with rfl | ⟨q, e, rfl⟩
    · obtain ⟨rfl, hlast⟩ := List.append_inj' heq rfl
      cases hlast
      exact ⟨m, h.run, haccepted c ip rfl⟩
    · rw [List.concat_eq_append, ← List.cons_append, ← List.append_assoc] at heq
      exact h.accepted p a c ip q (List.append_inj' heq rfl).1

/-- An entry that says nothing about the ban manager. -/
theorem silent (h : Logged config now m log) (hmark : mark.banEvent = none) :
    Logged config now m (log ++ [(now, mark)]) := by
  refine h.concat ?_ fun c ip heq => by subst heq; cases hmark
  unfold banLog
  rw [List.filterMap_append, List.filterMap_cons_none (by rw [hmark]; rfl), List.filterMap_nil,
    List.append_nil]
  exact h.run

/-- An entry for a call. -/
theorem call (h : Logged config now m log) {b : BanEvent} (hmark : mark.banEvent = some b)
    (hstep : m.step config.ban now b = some m')
    (haccepted : ∀ c ip, mark = .accepted c ip → m.isBanned now ip = false) :
    Logged config now m' (log ++ [(now, mark)]) := by
  refine h.concat ?_ haccepted
  unfold banLog
  rw [List.filterMap_append, List.filterMap_cons_some (by rw [hmark]; rfl), List.filterMap_nil,
    BanManager.run_concat]
  exact Option.bind_eq_some_iff.mpr ⟨m, h.run, hstep⟩

end Logged

section
variable {lib : Externals} {config : Config} {now t : ℕ} {s s' : Server}
  {log : List (ℕ × Mark)} {marks : List Mark}

theorem logged_accept (h : Logged config now s.banManager log) (c : ℕ) (listener : Listener)
    (remoteAddr : SocketAddr) :
    Logged config now (s.accept now c listener remoteAddr).1.banManager
      (log ++ (s.accept now c listener remoteAddr).2.map fun mark => (now, mark)) := by
  unfold Server.accept
  split
  · simpa using h
  · simp only
    split
    · exact h.call rfl rfl fun _ _ heq => nomatch heq
    · rename_i hcheck
      apply h.call rfl rfl
      intro c' ip heq
      cases heq
      rw [BanManager.check_eq] at hcheck
      exact Bool.not_eq_true _ ▸ hcheck

theorem logged_act (h : Logged config now s.banManager log) {i : ℕ}
    (hs : Server.act config s now i = some (s', marks)) :
    Logged config now s'.banManager (log ++ marks.map fun mark => (now, mark)) := by
  unfold Server.act at hs
  split at hs
  · split at hs
    · rename_i c client _ _ _ _ _ _
      have hprocessed : ∀ served, Logged config now s.banManager
          (log ++ [(now, .processed c client served)]) := fun _ => h.silent rfl
      split at hs
      · simp only [Option.map_eq_some_iff] at hs
        obtain ⟨_, hok, heq⟩ := hs
        cases heq
        rw [List.map_cons, ← List.singleton_append, ← List.append_assoc]
        refine (hprocessed false).call rfl ?_ fun _ _ heq => nomatch heq
        unfold BanManager.step
        simp only [hok, Option.map_some]
      · cases hs
        exact hprocessed true
      · cases hs
        exact hprocessed false
    · cases hs
      simpa using h
  · cases hs
    simpa using h

theorem logged_step (h : Logged config t s.banManager log) (ht : t ≤ now) {e : ServerEvent}
    (hs : s.step lib config now e = some (s', marks)) :
    Logged config now s'.banManager (log ++ marks.map fun mark => (now, mark)) := by
  replace h := h.mono ht
  cases e with
  | accept c listener remoteAddr =>
    obtain heq := Option.some.inj hs
    have := logged_accept h c listener remoteAddr
    rw [heq] at this
    exact this
  | request i c req env =>
    obtain heq := Option.some.inj hs
    unfold Server.request at heq
    split at heq
    · cases heq
      exact h.silent rfl
    · cases heq
      simpa using h
  | act i => exact logged_act h hs
  | banCleanup =>
    cases hs
    exact h.call rfl rfl fun _ _ heq => nomatch heq
  | rateCleanup =>
    cases hs
    simpa using h

/-- The log of every run accounts for its bans. -/
theorem logged_run {evs : List (ℕ × ServerEvent)} (hsorted : (evs.map Prod.fst).Pairwise (· ≤ ·))
    (hle : ∀ e ∈ evs, e.1 ≤ now) (hrun : Server.run lib config evs = some (s, log)) :
    Logged config now s.banManager log := by
  induction evs using List.reverseRecOn generalizing s log now with
  | nil =>
    cases hrun
    exact .nil
  | append_singleton evs e ih =>
    rw [Server.run_concat] at hrun
    obtain ⟨⟨s₁, log₁⟩, h₁, hs⟩ := Option.bind_eq_some_iff.mp hrun
    obtain ⟨⟨s₂, marks⟩, h₂, heq⟩ := Option.map_eq_some_iff.mp hs
    cases heq
    obtain ⟨hpre, hlast⟩ := times_concat.mp hsorted
    exact (logged_step (ih hpre hlast h₁) (le_refl _) h₂).mono (hle e (by simp))

end

/-! ## Honoured bans -/

/-- After a ban of an address and until its end, no handler serves a request of that client. -/
def BansHonoured (config : Config) (log : List (ℕ × Mark)) : Prop :=
  ∀ p e q x c ip r T, log = (p ++ e :: q) ++ (x, .processed c ip true) :: r →
    bannedUntil config ip e = some T → e.1 < x → T < x

/-- What the accept loops can see of a run. -/
structure Visible (config : Config) (log : List (ℕ × Mark)) : Prop where
  /-- While an address is banned, requests of that client are on connections that were let in
  from the same address, and after the ban. -/
  readmitted : ∀ p e q x c ip served r T,
    log = (p ++ e :: q) ++ (x, .processed c ip served) :: r →
      bannedUntil config ip e = some T → e.1 < x → x ≤ T → ∃ a, (a, .accepted c ip) ∈ q
  /-- No ban of an address ends before an earlier one. -/
  noneShorter : NoneShorter config.ban (banLog log)
  /-- A request at the very instant at which a ban of its client ends does not meet a cleanup at
  that instant. -/
  cleanups : ∀ c ip served T, (∃ e ∈ log, bannedUntil config ip e = some T) →
    (T, .processed c ip served) ∈ log → (T, .cleaned) ∉ log

section
variable {config : Config} {log : List (ℕ × Mark)}

theorem mem_banLog {t : ℕ} {b : BanEvent} :
    (t, b) ∈ banLog log ↔ ∃ mark, (t, mark) ∈ log ∧ mark.banEvent = some b := by
  unfold banLog
  rw [List.mem_filterMap]
  constructor
  · rintro ⟨⟨t', mark⟩, hmem, heq⟩
    obtain ⟨b', hb, heq⟩ := Option.map_eq_some_iff.mp heq
    cases heq
    exact ⟨mark, hmem, hb⟩
  · rintro ⟨mark, hmem, hb⟩
    exact ⟨(t, mark), hmem, by rw [hb]; rfl⟩

theorem sorted_banLog (h : (log.map Prod.fst).Pairwise (· ≤ ·)) :
    ((banLog log).map Prod.fst).Pairwise (· ≤ ·) := by
  rw [List.pairwise_map] at h ⊢
  apply List.Pairwise.filterMap _ _ h
  intro e e' hle b hb b' hb'
  obtain ⟨_, -, rfl⟩ := Option.map_eq_some_iff.mp hb
  obtain ⟨_, -, rfl⟩ := Option.map_eq_some_iff.mp hb'
  exact hle

/-- A cleanup in the calls is a cleanup in the log. -/
theorem mem_banLog_cleanup {t : ℕ} (h : (t, .cleanup) ∈ banLog log) : (t, .cleaned) ∈ log := by
  obtain ⟨mark, hmem, hb⟩ := mem_banLog.mp h
  cases mark <;> cases hb
  exact hmem

/-- An address that is let in again has no ban that is still running: its last ban is its longest,
and the entry of that one is only dropped once it is over, or by a cleanup when it ends. -/
theorem over_of_accepted {pre : List (ℕ × Mark)} {m : BanManager} {a : ℕ} {ip : IpAddr}
    (hrun : BanManager.new.run config.ban (banLog pre) = some m)
    (hfree : m.isBanned a ip = false) (hsorted : (pre.map Prod.fst).Pairwise (· ≤ ·))
    (hle : ∀ e ∈ pre, e.1 ≤ a) (hshorter : NoneShorter config.ban (banLog pre))
    {e : ℕ × Mark} (he : e ∈ pre) {T : ℕ} (hT : bannedUntil config ip e = some T) :
    T < a ∨ (T = a ∧ (T, .cleaned) ∈ pre) := by
  obtain ⟨b, hb, hbans⟩ := Option.bind_eq_some_iff.mp hT
  have hmem : (e.1, b) ∈ banLog pre := mem_banLog.mpr ⟨e.2, he, hb⟩
  obtain ⟨T', hlast, hTT'⟩ := hshorter.le_lastUntil hmem hbans
  have hle' : ∀ e ∈ banLog pre, e.1 ≤ a := by
    rintro ⟨t, b⟩ he
    obtain ⟨mark, hmem, -⟩ := mem_banLog.mp he
    exact hle _ hmem
  have hrec : Recorded config.ban ip a (banLog pre) m :=
    recorded_run (sorted_banLog hsorted) hle' hrun
  unfold Recorded at hrec
  rw [hlast] at hrec
  unfold BanManager.isBanned at hfree
  rcases hrec with hget | ⟨-, hover | hclean⟩
  · left
    rw [hget, Option.any_some, decide_eq_false_iff_not] at hfree
    have hT'a : T' < a := Nat.not_le.mp hfree
    omega
  · left
    omega
  · have hmem' := mem_banLog_cleanup hclean
    have hT'a : T' ≤ a := hle _ hmem'
    by_cases hTa : T < a
    · exact .inl hTa
    · obtain rfl : T = T' := by omega
      exact .inr ⟨by omega, hmem'⟩

end

/-- **Bans are honoured** in the runs in which the accept loops can see them: the bans of an
address are looked up once per connection and under the peer's address, whatever address the
handlers take for the client's. -/
theorem bans_honoured (lib : Externals) (config : Config) {evs : List (ℕ × ServerEvent)}
    (hsorted : (evs.map Prod.fst).Pairwise (· ≤ ·)) {s : Server} {log : List (ℕ × Mark)}
    (hrun : Server.run lib config evs = some (s, log)) (h : Visible config log) :
    BansHonoured config log := by
  have hlogged : ∃ now, Logged config now s.banManager log := by
    refine ⟨(evs.map Prod.fst).sum, logged_run hsorted (fun e he => ?_) hrun⟩
    exact List.single_le_sum (fun _ _ => Nat.zero_le _) _ (List.mem_map_of_mem he)
  obtain ⟨now, hlogged⟩ := hlogged
  intro p e q x c ip r T heq hT hlt
  by_contra hrunning
  obtain ⟨a, ha⟩ := h.readmitted p e q x c ip true r T heq hT hlt (by omega)
  obtain ⟨q₁, q₂, rfl⟩ := List.append_of_mem ha
  -- the log up to the accept, from it to the request, and the rest
  have hsplit : log = (p ++ e :: q₁) ++ (a, .accepted c ip) ::
      (q₂ ++ (x, .processed c ip true) :: r) := by
    rw [heq]
    simp
  obtain ⟨m, hm, hfree⟩ := hlogged.accepted _ _ _ _ _ hsplit
  have htimes := hlogged.sorted
  rw [hsplit] at htimes
  obtain ⟨hpre, hpost, hcross⟩ := times_append.mp htimes
  rw [List.map_cons, List.pairwise_cons] at hpost
  have hax : a ≤ x := hpost.1 x (by simp)
  have hmem : ∀ e' ∈ p ++ e :: q₁, e' ∈ log := fun e' he' =>
    hsplit ▸ List.mem_append_left _ he'
  have hover := over_of_accepted hm hfree hpre
    (fun e' he' => hcross e' he' _ (.head _))
    (h.noneShorter.sublist (by
      rw [hsplit]
      exact (List.sublist_append_left _ _).filterMap _))
    (e := e) (by simp) hT
  rcases hover with hover | ⟨rfl, hclean⟩
  · omega
  · -- the request comes when the ban ends, and so does a cleanup
    obtain rfl : x = T := by omega
    exact h.cleanups c ip true x ⟨e, hmem e (by simp), hT⟩ (by rw [heq]; simp) (hmem _ hclean)

/-! ## Concrete runs -/

/-- The sample configuration, with bans of a minute for malformed requests. -/
def minuteConfig : Config := { Proxy.sampleConfig with ban := ⟨0, 60, 0, 0⟩ }

/-- A request with a method that is not allowed, for a client behind Cloudflare. -/
def traceRequest : Request :=
  Proxy.sampleRequest .TRACE [("CF-Connecting-IP", "203.0.113.7")] []

/-- A request for the same client. -/
def getRequest : Request := Proxy.sampleRequest .GET [("CF-Connecting-IP", "203.0.113.7")] []

/-- The client is banned, and comes back a second later. -/
def comesBack : List (ℕ × ServerEvent) :=
  [(0, .accept 0 .https Proxy.sampleAddr), (0, .request 0 0 traceRequest Proxy.sampleEnv),
    (0, .act 0), (0, .act 0), (fromSecs 1, .accept 1 .https Proxy.sampleAddr),
    (fromSecs 1, .request 1 1 getRequest Proxy.sampleEnv)]

theorem banned_client_served : ∃ s log,
    Server.run Proxy.sampleExternals minuteConfig comesBack = some (s, log) ∧
      ¬ BansHonoured minuteConfig log := by
  have hlog : (Server.run Proxy.sampleExternals minuteConfig comesBack).map Prod.snd =
      some [(0, .accepted 0 (.v4 0x0A000001#32)), (0, .processed 0 (.v4 0xCB007107#32) false),
        (0, .processed 0 (.v4 0xCB007107#32) false), (0, .processed 0 (.v4 0xCB007107#32) false),
        (0, .punished (.v4 0xCB007107#32) .protocol),
        (fromSecs 1, .accepted 1 (.v4 0x0A000001#32)),
        (fromSecs 1, .processed 1 (.v4 0xCB007107#32) true)] := by
    decide +kernel
  obtain ⟨⟨s, log⟩, hrun, rfl⟩ := Option.map_eq_some_iff.mp hlog
  refine ⟨s, _, hrun, fun h => ?_⟩
  have hover := h [_, _, _, _] _ [_] (fromSecs 1) 1 (.v4 0xCB007107#32) [] (fromSecs 60) rfl rfl
    (by decide)
  revert hover
  decide

/-- A client without a proxy is banned for a second. It tries again at once, and later. -/
def waitsOut : List (ℕ × ServerEvent) :=
  [(0, .accept 0 .https Proxy.sampleAddr),
    (0, .request 0 0 (Proxy.sampleRequest .TRACE [] []) Proxy.sampleEnv),
    (0, .act 0), (0, .act 0), (fromSecs 1, .accept 1 .https Proxy.sampleAddr),
    (fromSecs 1, .request 1 1 (Proxy.sampleRequest .GET [] []) Proxy.sampleEnv),
    (fromSecs 2, .accept 2 .https Proxy.sampleAddr),
    (fromSecs 2, .request 2 2 (Proxy.sampleRequest .GET [] []) Proxy.sampleEnv)]

def secondConfig : Config := { Proxy.sampleConfig with ban := ⟨0, 1, 0, 0⟩ }

def waitsOutLog : List (ℕ × Mark) :=
  [(0, .accepted 0 (.v4 0x0A000001#32)), (0, .processed 0 (.v4 0x0A000001#32) false),
    (0, .processed 0 (.v4 0x0A000001#32) false), (0, .processed 0 (.v4 0x0A000001#32) false),
    (0, .punished (.v4 0x0A000001#32) .protocol), (fromSecs 1, .refused (.v4 0x0A000001#32)),
    (fromSecs 2, .accepted 2 (.v4 0x0A000001#32)),
    (fromSecs 2, .processed 2 (.v4 0x0A000001#32) true)]

theorem visible_waitsOut : Visible secondConfig waitsOutLog where
  readmitted p e q x c ip served r T heq hT hlt hle := by
    have hban : ∀ e ∈ waitsOutLog, bannedUntil secondConfig ip e = some T →
        e.1 = 0 ∧ T = fromSecs 1 := by
      intro e he hT
      simp only [waitsOutLog, List.mem_cons, List.not_mem_nil, or_false] at he
      rcases he with rfl | rfl | rfl | rfl | rfl | rfl | rfl | rfl
      case inr.inr.inr.inr.inl =>
        simp only [bannedUntil, Mark.banEvent, Option.bind_some, bansUntil] at hT
        split at hT
        · cases hT
          exact ⟨rfl, rfl⟩
        · cases hT
      all_goals cases hT
    have hprocessed : ∀ x, (x, .processed c ip served) ∈ waitsOutLog → x = 0 ∨ x = fromSecs 2 := by
      intro x hx
      simp [waitsOutLog] at hx
      exact hx.imp And.left And.left
    obtain ⟨he, rfl⟩ := hban e (by rw [heq]; simp) hT
    rcases hprocessed x (by rw [heq]; simp) with rfl | rfl
    · omega
    · exact absurd hle (by decide)
  noneShorter := by simp [NoneShorter, banLog, waitsOutLog, Mark.banEvent, bansUntil]
  cleanups _ _ _ _ _ _ := by simp [waitsOutLog]

theorem bans_honoured_waitsOut : BansHonoured secondConfig waitsOutLog := by
  have hlog : (Server.run Proxy.sampleExternals secondConfig waitsOut).map Prod.snd =
      some waitsOutLog := by
    decide +kernel
  obtain ⟨⟨s, _⟩, hrun, rfl⟩ := Option.map_eq_some_iff.mp hlog
  exact bans_honoured Proxy.sampleExternals secondConfig (by decide) hrun visible_waitsOut

end OxidizedWall
