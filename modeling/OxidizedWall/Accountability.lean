import OxidizedWall.Memory
import OxidizedWall.Quota

/-!
# Who is refused

The log of the server, read backwards: a connection is refused because of a ban that still runs, a
ban is a punishment of a handler, and a handler punishes for the offence of its request. So
`refused_justified` finds a request behind every refusal.
-/

namespace OxidizedWall

theorem RateLimiter.answers_append (maxRps : ℕ) (evs evs' : List (ℕ × RateEvent))
    (l : RateLimiter) : answers maxRps l (evs ++ evs') =
      answers maxRps l evs ++ answers maxRps (l.after maxRps evs) evs' := by
  induction evs generalizing l with
  | nil => rfl
  | cons e evs ih =>
    obtain ⟨now, e⟩ := e
    cases e with
    | check ip =>
      show _ :: answers maxRps _ (evs ++ evs') = _
      rw [ih]
      rfl
    | cleanup => exact ih _

namespace Server

variable {lib : Externals} {config : Config} {s s' : Server} {now : ℕ} {e : ServerEvent}
  {marks : List Mark} {evs : List (ℕ × ServerEvent)} {log : List (ℕ × Mark)}

/-! ## The limiter of a run -/

/-- The state that a run from `s` leads to. -/
def leads (lib : Externals) (config : Config) : Server → List (ℕ × ServerEvent) → Option Server
  | s, [] => some s
  | s, (now, e) :: evs => (s.step lib config now e).bind fun r => leads lib config r.1 evs

theorem leads_append (evs evs' : List (ℕ × ServerEvent)) (s : Server) :
    leads lib config s (evs ++ evs') =
      (leads lib config s evs).bind fun s' => leads lib config s' evs' := by
  induction evs generalizing s with
  | nil => rfl
  | cons e evs ih =>
    show (s.step lib config e.1 e.2).bind _ = ((s.step lib config e.1 e.2).bind _).bind _
    rw [Option.bind_assoc]
    congr 1
    funext r
    exact ih r.1

theorem leads_of_run (h : run lib config evs = some (s, log)) :
    leads lib config .new evs = some s := by
  induction evs using List.reverseRecOn generalizing s log with
  | nil =>
    cases h
    rfl
  | append_singleton evs e ih =>
    rw [run_concat] at h
    obtain ⟨⟨s₁, log₁⟩, h₁, hs⟩ := Option.bind_eq_some_iff.mp h
    obtain ⟨⟨s₂, marks⟩, h₂, heq⟩ := Option.map_eq_some_iff.mp hs
    cases heq
    rw [leads_append, ih h₁]
    show (s₁.step lib config e.1 e.2).bind _ = _
    rw [h₂]
    rfl

theorem tell_append {α : Type} {f : Server → ℕ → ServerEvent → List α}
    (evs evs' : List (ℕ × ServerEvent)) {s₀ : Server} (h : leads lib config s₀ evs = some s) :
    tell lib config f s₀ (evs ++ evs') = tell lib config f s₀ evs ++ tell lib config f s evs' := by
  induction evs generalizing s₀ with
  | nil =>
    cases h
    rfl
  | cons e evs ih =>
    obtain ⟨now, e⟩ := e
    obtain ⟨⟨s₁, marks⟩, hstep, hrest⟩ := Option.bind_eq_some_iff.mp h
    rw [List.cons_append, tell_cons hstep, tell_cons hstep, ih hrest, List.append_assoc]

theorem rateCalls_concat (h : leads lib config .new evs = some s)
    (hstep : s.step lib config now e = some (s', marks)) :
    rateCalls lib config .new (evs ++ [(now, e)]) =
      rateCalls lib config .new evs ++ (s.rateEvent e).toList.map fun r => (now, r) := by
  unfold rateCalls
  rw [tell_append _ _ h, tell_cons hstep]
  exact congrArg _ (List.append_nil _)

/-- The limiter of the server is that of its calls. -/
theorem rateLimiter_after (h : leads lib config .new evs = some s) :
    s.rateLimiter = RateLimiter.new.after config.limit.maxRps (rateCalls lib config .new evs) := by
  induction evs using List.reverseRecOn generalizing s with
  | nil =>
    cases h
    rfl
  | append_singleton evs e ih =>
    obtain ⟨now, e⟩ := e
    rw [leads_append] at h
    obtain ⟨s₁, h₁, hlast⟩ := Option.bind_eq_some_iff.mp h
    obtain ⟨⟨s₂, marks⟩, hstep, heq⟩ := Option.bind_eq_some_iff.mp hlast
    cases heq
    rw [rateCalls_concat h₁ hstep]
    cases stepped hstep with
    | quiet _ hlimiter hrate _ _ =>
      rw [hrate, hlimiter, ih h₁]
      exact congrArg _ (List.append_nil _).symm
    | cleaned _ hlimiter =>
      rw [hlimiter, ih h₁]
      exact (RateLimiter.after_concat _ _ (now, .cleanup)).symm
    | @began i c req env conn _ hconn hnew _ hlimiter =>
      have hrate : s₁.rateEvent (.request i c req env) =
          some (.check (Proxy.getRealIp req.headers conn.remoteAddr)) := by
        simp only [rateEvent, hconn, hnew]
      rw [hrate, hlimiter, ih h₁]
      exact (RateLimiter.after_concat _ _ (now, .check _)).symm
    | acted _ _ _ hlimiter =>
      rw [hlimiter, ih h₁]
      exact congrArg _ (List.append_nil _).symm

/-! ## Requests and their offences -/

/-- What the rate limiter has answered in a run. -/
def rateAnswers (lib : Externals) (config : Config) (evs : List (ℕ × ServerEvent)) :
    List RateAnswer :=
  RateLimiter.answers config.limit.maxRps .new (rateCalls lib config .new evs)

/-- A request came at `a` on the connection `c`, which was let in, and the rate limiter answered
`ok`. -/
structure Arrived (lib : Externals) (config : Config) (evs : List (ℕ × ServerEvent)) (i c a : ℕ)
    (ok : Bool) (listener : Listener) (remoteAddr : SocketAddr) (req : Request) (env : Env) :
    Prop where
  accepted : ∃ b, (b, .accept c listener remoteAddr) ∈ evs
  requested : (a, .request i c req env) ∈ evs
  answered : ⟨Proxy.getRealIp req.headers remoteAddr, a, ok⟩ ∈ rateAnswers lib config evs

/-- A request that came at `a`, with `ip` as its client's address, committed the violation. -/
def Committed (lib : Externals) (config : Config) (evs : List (ℕ × ServerEvent)) (ip : IpAddr)
    (violation : Violation) (a : ℕ) : Prop :=
  ∃ i c ok listener remoteAddr req env,
    Arrived lib config evs i c a ok listener remoteAddr req env ∧
      ip = Proxy.getRealIp req.headers remoteAddr ∧
        Commits lib { env with rateOk := ok } config ip req listener violation

/-- The handler began with a request of the run, and has still to do the rest of it. -/
def Origin (lib : Externals) (config : Config) (evs : List (ℕ × ServerEvent)) (i : ℕ)
    (task : Task) : Prop :=
  ∃ ok listener remoteAddr req env,
    Arrived lib config evs i task.conn task.start ok listener remoteAddr req env ∧
      task.rest <:+ (handler lib { env with rateOk := ok } config listener req remoteAddr).effects

/-- The connections and the handlers of the state come from the run, and the punishments in the log
from handlers. -/
structure Accounted (lib : Externals) (config : Config) (evs : List (ℕ × ServerEvent)) (s : Server)
    (log : List (ℕ × Mark)) : Prop where
  conns : ∀ c conn, s.conns.get c = some conn →
    ∃ b, (b, .accept c conn.listener conn.remoteAddr) ∈ evs
  tasks : ∀ i task, s.tasks.get i = some task → Origin lib config evs i task
  punished : ∀ y ip violation, (y, .punished ip violation) ∈ log →
    ∃ a ≤ y, Committed lib config evs ip violation a

theorem answers_mono (h : leads lib config .new evs = some s)
    (hstep : s.step lib config now e = some (s', marks)) {r : RateAnswer}
    (hr : r ∈ rateAnswers lib config evs) : r ∈ rateAnswers lib config (evs ++ [(now, e)]) := by
  unfold rateAnswers
  rw [rateCalls_concat h hstep, RateLimiter.answers_append]
  exact List.mem_append_left _ hr

theorem Arrived.mono (h : leads lib config .new evs = some s)
    (hstep : s.step lib config now e = some (s', marks)) {i c a : ℕ} {ok : Bool}
    {listener : Listener} {remoteAddr : SocketAddr} {req : Request} {env : Env}
    (harrived : Arrived lib config evs i c a ok listener remoteAddr req env) :
    Arrived lib config (evs ++ [(now, e)]) i c a ok listener remoteAddr req env :=
  ⟨harrived.accepted.imp fun _ hb => List.mem_append_left _ hb,
    List.mem_append_left _ harrived.requested, answers_mono h hstep harrived.answered⟩

theorem Origin.mono (h : leads lib config .new evs = some s)
    (hstep : s.step lib config now e = some (s', marks)) {i : ℕ} {task : Task}
    (horigin : Origin lib config evs i task) : Origin lib config (evs ++ [(now, e)]) i task := by
  obtain ⟨ok, listener, remoteAddr, req, env, harrived, hsuffix⟩ := horigin
  exact ⟨ok, listener, remoteAddr, req, env, harrived.mono h hstep, hsuffix⟩

theorem Committed.mono (h : leads lib config .new evs = some s)
    (hstep : s.step lib config now e = some (s', marks)) {ip : IpAddr} {violation : Violation}
    {a : ℕ} (hcommitted : Committed lib config evs ip violation a) :
    Committed lib config (evs ++ [(now, e)]) ip violation a := by
  obtain ⟨i, c, ok, listener, remoteAddr, req, env, harrived, hip, hcommits⟩ := hcommitted
  exact ⟨i, c, ok, listener, remoteAddr, req, env, harrived.mono h hstep, hip, hcommits⟩

/-! ## The account -/

theorem accounted_nil : Accounted lib config [] .new [] :=
  ⟨fun _ _ h => (nomatch h), fun _ _ h => (nomatch h), fun _ _ _ h => (nomatch h)⟩

/-- A step keeps the account if what is new after it comes from it. -/
theorem Accounted.extend (hacc : Accounted lib config evs s log)
    (h : leads lib config .new evs = some s) (hstep : s.step lib config now e = some (s', marks))
    (hconns : ∀ c conn, s'.conns.get c = some conn →
      s.conns.get c = some conn ∨ e = .accept c conn.listener conn.remoteAddr)
    (htasks : ∀ i task, s'.tasks.get i = some task → s.tasks.get i = some task ∨
      Origin lib config (evs ++ [(now, e)]) i task)
    (hmarks : ∀ ip violation, .punished ip violation ∈ marks →
      ∃ a ≤ now, Committed lib config evs ip violation a) :
    Accounted lib config (evs ++ [(now, e)]) s' (log ++ marks.map fun mark => (now, mark)) where
  conns c conn hconn := by
    rcases hconns c conn hconn with hold | rfl
    · exact (hacc.conns c conn hold).imp fun _ hb => List.mem_append_left _ hb
    · exact ⟨now, List.mem_append_right _ (List.mem_singleton_self _)⟩
  tasks i task htask := by
    rcases htasks i task htask with hold | hnew
    · exact (hacc.tasks i task hold).mono h hstep
    · exact hnew
  punished y ip violation hmem := by
    rcases List.mem_append.mp hmem with hold | hnew
    · obtain ⟨a, hle, hcommitted⟩ := hacc.punished y ip violation hold
      exact ⟨a, hle, hcommitted.mono h hstep⟩
    · obtain ⟨mark, hmark, heq⟩ := List.mem_map.mp hnew
      cases heq
      obtain ⟨a, hle, hcommitted⟩ := hmarks ip violation hmark
      exact ⟨a, hle, hcommitted.mono h hstep⟩

/-- A step that changes neither the connections nor the handlers. -/
theorem Accounted.quiet (hacc : Accounted lib config evs s log)
    (h : leads lib config .new evs = some s) (hstep : s.step lib config now e = some (s', marks))
    (hconns : s'.conns = s.conns) (htasks : s'.tasks = s.tasks)
    (hmarks : ∀ ip violation, .punished ip violation ∉ marks) :
    Accounted lib config (evs ++ [(now, e)]) s' (log ++ marks.map fun mark => (now, mark)) :=
  hacc.extend h hstep (fun _ _ hconn => .inl (hconns ▸ hconn)) (fun _ _ htask => .inl (htasks ▸ htask))
    fun ip violation hmem => absurd hmem (hmarks ip violation)

theorem Accounted.accept (hacc : Accounted lib config evs s log)
    (h : leads lib config .new evs = some s) {c : ℕ} {listener : Listener}
    {remoteAddr : SocketAddr}
    (hstep : s.step lib config now (.accept c listener remoteAddr) = some (s', marks)) :
    Accounted lib config (evs ++ [(now, .accept c listener remoteAddr)]) s'
      (log ++ marks.map fun mark => (now, mark)) := by
  have heq := Option.some.inj hstep
  unfold Server.accept at heq
  split at heq
  · cases heq
    exact hacc.quiet h hstep rfl rfl fun _ _ => List.not_mem_nil
  · simp only at heq
    split at heq
    · cases heq
      exact hacc.quiet h hstep rfl rfl (by simp)
    · cases heq
      refine hacc.extend h hstep (fun c' conn hconn => ?_) (fun _ _ htask => .inl htask) (by simp)
      rw [KeyMap.get_insert] at hconn
      split at hconn
      · rename_i hc
        cases hconn
        exact .inr (hc ▸ rfl)
      · exact .inl hconn

theorem Accounted.request (hacc : Accounted lib config evs s log)
    (h : leads lib config .new evs = some s) {i c : ℕ} {req : Request} {env : Env}
    (hstep : s.step lib config now (.request i c req env) = some (s', marks)) :
    Accounted lib config (evs ++ [(now, .request i c req env)]) s'
      (log ++ marks.map fun mark => (now, mark)) := by
  have heq := Option.some.inj hstep
  unfold Server.request at heq
  split at heq
  · rename_i conn hconn hnew
    cases heq
    refine hacc.extend h hstep (fun _ _ hc => .inl hc) (fun i' task htask => ?_) (by simp)
    rw [KeyMap.get_insert] at htask
    split at htask
    · rename_i hi
      cases htask
      right
      -- the handler starts with the answer that the limiter gives now
      have hrate : s.rateEvent (.request i c req env) =
          some (.check (Proxy.getRealIp req.headers conn.remoteAddr)) := by
        simp only [rateEvent, hconn, hnew]
      refine ⟨_, conn.listener, conn.remoteAddr, req, env, ⟨?_, ?_, ?_⟩, List.suffix_refl _⟩
      · exact (hacc.conns c conn hconn).imp fun _ hb => List.mem_append_left _ hb
      · exact hi ▸ List.mem_append_right _ (List.mem_singleton_self _)
      · unfold rateAnswers
        rw [rateCalls_concat h hstep, RateLimiter.answers_append, hrate, ← rateLimiter_after h]
        exact List.mem_append_right _ (List.mem_singleton_self _)
    · exact .inl htask
  · cases heq
    exact hacc.quiet h hstep rfl rfl fun _ _ => List.not_mem_nil

/-- What a handler has still to do, it does. -/
theorem Origin.performs {i c start t : ℕ} {client : IpAddr} {a : Effect} {rest : List (ℕ × Effect)}
    (horigin : Origin lib config evs i ⟨c, client, start, (t, a) :: rest⟩) :
    Origin lib config evs i ⟨c, client, start, rest⟩ ∧
      ∀ ip violation, a = .punish ip violation → Committed lib config evs ip violation start := by
  obtain ⟨ok, listener, remoteAddr, req, env, harrived, hsuffix⟩ := horigin
  refine ⟨⟨ok, listener, remoteAddr, req, env, harrived,
    (List.suffix_cons _ _).trans hsuffix⟩, ?_⟩
  rintro ip violation rfl
  have hperforms : (handler lib { env with rateOk := ok } config listener req
      remoteAddr).Performs (.punish ip violation) := ⟨t, hsuffix.subset List.mem_cons_self⟩
  refine ⟨i, c, ok, listener, remoteAddr, req, env, harrived, ?_⟩
  cases listener with
  | http =>
    obtain ⟨rfl, hoffence⟩ := Proxy.punishes_httpProxy.mp hperforms
    exact ⟨rfl, hoffence⟩
  | https =>
    obtain ⟨rfl, hoffence⟩ := Proxy.punishes_httpsProxy.mp hperforms
    exact ⟨rfl, hoffence⟩

theorem Accounted.act (hacc : Accounted lib config evs s log)
    (h : leads lib config .new evs = some s) {i : ℕ}
    (hstep : s.step lib config now (.act i) = some (s', marks)) :
    Accounted lib config (evs ++ [(now, .act i)]) s'
      (log ++ marks.map fun mark => (now, mark)) := by
  have heq : Server.act config s now i = some (s', marks) := hstep
  unfold Server.act at heq
  split at heq
  · rename_i c client start t a rest htask
    obtain ⟨horigin, hpunish⟩ := (hacc.tasks i _ htask).performs
    split at heq
    · rename_i hdue
      have htasks : ∀ i' task, (s.tasks.insert i ⟨c, client, start, rest⟩).get i' = some task →
          s.tasks.get i' = some task ∨ Origin lib config (evs ++ [(now, .act i)]) i' task := by
        intro i' task htask'
        rw [KeyMap.get_insert] at htask'
        split at htask'
        · rename_i hi
          cases htask'
          exact .inr (hi ▸ horigin.mono h hstep)
        · exact .inl htask'
      split at heq
      · obtain ⟨_, -, hs'⟩ := Option.map_eq_some_iff.mp heq
        cases hs'
        refine hacc.extend h hstep (fun _ _ hc => .inl hc) htasks fun ip violation hmem => ?_
        obtain ⟨rfl, rfl⟩ : ip = _ ∧ violation = _ := by simpa using hmem
        exact ⟨start, by omega, hpunish _ _ rfl⟩
      · cases heq
        exact hacc.extend h hstep (fun _ _ hc => .inl hc) htasks (by simp)
      · cases heq
        exact hacc.extend h hstep (fun _ _ hc => .inl hc) htasks (by simp)
    · cases heq
      exact hacc.quiet h hstep rfl rfl fun _ _ => List.not_mem_nil
  · cases heq
    exact hacc.quiet h hstep rfl rfl fun _ _ => List.not_mem_nil

theorem accounted_run (h : run lib config evs = some (s, log)) :
    Accounted lib config evs s log := by
  induction evs using List.reverseRecOn generalizing s log with
  | nil =>
    cases h
    exact accounted_nil
  | append_singleton evs e ih =>
    obtain ⟨now, e⟩ := e
    rw [run_concat] at h
    obtain ⟨⟨s₁, log₁⟩, h₁, hs⟩ := Option.bind_eq_some_iff.mp h
    obtain ⟨⟨s₂, marks⟩, hstep, heq⟩ := Option.map_eq_some_iff.mp hs
    cases heq
    have hleads := leads_of_run h₁
    cases e with
    | accept c listener remoteAddr => exact (ih h₁).accept hleads hstep
    | request i c req env => exact (ih h₁).request hleads hstep
    | act i => exact (ih h₁).act hleads hstep
    | banCleanup =>
      have hs := Option.some.inj hstep
      cases hs
      exact (ih h₁).quiet hleads hstep rfl rfl (by simp)
    | rateCleanup =>
      have hs := Option.some.inj hstep
      cases hs
      exact (ih h₁).quiet hleads hstep rfl rfl fun _ _ => List.not_mem_nil

/-! ## Refusals -/

/-- A connection is refused from an address that is banned at that moment. -/
theorem banned_of_refused {ip : IpAddr} (hstep : s.step lib config now e = some (s', marks))
    (hmem : .refused ip ∈ marks) : s.banManager.isBanned now ip = true := by
  cases e with
  | accept c listener remoteAddr =>
    have heq := Option.some.inj hstep
    unfold Server.accept at heq
    split at heq
    · cases heq
      cases hmem
    · simp only at heq
      split at heq
      · rename_i hbanned
        cases heq
        cases List.mem_singleton.mp hmem
        rw [BanManager.check_eq] at hbanned
        exact hbanned
      · cases heq
        cases List.mem_singleton.mp hmem
  | request i c req env =>
    have heq := Option.some.inj hstep
    unfold Server.request at heq
    split at heq
    · cases heq
      cases List.mem_singleton.mp hmem
    · cases heq
      cases hmem
  | act i =>
    have heq : Server.act config s now i = some (s', marks) := hstep
    unfold Server.act at heq
    split at heq
    · split at heq
      · split at heq
        · obtain ⟨_, -, hs⟩ := Option.map_eq_some_iff.mp heq
          cases hs
          simp at hmem
        · cases heq
          cases List.mem_singleton.mp hmem
        · cases heq
          cases List.mem_singleton.mp hmem
      · cases heq
        cases hmem
    · cases heq
      cases hmem
  | banCleanup =>
    cases hstep
    cases List.mem_singleton.mp hmem
  | rateCleanup =>
    cases hstep
    cases hmem

end Server

theorem punish_of_bansUntil {config : BanConfig} {ip : IpAddr} {e : ℕ × BanEvent} {T : ℕ}
    (h : bansUntil config ip e = some T) :
    ∃ violation, e = (e.1, .punish ip violation) ∧
      T = e.1 + fromSecs (config.durationSec violation) := by
  obtain ⟨now, e⟩ := e
  cases e with
  | punish ip' violation =>
    unfold bansUntil at h
    simp only at h
    split at h
    · rename_i hip
      obtain rfl := hip.1
      exact ⟨violation, rfl, (Option.some.inj h).symm⟩
    · cases h
  | check ip' => cases h
  | cleanup => cases h

theorem mem_of_lastUntil {config : BanConfig} {ip : IpAddr} {evs : List (ℕ × BanEvent)} {T : ℕ}
    (h : lastUntil config ip evs = some T) : ∃ e ∈ evs, bansUntil config ip e = some T := by
  induction evs using List.reverseRecOn with
  | nil => cases h
  | append_singleton evs e ih =>
    rw [lastUntil_concat, Option.or_eq_some_iff] at h
    rcases h with h | ⟨-, h⟩
    · exact ⟨e, List.mem_append_right _ (List.mem_singleton_self e), h⟩
    · obtain ⟨e', he', hT⟩ := ih h
      exact ⟨e', List.mem_append_left _ he', hT⟩

/-- A ban that still runs is one of the punishments in the log. -/
theorem Logged.punished_of_banned {config : Config} {now : ℕ} {m : BanManager}
    {log : List (ℕ × Mark)} (h : Logged config now m log) {ip : IpAddr}
    (hbanned : m.isBanned now ip = true) :
    ∃ y violation, (y, .punished ip violation) ∈ log ∧
      now ≤ y + fromSecs (config.ban.durationSec violation) := by
  have hle : ∀ e ∈ banLog log, e.1 ≤ now := by
    rintro ⟨t, b⟩ he
    obtain ⟨mark, hmem, -⟩ := mem_banLog.mp he
    exact h.le_now _ hmem
  have hrec : Recorded config.ban ip now (banLog log) m :=
    recorded_run (sorted_banLog h.sorted) hle h.run
  obtain ⟨entry, hget, hlive⟩ := (Option.any_eq_true _ _).mp hbanned
  have hlive : now ≤ entry.expireAt := of_decide_eq_true hlive
  unfold Recorded at hrec
  cases hlast : lastUntil config.ban ip (banLog log) with
  | none =>
    rw [hlast] at hrec
    exact absurd (hget.symm.trans hrec) (by simp)
  | some T =>
    rw [hlast] at hrec
    rcases hrec with hrec | ⟨hnone, -⟩
    · obtain rfl : entry = ⟨T⟩ := Option.some.inj (hget.symm.trans hrec)
      obtain ⟨e, he, hT⟩ := mem_of_lastUntil hlast
      obtain ⟨violation, hpunish, rfl⟩ := punish_of_bansUntil hT
      rw [hpunish] at he
      obtain ⟨mark, hmem, hmark⟩ := mem_banLog.mp he
      cases mark <;> cases hmark
      exact ⟨e.1, violation, hmem, hlive⟩
    · rw [hnone] at hget
      cases hget

theorem punished_of_refused {lib : Externals} {config : Config} {evs : List (ℕ × ServerEvent)}
    (hsorted : (evs.map Prod.fst).Pairwise (· ≤ ·)) {s : Server} {log : List (ℕ × Mark)}
    (hrun : Server.run lib config evs = some (s, log)) {x : ℕ} {ip : IpAddr}
    (hmem : (x, .refused ip) ∈ log) :
    ∃ y ≤ x, ∃ violation, (y, .punished ip violation) ∈ log ∧
      x ≤ y + fromSecs (config.ban.durationSec violation) := by
  induction evs using List.reverseRecOn generalizing s log with
  | nil =>
    cases hrun
    cases hmem
  | append_singleton evs e ih =>
    obtain ⟨now, e⟩ := e
    rw [Server.run_concat] at hrun
    obtain ⟨⟨s₁, log₁⟩, h₁, hs⟩ := Option.bind_eq_some_iff.mp hrun
    obtain ⟨⟨s₂, marks⟩, hstep, heq⟩ := Option.map_eq_some_iff.mp hs
    cases heq
    obtain ⟨hpre, hlast⟩ := times_concat.mp hsorted
    rcases List.mem_append.mp hmem with hold | hnew
    · obtain ⟨y, hle, violation, hpunished, hruns⟩ := ih hpre h₁ hold
      exact ⟨y, hle, violation, List.mem_append_left _ hpunished, hruns⟩
    · obtain ⟨mark, hmark, heq⟩ := List.mem_map.mp hnew
      cases heq
      have hlogged := logged_run hpre hlast h₁
      obtain ⟨y, violation, hpunished, hruns⟩ :=
        hlogged.punished_of_banned (Server.banned_of_refused hstep hmark)
      exact ⟨y, hlogged.le_now _ hpunished, violation, List.mem_append_left _ hpunished, hruns⟩

/-- **No one is refused without cause.** If a connection from `ip` is refused at `x`, then some
request whose client's address was `ip` came at `a` and committed a violation, was punished for it
at `y`, and the ban for it had not ended by `x`. -/
theorem refused_justified (lib : Externals) (config : Config) {evs : List (ℕ × ServerEvent)}
    (hsorted : (evs.map Prod.fst).Pairwise (· ≤ ·)) {s : Server} {log : List (ℕ × Mark)}
    (hrun : Server.run lib config evs = some (s, log)) {x : ℕ} {ip : IpAddr}
    (hmem : (x, .refused ip) ∈ log) :
    ∃ a y violation, Server.Committed lib config evs ip violation a ∧ a ≤ y ∧ y ≤ x ∧
      (y, .punished ip violation) ∈ log ∧
        x ≤ y + fromSecs (config.ban.durationSec violation) := by
  obtain ⟨y, hyx, violation, hpunished, hruns⟩ := punished_of_refused hsorted hrun hmem
  obtain ⟨a, hay, hcommitted⟩ := (Server.accounted_run hrun).punished y ip violation hpunished
  exact ⟨a, y, violation, hcommitted, hay, hyx, hpunished, hruns⟩

theorem refused_justified_waitsOut : ∃ s log,
    Server.run Proxy.sampleExternals secondConfig waitsOut = some (s, log) ∧
      ∃ a y violation, Server.Committed Proxy.sampleExternals secondConfig waitsOut
        (.v4 0x0A000001#32) violation a ∧ a ≤ y ∧ y ≤ fromSecs 1 ∧
          (y, .punished (.v4 0x0A000001#32) violation) ∈ log ∧
            fromSecs 1 ≤ y + fromSecs (secondConfig.ban.durationSec violation) := by
  have hlog : (Server.run Proxy.sampleExternals secondConfig waitsOut).map Prod.snd =
      some waitsOutLog := by
    decide +kernel
  obtain ⟨⟨s, log⟩, hrun, hlog⟩ := Option.map_eq_some_iff.mp hlog
  have hrefused : (fromSecs 1, .refused (.v4 0x0A000001#32)) ∈ log := by
    rw [show log = waitsOutLog from hlog]
    simp [waitsOutLog]
  exact ⟨s, log, hrun, refused_justified Proxy.sampleExternals secondConfig (by decide) hrun
    hrefused⟩

end OxidizedWall
