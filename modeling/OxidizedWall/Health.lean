import OxidizedWall.Config
import Mathlib.Data.List.Nodup

/-!
# Upstream health (`health.rs`)

The last known state of the upstream servers, and the task that probes them.

The task collects the addresses once and then probes them in rounds, one after the other. While a
probe is under way the rest of the server goes on asking for the state of any address, so the
task is a machine that is stepped by events: a tick of the interval, the outcome of the probe
under way, a query. `Checker.log` records what happened. `health_exact` says which addresses a
round probes, and that every query sees the outcome of the last probe.
-/

namespace OxidizedWall

structure HealthManager where
  statuses : KeyMap Str Bool

namespace HealthManager

/-- `HealthManager::new`. -/
def new : HealthManager := ⟨.empty⟩

/-- `HealthManager::is_healthy`: an upstream that was never probed counts as healthy. -/
def isHealthy (m : HealthManager) (addr : Str) : Bool :=
  (m.statuses.get addr).getD true

/-- The outcome of a probe is stored. -/
def insert (m : HealthManager) (addr : Str) (healthy : Bool) : HealthManager :=
  ⟨m.statuses.insert addr healthy⟩

theorem isHealthy_insert (m : HealthManager) (addr addr' : Str) (healthy : Bool) :
    (m.insert addr healthy).isHealthy addr' =
      if addr' = addr then healthy else m.isHealthy addr' := by
  unfold isHealthy insert
  rw [KeyMap.get_insert]
  split <;> rfl

end HealthManager

/-! ## The addresses to probe -/

/-- `if !upstreams.contains(addr) { upstreams.push(addr.clone()); }` -/
def pushNew (upstreams : List Str) (addr : Str) : List Str :=
  if upstreams.contains addr then upstreams else upstreams ++ [addr]

/-- The three loops of `spawn_checker` over the virtual hosts, in the order of their map. -/
def collectUpstreams (vhosts : List VHostConfig) : List Str :=
  vhosts.foldl (fun upstreams vhost =>
    vhost.routers.foldl (fun upstreams route => route.2.foldl pushNew upstreams) upstreams) []

theorem pushNew_spec {upstreams : List Str} (h : upstreams.Nodup) (addr : Str) :
    (pushNew upstreams addr).Nodup ∧
      ∀ a, a ∈ pushNew upstreams addr ↔ a ∈ upstreams ∨ a = addr := by
  unfold pushNew
  by_cases hold : addr ∈ upstreams
  · rw [if_pos (List.contains_iff_mem.mpr hold)]
    refine ⟨h, fun a => ⟨Or.inl, ?_⟩⟩
    rintro (ha | rfl)
    · exact ha
    · exact hold
  · rw [if_neg (by simpa using hold)]
    exact ⟨List.concat_eq_append ▸ List.Nodup.concat hold h, fun a => by simp⟩

theorem foldl_pushNew {addrs upstreams : List Str} (h : upstreams.Nodup) :
    (addrs.foldl pushNew upstreams).Nodup ∧
      ∀ a, a ∈ addrs.foldl pushNew upstreams ↔ a ∈ upstreams ∨ a ∈ addrs := by
  induction addrs generalizing upstreams with
  | nil => exact ⟨h, by simp⟩
  | cons addr addrs ih =>
    obtain ⟨hpush, hold⟩ := pushNew_spec h addr
    obtain ⟨hnodup, hmem⟩ := ih hpush
    refine ⟨hnodup, fun a => ?_⟩
    rw [List.foldl_cons, hmem, hold, List.mem_cons, or_assoc]

/-- Some route of some virtual host has this upstream. -/
def Config.HasUpstream (config : Config) (addr : Str) : Prop :=
  ∃ domain vhost, config.vhosts.get domain = some vhost ∧ ∃ route ∈ vhost.routers, addr ∈ route.2

/-- Whatever the order of the map, each address of the configuration is collected once. -/
theorem collectUpstreams_spec {config : Config} {vhosts : List (Str × VHostConfig)}
    (h : config.vhosts.IteratesAs vhosts) :
    (collectUpstreams (vhosts.map Prod.snd)).Nodup ∧
      ∀ addr, addr ∈ collectUpstreams (vhosts.map Prod.snd) ↔ config.HasUpstream addr := by
  have hflat : collectUpstreams (vhosts.map Prod.snd) =
      ((vhosts.map Prod.snd).flatMap fun vhost => vhost.routers.flatMap Prod.snd).foldl
        pushNew [] := by
    unfold collectUpstreams
    rw [List.foldl_flatMap]
    congr 1
    funext upstreams vhost
    rw [List.foldl_flatMap]
  obtain ⟨hnodup, hmem⟩ := foldl_pushNew List.nodup_nil
  rw [hflat]
  refine ⟨hnodup, fun addr => ?_⟩
  rw [hmem]
  simp only [List.not_mem_nil, false_or, List.mem_flatMap, List.mem_map]
  constructor
  · rintro ⟨vhost, ⟨⟨domain, _⟩, hentry, rfl⟩, route, hroute, haddr⟩
    exact ⟨domain, _, (h.mem_iff _ _).mp hentry, route, hroute, haddr⟩
  · rintro ⟨domain, vhost, hget, route, hroute, haddr⟩
    exact ⟨vhost, ⟨(domain, vhost), (h.mem_iff _ _).mpr hget, rfl⟩, route, hroute, haddr⟩

/-! ## The task -/

/-- What happens: a round begins, an address was probed, or a query was answered. -/
inductive HealthMark
  | round
  | probe (addr : Str) (healthy : Bool)
  | answer (addr : Str) (healthy : Bool)
  deriving DecidableEq

inductive HealthEvent
  /-- The interval ticks. -/
  | tick
  /-- The probe under way ends. -/
  | probed (healthy : Bool)
  /-- `is_healthy` is called. -/
  | query (addr : Str)
  deriving DecidableEq

/-- The manager and its task. `left` is the rest of the round, with the address being probed at
its head; between two rounds it is empty, and the task waits for the next tick. -/
structure Checker where
  manager : HealthManager
  upstreams : List Str
  left : List Str
  log : List HealthMark

namespace Checker

/-- `HealthManager::spawn_checker`, up to its first tick. -/
def spawn (vhosts : List VHostConfig) : Checker := ⟨.new, collectUpstreams vhosts, [], []⟩

def step (s : Checker) : HealthEvent → Checker
  | .tick =>
    if s.left = [] then { s with left := s.upstreams, log := s.log ++ [.round] } else s
  | .probed healthy =>
    match s.left with
    | [] => s
    | addr :: left =>
      { s with
        manager := s.manager.insert addr healthy
        left := left
        log := s.log ++ [.probe addr healthy] }
  | .query addr => { s with log := s.log ++ [.answer addr (s.manager.isHealthy addr)] }

def run (s : Checker) (evs : List HealthEvent) : Checker := evs.foldl step s

theorem run_concat (s : Checker) (evs : List HealthEvent) (e : HealthEvent) :
    s.run (evs ++ [e]) = (s.run evs).step e := List.foldl_append

end Checker

/-! ## What a round probes, and what a query sees -/

/-- The address of a probe. -/
def HealthMark.probed? : HealthMark → Option Str
  | .probe addr _ => some addr
  | _ => none

/-- The addresses probed, in order. -/
def probed (log : List HealthMark) : List Str := log.filterMap HealthMark.probed?

/-- The outcome of a probe of the address. -/
def HealthMark.outcome? (addr : Str) : HealthMark → Option Bool
  | .probe addr' healthy => if addr' = addr then some healthy else none
  | _ => none

/-- The outcome of the last probe of the address, or `true` if there was none. -/
def lastOutcome (log : List HealthMark) (addr : Str) : Bool :=
  (log.reverse.findSome? (HealthMark.outcome? addr)).getD true

theorem lastOutcome_concat (log : List HealthMark) (m : HealthMark) (addr : Str) :
    lastOutcome (log ++ [m]) addr = (m.outcome? addr).getD (lastOutcome log addr) := by
  unfold lastOutcome
  rw [List.reverse_concat, List.findSome?_cons]
  cases m.outcome? addr <;> rfl

theorem probed_concat (log : List HealthMark) (m : HealthMark) :
    probed (log ++ [m]) = probed log ++ m.probed?.toList := by
  unfold probed
  rw [List.filterMap_append]
  cases m <;> rfl

/-- A split of a list with one more element. -/
theorem concat_eq_split {α : Type} {l p q : List α} {a m : α} (h : l ++ [m] = p ++ a :: q) :
    (l = p ∧ m = a ∧ q = []) ∨ ∃ q', l = p ++ a :: q' ∧ q = q' ++ [m] := by
  rcases List.eq_nil_or_concat q with rfl | ⟨q', b, rfl⟩
  · obtain ⟨hl, hm⟩ := List.append_inj' h rfl
    exact .inl ⟨hl, List.singleton_inj.mp hm, rfl⟩
  · rw [List.concat_eq_append, ← List.cons_append, ← List.append_assoc] at h
    obtain ⟨hl, hm⟩ := List.append_inj' h rfl
    exact .inr ⟨q', hl, by rw [List.concat_eq_append, List.singleton_inj.mp hm]⟩

/-- The rounds of a log, when `left` is the rest of the last one. -/
structure Rounds (upstreams left : List Str) (log : List HealthMark) : Prop where
  complete : ∀ p mid q, log = p ++ .round :: mid ++ .round :: q → .round ∉ mid →
    probed mid = upstreams
  current : ∀ p mid, log = p ++ .round :: mid → .round ∉ mid → probed mid ++ left = upstreams
  before : .round ∉ log → probed log = [] ∧ left = []

namespace Rounds

variable {upstreams left left' : List Str} {log : List HealthMark} {m : HealthMark}

theorem nil : Rounds upstreams [] [] :=
  ⟨by simp, by simp, fun _ => ⟨rfl, rfl⟩⟩

/-- A round may begin once the last one is over. -/
theorem round (h : Rounds upstreams [] log) : Rounds upstreams upstreams (log ++ [.round]) := by
  refine ⟨fun p mid q heq hmid => ?_, fun p mid heq hmid => ?_, fun hno => ?_⟩
  · rcases concat_eq_split heq with ⟨hlog, -, -⟩ | ⟨q', hlog, -⟩
    · rw [← h.current p mid hlog hmid, List.append_nil]
    · exact h.complete p mid q' hlog hmid
  · rcases concat_eq_split heq with ⟨-, -, rfl⟩ | ⟨mid', -, rfl⟩
    · rfl
    · simp at hmid
  · simp at hno

/-- Within a round, what is probed is taken off the rest. -/
theorem mark (h : Rounds upstreams left log) (hm : m ≠ .round)
    (hleft : m.probed?.toList ++ left' = left) : Rounds upstreams left' (log ++ [m]) := by
  refine ⟨fun p mid q heq hmid => ?_, fun p mid heq hmid => ?_, fun hno => ?_⟩
  · rcases concat_eq_split heq with ⟨-, hround, -⟩ | ⟨q', hlog, -⟩
    · exact absurd hround hm
    · exact h.complete p mid q' hlog hmid
  · rcases concat_eq_split heq with ⟨-, hround, -⟩ | ⟨mid', hlog, rfl⟩
    · exact absurd hround hm
    · rw [probed_concat, List.append_assoc, hleft]
      exact h.current p mid' hlog fun hmem => hmid (List.mem_append_left _ hmem)
  · obtain ⟨hprobed, hnil⟩ := h.before fun hmem => hno (List.mem_append_left _ hmem)
    rw [hnil, List.append_eq_nil_iff] at hleft
    rw [probed_concat, hprobed, hleft.1]
    exact ⟨rfl, hleft.2⟩

end Rounds

/-- The manager knows the last outcomes, and so did every answer. -/
structure Answered (manager : HealthManager) (log : List HealthMark) : Prop where
  answer : ∀ p addr healthy q, log = p ++ .answer addr healthy :: q →
    healthy = lastOutcome p addr
  isHealthy : ∀ addr, manager.isHealthy addr = lastOutcome log addr

namespace Answered

variable {manager : HealthManager} {log : List HealthMark}

theorem nil : Answered .new [] := ⟨by simp, fun _ => rfl⟩

theorem mark (h : Answered manager log) {m : HealthMark} {manager' : HealthManager}
    (hm : ∀ addr healthy, m = .answer addr healthy → healthy = manager.isHealthy addr)
    (hnew : ∀ addr, manager'.isHealthy addr = (m.outcome? addr).getD (manager.isHealthy addr)) :
    Answered manager' (log ++ [m]) := by
  refine ⟨fun p addr healthy q heq => ?_, fun addr => ?_⟩
  · rcases concat_eq_split heq with ⟨rfl, hanswer, -⟩ | ⟨q', hlog, -⟩
    · rw [hm addr healthy hanswer, h.isHealthy]
    · exact h.answer p addr healthy q' hlog
  · rw [lastOutcome_concat, hnew, h.isHealthy]

end Answered

namespace Checker

theorem step_spec {s : Checker} (hrounds : Rounds s.upstreams s.left s.log)
    (hanswered : Answered s.manager s.log) (e : HealthEvent) :
    (s.step e).upstreams = s.upstreams ∧
      Rounds s.upstreams (s.step e).left (s.step e).log ∧
      Answered (s.step e).manager (s.step e).log := by
  cases e with
  | tick =>
    unfold step
    by_cases hleft : s.left = []
    · simp only [if_pos hleft]
      rw [hleft] at hrounds
      exact ⟨trivial, hrounds.round, hanswered.mark (by simp) fun _ => rfl⟩
    · simp only [if_neg hleft]
      exact ⟨trivial, hrounds, hanswered⟩
  | probed healthy =>
    unfold step
    cases hleft : s.left with
    | nil =>
      simp only [hleft]
      rw [hleft] at hrounds
      exact ⟨trivial, hrounds, hanswered⟩
    | cons addr left =>
      rw [hleft] at hrounds
      refine ⟨rfl, hrounds.mark (by simp) rfl, hanswered.mark (by simp) fun addr' => ?_⟩
      rw [HealthManager.isHealthy_insert]
      unfold HealthMark.outcome?
      simp only [eq_comm]
      split <;> rfl
  | query addr =>
    refine ⟨rfl, hrounds.mark (by simp) rfl, hanswered.mark ?_ fun _ => rfl⟩
    rintro addr' healthy ⟨⟩
    rfl

theorem run_spec (vhosts : List VHostConfig) (evs : List HealthEvent) :
    ((spawn vhosts).run evs).upstreams = collectUpstreams vhosts ∧
      Rounds (collectUpstreams vhosts) ((spawn vhosts).run evs).left ((spawn vhosts).run evs).log ∧
      Answered ((spawn vhosts).run evs).manager ((spawn vhosts).run evs).log := by
  induction evs using List.reverseRecOn with
  | nil => exact ⟨rfl, .nil, .nil⟩
  | append_singleton evs e ih =>
    obtain ⟨hups, hrounds, hanswered⟩ := ih
    rw [run_concat]
    rw [← hups] at hrounds
    obtain ⟨hups', hrounds', hanswered'⟩ := step_spec hrounds hanswered e
    rw [hups] at hups' hrounds'
    exact ⟨hups', hrounds', hanswered'⟩

end Checker

/-- What a run shows at any moment. -/
structure HealthExact (config : Config) (s : Checker) : Prop where
  /-- Between two beginnings of a round, each address of the configuration is probed once. -/
  complete : ∀ p mid q, s.log = p ++ .round :: mid ++ .round :: q → .round ∉ mid →
    (probed mid).Nodup ∧ ∀ addr, addr ∈ probed mid ↔ config.HasUpstream addr
  /-- What the last round has probed and what it has still to probe is each address once. -/
  current : ∀ p mid, s.log = p ++ .round :: mid → .round ∉ mid →
    (probed mid ++ s.left).Nodup ∧ ∀ addr, addr ∈ probed mid ++ s.left ↔ config.HasUpstream addr
  before : .round ∉ s.log → probed s.log = []
  answer : ∀ p addr healthy q, s.log = p ++ .answer addr healthy :: q →
    healthy = lastOutcome p addr
  isHealthy : ∀ addr, s.manager.isHealthy addr = lastOutcome s.log addr

/-- **Health tracking is exact**, in every run of the task and for every order of the map. -/
theorem health_exact {config : Config} {vhosts : List (Str × VHostConfig)}
    (h : config.vhosts.IteratesAs vhosts) (evs : List HealthEvent) :
    HealthExact config ((Checker.spawn (vhosts.map Prod.snd)).run evs) := by
  obtain ⟨hnodup, hmem⟩ := collectUpstreams_spec h
  obtain ⟨-, hrounds, hanswered⟩ := Checker.run_spec (vhosts.map Prod.snd) evs
  refine ⟨fun p mid q heq hmid => ?_, fun p mid heq hmid => ?_, fun hno => (hrounds.before hno).1,
    hanswered.answer, hanswered.isHealthy⟩
  · rw [hrounds.complete p mid q heq hmid]
    exact ⟨hnodup, hmem⟩
  · rw [hrounds.current p mid heq hmid]
    exact ⟨hnodup, hmem⟩

/-- Two routes of one virtual host that share an upstream. -/
def sharedUpstream : VHostConfig :=
  ⟨"certs/a.pem".toList, "certs/a.key".toList,
    [("/api".toList, ["u1".toList, "u2".toList]), ("/".toList, ["u2".toList])], .empty⟩

def sharedConfig : Config :=
  ⟨⟨60, 5, 30, 600⟩, ⟨8192, 100, 1048576, 10, 0⟩, ⟨60, 300, 3600, 300⟩,
    KeyMap.empty.insert "a".toList sharedUpstream⟩

/-- A query while the second probe of a round is under way. -/
theorem health_exact_midRound : HealthExact sharedConfig ((Checker.spawn [sharedUpstream]).run
    [.tick, .probed false, .query "u2".toList, .query "u1".toList, .probed true, .tick]) :=
  health_exact (show sharedConfig.vhosts.IteratesAs [("a".toList, sharedUpstream)] from
    KeyMap.iteratesAs_nil.cons rfl sharedUpstream) _

example : ((Checker.spawn [sharedUpstream]).run
    [.tick, .probed false, .query "u2".toList, .query "u1".toList, .probed true]).log =
      [.round, .probe "u1".toList false, .answer "u2".toList true, .answer "u1".toList false,
        .probe "u2".toList true] := by decide

end OxidizedWall
