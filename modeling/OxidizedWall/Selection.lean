import OxidizedWall.Balance

/-!
# Selection while the health changes

A call of `select_upstream` takes its ticket and then asks for one upstream after another. Other
calls take tickets in between, and the task of the health checker stores what its probes find.

1. `selected_seen`: what a call returns was so at moments of this very call.
2. `selected_share`: an upstream that stays healthy gets its share, whatever the others do.
-/

namespace OxidizedWall

namespace Proxy

/-- `counter.fetch_add(1)` and `health_manager.is_healthy(addr)`. -/
inductive SelectOp
  | fetchAdd
  | isHealthy (addr : Str)
  deriving DecidableEq

@[reducible] def SelectOp.Ans : SelectOp → Type
  | .fetchAdd => ℕ
  | .isHealthy _ => Bool

/-- What the calls for one route share: the counter, and the health manager with its task. -/
structure Balancer (w : ℕ) where
  counter : BitVec w
  checker : Checker

/-- The loop of `select_upstream` over the `i` that are left. -/
def scanTask (w : ℕ) (upstreams : List Str) (startIdx : ℕ) :
    List ℕ → Prog SelectOp SelectOp.Ans (Option ℕ)
  | [] => return none
  | i :: is =>
    let idx := (startIdx + i) % 2 ^ w % upstreams.length
    match upstreams[idx]? with
    | none => scanTask w upstreams startIdx is
    | some addr => do
      if ← Prog.perform (SelectOp.isHealthy addr) then return some idx
      else scanTask w upstreams startIdx is

/-- `select_upstream`, one access at a time. It returns the position that it selects. -/
def selectUpstreamTask (w : ℕ) (upstreams : List Str) :
    Prog SelectOp SelectOp.Ans (Option ℕ) := do
  let startIdx ← Prog.perform SelectOp.fetchAdd
  scanTask w upstreams startIdx (List.range upstreams.length)

/-- How the shared state answers a call. -/
def Balancer.call {w : ℕ} : (o : SelectOp) → Balancer w → o.Ans × Balancer w
  | .fetchAdd, b => (b.counter.toNat, { b with counter := b.counter + 1 })
  | .isHealthy addr, b =>
    (b.checker.manager.isHealthy addr, { b with checker := b.checker.step (.query addr) })

/-- The calls for one route, beside the task of the health checker. -/
def routeSystem (w : ℕ) (upstreams : List Str) :
    TaskSystem SelectOp SelectOp.Ans (Option ℕ) Unit HealthEvent (Balancer w) where
  start _ := selectUpstreamTask w upstreams
  call := Balancer.call
  outside e b := { b with checker := b.checker.step e }

/-- The checker has just been spawned, and no request has come yet. -/
def Balancer.spawn {w : ℕ} (c : BitVec w) (vhosts : List VHostConfig) :
    Pool SelectOp SelectOp.Ans (Option ℕ) (Balancer w) := ⟨⟨c, .spawn vhosts⟩, []⟩

variable {w : ℕ} {upstreams : List Str} {startIdx : ℕ} {is : List ℕ} {r : Option ℕ}

/-- The position that the loop looks at in the turn `i`. -/
def position (w : ℕ) (upstreams : List Str) (startIdx i : ℕ) : ℕ :=
  (startIdx + i) % 2 ^ w % upstreams.length

theorem position_lt {n : ℕ} (hn : n < upstreams.length) (startIdx i : ℕ) :
    position w upstreams startIdx i < upstreams.length :=
  Nat.mod_lt _ (Nat.zero_lt_of_lt hn)

/-- The turns of a whole loop, while the index does not wrap. -/
theorem position_eq {i : ℕ} (h : startIdx + upstreams.length ≤ 2 ^ w) (hi : i < upstreams.length) :
    position w upstreams startIdx i = (startIdx + i) % upstreams.length := by
  unfold position
  rw [Nat.mod_eq_of_lt (a := startIdx + i) (by omega)]

theorem scanTask_cons {i : ℕ} {addr : Str}
    (h : upstreams[position w upstreams startIdx i]? = some addr) :
    scanTask w upstreams startIdx (i :: is) = .call (.isHealthy addr) fun healthy =>
      if healthy then .ret (some (position w upstreams startIdx i))
      else scanTask w upstreams startIdx is := by
  show (match upstreams[position w upstreams startIdx i]? with
    | none => _
    | some addr => _) = _
  rw [h]
  simp only [Prog.perform_bind]
  congr 1

theorem selectUpstreamTask_eq (w : ℕ) (upstreams : List Str) :
    selectUpstreamTask w upstreams = .call .fetchAdd fun startIdx =>
      scanTask w upstreams startIdx (List.range upstreams.length) := rfl

/-! ## One call -/

theorem scanTask_skip {i : ℕ} (h : upstreams[position w upstreams startIdx i]? = none) :
    scanTask w upstreams startIdx (i :: is) = scanTask w upstreams startIdx is := by
  show (match upstreams[position w upstreams startIdx i]? with
    | none => _
    | some addr => _) = _
  rw [h]

theorem run_scanTask (b : Balancer w) :
    ((scanTask w upstreams startIdx is).run Balancer.call b).1 = is.findSome? fun i =>
      if healthyAt upstreams b.checker.manager (position w upstreams startIdx i)
      then some (position w upstreams startIdx i) else none := by
  induction is generalizing b with
  | nil => rfl
  | cons i is ih =>
    rw [List.findSome?_cons]
    cases hup : upstreams[position w upstreams startIdx i]? with
    | none =>
      rw [scanTask_skip hup, ih b, healthyAt, hup]
      rfl
    | some addr =>
      rw [scanTask_cons hup, Prog.run_call, healthyAt, hup, Option.any_some]
      by_cases hh : b.checker.manager.isHealthy addr = true
      · simp only [Balancer.call, hh, if_pos]
        rfl
      · simp only [Balancer.call, hh]
        exact ih { b with checker := b.checker.step (.query addr) }

/-- Undisturbed, this is `selectTask`. -/
theorem run_selectUpstreamTask (b : Balancer w) :
    ((selectUpstreamTask w upstreams).run Balancer.call b).1 =
        firstHealthyPosition w upstreams b.counter.toNat b.checker.manager :=
  run_scanTask _

theorem range_eq_append_cons {n d : ℕ} {before after : List ℕ}
    (h : List.range n = before ++ d :: after) : d < n ∧ before = List.range d := by
  have hlength := congrArg List.length h
  rw [List.length_range, List.length_append, List.length_cons] at hlength
  have hd : (List.range n)[before.length]? = some d := by
    rw [h, List.getElem?_append_right le_rfl, Nat.sub_self, List.getElem?_cons_zero]
  rw [List.getElem?_range (by omega)] at hd
  obtain rfl := Option.some.inj hd
  have htake := congrArg (List.take before.length) h
  rw [List.take_left, List.take_range, Nat.min_eq_left (by omega)] at htake
  exact ⟨by omega, htake.symm⟩

/-- The call of the turn `i`, and its answer. -/
def turn (w : ℕ) (upstreams : List Str) (startIdx : ℕ) (healthy : Bool) (i : ℕ) :
    Option (Σ o, SelectOp.Ans o) :=
  (upstreams[position w upstreams startIdx i]?).map fun addr => ⟨.isHealthy addr, healthy⟩

/-- The loop finds every upstream unhealthy, or all of them up to the one that it selects. -/
theorem traces_scanTask {calls : List (Σ o, SelectOp.Ans o)}
    (hpos : ∀ i ∈ is, position w upstreams startIdx i < upstreams.length)
    (h : (scanTask w upstreams startIdx is).Traces calls r) :
    (r = none ∧ calls.map some = is.map (turn w upstreams startIdx false)) ∨
    ∃ before i after, is = before ++ i :: after ∧ r = some (position w upstreams startIdx i) ∧
      calls.map some = before.map (turn w upstreams startIdx false) ++
        [turn w upstreams startIdx true i] := by
  induction is generalizing calls with
  | nil =>
    obtain ⟨rfl, rfl⟩ := Prog.traces_ret.mp h
    exact .inl ⟨rfl, rfl⟩
  | cons i is ih =>
    have hlt := hpos i List.mem_cons_self
    have hup := List.getElem?_eq_getElem hlt
    rw [scanTask_cons hup] at h
    obtain ⟨healthy, rest, rfl, hrest⟩ := Prog.traces_call.mp h
    have hturn : ∀ healthy, turn w upstreams startIdx healthy i =
        some ⟨.isHealthy upstreams[position w upstreams startIdx i], healthy⟩ := fun healthy => by
      unfold turn
      rw [hup]
      rfl
    cases healthy with
    | true =>
      obtain ⟨rfl, rfl⟩ := Prog.traces_ret.mp (by simpa using hrest)
      exact .inr ⟨[], i, is, rfl, rfl, by rw [hturn]; rfl⟩
    | false =>
      rcases ih (fun j hj => hpos j (List.mem_cons_of_mem _ hj)) (by simpa using hrest) with
        ⟨rfl, hcalls⟩ | ⟨before, j, after, rfl, hr, hcalls⟩
      · exact .inl ⟨rfl, by rw [List.map_cons, List.map_cons, hcalls, hturn]⟩
      · exact .inr ⟨i :: before, j, after, rfl, hr,
          by rw [List.map_cons, List.map_cons, hcalls, hturn, List.cons_append]⟩

/-! ## What a call sees -/

section
variable {c : BitVec w} {vhosts : List VHostConfig} {evs : List (PoolEvent Unit HealthEvent)}
  {i p : ℕ}

/-- The shared state after a run. -/
def Balancer.after (upstreams : List Str) (c : BitVec w) (vhosts : List VHostConfig)
    (evs : List (PoolEvent Unit HealthEvent)) :
    Pool SelectOp SelectOp.Ans (Option ℕ) (Balancer w) :=
  Pool.run (routeSystem w upstreams) (Balancer.spawn c vhosts) evs

/-- Every call takes one ticket. -/
theorem counter_after (upstreams : List Str) (c : BitVec w) (vhosts : List VHostConfig)
    (evs : List (PoolEvent Unit HealthEvent)) : ∃ taken ≤ evs.length,
      (Balancer.after upstreams c vhosts evs).state.counter = c + BitVec.ofNat w taken := by
  induction evs using List.reverseRecOn with
  | nil => exact ⟨0, le_rfl, (BitVec.add_zero c).symm⟩
  | append_singleton evs e ih =>
    obtain ⟨taken, hle, hcounter⟩ := ih
    unfold Balancer.after at hcounter ⊢
    rw [Pool.run_concat, List.length_append, List.length_singleton]
    rcases Pool.state_step (routeSystem w upstreams) _ e with
      ⟨o, -, hstate⟩ | ⟨x, -, hstate⟩ | hstate
    · rw [hstate]
      cases o with
      | fetchAdd =>
        refine ⟨taken + 1, Nat.succ_le_succ hle, ?_⟩
        show _ + 1 = _
        rw [hcounter, BitVec.ofNat_add, BitVec.add_assoc]
        rfl
      | isHealthy addr => exact ⟨taken, Nat.le_succ_of_le hle, hcounter⟩
    · rw [hstate]
      exact ⟨taken, Nat.le_succ_of_le hle, hcounter⟩
    · rw [hstate]
      exact ⟨taken, Nat.le_succ_of_le hle, hcounter⟩

/-- The checker runs as it does alone; the calls are queries to it. -/
theorem checker_after (upstreams : List Str) (c : BitVec w) (vhosts : List VHostConfig)
    (evs : List (PoolEvent Unit HealthEvent)) : ∃ hs,
      (Balancer.after upstreams c vhosts evs).state.checker = (Checker.spawn vhosts).run hs := by
  induction evs using List.reverseRecOn with
  | nil => exact ⟨[], rfl⟩
  | append_singleton evs e ih =>
    obtain ⟨hs, hchecker⟩ := ih
    unfold Balancer.after at hchecker ⊢
    rw [Pool.run_concat]
    rcases Pool.state_step (routeSystem w upstreams) _ e with
      ⟨o, -, hstate⟩ | ⟨x, -, hstate⟩ | hstate
    · rw [hstate]
      cases o with
      | fetchAdd => exact ⟨hs, hchecker⟩
      | isHealthy addr =>
        refine ⟨hs ++ [.query addr], ?_⟩
        rw [Checker.run_concat, ← hchecker]
        rfl
    · rw [hstate]
      refine ⟨hs ++ [x], ?_⟩
      rw [Checker.run_concat, ← hchecker]
      rfl
    · rw [hstate]
      exact ⟨hs, hchecker⟩

theorem isHealthy_after (addr : Str) :
    (Balancer.after upstreams c vhosts evs).state.checker.manager.isHealthy addr =
      lastOutcome (Balancer.after upstreams c vhosts evs).state.checker.log addr := by
  obtain ⟨hs, hchecker⟩ := checker_after upstreams c vhosts evs
  rw [hchecker]
  exact (Checker.run_spec vhosts hs).2.2.isHealthy addr

/-- At some moment the call `i` asks for the upstream at the position `p`, and that is the outcome
of the last probe of it, or `true` if it has not been probed. -/
def Sees (upstreams : List Str) (c : BitVec w) (vhosts : List VHostConfig)
    (evs : List (PoolEvent Unit HealthEvent)) (i p : ℕ) (healthy : Bool) : Prop :=
  ∃ pre post addr k, evs = pre ++ .act i :: post ∧
    (Balancer.after upstreams c vhosts pre).tasks[i]? = some (.call (.isHealthy addr) k) ∧
    upstreams[p]? = some addr ∧
    lastOutcome (Balancer.after upstreams c vhosts pre).state.checker.log addr = healthy

/-- At some moment the call `i` takes the ticket `startIdx`. -/
def Takes (upstreams : List Str) (c : BitVec w) (vhosts : List VHostConfig)
    (evs : List (PoolEvent Unit HealthEvent)) (i startIdx : ℕ) : Prop :=
  ∃ pre post k, evs = pre ++ .act i :: post ∧
    (Balancer.after upstreams c vhosts pre).tasks[i]? = some (.call .fetchAdd k) ∧
    (Balancer.after upstreams c vhosts pre).state.counter.toNat = startIdx

theorem sees_of_turn {x : Balancer w × SelectOp} {j : ℕ} {healthy : Bool}
    (hx : x ∈ Pool.history (routeSystem w upstreams) i (Balancer.spawn c vhosts) evs)
    (h : turn w upstreams startIdx healthy j =
      some (Pool.answered (routeSystem w upstreams) x)) :
    Sees upstreams c vhosts evs i (position w upstreams startIdx j) healthy := by
  obtain ⟨pre, post, k, hevs, htask, hstate⟩ := Pool.mem_history hx
  obtain ⟨addr, hup, hcall⟩ := Option.map_eq_some_iff.mp h
  obtain ⟨b, o⟩ := x
  obtain ⟨ho, hanswer⟩ := Sigma.mk.inj hcall
  simp only at ho hstate htask
  subst ho
  have hhealthy : healthy = b.checker.manager.isHealthy addr := eq_of_heq hanswer
  refine ⟨pre, post, addr, k, hevs, htask, hup, ?_⟩
  rw [hhealthy, hstate, ← isHealthy_after]
  rfl

theorem takes_of_mem {x : Balancer w × SelectOp}
    (hx : x ∈ Pool.history (routeSystem w upstreams) i (Balancer.spawn c vhosts) evs)
    (h : (⟨.fetchAdd, startIdx⟩ : Σ o, SelectOp.Ans o) =
      Pool.answered (routeSystem w upstreams) x) : Takes upstreams c vhosts evs i startIdx := by
  obtain ⟨pre, post, k, hevs, htask, hstate⟩ := Pool.mem_history hx
  obtain ⟨b, o⟩ := x
  obtain ⟨ho, hanswer⟩ := Sigma.mk.inj h
  simp only at ho hstate htask
  subst ho
  have hticket : startIdx = b.counter.toNat := eq_of_heq hanswer
  refine ⟨pre, post, k, hevs, htask, ?_⟩
  rw [hticket, hstate, Balancer.after]

/-- While the counter stays away from its end, so do the indices of every loop. -/
theorem Takes.add_le {startIdx : ℕ} (h : Takes upstreams c vhosts evs i startIdx)
    (hc : c.toNat + evs.length + upstreams.length ≤ 2 ^ w) :
    startIdx + upstreams.length ≤ 2 ^ w := by
  obtain ⟨pre, post, k, hevs, -, rfl⟩ := h
  obtain ⟨taken, hle, hcounter⟩ := counter_after upstreams c vhosts pre
  have hlength := congrArg List.length hevs
  rw [List.length_append, List.length_cons] at hlength
  rw [hcounter, BitVec.toNat_add, BitVec.toNat_ofNat, Nat.add_mod_mod]
  have hmod := Nat.mod_le (c.toNat + taken) (2 ^ w)
  omega

/-- **A selection is never stale.** In any interleaving of calls and probes, a call selects the
first upstream, from its ticket on, that it finds healthy by the last probe at the moment at which
it asks for it; it returns `None` only after it has found each of the upstreams unhealthy. -/
theorem selected_seen (hc : c.toNat + evs.length + upstreams.length ≤ 2 ^ w)
    (hret : (Balancer.after upstreams c vhosts evs).tasks[i]? = some (.ret r)) :
    ∃ startIdx, Takes upstreams c vhosts evs i startIdx ∧
      ((r = none ∧ ∀ p < upstreams.length, Sees upstreams c vhosts evs i p false) ∨
        ∃ d < upstreams.length, r = some ((startIdx + d) % upstreams.length) ∧
          Sees upstreams c vhosts evs i ((startIdx + d) % upstreams.length) true ∧
          ∀ j < d, Sees upstreams c vhosts evs i ((startIdx + j) % upstreams.length) false) := by
  obtain ⟨u, htraces⟩ := Pool.traces_history_start (List.getElem?_nil) hret
  rw [show (routeSystem w upstreams).start u = _ from selectUpstreamTask_eq w upstreams] at htraces
  obtain ⟨startIdx, rest, hcalls, hscan⟩ := Prog.traces_call.mp htraces
  obtain ⟨x, reads, hhistory, hx, rfl⟩ := List.map_eq_cons_iff.mp hcalls
  have hmem : ∀ y ∈ x :: reads,
      y ∈ Pool.history (routeSystem w upstreams) i (Balancer.spawn c vhosts) evs := fun y hy => by
    rwa [hhistory]
  have htakes : Takes upstreams c vhosts evs i startIdx :=
    takes_of_mem (hmem x List.mem_cons_self) hx.symm
  have hadd := htakes.add_le hc
  have hsees : ∀ healthy j, turn w upstreams startIdx healthy j ∈
      (reads.map (Pool.answered (routeSystem w upstreams))).map some → j < upstreams.length →
        Sees upstreams c vhosts evs i ((startIdx + j) % upstreams.length) healthy := by
    intro healthy j hj hlt
    obtain ⟨_, hanswered, hturn⟩ := List.mem_map.mp hj
    obtain ⟨y, hy, rfl⟩ := List.mem_map.mp hanswered
    rw [← position_eq hadd hlt]
    exact sees_of_turn (hmem y (List.mem_cons_of_mem _ hy)) hturn.symm
  refine ⟨startIdx, htakes, ?_⟩
  rcases traces_scanTask (fun j hj => position_lt (List.mem_range.mp hj) startIdx j) hscan with
    ⟨rfl, hall⟩ | ⟨before, d, after, hrange, rfl, hfound⟩
  · refine .inl ⟨rfl, fun p hp => ?_⟩
    obtain ⟨j, hj, rfl⟩ := List.mem_map.mp (Cyclic.mem_cycle.mpr hp : p ∈ Cyclic.cycle _ startIdx)
    refine hsees false j ?_ (List.mem_range.mp hj)
    rw [hall]
    exact List.mem_map_of_mem hj
  · obtain ⟨hd, rfl⟩ := range_eq_append_cons hrange
    refine .inr ⟨d, hd, by rw [position_eq hadd hd], hsees true d ?_ hd, fun j hj => ?_⟩
    · rw [hfound]
      exact List.mem_append_right _ (List.mem_singleton_self _)
    · refine hsees false j ?_ (hj.trans hd)
      rw [hfound]
      exact List.mem_append_left _ (List.mem_map_of_mem (List.mem_range.mpr hj))

/-- While a call goes round, one upstream recovers and the other one fails. -/
def crossing : List (PoolEvent Unit HealthEvent) :=
  [.start (), .act 0, .outside .tick, .outside (.probed false), .act 0, .outside (.probed true),
    .outside .tick, .outside (.probed true), .outside (.probed false), .act 0]

/-- It returns `None`, though at every moment some upstream counts as healthy. -/
theorem selected_seen_crossing :
    (∀ pre ∈ crossing.inits, ∃ p < 2, healthyAt ["u1".toList, "u2".toList] (Balancer.after
      ["u1".toList, "u2".toList] 0#64 [sharedUpstream] pre).state.checker.manager p = true) ∧
    ∀ p < 2, Sees ["u1".toList, "u2".toList] 0#64 [sharedUpstream] crossing 0 p false := by
  refine ⟨by decide +kernel, ?_⟩
  have hret : (Balancer.after ["u1".toList, "u2".toList] 0#64 [sharedUpstream] crossing).tasks[0]? =
      some (.ret none) := rfl
  obtain ⟨startIdx, -, ⟨-, hseen⟩ | ⟨d, -, hsome, -⟩⟩ := selected_seen (by decide) hret
  · exact hseen
  · cases hsome

end

/-! ## The share of an upstream -/

section
variable {c : BitVec w} {vhosts : List VHostConfig} {evs : List (PoolEvent Unit HealthEvent)}
  {p : ℕ} {s : Pool SelectOp SelectOp.Ans (Option ℕ) (Balancer w)}
  {held : List (Option ℕ × Prog SelectOp SelectOp.Ans (Option ℕ))}

/-- A call that holds this ticket, or none yet. If the ticket is for the position `p`, the call has
not looked at another one. -/
def Holds (w : ℕ) (upstreams : List Str) (p : ℕ) :
    Option ℕ × Prog SelectOp SelectOp.Ans (Option ℕ) → Prop
  | (none, task) => task = selectUpstreamTask w upstreams
  | (some startIdx, task) => startIdx < 2 ^ w ∧
    ((∃ is, task = scanTask w upstreams startIdx is ∧
        (startIdx % upstreams.length = p → is = List.range upstreams.length)) ∨
      ∃ r, task = .ret r ∧ (startIdx % upstreams.length = p → r = some p))

/-- The tickets that have been taken. -/
def taken (held : List (Option ℕ × Prog SelectOp SelectOp.Ans (Option ℕ))) : List ℕ :=
  held.filterMap Prod.fst

/-- The calls, with the tickets that they hold: these are the counter's values so far. -/
structure Ticketed (upstreams : List Str) (p : ℕ) (c : BitVec w)
    (s : Pool SelectOp SelectOp.Ans (Option ℕ) (Balancer w))
    (held : List (Option ℕ × Prog SelectOp SelectOp.Ans (Option ℕ))) : Prop where
  tasks : s.tasks = held.map Prod.snd
  holds : ∀ g ∈ held, Holds w upstreams p g
  counter : s.state.counter = c + BitVec.ofNat w (taken held).length
  perm : (taken held).Perm
    ((List.range (taken held).length).map fun j => (c + BitVec.ofNat w j).toNat)

/-- A task that holds no ticket takes one. -/
theorem taken_set_none {i : ℕ} {task : Prog SelectOp SelectOp.Ans (Option ℕ)}
    (h : held[i]? = some (none, task)) (startIdx : ℕ)
    (task' : Prog SelectOp SelectOp.Ans (Option ℕ)) :
    (taken (held.set i (some startIdx, task'))).Perm (startIdx :: taken held) := by
  obtain ⟨before, after, hold, hnew⟩ := Pool.filterMap_set h Prod.fst (some startIdx, task')
  unfold taken
  rw [hold, hnew, List.append_assoc, List.append_assoc]
  exact List.perm_middle

/-- Another step leaves the tickets as they are. -/
theorem taken_set {i : ℕ} {t : Option ℕ} {task task' : Prog SelectOp SelectOp.Ans (Option ℕ)}
    (h : held[i]? = some (t, task)) : taken (held.set i (t, task')) = taken held := by
  obtain ⟨before, after, hold, hnew⟩ := Pool.filterMap_set h Prod.fst (t, task')
  exact hnew.trans hold.symm

/-- A call whose ticket is for a healthy position selects it. -/
theorem Holds.read {startIdx : ℕ} {o : SelectOp} {k : o.Ans → Prog SelectOp SelectOp.Ans (Option ℕ)}
    (h : Holds w upstreams p (some startIdx, .call o k)) {b : Balancer w}
    (hp : healthyAt upstreams b.checker.manager p = true) :
    (Balancer.call o b).2.counter = b.counter ∧
      Holds w upstreams p (some startIdx, k (Balancer.call o b).1) := by
  obtain ⟨hlt, ⟨is, htask, hfor⟩ | ⟨r, htask, -⟩⟩ := h
  · have hn := lt_of_healthyAt hp
    cases is with
    | nil => cases htask
    | cons i is =>
      have hpos : position w upstreams startIdx i < upstreams.length := position_lt hn startIdx i
      have hup := List.getElem?_eq_getElem hpos
      rw [scanTask_cons hup] at htask
      obtain ⟨rfl, hk⟩ := Prog.call.inj htask
      obtain rfl := eq_of_heq hk
      -- the first turn of a ticket for `p`
      have hfirst : startIdx % upstreams.length = p → position w upstreams startIdx i = p := by
        intro hticket
        have hrange : List.range upstreams.length = [] ++ i :: is := (hfor hticket).symm
        obtain rfl : i = 0 := List.range_eq_nil.mp (range_eq_append_cons hrange).2.symm
        unfold position
        rw [Nat.add_zero, Nat.mod_eq_of_lt hlt, hticket]
      refine ⟨rfl, hlt, ?_⟩
      simp only [Balancer.call]
      by_cases hh : b.checker.manager.isHealthy upstreams[position w upstreams startIdx i] = true
      · exact .inr ⟨_, if_pos hh, fun hticket => congrArg some (hfirst hticket)⟩
      · refine .inl ⟨is, if_neg hh, fun hticket => ?_⟩
        rw [← hfirst hticket, healthyAt, hup] at hp
        exact absurd hp hh
  · cases htask

theorem Ticketed.take {i : ℕ} {task : Prog SelectOp SelectOp.Ans (Option ℕ)}
    (h : Ticketed upstreams p c s held) (hget : held[i]? = some (none, task)) :
    Ticketed upstreams p c ⟨{ s.state with counter := s.state.counter + 1 }, s.tasks.set i
        (scanTask w upstreams s.state.counter.toNat (List.range upstreams.length))⟩
      (held.set i (some s.state.counter.toNat,
        scanTask w upstreams s.state.counter.toNat (List.range upstreams.length))) := by
  have hperm := taken_set_none hget s.state.counter.toNat
    (scanTask w upstreams s.state.counter.toNat (List.range upstreams.length))
  have hlength := hperm.length_eq
  rw [List.length_cons] at hlength
  refine ⟨?_, fun g hg => ?_, ?_, ?_⟩
  · rw [List.map_set, ← h.tasks]
  · rcases List.mem_or_eq_of_mem_set hg with hg | rfl
    · exact h.holds g hg
    · exact ⟨s.state.counter.isLt, .inl ⟨_, rfl, fun _ => rfl⟩⟩
  · show s.state.counter + 1 = _
    rw [hlength, h.counter, BitVec.ofNat_add, BitVec.add_assoc]
    rfl
  · rw [hlength, List.range_succ, List.map_append, List.map_singleton, ← h.counter]
    exact hperm.trans ((h.perm.cons _).trans (List.perm_append_singleton _ _).symm)

theorem Ticketed.read {i startIdx : ℕ} {task task' : Prog SelectOp SelectOp.Ans (Option ℕ)}
    {b : Balancer w} (h : Ticketed upstreams p c s held)
    (hget : held[i]? = some (some startIdx, task)) (hcounter : b.counter = s.state.counter)
    (hholds : Holds w upstreams p (some startIdx, task')) :
    Ticketed upstreams p c ⟨b, s.tasks.set i task'⟩ (held.set i (some startIdx, task')) := by
  refine ⟨?_, fun g hg => ?_, ?_, ?_⟩
  · rw [List.map_set, ← h.tasks]
  · rcases List.mem_or_eq_of_mem_set hg with hg | rfl
    · exact h.holds g hg
    · exact hholds
  · rw [taken_set hget]
    exact hcounter.trans h.counter
  · rw [taken_set hget]
    exact h.perm

theorem Ticketed.step (h : Ticketed upstreams p c s held)
    (hp : healthyAt upstreams s.state.checker.manager p = true) (e : PoolEvent Unit HealthEvent) :
    ∃ held', Ticketed upstreams p c (s.step (routeSystem w upstreams) e) held' := by
  cases e with
  | start k =>
    have htaken : taken (held ++ [(none, selectUpstreamTask w upstreams)]) = taken held := by
      unfold taken
      rw [List.filterMap_append, List.filterMap_cons_none rfl, List.filterMap_nil, List.append_nil]
    refine ⟨held ++ [(none, selectUpstreamTask w upstreams)], ?_, fun g hg => ?_, ?_, ?_⟩
    · rw [List.map_append, ← h.tasks]
      rfl
    · rcases List.mem_append.mp hg with hg | hg
      · exact h.holds g hg
      · rw [List.mem_singleton.mp hg]
        exact rfl
    · rw [htaken]
      exact h.counter
    · rw [htaken]
      exact h.perm
  | outside x => exact ⟨held, h.tasks, h.holds, h.counter, h.perm⟩
  | act i =>
    cases htask : s.tasks[i]? with
    | none => exact ⟨held, by simpa only [Pool.step, htask] using h⟩
    | some task =>
      cases task with
      | ret a => exact ⟨held, by simpa only [Pool.step, htask] using h⟩
      | call o k =>
        rw [Pool.step_act htask]
        have hmem := htask
        rw [h.tasks, List.getElem?_map] at hmem
        obtain ⟨⟨t, task⟩, hget, heq⟩ := Option.map_eq_some_iff.mp hmem
        simp only at heq
        subst heq
        have hholds := h.holds _ (List.mem_of_getElem? hget)
        cases t with
        | none =>
          obtain ⟨rfl, hk⟩ := Prog.call.inj (hholds.trans (selectUpstreamTask_eq w upstreams))
          obtain rfl := eq_of_heq hk
          exact ⟨_, h.take hget⟩
        | some startIdx =>
          obtain ⟨hcounter, hread⟩ := Holds.read hholds hp
          exact ⟨_, h.read hget hcounter hread⟩

theorem ticketed_after (vhosts : List VHostConfig) (hp : ∀ pre, pre <+: evs →
      healthyAt upstreams (Balancer.after upstreams c vhosts pre).state.checker.manager p = true) :
    ∃ held, Ticketed upstreams p c (Balancer.after upstreams c vhosts evs) held := by
  induction evs using List.reverseRecOn with
  | nil => exact ⟨[], rfl, fun g hg => absurd hg List.not_mem_nil, (BitVec.add_zero c).symm, .nil⟩
  | append_singleton evs e ih =>
    obtain ⟨held, h⟩ := ih fun pre hpre => hp pre (hpre.trans (List.prefix_append evs [e]))
    unfold Balancer.after at h ⊢
    rw [Pool.run_concat]
    exact h.step (hp evs (List.prefix_append evs [e])) e

theorem result?_scanTask_range (hn : p < upstreams.length) :
    (scanTask w upstreams startIdx (List.range upstreams.length)).result? = none := by
  obtain ⟨n, hlength⟩ := Nat.exists_eq_succ_of_ne_zero (Nat.ne_zero_of_lt hn)
  have hup := List.getElem?_eq_getElem (position_lt (w := w) hn startIdx 0)
  rw [hlength, List.range_succ_eq_map, scanTask_cons hup]
  rfl

/-- A call whose ticket is for `p` has selected it, or has not returned. -/
theorem Holds.result (hn : p < upstreams.length)
    {task : Prog SelectOp SelectOp.Ans (Option ℕ)}
    (h : Holds w upstreams p (some startIdx, task)) (hp : startIdx % upstreams.length = p) :
    task.result? = none ∨ task.result? = some (some p) := by
  obtain ⟨-, ⟨is, rfl, his⟩ | ⟨r, rfl, hr⟩⟩ := h
  · rw [his hp]
    exact .inl (result?_scanTask_range hn)
  · rw [hr hp]
    exact .inr rfl

theorem countP_taken_le (hn : p < upstreams.length) (h : ∀ g ∈ held, Holds w upstreams p g) :
    (taken held).countP (· % upstreams.length = p) + held.countP (·.1.isNone) ≤
      ((held.map Prod.snd).filterMap Prog.result?).count (some p) +
        (held.map Prod.snd).countP fun task => task.result?.isNone := by
  induction held with
  | nil => exact le_rfl
  | cons g held ih =>
    have hrest := ih fun g' hg' => h g' (List.mem_cons_of_mem _ hg')
    have hg := h g List.mem_cons_self
    obtain ⟨t, task⟩ := g
    unfold taken at hrest ⊢
    simp only [List.map_cons, List.filterMap_cons, List.countP_cons]
    cases t with
    | none =>
      have hrun : task.result? = none := by
        rw [show task = _ from hg, selectUpstreamTask_eq]
        rfl
      simp only [hrun, Option.isNone_none, if_pos]
      omega
    | some startIdx =>
      simp only [List.countP_cons, Option.isNone_some, Bool.false_eq_true, if_false,
        decide_eq_true_eq]
      by_cases hp : startIdx % upstreams.length = p
      · rw [if_pos hp]
        rcases hg.result hn hp with hrun | hret
        · simp only [hrun, Option.isNone_none, if_pos]
          omega
        · simp only [hret, List.count_cons_self, Option.isNone_some, Bool.false_eq_true, if_false]
          omega
      · rw [if_neg hp]
        cases task.result? with
        | none =>
          simp only [Option.isNone_none, if_pos]
          omega
        | some r =>
          have hle := List.count_le_count_cons (a := some p) (b := r)
            (l := (held.map Prod.snd).filterMap Prog.result?)
          simp only [Option.isNone_some, Bool.false_eq_true, if_false]
          omega

theorem length_taken (held : List (Option ℕ × Prog SelectOp SelectOp.Ans (Option ℕ))) :
    (taken held).length + held.countP (·.1.isNone) = held.length := by
  unfold taken
  induction held with
  | nil => rfl
  | cons g held ih =>
    rw [List.filterMap_cons, List.countP_cons, List.length_cons]
    cases g.1 with
    | none =>
      simp only [Option.isNone_none, if_pos]
      omega
    | some startIdx =>
      simp only [List.length_cons, Option.isNone_some, Bool.false_eq_true, if_false]
      omega

/-- **An upstream that stays healthy has its share**: in any interleaving, of `m` calls at least
`m / n`, rounded down, have selected it or have not returned, where `n` is the length of the
list. -/
theorem selected_share (hc : c.toNat + evs.length + upstreams.length ≤ 2 ^ w)
    (hp : ∀ pre, pre <+: evs →
      healthyAt upstreams (Balancer.after upstreams c vhosts pre).state.checker.manager p = true) :
    (Balancer.after upstreams c vhosts evs).tasks.length / upstreams.length ≤
      (Balancer.after upstreams c vhosts evs).results.count (some p) +
        (Balancer.after upstreams c vhosts evs).running := by
  have hn := lt_of_healthyAt (hp [] (List.nil_prefix))
  obtain ⟨held, h⟩ := ticketed_after vhosts hp
  have hcount := countP_taken_le hn h.holds
  have hlength := length_taken held
  have htasks : held.length ≤ evs.length := by
    have hle := Pool.length_tasks_run_le (routeSystem w upstreams) (Balancer.spawn c vhosts) evs
    have hmap := congrArg List.length h.tasks
    rw [List.length_map] at hmap
    rw [← hmap]
    exact hle.trans (Nat.zero_add _).le
  have htickets : (taken held).length / upstreams.length ≤
      (taken held).countP (· % upstreams.length = p) := by
    have hmod : (List.range (taken held).length).map (fun j => (c + BitVec.ofNat w j).toNat) =
        (List.range (taken held).length).map fun j => c.toNat + j := by
      apply List.map_congr_left
      intro j hj
      have hj := List.mem_range.mp hj
      rw [BitVec.toNat_add, BitVec.toNat_ofNat, Nat.add_mod_mod, Nat.mod_eq_of_lt (by omega)]
    rw [h.perm.countP_eq, hmod, List.countP_map]
    exact Cyclic.div_le_count_mod hn c.toNat _
  have hdiv : held.length / upstreams.length ≤
      (taken held).length / upstreams.length + held.countP (·.1.isNone) := by
    rw [← hlength, ← Nat.add_mul_div_right _ _ (Nat.zero_lt_of_lt hn)]
    exact Nat.div_le_div_right
      (Nat.add_le_add_left (Nat.le_mul_of_pos_right _ (Nat.zero_lt_of_lt hn)) _)
  rw [← h.tasks] at hcount
  rw [show (Balancer.after upstreams c vhosts evs).tasks.length = held.length by
    rw [h.tasks, List.length_map]]
  exact hdiv.trans ((Nat.add_le_add_right htickets _).trans hcount)

/-- Four calls while the first of two upstreams is down. -/
def fourCalls : List (PoolEvent Unit HealthEvent) :=
  [.outside .tick, .outside (.probed false), .start (), .start (), .act 1, .act 0, .start (),
    .act 1, .act 0, .act 1, .start (), .act 3, .act 2, .act 2, .act 3, .act 3]

/-- The other one has at least its half. -/
theorem selected_share_fourCalls :
    4 / 2 ≤ (Balancer.after ["u1".toList, "u2".toList] 0#64 [sharedUpstream] fourCalls).results.count
      (some 1) := by
  have hp : ∀ pre ∈ fourCalls.inits, healthyAt ["u1".toList, "u2".toList] (Balancer.after
      ["u1".toList, "u2".toList] 0#64 [sharedUpstream] pre).state.checker.manager 1 = true := by
    decide +kernel
  have hshare : (Balancer.after ["u1".toList, "u2".toList] 0#64 [sharedUpstream]
      fourCalls).tasks.length / ["u1".toList, "u2".toList].length ≤ _ :=
    selected_share (by decide) fun pre hpre => hp pre ((List.mem_inits pre fourCalls).mpr hpre)
  exact hshare

end

end Proxy

end OxidizedWall
