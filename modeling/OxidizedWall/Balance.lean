import OxidizedWall.Lib.Cyclic
import OxidizedWall.Lib.Pool
import OxidizedWall.Proxy
import Mathlib.Data.List.Rotate

/-!
# Load balancing

`select_upstream` takes a ticket from the counter and looks for a healthy upstream from there on,
around the list. The index `start_idx + i` is a machine integer: where it wraps, the scan goes on
at the beginning of the list, whatever the list's length.

1. `firstHealthy_selectsFirst_iff`: when the scan finds the first healthy upstream all the same.
2. `balance_exact`: how often each position is selected while the counter does not wrap.
-/

namespace OxidizedWall

namespace Proxy

variable {w : ℕ} {upstreams : List Str} {start : ℕ} {health : HealthManager}

/-! ## The scan -/

/-- The upstreams in the order in which the loop looks at them. -/
def scanned (w : ℕ) (upstreams : List Str) (start : ℕ) : List Str :=
  (upstreams.rotate start).take (2 ^ w - start) ++
    upstreams.take (upstreams.length - (2 ^ w - start))

theorem getElem?_scanned (hlen : upstreams.length ≤ 2 ^ w) (hstart : start < 2 ^ w) {i : ℕ}
    (hi : i < upstreams.length) :
    (scanned w upstreams start)[i]? = upstreams[(start + i) % 2 ^ w % upstreams.length]? := by
  unfold scanned
  by_cases hwrap : start + i < 2 ^ w
  · rw [List.getElem?_append_left (by simp; omega), List.getElem?_take_of_lt (by omega),
      List.getElem?_rotate hi, Nat.mod_eq_of_lt hwrap, Nat.add_comm]
  · have hmod : (start + i) % 2 ^ w = start + i - 2 ^ w := by
      rw [Nat.mod_eq_sub_mod (by omega), Nat.mod_eq_of_lt (by omega)]
    rw [List.getElem?_append_right (by simp; omega), List.getElem?_take_of_lt (by simp; omega),
      hmod, Nat.mod_eq_of_lt (by omega)]
    congr 1
    simp
    omega

@[simp] theorem length_scanned (w : ℕ) (upstreams : List Str) (start : ℕ) :
    (scanned w upstreams start).length = upstreams.length := by
  unfold scanned
  rw [List.length_append, List.length_take, List.length_take, List.length_rotate]
  omega

/-- Looking up indices one after the other is a search of the list they name. -/
theorem findSome?_filter_some (l : List Str) (p : Str → Bool) :
    (l.map some).findSome? (Option.filter p) = l.find? p := by
  rw [List.findSome?_map, ← List.findSome?_guard]
  rfl

theorem firstHealthy_eq_scanned (hlen : upstreams.length ≤ 2 ^ w) (hstart : start < 2 ^ w)
    (health : HealthManager) : firstHealthy w upstreams start health =
      (scanned w upstreams start).find? health.isHealthy := by
  have hscan : (List.range upstreams.length).map
      (fun i => upstreams[(start + i) % 2 ^ w % upstreams.length]?) =
        (scanned w upstreams start).map some := by
    apply List.ext_getElem?
    intro i
    rw [List.getElem?_map, List.getElem?_map]
    by_cases hi : i < upstreams.length
    · rw [List.getElem?_range hi, Option.map_some, ← getElem?_scanned hlen hstart hi,
        List.getElem?_eq_getElem (by simpa using hi)]
      rfl
    · rw [List.getElem?_eq_none (by simpa using hi), List.getElem?_eq_none (by simpa using hi)]
      rfl
  rw [← findSome?_filter_some, ← hscan, List.findSome?_map]
  rfl

/-! ## Where the index wraps -/

/-- The upstreams that the scan should go on with where the index wraps. -/
theorem drop_rotate (hstart : start < 2 ^ w) (upstreams : List Str) :
    (upstreams.rotate start).drop (2 ^ w - start) =
      (upstreams.rotate (2 ^ w)).take (upstreams.length - (2 ^ w - start)) := by
  by_cases hk : 2 ^ w - start ≤ upstreams.length
  · have hround : upstreams.rotate (2 ^ w) = (upstreams.rotate start).drop (2 ^ w - start) ++
        (upstreams.rotate start).take (2 ^ w - start) := by
      rw [← List.rotate_eq_drop_append_take (by rwa [List.length_rotate]), List.rotate_rotate,
        show start + (2 ^ w - start) = 2 ^ w by omega]
    rw [hround, List.take_left' (by rw [List.length_drop, List.length_rotate])]
  · rw [List.drop_eq_nil_of_le (by simp; omega), Nat.sub_eq_zero_of_le (by omega), List.take_zero]

/-- Before the index wraps, the scan has found a healthy upstream; or else what it then looks at
has the same first healthy upstream as what it should look at. -/
def WrapHarmless (w : ℕ) (upstreams : List Str) (start : ℕ) (health : HealthManager) : Prop :=
  (∃ addr ∈ (upstreams.rotate start).take (2 ^ w - start), health.isHealthy addr = true) ∨
    (upstreams.take (upstreams.length - (2 ^ w - start))).find? health.isHealthy =
      ((upstreams.rotate (2 ^ w)).take (upstreams.length - (2 ^ w - start))).find? health.isHealthy

theorem wrapHarmless_of_le (h : start + upstreams.length ≤ 2 ^ w) (health : HealthManager) :
    WrapHarmless w upstreams start health := by
  right
  rw [Nat.sub_eq_zero_of_le (by omega), List.take_zero, List.take_zero]

/-- A list whose length divides the counter's range may be rotated past its end. -/
theorem wrapHarmless_of_dvd (h : upstreams.length ∣ 2 ^ w) (start : ℕ) (health : HealthManager) :
    WrapHarmless w upstreams start health := by
  right
  obtain ⟨k, hk⟩ := h
  rw [hk, List.rotate_length_mul]

/-- `None` exactly if no upstream is healthy, and else the first healthy one in cyclic order. -/
structure SelectsFirst (w : ℕ) (upstreams : List Str) (start : ℕ) (health : HealthManager) :
    Prop where
  none_iff : firstHealthy w upstreams start health = none ↔
    ∀ addr ∈ upstreams, health.isHealthy addr = false
  eq : firstHealthy w upstreams start health = (upstreams.rotate start).find? health.isHealthy

theorem selectsFirst_of_eq
    (h : firstHealthy w upstreams start health = (upstreams.rotate start).find? health.isHealthy) :
    SelectsFirst w upstreams start health := by
  refine ⟨?_, h⟩
  rw [h, List.find?_eq_none]
  simp only [List.mem_rotate, Bool.not_eq_true]

/-- **A healthy upstream is not missed** if and only if the wrapping index does no harm. The length
of a slice is a `usize`. -/
theorem firstHealthy_selectsFirst_iff (hlen : upstreams.length < 2 ^ w) (start : BitVec w)
    (health : HealthManager) :
    SelectsFirst w upstreams start.toNat health ↔
      WrapHarmless w upstreams start.toNat health := by
  have hscan := firstHealthy_eq_scanned hlen.le start.isLt health
  unfold scanned at hscan
  rw [List.find?_append] at hscan
  have hcycle : (upstreams.rotate start.toNat).find? health.isHealthy =
      (((upstreams.rotate start.toNat).take (2 ^ w - start.toNat)).find? health.isHealthy).or
        (((upstreams.rotate (2 ^ w)).take
          (upstreams.length - (2 ^ w - start.toNat))).find? health.isHealthy) := by
    rw [← drop_rotate start.isLt, ← List.find?_append, List.take_append_drop]
  unfold WrapHarmless
  rw [← List.find?_isSome]
  constructor
  · intro h
    have heq := h.eq
    rw [hscan, hcycle] at heq
    cases hbefore : ((upstreams.rotate start.toNat).take (2 ^ w - start.toNat)).find?
        health.isHealthy with
    | none =>
      rw [hbefore, Option.none_or, Option.none_or] at heq
      exact .inr heq
    | some addr => exact .inl rfl
  · intro h
    apply selectsFirst_of_eq
    rw [hscan, hcycle]
    rcases h with hfound | hsame
    · obtain ⟨addr, haddr⟩ := Option.isSome_iff_exists.mp hfound
      rw [haddr, Option.some_or, Option.some_or]
    · rw [hsame]

/-- A manager that knows these addresses to be unhealthy. -/
def unhealthy (addrs : List Str) : HealthManager := addrs.foldl (fun m a => m.insert a false) .new

/-- Four upstreams, and the counter at its last value. -/
theorem firstHealthy_selectsFirst_four :
    SelectsFirst 64 ["a".toList, "b".toList, "c".toList, "d".toList] (BitVec.toNat (-1#64))
      (unhealthy ["d".toList, "a".toList]) :=
  (firstHealthy_selectsFirst_iff (show 4 < 2 ^ 64 by decide) (-1#64) _).mpr
    (wrapHarmless_of_dvd ⟨2 ^ 62, rfl⟩ _ _)

/-- Of three upstreams, with the counter at its last value, the third is never looked at. -/
theorem firstHealthy_misses :
    firstHealthy 64 ["a".toList, "b".toList, "c".toList] (BitVec.toNat (-1#64))
      (unhealthy ["a".toList, "b".toList]) = none ∧
    "c".toList ∈ ["a".toList, "b".toList, "c".toList] ∧
    (unhealthy ["a".toList, "b".toList]).isHealthy "c".toList = true := by
  decide +kernel

/-! ## Concurrent calls -/

/-- The upstream at this position counts as healthy. -/
def healthyAt (upstreams : List Str) (health : HealthManager) (i : ℕ) : Bool :=
  (upstreams[i]?).any health.isHealthy

/-- The position of the upstream that `firstHealthy` returns. -/
def firstHealthyPosition (usizeBits : ℕ) (upstreams : List Str) (startIdx : ℕ)
    (health : HealthManager) : Option ℕ :=
  (List.range upstreams.length).findSome? fun i =>
    let idx := (startIdx + i) % 2 ^ usizeBits % upstreams.length
    if healthyAt upstreams health idx then some idx else none

theorem firstHealthy_eq_position (usizeBits : ℕ) (upstreams : List Str) (startIdx : ℕ)
    (health : HealthManager) : firstHealthy usizeBits upstreams startIdx health =
      (firstHealthyPosition usizeBits upstreams startIdx health).bind (upstreams[·]?) := by
  unfold firstHealthy firstHealthyPosition healthyAt
  induction List.range upstreams.length with
  | nil => rfl
  | cons i is ih =>
    rw [List.findSome?_cons, List.findSome?_cons, ih]
    cases haddr : upstreams[(startIdx + i) % 2 ^ usizeBits % upstreams.length]? with
    | none => simp [haddr]
    | some addr =>
      by_cases hh : health.isHealthy addr = true <;> simp [haddr, hh, Option.filter_some]

/-- Where the index does not wrap, this is a search around a circle. -/
theorem firstHealthyPosition_eq (h : start + upstreams.length ≤ 2 ^ w) (health : HealthManager) :
    firstHealthyPosition w upstreams start health =
      Cyclic.firstFrom upstreams.length (healthyAt upstreams health) start := by
  have hcycle : (List.range upstreams.length).map
      (fun i => (start + i) % 2 ^ w % upstreams.length) = Cyclic.cycle upstreams.length start := by
    apply List.map_congr_left
    intro i hi
    rw [Nat.mod_eq_of_lt (a := start + i) (by have := List.mem_range.mp hi; omega)]
  unfold Cyclic.firstFrom
  rw [← hcycle, ← List.findSome?_guard, List.findSome?_map]
  rfl

/-- `counter.fetch_add(1)`. -/
inductive CounterOp
  | fetchAdd
  deriving DecidableEq

@[reducible] def CounterOp.Ans : CounterOp → Type
  | .fetchAdd => ℕ

/-- A call of `select_upstream`, which returns the position it selects. -/
def selectTask (w : ℕ) (upstreams : List Str) (health : HealthManager) :
    Prog CounterOp CounterOp.Ans (Option ℕ) := do
  let startIdx ← Prog.perform CounterOp.fetchAdd
  return firstHealthyPosition w upstreams startIdx health

/-- Calls of `select_upstream` on one counter. -/
def selectSystem (w : ℕ) (upstreams : List Str) (health : HealthManager) :
    TaskSystem CounterOp CounterOp.Ans (Option ℕ) Unit Empty (BitVec w) where
  start _ := selectTask w upstreams health
  call
    | .fetchAdd, counter => (counter.toNat, counter + 1)
  outside e _ := nomatch e

theorem selectTask_eq (w : ℕ) (upstreams : List Str) (health : HealthManager) :
    selectTask w upstreams health =
      .call .fetchAdd fun startIdx => .ret (firstHealthyPosition w upstreams startIdx health) := rfl

/-- The calls that have returned got the counter's values from `c` on, one each. -/
structure Served (w : ℕ) (upstreams : List Str) (health : HealthManager) (c : BitVec w)
    (s : Pool CounterOp CounterOp.Ans (Option ℕ) (BitVec w)) : Prop where
  task : ∀ p ∈ s.tasks, p = selectTask w upstreams health ∨ ∃ a, p = .ret a
  counter : s.state = c + BitVec.ofNat w s.results.length
  perm : s.results.Perm ((List.range s.results.length).map fun j =>
    firstHealthyPosition w upstreams (c + BitVec.ofNat w j).toNat health)

theorem Served.step {c : BitVec w} {s : Pool CounterOp CounterOp.Ans (Option ℕ) (BitVec w)}
    (h : Served w upstreams health c s) (e : PoolEvent Unit Empty) :
    Served w upstreams health c (s.step (selectSystem w upstreams health) e) := by
  cases e with
  | start k =>
    have hresults : (s.step (selectSystem w upstreams health) (.start k)).results = s.results := by
      show (s.tasks ++ [selectTask w upstreams health]).filterMap Prog.result? = s.results
      rw [List.filterMap_append, selectTask_eq, List.filterMap_cons_none rfl, List.filterMap_nil,
        List.append_nil]
      rfl
    refine ⟨fun p hp => ?_, ?_, ?_⟩
    · rcases List.mem_append.mp hp with hp | hp
      · exact h.task p hp
      · exact .inl (List.mem_singleton.mp hp)
    · rw [hresults]
      exact h.counter
    · rw [hresults]
      exact h.perm
  | outside x => exact nomatch x
  | act i =>
    cases htask : s.tasks[i]? with
    | none => simpa only [Pool.step, htask] using h
    | some p =>
      rcases h.task p (List.mem_of_getElem? htask) with rfl | ⟨a, rfl⟩
      · rw [selectTask_eq] at htask
        set answer := firstHealthyPosition w upstreams s.state.toNat health with hanswer
        have hstep : s.step (selectSystem w upstreams health) (.act i) =
            ⟨s.state + 1, s.tasks.set i (.ret answer)⟩ := Pool.step_act htask
        have hresults := Pool.results_set htask (s.state + 1) answer
        rw [hstep]
        have hlength := hresults.length_eq
        rw [List.length_cons] at hlength
        refine ⟨fun p hp => ?_, ?_, ?_⟩
        · rcases List.mem_or_eq_of_mem_set hp with hp | rfl
          · exact h.task p hp
          · exact .inr ⟨_, rfl⟩
        · rw [hlength]
          show s.state + 1 = _
          rw [h.counter, BitVec.ofNat_add, BitVec.add_assoc]
          rfl
        · rw [hlength, List.range_succ, List.map_append, List.map_singleton, ← h.counter]
          exact hresults.trans ((h.perm.cons _).trans (List.perm_append_singleton _ _).symm)
      · simpa only [Pool.step, htask] using h

theorem served_run (w : ℕ) (upstreams : List Str) (health : HealthManager) (c : BitVec w)
    (evs : List (PoolEvent Unit Empty)) : Served w upstreams health c
      (Pool.run (selectSystem w upstreams health) ⟨c, []⟩ evs) := by
  induction evs using List.reverseRecOn with
  | nil => exact ⟨by simp, (BitVec.add_zero c).symm, .nil⟩
  | append_singleton evs e ih =>
    rw [Pool.run_concat]
    exact ih.step e

section Counts

variable {c : BitVec w} {s : Pool CounterOp CounterOp.Ans (Option ℕ) (BitVec w)}

/-- While the index does not wrap, the answers are those of searches around a circle. -/
theorem Served.perm_firstFrom (h : Served w upstreams health c s)
    (hc : c.toNat + s.results.length + upstreams.length ≤ 2 ^ w) :
    s.results.Perm ((List.range s.results.length).map fun j =>
      Cyclic.firstFrom upstreams.length (healthyAt upstreams health) (c.toNat + j)) := by
  refine h.perm.trans (List.Perm.of_eq (List.map_congr_left fun j hj => ?_))
  have hlt := List.mem_range.mp hj
  have hticket : (c + BitVec.ofNat w j).toNat = c.toNat + j := by
    rw [BitVec.toNat_add, BitVec.toNat_ofNat, Nat.add_mod_mod, Nat.mod_eq_of_lt (by omega)]
  rw [hticket, firstHealthyPosition_eq (by omega)]

theorem Served.count_some (h : Served w upstreams health c s)
    (hc : c.toNat + s.results.length + upstreams.length ≤ 2 ^ w) (p : ℕ) :
    s.results.count (some p) = Nat.count (fun j =>
      Cyclic.firstFrom upstreams.length (healthyAt upstreams health) (c.toNat + j) = some p)
        s.results.length := by
  rw [(h.perm_firstFrom hc).count_eq, List.count, List.countP_map]
  unfold Nat.count
  congr 1
  funext j
  rw [Bool.eq_iff_iff, Function.comp_apply, beq_iff_eq, decide_eq_true_eq]

theorem lt_of_healthyAt {p : ℕ} (h : healthyAt upstreams health p = true) :
    p < upstreams.length := by
  by_contra hlt
  unfold healthyAt at h
  rw [List.getElem?_eq_none (not_lt.mp hlt)] at h
  cases h

end Counts

/-- **Load balancing is exact.** While the counter stays away from its end, `k` calls for each
position of the list, however they interleave, select a healthy position `k` times for itself and
`k` times for each unhealthy position right before it, and they select nothing else. -/
theorem balance_exact {c : BitVec w} {k : ℕ} (evs : List (PoolEvent Unit Empty))
    {s : Pool CounterOp CounterOp.Ans (Option ℕ) (BitVec w)}
    (hrun : Pool.run (selectSystem w upstreams health) ⟨c, []⟩ evs = s)
    (hcalls : s.results.length = k * upstreams.length)
    (hc : c.toNat + k * upstreams.length + upstreams.length ≤ 2 ^ w)
    (hhealthy : ∃ p, healthyAt upstreams health p = true) :
    (∀ r ∈ s.results, ∃ p, r = some p ∧ healthyAt upstreams health p = true) ∧
    (∀ p, healthyAt upstreams health p = true → s.results.count (some p) =
      k * (1 + Cyclic.gapBefore upstreams.length (healthyAt upstreams health) p)) ∧
    ((∀ p < upstreams.length, healthyAt upstreams health p = true) →
      ∀ p < upstreams.length, s.results.count (some p) = k) := by
  have hserved := served_run w upstreams health c evs
  rw [hrun] at hserved
  rw [← hcalls] at hc
  have hcount : ∀ p, healthyAt upstreams health p = true → s.results.count (some p) =
      k * (1 + Cyclic.gapBefore upstreams.length (healthyAt upstreams health) p) := by
    intro p hp
    rw [hserved.count_some hc, hcalls]
    exact Cyclic.count_firstFrom_window (lt_of_healthyAt hp) hp c.toNat k
  refine ⟨fun r hr => ?_, hcount, fun hall p hp => ?_⟩
  · obtain ⟨j, -, hj⟩ := List.mem_map.mp ((hserved.perm_firstFrom hc).mem_iff.mp hr)
    obtain ⟨p, hp⟩ := hhealthy
    obtain ⟨p', hp'⟩ := Option.isSome_iff_exists.mp
      (Cyclic.firstFrom_isSome (lt_of_healthyAt hp) hp (c.toNat + j))
    exact ⟨p', hj.symm.trans hp', (Cyclic.firstFrom_spec hp').2⟩
  · rw [hcount p (hall p hp), Cyclic.gapBefore_eq_zero hall, Nat.add_zero, Nat.mul_one]

/-- Three calls at once, the second of which gets its ticket last. -/
def threeCalls : List (PoolEvent Unit Empty) :=
  [.start (), .start (), .act 0, .start (), .act 2, .act 1]

/-- Of three upstreams the second is unhealthy, so the third is selected twice. -/
theorem balance_exact_three :
    (Pool.run (selectSystem 64 ["a".toList, "b".toList, "c".toList] (unhealthy ["b".toList]))
      ⟨7, []⟩ threeCalls).results.count (some 2) = 2 :=
  ((balance_exact (k := 1) threeCalls rfl (by decide +kernel) (by decide +kernel)
    ⟨0, by decide⟩).2.1 2 (by decide)).trans (by decide)

end Proxy

end OxidizedWall
