import Mathlib.Data.Nat.Count
import Mathlib.Data.Nat.ModEq
import Mathlib.Order.Interval.Finset.Nat
import Mathlib.Tactic.Ring

/-!
# Searches around a circle

`n` positions lie on a circle, and some of them are marked. A search from `x` goes round once, and
finds the first marked position. A marked position is found from itself and from the unmarked
positions that lie immediately before it, so over any `k * n` consecutive starts it is found
`k * (1 + gapBefore n q p)` times (`count_firstFrom_window`).
-/

namespace OxidizedWall

namespace Cyclic

/-- The positions in cyclic order from `x` on. -/
def cycle (n x : ℕ) : List ℕ := (List.range n).map fun i => (x + i) % n

/-- The first marked position from `x` on. -/
def firstFrom (n : ℕ) (q : ℕ → Bool) (x : ℕ) : Option ℕ := (cycle n x).find? q

/-- How many unmarked positions lie immediately before `p`. -/
def gapBefore (n : ℕ) (q : ℕ → Bool) (p : ℕ) : ℕ :=
  ((List.range n).map fun i => (p + n - 1 - i) % n).findIdx q

variable {n p d x : ℕ} {q : ℕ → Bool}

theorem mem_cycle : p ∈ cycle n x ↔ p < n := by
  unfold cycle
  rw [List.mem_map]
  constructor
  · rintro ⟨i, hi, rfl⟩
    exact Nat.mod_lt _ (Nat.zero_lt_of_lt (List.mem_range.mp hi))
  · intro hp
    have hn : 0 < n := Nat.zero_lt_of_lt hp
    refine ⟨(p + (n - x % n)) % n, List.mem_range.mpr (Nat.mod_lt _ hn), ?_⟩
    have hx : x % n < n := Nat.mod_lt _ hn
    rw [Nat.add_mod_mod, ← Nat.mod_add_mod, show x % n + (p + (n - x % n)) = p + n by omega,
      Nat.add_mod_right, Nat.mod_eq_of_lt hp]

theorem firstFrom_spec (h : firstFrom n q x = some p) : p < n ∧ q p = true :=
  ⟨mem_cycle.mp (List.mem_of_find?_eq_some h), List.find?_some h⟩

theorem firstFrom_isSome (hp : p < n) (hq : q p = true) (x : ℕ) : (firstFrom n q x).isSome :=
  List.find?_isSome.mpr ⟨p, mem_cycle.mpr hp, hq⟩

theorem firstFrom_add (n : ℕ) (q : ℕ → Bool) (x : ℕ) :
    firstFrom n q (x + n) = firstFrom n q x := by
  unfold firstFrom cycle
  simp only [Nat.add_right_comm x n, Nat.add_mod_right]

/-! ## From where a position is found -/

theorem firstFrom_eq_iff_unmarked (hp : p < n) (hq : q p = true) (hd : d < n) :
    firstFrom n q (p + n - d) = some p ↔ ∀ i < d, q ((p + n - d + i) % n) = false := by
  unfold firstFrom cycle
  rw [List.find?_eq_some_iff_getElem]
  simp only [List.length_map, List.length_range, List.getElem_map, List.getElem_range,
    Bool.not_eq_true']
  constructor
  · rintro ⟨-, i, hi, hpos, hbefore⟩
    -- only the `d`-th position from there on is `p`
    have hmod : p + (n - d + i) ≡ p + 0 [MOD n] := by
      rw [show p + (n - d + i) = p + n - d + i by omega]
      exact hpos.trans (Nat.mod_eq_of_lt hp).symm
    have hdvd : n ∣ n - d + i := (Nat.modEq_zero_iff_dvd).mp (Nat.ModEq.add_left_cancel' p hmod)
    have hid : n - d + i = n := Nat.eq_of_dvd_of_lt_two_mul (by omega) hdvd (by omega)
    obtain rfl : i = d := by omega
    exact hbefore
  · intro hbefore
    refine ⟨hq, d, hd, ?_, hbefore⟩
    rw [show p + n - d + d = p + n by omega, Nat.add_mod_right, Nat.mod_eq_of_lt hp]

theorem le_gapBefore_iff (hd : d < n) :
    d ≤ gapBefore n q p ↔ ∀ i < d, q ((p + n - 1 - i) % n) = false := by
  unfold gapBefore
  constructor
  · intro hle i hi
    have := List.not_of_lt_findIdx (hi.trans_le hle)
    simpa using this
  · intro hbefore
    apply List.le_findIdx_of_not (by simpa using hd)
    intro i hi
    simpa using hbefore i hi

/-- A marked position is found from `d` places before it if these are unmarked. -/
theorem firstFrom_eq_iff (hp : p < n) (hq : q p = true) (hd : d < n) :
    firstFrom n q (p + n - d) = some p ↔ d ≤ gapBefore n q p := by
  rw [firstFrom_eq_iff_unmarked hp hq hd, le_gapBefore_iff hd]
  constructor
  · intro h i hi
    rw [show p + n - 1 - i = p + n - d + (d - 1 - i) by omega]
    exact h _ (by omega)
  · intro h i hi
    rw [show p + n - d + i = p + n - 1 - (d - 1 - i) by omega]
    exact h _ (by omega)

theorem gapBefore_lt (hp : p < n) (hq : q p = true) : gapBefore n q p < n := by
  have hlt : gapBefore n q p < ((List.range n).map fun i => (p + n - 1 - i) % n).length := by
    apply List.findIdx_lt_length_of_exists
    refine ⟨p, List.mem_map.mpr ⟨n - 1, List.mem_range.mpr (by omega), ?_⟩, hq⟩
    rw [show p + n - 1 - (n - 1) = p by omega, Nat.mod_eq_of_lt hp]
  simpa using hlt

/-- Where every position is marked there are no gaps. -/
theorem gapBefore_eq_zero (hq : ∀ i < n, q i = true) (p : ℕ) : gapBefore n q p = 0 := by
  cases n with
  | zero => rfl
  | succ n =>
    by_contra hne
    have hpos : 1 ≤ gapBefore (n + 1) q p := Nat.one_le_iff_ne_zero.mpr hne
    have hfirst := List.not_of_lt_findIdx (Nat.lt_of_lt_of_le Nat.zero_lt_one hpos)
    simp [hq _ (Nat.mod_lt _ (Nat.succ_pos n))] at hfirst

/-! ## Counting -/

/-- Over whole periods a count does not depend on where it starts. -/
theorem count_window {P : ℕ → Prop} [DecidablePred P] (hP : ∀ x, P (x + n) ↔ P x) (c k : ℕ) :
    Nat.count (fun j => P (c + j)) (k * n) = k * Nat.count P n := by
  have hper : ∀ k x, P (x + k * n) ↔ P x := by
    intro k x
    induction k with
    | zero => simp
    | succ k ih => rw [Nat.succ_mul, ← Nat.add_assoc, hP, ih]
  have hone : ∀ c, Nat.count (fun j => P (c + j)) n = Nat.count P n := by
    intro c
    have hshift : Nat.count (fun x => P (x + n)) c = Nat.count P c := by
      rw [Nat.count_eq_card_filter_range, Nat.count_eq_card_filter_range]
      simp only [hP]
    have hsplit := Nat.count_add P c n
    rw [Nat.count_add', hshift] at hsplit
    omega
  induction k with
  | zero => simp
  | succ k ih =>
    rw [Nat.succ_mul, Nat.count_add, ih, Nat.succ_mul]
    have hlast : Nat.count (fun j => P (c + (k * n + j))) n = Nat.count (fun j => P (c + j)) n := by
      congr 1
      funext j
      rw [show c + (k * n + j) = c + j + k * n by ring, hper]
    rw [hlast, hone]

/-- Of `m` consecutive numbers, one in `n` lies at the position `p`. -/
theorem div_le_count_mod (hp : p < n) (c m : ℕ) :
    m / n ≤ Nat.count (fun j => (c + j) % n = p) m := by
  have hone : 1 ≤ Nat.count (fun x => x % n = p) n :=
    Nat.zero_lt_of_lt (Nat.count_strict_mono (Nat.mod_eq_of_lt hp) hp)
  have hwindow := count_window (P := fun x => x % n = p)
    (fun x => by rw [Nat.add_mod_right]) c (m / n)
  have hmono : Nat.count (fun j => (c + j) % n = p) (m / n * n) ≤
      Nat.count (fun j => (c + j) % n = p) m := Nat.count_monotone _ (Nat.div_mul_le_self m n)
  rw [hwindow] at hmono
  exact (Nat.le_mul_of_pos_right _ hone).trans hmono

theorem count_firstFrom (hp : p < n) (hq : q p = true) :
    Nat.count (fun x => firstFrom n q x = some p) n = 1 + gapBefore n q p := by
  have hgap := gapBefore_lt hp hq
  -- the starts from just after `p` to `p` itself, a whole round
  have hround := count_window (P := fun x => firstFrom n q x = some p)
    (fun x => by rw [firstFrom_add]) (p + 1) 1
  rw [Nat.one_mul, Nat.one_mul] at hround
  have hstarts : (Finset.range n).filter (fun j => firstFrom n q (p + 1 + j) = some p) =
      Finset.Ico (n - 1 - gapBefore n q p) n := by
    ext j
    rw [Finset.mem_filter, Finset.mem_range, Finset.mem_Ico]
    constructor
    · rintro ⟨hj, hfound⟩
      rw [show p + 1 + j = p + n - (n - 1 - j) by omega,
        firstFrom_eq_iff hp hq (by omega)] at hfound
      omega
    · rintro ⟨hle, hj⟩
      refine ⟨hj, ?_⟩
      rw [show p + 1 + j = p + n - (n - 1 - j) by omega, firstFrom_eq_iff hp hq (by omega)]
      omega
  rw [← hround, Nat.count_eq_card_filter_range, hstarts, Nat.card_Ico]
  omega

/-- **How often a marked position is found** over `k * n` consecutive starts. -/
theorem count_firstFrom_window (hp : p < n) (hq : q p = true) (c k : ℕ) :
    Nat.count (fun j => firstFrom n q (c + j) = some p) (k * n) = k * (1 + gapBefore n q p) := by
  rw [← count_firstFrom hp hq]
  exact count_window (P := fun x => firstFrom n q x = some p)
    (fun x => by rw [firstFrom_add]) c k

end Cyclic

end OxidizedWall
