import Mathlib.Algebra.Order.Field.Basic
import Mathlib.Algebra.Order.BigOperators.Group.List
import Mathlib.Tactic.Linarith
import Mathlib.Tactic.Ring
import Mathlib.Tactic.GCongr

/-!
# Token buckets with a capped refill

A bucket holds a level and the time it was last filled. A draw first refills the level at a
constant rate, never above the cap, and then takes the asked amount if the level covers it. How
often a bucket is refilled makes no difference (`Bucket.refill_refill`).

`Ledger` ties a bucket to the grants it has made. It is kept by every draw at a time that is not
before the last one (`Ledger.draw`), and it bounds the grants of every time window by the cap plus
the rate times the window's length (`Ledger.window_le`).
-/

namespace OxidizedWall

variable {K : Type} [Field K] [LinearOrder K] [IsStrictOrderedRing K]

/-- The level of a bucket at the time of its last refill. -/
@[ext] structure Bucket (K : Type) where
  level : K
  time : K

/-- A granted draw. -/
structure Grant (K : Type) where
  time : K
  amount : K

namespace Bucket

omit [IsStrictOrderedRing K] in
/-- Refills at `rate` up to `cap`, as of the time `now`. -/
def refill (cap rate now : K) (b : Bucket K) : Bucket K :=
  ⟨min cap (b.level + rate * (now - b.time)), now⟩

omit [IsStrictOrderedRing K] in
/-- Refills, and takes `amount` if the level covers it. -/
def draw (cap rate now amount : K) (b : Bucket K) : Bool × Bucket K :=
  let b' := b.refill cap rate now
  if amount ≤ b'.level then (true, ⟨b'.level - amount, now⟩) else (false, b')

/-- A refill in two stages is one refill: what the cap cuts off early, it would cut off later. -/
theorem refill_refill {cap rate t u : K} (b : Bucket K) (hrate : 0 ≤ rate) (htu : t ≤ u) :
    (b.refill cap rate t).refill cap rate u = b.refill cap rate u := by
  have hgain : 0 ≤ rate * (u - t) := mul_nonneg hrate (sub_nonneg.mpr htu)
  ext
  · show min cap (min cap (b.level + rate * (t - b.time)) + rate * (u - t)) =
      min cap (b.level + rate * (u - b.time))
    have hsplit : b.level + rate * (t - b.time) + rate * (u - t) =
        b.level + rate * (u - b.time) := by ring
    rw [min_add, ← min_assoc, min_eq_left (le_add_of_nonneg_right hgain), hsplit]
  · rfl

omit [IsStrictOrderedRing K] in
/-- A refill fills the bucket once what is missing has come in. -/
theorem refill_full {cap rate now : K} {b : Bucket K}
    (h : cap ≤ b.level + rate * (now - b.time)) : (b.refill cap rate now).level = cap :=
  min_eq_left h

end Bucket

/-- What the grants made between `s` and `t` amount to. -/
def drawnIn (s t : K) (gs : List (Grant K)) : K :=
  ((gs.filter fun g => s ≤ g.time ∧ g.time ≤ t).map Grant.amount).sum

omit [IsStrictOrderedRing K] in
@[simp] theorem drawnIn_nil (s t : K) : drawnIn s t [] = 0 := rfl

omit [IsStrictOrderedRing K] in
theorem drawnIn_append (s t : K) (gs hs : List (Grant K)) :
    drawnIn s t (gs ++ hs) = drawnIn s t gs + drawnIn s t hs := by
  simp [drawnIn]

omit [IsStrictOrderedRing K] in
theorem drawnIn_singleton (s t : K) (g : Grant K) :
    drawnIn s t [g] = if s ≤ g.time ∧ g.time ≤ t then g.amount else 0 := by
  unfold drawnIn
  by_cases h : s ≤ g.time ∧ g.time ≤ t
  · simp [h.1, h.2]
  · rw [if_neg h, List.filter_cons_of_neg (by simpa using h)]
    simp

omit [IsStrictOrderedRing K] in
/-- Past the last grant, the right end of the window does not matter. -/
theorem drawnIn_right {s t u : K} {gs : List (Grant K)} (ht : ∀ g ∈ gs, g.time ≤ t)
    (hu : ∀ g ∈ gs, g.time ≤ u) : drawnIn s t gs = drawnIn s u gs := by
  unfold drawnIn
  congr 2
  apply List.filter_congr
  intro g hg
  simp [ht g hg, hu g hg]

/-- Leaving grants out lowers the sum of a window. -/
theorem drawnIn_sublist {s t : K} {gs hs : List (Grant K)} (h : gs.Sublist hs)
    (hpos : ∀ g ∈ hs, 0 ≤ g.amount) : drawnIn s t gs ≤ drawnIn s t hs := by
  unfold drawnIn
  apply List.Sublist.sum_le_sum ((h.filter _).map _)
  intro x hx
  obtain ⟨g, hg, rfl⟩ := List.mem_map.mp hx
  exact hpos g (List.mem_of_mem_filter hg)

/-- The state of a bucket with cap `cap` and rate `rate` that has made the grants `gs`. -/
structure Ledger (cap rate : K) (b : Bucket K) (gs : List (Grant K)) : Prop where
  level_nonneg : 0 ≤ b.level
  level_le : b.level ≤ cap
  amount_nonneg : ∀ g ∈ gs, 0 ≤ g.amount
  time_le : ∀ g ∈ gs, g.time ≤ b.time
  /-- What was drawn since `s` and what is left came from a full bucket and the refill since. -/
  since_le : ∀ s ≤ b.time, drawnIn s b.time gs + b.level ≤ cap + rate * (b.time - s)
  window_le : ∀ s t, s ≤ t → drawnIn s t gs ≤ cap + rate * (t - s)

namespace Ledger

variable {cap rate now amount : K} {b : Bucket K} {gs : List (Grant K)}

/-- A bucket that has granted nothing yet. -/
theorem nil (hrate : 0 ≤ rate) (h0 : 0 ≤ b.level) (hcap : b.level ≤ cap) :
    Ledger cap rate b [] where
  level_nonneg := h0
  level_le := hcap
  amount_nonneg := by simp
  time_le := by simp
  since_le s hs := by
    have : 0 ≤ rate * (b.time - s) := mul_nonneg hrate (sub_nonneg.mpr hs)
    simp only [drawnIn_nil, zero_add]
    linarith
  window_le s t hst := by
    have : 0 ≤ rate * (t - s) := mul_nonneg hrate (sub_nonneg.mpr hst)
    simp only [drawnIn_nil]
    linarith

theorem refill (h : Ledger cap rate b gs) (hrate : 0 ≤ rate) (hnow : b.time ≤ now) :
    Ledger cap rate (b.refill cap rate now) gs := by
  have hcap : 0 ≤ cap := h.level_nonneg.trans h.level_le
  have hgain : 0 ≤ rate * (now - b.time) := mul_nonneg hrate (sub_nonneg.mpr hnow)
  refine ⟨le_min hcap (add_nonneg h.level_nonneg hgain), min_le_left _ _, h.amount_nonneg,
    fun g hg => (h.time_le g hg).trans hnow, fun s hs => ?_, h.window_le⟩
  show drawnIn s now gs + min cap (b.level + rate * (now - b.time)) ≤ cap + rate * (now - s)
  have htime : ∀ g ∈ gs, g.time ≤ now := fun g hg => (h.time_le g hg).trans hnow
  by_cases hsb : s ≤ b.time
  · have hold := h.since_le s hsb
    rw [drawnIn_right htime h.time_le]
    have hmin := min_le_right cap (b.level + rate * (now - b.time))
    have hsplit : rate * (now - s) = rate * (now - b.time) + rate * (b.time - s) := by ring
    linarith
  · -- nothing was granted after the last refill, so the window is empty
    have hempty : drawnIn s now gs = 0 := by
      unfold drawnIn
      rw [List.filter_eq_nil_iff.mpr fun g hg => ?_]
      · rfl
      · have := h.time_le g hg
        simp only [decide_eq_true_eq, not_and, not_le]
        intro hsg
        exact absurd (hsg.trans this) hsb
    have hmin := min_le_left cap (b.level + rate * (now - b.time))
    have : 0 ≤ rate * (now - s) := mul_nonneg hrate (sub_nonneg.mpr hs)
    linarith

/-- Taking what the level covers. -/
theorem grant (h : Ledger cap rate b gs) (ha : 0 ≤ amount) (hle : amount ≤ b.level)
    (hrate : 0 ≤ rate) :
    Ledger cap rate ⟨b.level - amount, b.time⟩ (gs ++ [⟨b.time, amount⟩]) := by
  have hsince : ∀ s ≤ b.time, drawnIn s b.time (gs ++ [⟨b.time, amount⟩]) + (b.level - amount) ≤
      cap + rate * (b.time - s) := by
    intro s hs
    have := h.since_le s hs
    rw [drawnIn_append, drawnIn_singleton, if_pos ⟨hs, le_refl _⟩]
    linarith
  have htime : ∀ g ∈ gs ++ [⟨b.time, amount⟩], g.time ≤ b.time := by
    intro g hg
    rcases List.mem_append.mp hg with hg | hg
    · exact h.time_le g hg
    · rw [List.mem_singleton.mp hg]
  refine ⟨sub_nonneg.mpr hle, (sub_le_self _ ha).trans h.level_le, ?_, htime, hsince, ?_⟩
  · intro g hg
    rcases List.mem_append.mp hg with hg | hg
    · exact h.amount_nonneg g hg
    · rwa [List.mem_singleton.mp hg]
  · intro s t hst
    by_cases hin : s ≤ b.time ∧ b.time ≤ t
    · have hs := hsince s hin.1
      have hgain : rate * (b.time - s) ≤ rate * (t - s) := by gcongr; exact hin.2
      rw [drawnIn_right (fun g hg => (htime g hg).trans hin.2) htime]
      linarith
    · rw [drawnIn_append, drawnIn_singleton, if_neg hin, add_zero]
      exact h.window_le s t hst

/-- **A draw keeps the ledger**, with the new grant in it if the draw succeeded. -/
theorem draw (h : Ledger cap rate b gs) (hrate : 0 ≤ rate) (hnow : b.time ≤ now)
    (ha : 0 ≤ amount) :
    Ledger cap rate (b.draw cap rate now amount).2
      (if (b.draw cap rate now amount).1 then gs ++ [⟨now, amount⟩] else gs) := by
  have hr := h.refill hrate hnow
  unfold Bucket.draw
  by_cases hle : amount ≤ (b.refill cap rate now).level
  · simp only [if_pos hle]
    exact hr.grant ha hle hrate
  · simp only [if_neg hle]
    exact hr

end Ledger

end OxidizedWall
