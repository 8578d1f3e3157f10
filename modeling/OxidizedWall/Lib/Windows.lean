import Mathlib.Algebra.Order.Floor.Ring
import Mathlib.Algebra.BigOperators.Group.Finset.Basic
import Mathlib.Algebra.Order.BigOperators.Group.Finset
import Mathlib.Order.Interval.Finset.Nat
import Mathlib.Data.Int.Interval
import Mathlib.Tactic.Linarith
import Mathlib.Tactic.Ring

/-!
# Counting in windows of unit length

Events are counted in windows: the window of an event starts at most one unit before it, two
windows start at least one unit apart, and no window holds more than `m` events. Then an interval
of length `L` holds at most `m * (⌈L⌉ + 1)` events, however it lies across the windows.
-/

namespace OxidizedWall

variable {K : Type} [Field K] [LinearOrder K] [IsStrictOrderedRing K] [FloorRing K]

/-- Points at least one unit apart, between `a - 1` and `a + L`. -/
theorem card_spaced_le {s : Finset K} {a L : K} (hL : 0 ≤ L)
    (hsp : ∀ x ∈ s, ∀ y ∈ s, x < y → x + 1 ≤ y) (hlo : ∀ x ∈ s, a < x + 1)
    (hhi : ∀ x ∈ s, x < a + L) : s.card ≤ ⌈L⌉₊ + 1 := by
  -- the ceilings of the distances from `a` are distinct integers from `0` to `⌈L⌉`
  have hinj : Set.InjOn (fun x => ⌈x - a⌉) s := by
    have hne : ∀ x ∈ s, ∀ y ∈ s, x < y → ⌈x - a⌉ ≠ ⌈y - a⌉ := by
      intro x hx y hy hxy
      have h := Int.ceil_mono (sub_le_sub_right (hsp x hx y hy hxy) a)
      rw [show x + 1 - a = x - a + 1 by ring, Int.ceil_add_one] at h
      omega
    intro x hx y hy hxy
    rcases lt_trichotomy x y with h | h | h
    · exact absurd hxy (hne x hx y hy h)
    · exact h
    · exact absurd hxy.symm (hne y hy x hx h)
  have hsub : s.image (fun x => ⌈x - a⌉) ⊆ Finset.Icc 0 ⌈L⌉ := by
    intro n hn
    obtain ⟨x, hx, rfl⟩ := Finset.mem_image.mp hn
    have h1 := hlo x hx
    have h2 := hhi x hx
    refine Finset.mem_Icc.mpr ⟨?_, Int.ceil_mono (by linarith)⟩
    have : (-1 : ℤ) < ⌈x - a⌉ := Int.lt_ceil.mpr (by push_cast; linarith)
    omega
  calc s.card = (s.image fun x => ⌈x - a⌉).card := (Finset.card_image_of_injOn hinj).symm
    _ ≤ (Finset.Icc 0 ⌈L⌉).card := Finset.card_le_card hsub
    _ = ⌈L⌉₊ + 1 := by
      rw [Int.card_Icc, ← Int.natCast_ceil_eq_ceil hL]
      omega

/-- **Counting across windows.** `ws` lists events, each with the start of its window. -/
theorem length_window_le {ws : List (K × K)} {m : ℕ}
    (hcount : ∀ r, (ws.map Prod.snd).count r ≤ m)
    (hmem : ∀ w ∈ ws, w.2 ≤ w.1 ∧ w.1 < w.2 + 1)
    (hsp : ∀ v ∈ ws, ∀ w ∈ ws, v.2 < w.2 → v.2 + 1 ≤ w.2) {a L : K} (hL : 0 ≤ L) :
    (ws.filter fun w => a ≤ w.1 ∧ w.1 < a + L).length ≤ m * (⌈L⌉₊ + 1) := by
  set tags := (ws.filter fun w => a ≤ w.1 ∧ w.1 < a + L).map Prod.snd with htags
  have hin : ∀ r ∈ tags.toFinset, ∃ w ∈ ws, w.2 = r ∧ a ≤ w.1 ∧ w.1 < a + L := by
    intro r hr
    obtain ⟨w, hw, rfl⟩ := List.mem_map.mp (List.mem_toFinset.mp hr)
    have := List.mem_filter.mp hw
    exact ⟨w, this.1, rfl, by simpa using this.2⟩
  have hcard : tags.toFinset.card ≤ ⌈L⌉₊ + 1 := by
    refine card_spaced_le (a := a) hL (fun x hx y hy => ?_) (fun x hx => ?_) (fun x hx => ?_)
    · obtain ⟨v, hv, rfl, -⟩ := hin x hx
      obtain ⟨w, hw, rfl, -⟩ := hin y hy
      exact hsp v hv w hw
    · obtain ⟨w, hw, rfl, ha, -⟩ := hin x hx
      exact ha.trans_lt (hmem w hw).2
    · obtain ⟨w, hw, rfl, -, hb⟩ := hin x hx
      exact (hmem w hw).1.trans_lt hb
  calc (ws.filter fun w => a ≤ w.1 ∧ w.1 < a + L).length = tags.length := by
        rw [htags, List.length_map]
    _ = ∑ r ∈ tags.toFinset, tags.count r := (List.sum_toFinset_count_eq_length tags).symm
    _ ≤ ∑ _r ∈ tags.toFinset, m := Finset.sum_le_sum fun r _ =>
        (((List.filter_sublist).map Prod.snd).count_le r).trans (hcount r)
    _ = tags.toFinset.card * m := Finset.sum_const_nat fun _ _ => rfl
    _ ≤ m * (⌈L⌉₊ + 1) := by rw [mul_comm]; exact Nat.mul_le_mul_left m hcard

end OxidizedWall
