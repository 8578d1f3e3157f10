import Mathlib.Data.List.Infix

/-!
# Counting up and down

A counter goes up at some elements of a list and down at others, but not below zero, and stops
when it passes a bound. It passes the bound exactly if some contiguous piece of the list has that
many more ups than downs (`stays_eq_false_iff_exceeds`). In a well-nested list the largest excess
is the depth (`Nested.exceeds_iff`).
-/

namespace OxidizedWall

namespace Excess

variable {α : Type} {up down : α → Bool} {bound count : ℕ} {a : α} {l m rest : List α}

/-- Whether the counter stays within the bound. -/
def stays (up down : α → Bool) (bound : ℕ) : (count : ℕ) → List α → Bool
  | _, [] => true
  | count, a :: l =>
    if up a then if count + 1 > bound then false else stays up down bound (count + 1) l
    else if down a then stays up down bound (count - 1) l
    else stays up down bound count l

/-- A contiguous piece has more ups than downs, by more than the bound. -/
def Exceeds (up down : α → Bool) (bound : ℕ) (l : List α) : Prop :=
  ∃ w, w <:+: l ∧ bound + w.countP down < w.countP up

/-- The same for a piece at the start, when the counter stands at `count`. -/
def Passes (up down : α → Bool) (bound count : ℕ) (l : List α) : Prop :=
  ∃ w, w <+: l ∧ bound + w.countP down < count + w.countP up

theorem Passes.exceeds (h : Passes up down bound 0 l) : Exceeds up down bound l := by
  obtain ⟨w, hw, hlt⟩ := h
  exact ⟨w, hw.isInfix, by omega⟩

theorem Passes.mono {count' : ℕ} (h : Passes up down bound count l) (hle : count ≤ count') :
    Passes up down bound count' l := by
  obtain ⟨w, hw, hlt⟩ := h
  exact ⟨w, hw, by omega⟩

theorem exceeds_cons : Exceeds up down bound (a :: l) ↔
    Passes up down bound 0 (a :: l) ∨ Exceeds up down bound l := by
  unfold Exceeds Passes
  simp only [List.infix_cons_iff, or_and_right, exists_or, Nat.zero_add]

theorem passes_cons (hcount : count ≤ bound) : Passes up down bound count (a :: l) ↔
    ∃ w, w <+: l ∧ bound + (a :: w).countP down < count + (a :: w).countP up := by
  constructor
  · rintro ⟨w, hw, hlt⟩
    rcases List.prefix_cons_iff.mp hw with rfl | ⟨w, rfl, hw⟩
    · simp only [List.countP_nil] at hlt
      omega
    · exact ⟨w, (List.prefix_cons_inj a).mp hw, hlt⟩
  · rintro ⟨w, hw, hlt⟩
    exact ⟨a :: w, (List.prefix_cons_inj a).mpr hw, hlt⟩

theorem not_passes_nil (hcount : count ≤ bound) :
    ¬ Passes up down bound count ([] : List α) := by
  rintro ⟨w, hw, hlt⟩
  obtain rfl := List.prefix_nil.mp hw
  simp only [List.countP_nil] at hlt
  omega

theorem not_exceeds_nil : ¬ Exceeds up down bound ([] : List α) := by
  rintro ⟨w, hw, hlt⟩
  obtain rfl := List.infix_nil.mp hw
  simp only [List.countP_nil] at hlt
  omega

/-- A piece that starts here exceeds the bound only if it passes it from any count. -/
theorem passes_or_exceeds_cons :
    Passes up down bound count (a :: l) ∨ Exceeds up down bound (a :: l) ↔
      Passes up down bound count (a :: l) ∨ Exceeds up down bound l := by
  rw [exceeds_cons, ← or_assoc]
  constructor
  · rintro ((h | h) | h)
    · exact .inl h
    · exact .inl (h.mono (Nat.zero_le count))
    · exact .inr h
  · rintro (h | h)
    · exact .inl (.inl h)
    · exact .inr h

/-- What the counter has seen before it reaches a place is the largest excess of the pieces that
end there. -/
theorem stays_eq_false_iff (hup : ∀ a, up a = true → down a = false) (hcount : count ≤ bound) :
    stays up down bound count l = false ↔
      Passes up down bound count l ∨ Exceeds up down bound l := by
  induction l generalizing count with
  | nil =>
    constructor
    · intro h
      cases h
    · rintro (h | h)
      · exact absurd h (not_passes_nil hcount)
      · exact absurd h not_exceeds_nil
  | cons a l ih =>
    rw [stays, passes_or_exceeds_cons, passes_cons hcount]
    by_cases ha : up a = true
    · have hcons (w : List α) : (a :: w).countP up = w.countP up + 1 ∧
          (a :: w).countP down = w.countP down := by
        simp [ha, hup a ha]
      rw [if_pos ha]
      by_cases hfull : count + 1 > bound
      · rw [if_pos hfull]
        refine ⟨fun _ => .inl ⟨[], List.nil_prefix, ?_⟩, fun _ => rfl⟩
        rw [(hcons []).1, (hcons []).2, List.countP_nil, List.countP_nil]
        omega
      · rw [if_neg hfull, ih (by omega)]
        unfold Passes
        simp only [hcons, Nat.add_assoc, Nat.add_comm 1]
    · rw [if_neg ha]
      by_cases hdown : down a = true
      · have hcons (w : List α) : (a :: w).countP up = w.countP up ∧
            (a :: w).countP down = w.countP down + 1 := by
          simp [ha, hdown]
        rw [if_pos hdown, ih (by omega)]
        unfold Passes
        simp only [hcons]
        constructor
        · rintro (⟨w, hw, hlt⟩ | h)
          · by_cases hzero : count = 0
            · exact .inr (Passes.exceeds ⟨w, hw, by omega⟩)
            · exact .inl ⟨w, hw, by omega⟩
          · exact .inr h
        · rintro (⟨w, hw, hlt⟩ | h)
          · exact .inl ⟨w, hw, by omega⟩
          · exact .inr h
      · have hcons (w : List α) : (a :: w).countP up = w.countP up ∧
            (a :: w).countP down = w.countP down := by
          simp [ha, hdown]
        rw [if_neg hdown, ih hcount]
        unfold Passes
        simp only [hcons]

/-- **The counter passes the bound** if and only if some contiguous piece exceeds it. -/
theorem stays_eq_false_iff_exceeds (hup : ∀ a, up a = true → down a = false) :
    stays up down bound 0 l = false ↔ Exceeds up down bound l := by
  rw [stays_eq_false_iff hup (Nat.zero_le bound)]
  exact ⟨fun h => h.elim Passes.exceeds id, Or.inr⟩

/-- Only the ups and downs count. -/
theorem stays_filter : stays up down bound count (l.filter fun a => up a || down a) =
    stays up down bound count l := by
  induction l generalizing count with
  | nil => rfl
  | cons a l ih =>
    rw [stays, List.filter_cons]
    by_cases ha : up a = true
    · simp only [ha, Bool.true_or, if_true, stays, ih]
    · by_cases hdown : down a = true
      · simp only [ha, hdown, Bool.or_true, if_true, stays, ih]
      · simp only [ha, hdown, Bool.or_self, if_false, ih, Bool.false_eq_true]

/-! ## Nested lists -/

/-- Lists in which every up has its down, nested to the given depth. -/
inductive Nested (up down : α → Bool) : ℕ → List α → Prop
  | nil : Nested up down 0 []
  | flat {a : α} : up a = false → down a = false → Nested up down 0 [a]
  | append {d e : ℕ} {l m : List α} : Nested up down d l → Nested up down e m →
    Nested up down (max d e) (l ++ m)
  | wrap {d : ℕ} {l : List α} {o c : α} : up o = true → up c = false → down c = true →
    Nested up down d l → Nested up down (d + 1) (o :: (l ++ [c]))

/-- Over a nested piece the counter comes back to where it was, if the bound leaves room. -/
theorem Nested.stays_append {d : ℕ} (h : Nested up down d l) (hcount : count ≤ bound)
    (rest : List α) : stays up down bound count (l ++ rest) =
      (decide (count + d ≤ bound) && stays up down bound count rest) := by
  induction h generalizing count rest with
  | nil => simp [hcount]
  | flat hup hdown => simp [stays, hup, hdown, hcount]
  | @append d e l m _ _ ihl ihm =>
    rw [List.append_assoc, ihl hcount, ihm hcount, ← Bool.and_assoc, ← Bool.decide_and]
    congr 2
    apply propext
    omega
  | @wrap d l o c ho hc hdown _ ih =>
    rw [List.cons_append, List.append_assoc, stays, if_pos ho]
    by_cases hfull : count + 1 > bound
    · rw [if_pos hfull, decide_eq_false (by omega), Bool.false_and]
    · rw [if_neg hfull, ih (by omega), List.singleton_append, stays, if_neg (by simp [hc]),
        if_pos hdown, Nat.add_sub_cancel, Nat.add_right_comm, Nat.add_assoc]

/-- **The largest excess of a nested list** is its depth. -/
theorem Nested.exceeds_iff {d : ℕ} (hup : ∀ a, up a = true → down a = false)
    (h : Nested up down d l) : Exceeds up down bound l ↔ bound < d := by
  have hstays := h.stays_append (Nat.zero_le bound) []
  rw [List.append_nil, Nat.zero_add, stays, Bool.and_true] at hstays
  rw [← stays_eq_false_iff_exceeds hup, hstays, decide_eq_false_iff_not, Nat.not_le]

end Excess

end OxidizedWall
