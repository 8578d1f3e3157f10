import Mathlib.Data.List.TakeWhile

/-!
# Lists cut at a separator

What stands before the first occurrence of an element in a list, and the rest from there on.
-/

namespace OxidizedWall

variable {α : Type} [DecidableEq α] {a : α} {l : List α}

theorem forall_ne_of_not_mem (h : a ∉ l) : ∀ b ∈ l, decide (b ≠ a) = true :=
  fun _ hb => decide_eq_true fun heq => h (heq ▸ hb)

theorem takeWhile_ne_of_not_mem (h : a ∉ l) : l.takeWhile (· ≠ a) = l :=
  List.takeWhile_eq_self_iff.mpr (forall_ne_of_not_mem h)

theorem takeWhile_ne_append (h : a ∉ l) (m : List α) :
    (l ++ m).takeWhile (· ≠ a) = l ++ m.takeWhile (· ≠ a) :=
  List.takeWhile_append_of_pos (forall_ne_of_not_mem h)

/-- The cut is at the first occurrence. -/
theorem takeWhile_ne_append_cons (h : a ∉ l) (m : List α) :
    (l ++ a :: m).takeWhile (· ≠ a) = l := by
  rw [takeWhile_ne_append h, List.takeWhile_cons_of_neg (by simp), List.append_nil]

theorem dropWhile_ne_append_cons (h : a ∉ l) (m : List α) :
    (l ++ a :: m).dropWhile (· ≠ a) = a :: m := by
  rw [List.dropWhile_append_of_pos (forall_ne_of_not_mem h), List.dropWhile_cons_of_neg (by simp)]

theorem not_mem_takeWhile_ne (a : α) (l : List α) : a ∉ l.takeWhile (· ≠ a) := by
  intro hmem
  have := List.mem_takeWhile_imp hmem
  simp at this

/-- The rest is empty, or begins with the separator. -/
theorem dropWhile_ne_cases (a : α) (l : List α) :
    l.dropWhile (· ≠ a) = [] ∨ ∃ m, l.dropWhile (· ≠ a) = a :: m := by
  cases hrest : l.dropWhile (· ≠ a) with
  | nil => exact .inl rfl
  | cons b m =>
    have hb := List.head?_dropWhile_not (fun b => decide (b ≠ a)) l
    rw [hrest] at hb
    obtain rfl : b = a := by simpa using hb
    exact .inr ⟨m, rfl⟩

end OxidizedWall
