import Mathlib.Logic.Basic

/-!
# Checks in sequence

A function that throws at the first check that fails succeeds exactly if no check fails.
-/

namespace OxidizedWall.Checks

variable {ε α : Type}

/-- A check that fails with `e`, before the rest. -/
theorem check_eq_ok {c : Prop} [Decidable c] {e : ε} {f : PUnit → Except ε α}
    {rest : Except ε α} {a : α} :
    (if c then throw e >>= f else rest) = .ok a ↔ ¬ c ∧ rest = .ok a := by
  by_cases hc : c
  · rw [if_pos hc]
    exact ⟨fun h => (nomatch h), fun h => absurd hc h.1⟩
  · rw [if_neg hc]
    exact ⟨fun h => ⟨hc, h⟩, And.right⟩

theorem check_last_eq_ok {c : Prop} [Decidable c] {e : ε} :
    (if c then throw e else pure () : Except ε Unit) = .ok () ↔ ¬ c := by
  by_cases hc : c
  · rw [if_pos hc]
    exact ⟨fun h => (nomatch h), fun h => absurd hc h⟩
  · rw [if_neg hc]
    exact ⟨fun _ => hc, fun _ => rfl⟩

theorem andThen_eq_ok {x : Except ε Unit} {rest : Except ε α} {a : α} :
    (x >>= fun _ => rest) = .ok a ↔ x = .ok () ∧ rest = .ok a := by
  cases x with
  | error e => exact ⟨fun h => (nomatch h), fun h => (nomatch h.1)⟩
  | ok _ => exact ⟨fun h => ⟨rfl, h⟩, And.right⟩

end OxidizedWall.Checks
