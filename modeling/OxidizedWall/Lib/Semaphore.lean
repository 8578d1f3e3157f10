import Mathlib.Algebra.BigOperators.Group.List.Basic
import Mathlib.Algebra.Ring.Nat

/-!
# Counting semaphores

A semaphore hands out its permits in the order in which they were asked for. Who asks while none is
free waits in a queue; a permit that comes back goes to the first in the queue, and is free only
when nobody waits. So nobody ever waits while a permit is free, which the structure keeps as a
field.

The permits in use are counted by their holders: `sum_map_set` and `sum_map_eraseIdx` follow such a
count through a change of one holder.
-/

namespace OxidizedWall

/-- The free permits, and who waits for one. -/
structure Semaphore (ι : Type) where
  permits : ℕ
  queue : List ι
  busy : permits = 0 ∨ queue = []

namespace Semaphore

variable {ι : Type} {s s' : Semaphore ι} {i j : ι}

/-- All permits are free. -/
def new (permits : ℕ) : Semaphore ι := ⟨permits, [], .inr rfl⟩

/-- `i` asks for a permit. The answer says whether it has one at once. -/
def acquire (s : Semaphore ι) (i : ι) : Bool × Semaphore ι :=
  if h : 0 < s.permits then
    (true, ⟨s.permits - 1, s.queue, .inr (s.busy.resolve_left (Nat.pos_iff_ne_zero.mp h))⟩)
  else (false, ⟨s.permits, s.queue ++ [i], .inl (Nat.eq_zero_of_not_pos h)⟩)

/-- A permit comes back. The answer is who gets it. -/
def release (s : Semaphore ι) : Option ι × Semaphore ι :=
  match h : s.queue with
  | [] => (none, ⟨s.permits + 1, [], .inr rfl⟩)
  | i :: queue => (some i, ⟨s.permits, queue, .inl (s.busy.resolve_right (by rw [h]; simp))⟩)

/-- Either a permit is taken, or `i` queues up behind all the others. -/
theorem acquire_cases (s : Semaphore ι) (i : ι) :
    ((s.acquire i).1 = true ∧ (s.acquire i).2.permits + 1 = s.permits ∧
      (s.acquire i).2.queue = s.queue) ∨
    ((s.acquire i).1 = false ∧ s.permits = 0 ∧ (s.acquire i).2.permits = 0 ∧
      (s.acquire i).2.queue = s.queue ++ [i]) := by
  unfold acquire
  split
  · exact .inl ⟨rfl, by simp only; omega, rfl⟩
  · exact .inr ⟨rfl, by omega, by simp only; omega, rfl⟩

/-- Either nobody waits and the permit is free, or the first waiter gets it. -/
theorem release_cases (s : Semaphore ι) :
    (s.queue = [] ∧ s.release.1 = none ∧ s.release.2.permits = s.permits + 1 ∧
      s.release.2.queue = []) ∨
    (∃ i, s.release.1 = some i ∧ s.queue = i :: s.release.2.queue ∧ s.permits = 0 ∧
      s.release.2.permits = 0) := by
  unfold release
  split
  · rename_i h
    exact .inl ⟨h, rfl, rfl, rfl⟩
  · rename_i i queue h
    have hzero : s.permits = 0 := s.busy.resolve_right (by rw [h]; simp)
    exact .inr ⟨i, rfl, h, hzero, hzero⟩

/-- **First come, first served**: whoever asks later does not pass a waiter. -/
theorem acquire_queue {ahead behind : List ι} (h : s.queue = ahead ++ i :: behind) (j : ι) :
    ∃ behind, (s.acquire j).2.queue = ahead ++ i :: behind := by
  rcases s.acquire_cases j with ⟨-, -, hq⟩ | ⟨-, -, -, hq⟩
  · exact ⟨behind, hq.trans h⟩
  · exact ⟨behind ++ [j], by rw [hq, h]; simp⟩

end Semaphore

/-! ## Counting over a list of holders -/

section
variable {α : Type} {f : α → ℕ} {l : List α} {i : ℕ} {a b : α}

theorem sum_map_set (h : l[i]? = some a) :
    ((l.set i b).map f).sum + f a = (l.map f).sum + f b := by
  induction l generalizing i with
  | nil => cases h
  | cons x l ih =>
    cases i with
    | zero =>
      obtain rfl : x = a := Option.some.inj h
      simp only [List.set_cons_zero, List.map_cons, List.sum_cons]
      omega
    | succ i =>
      have := ih (i := i) h
      simp only [List.set_cons_succ, List.map_cons, List.sum_cons]
      omega

theorem sum_map_eraseIdx (h : l[i]? = some a) :
    ((l.eraseIdx i).map f).sum + f a = (l.map f).sum := by
  induction l generalizing i with
  | nil => cases h
  | cons x l ih =>
    cases i with
    | zero =>
      obtain rfl : x = a := Option.some.inj h
      simp only [List.eraseIdx_cons_zero, List.map_cons, List.sum_cons]
      omega
    | succ i =>
      have := ih (i := i) h
      simp only [List.eraseIdx_cons_succ, List.map_cons, List.sum_cons]
      omega

end

end OxidizedWall
