import Mathlib.Logic.Basic

/-!
# Programs over shared operations

A program here is a tree of calls: each call names an operation of some shared object, and the
answer decides how the program goes on. Nothing is said about who else calls the object in
between, so one tree serves both readings: `run` performs the calls back to back on a state, and
a scheduler may perform them one at a time, interleaved with the calls of other programs.
-/

namespace OxidizedWall

/-- A program calling operations `o : Op`, each answered in `Ans o`, and returning an `α`. -/
inductive Prog (Op : Type) (Ans : Op → Type) (α : Type) : Type
  | ret (a : α)
  | call (o : Op) (k : Ans o → Prog Op Ans α)

namespace Prog

variable {Op : Type} {Ans : Op → Type} {α β σ : Type}

/-- Sequencing. -/
def bind : Prog Op Ans α → (α → Prog Op Ans β) → Prog Op Ans β
  | ret a, f => f a
  | call o k, f => call o fun x => (k x).bind f

instance : Monad (Prog Op Ans) where
  pure := ret
  bind := bind

/-- One operation. -/
def perform (o : Op) : Prog Op Ans (Ans o) := call o ret

@[simp] theorem perform_bind (o : Op) (f : Ans o → Prog Op Ans β) :
    (perform o >>= f) = call o f := rfl

/-- Performs every call at once on the state, without interference. -/
def run (h : (o : Op) → σ → Ans o × σ) : Prog Op Ans α → σ → α × σ
  | ret a, s => (a, s)
  | call o k, s => (k (h o s).1).run h (h o s).2

@[simp] theorem run_ret (h : (o : Op) → σ → Ans o × σ) (a : α) (s : σ) :
    (ret a : Prog Op Ans α).run h s = (a, s) := rfl

@[simp] theorem run_call (h : (o : Op) → σ → Ans o × σ) (o : Op) (k : Ans o → Prog Op Ans α)
    (s : σ) : (call o k).run h s = (k (h o s).1).run h (h o s).2 := rfl

@[simp] theorem ret_bind (a : α) (f : α → Prog Op Ans β) : (ret a >>= f) = f a := rfl

@[simp] theorem call_bind (o : Op) (k : Ans o → Prog Op Ans α) (f : α → Prog Op Ans β) :
    (call o k >>= f) = call o fun x => k x >>= f := rfl

theorem bind_assoc {γ : Type} (p : Prog Op Ans α) (f : α → Prog Op Ans β)
    (g : β → Prog Op Ans γ) : (p >>= f) >>= g = p >>= fun a => f a >>= g := by
  induction p with
  | ret a => rfl
  | call o k ih =>
    simp only [call_bind]
    congr 1
    funext x
    exact ih x

theorem run_bind (h : (o : Op) → σ → Ans o × σ) (p : Prog Op Ans α) (f : α → Prog Op Ans β)
    (s : σ) : (p >>= f).run h s = (f (p.run h s).1).run h (p.run h s).2 := by
  induction p generalizing s with
  | ret a => rfl
  | call o k ih => exact ih _ _

/-- What the program returns, if it has no more calls to make. -/
def result? : Prog Op Ans α → Option α
  | ret a => some a
  | call _ _ => none

/-- Some answers to its calls make the program return `a`. -/
def Yields : Prog Op Ans α → α → Prop
  | ret a, b => a = b
  | call _ k, b => ∃ x, (k x).Yields b

theorem yields_bind {p : Prog Op Ans α} {f : α → Prog Op Ans β} {b : β} :
    (p >>= f).Yields b ↔ ∃ a, p.Yields a ∧ (f a).Yields b := by
  induction p with
  | ret a =>
    constructor
    · intro h
      exact ⟨a, rfl, h⟩
    · rintro ⟨_, rfl, h⟩
      exact h
  | call o k ih =>
    constructor
    · rintro ⟨x, hx⟩
      obtain ⟨a, ha, hb⟩ := (ih x).mp hx
      exact ⟨a, ⟨x, ha⟩, hb⟩
    · rintro ⟨a, ⟨x, ha⟩, hb⟩
      exact ⟨x, (ih x).mpr ⟨a, ha, hb⟩⟩

theorem yields_run (h : (o : Op) → σ → Ans o × σ) (p : Prog Op Ans α) (s : σ) :
    p.Yields (p.run h s).1 := by
  induction p generalizing s with
  | ret a => rfl
  | call o k ih => exact ⟨(h o s).1, ih _ _⟩

/-- A run of the program that makes these calls, gets these answers and returns `a`. -/
inductive Traces : Prog Op Ans α → List (Σ o, Ans o) → α → Prop
  | ret (a : α) : Traces (ret a) [] a
  | call {o : Op} {k : Ans o → Prog Op Ans α} (x : Ans o) {calls : List (Σ o, Ans o)} {a : α} :
    Traces (k x) calls a → Traces (call o k) (⟨o, x⟩ :: calls) a

theorem traces_ret {a b : α} {calls : List (Σ o, Ans o)} :
    (ret a : Prog Op Ans α).Traces calls b ↔ calls = [] ∧ b = a := by
  constructor
  · rintro ⟨⟩
    exact ⟨rfl, rfl⟩
  · rintro ⟨rfl, rfl⟩
    exact .ret b

theorem traces_call {o : Op} {k : Ans o → Prog Op Ans α} {calls : List (Σ o, Ans o)} {a : α} :
    (call o k).Traces calls a ↔ ∃ x rest, calls = ⟨o, x⟩ :: rest ∧ (k x).Traces rest a := by
  constructor
  · intro h
    cases h with
    | call x h => exact ⟨x, _, rfl, h⟩
  · rintro ⟨x, rest, rfl, h⟩
    exact .call x h

theorem traces_bind {p : Prog Op Ans α} {f : α → Prog Op Ans β} {calls : List (Σ o, Ans o)}
    {b : β} : (p >>= f).Traces calls b ↔
      ∃ first rest a, calls = first ++ rest ∧ p.Traces first a ∧ (f a).Traces rest b := by
  induction p generalizing calls with
  | ret a =>
    constructor
    · intro h
      exact ⟨[], calls, a, rfl, .ret a, h⟩
    · rintro ⟨first, rest, a', rfl, hfirst, h⟩
      obtain ⟨rfl, rfl⟩ := traces_ret.mp hfirst
      exact h
  | call o k ih =>
    rw [call_bind, traces_call]
    constructor
    · rintro ⟨x, calls, rfl, h⟩
      obtain ⟨first, rest, a, rfl, hfirst, hrest⟩ := (ih x).mp h
      exact ⟨⟨o, x⟩ :: first, rest, a, rfl, .call x hfirst, hrest⟩
    · rintro ⟨_, rest, a, rfl, hcall, hrest⟩
      obtain ⟨x, first, rfl, hfirst⟩ := traces_call.mp hcall
      exact ⟨x, first ++ rest, rfl, (ih x).mpr ⟨first, rest, a, rfl, hfirst, hrest⟩⟩

end Prog

end OxidizedWall
