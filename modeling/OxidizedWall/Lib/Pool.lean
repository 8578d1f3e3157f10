import OxidizedWall.Lib.Prog
import Mathlib.Data.List.Induction

/-!
# Pools of tasks

Tasks are programs over the operations of one shared object. They are started at any time and
make their calls one at a time, in any order; between two calls the object may also change from
outside. A task that has returned keeps its place, so that an index names one task for good.

1. `tasks_step` and `state_step` say what an event does.
2. `all_run` and `task_run` carry a condition on tasks through every run.
3. `traces_history` is about the calls of one task, whatever the others do in between.
-/

namespace OxidizedWall

/-- A shared object: the tasks that are started on it, how it answers a call, and how it changes
from outside. -/
structure TaskSystem (Op : Type) (Ans : Op → Type) (α κ ε σ : Type) where
  start : κ → Prog Op Ans α
  call : (o : Op) → σ → Ans o × σ
  outside : ε → σ → σ

inductive PoolEvent (κ ε : Type)
  | start (k : κ)
  | act (i : ℕ)
  | outside (e : ε)
  deriving DecidableEq

/-- The tasks, and the state of what they share. -/
structure Pool (Op : Type) (Ans : Op → Type) (α σ : Type) where
  state : σ
  tasks : List (Prog Op Ans α)

namespace Pool

variable {Op : Type} {Ans : Op → Type} {α κ ε σ : Type} {sys : TaskSystem Op Ans α κ ε σ}
  {s : Pool Op Ans α σ} {e : PoolEvent κ ε}

/-- One event. A task that has returned does nothing more. -/
def step (sys : TaskSystem Op Ans α κ ε σ) (s : Pool Op Ans α σ) :
    PoolEvent κ ε → Pool Op Ans α σ
  | .start k => { s with tasks := s.tasks ++ [sys.start k] }
  | .act i =>
    match s.tasks[i]? with
    | some (.call o k) =>
      ⟨(sys.call o s.state).2, s.tasks.set i (k (sys.call o s.state).1)⟩
    | _ => s
  | .outside e => { s with state := sys.outside e s.state }

/-- The events `evs`, one after another. -/
def run (sys : TaskSystem Op Ans α κ ε σ) (s : Pool Op Ans α σ) (evs : List (PoolEvent κ ε)) :
    Pool Op Ans α σ := evs.foldl (step sys) s

@[simp] theorem run_nil : run sys s [] = s := rfl

theorem run_append (evs evs' : List (PoolEvent κ ε)) :
    run sys s (evs ++ evs') = run sys (run sys s evs) evs' := List.foldl_append

theorem run_concat (evs : List (PoolEvent κ ε)) (e : PoolEvent κ ε) :
    run sys s (evs ++ [e]) = step sys (run sys s evs) e := run_append evs [e]

/-- What the tasks that have returned have returned, by their index. -/
def results (s : Pool Op Ans α σ) : List α := s.tasks.filterMap Prog.result?

/-- How many tasks have not returned. -/
def running (s : Pool Op Ans α σ) : ℕ := s.tasks.countP fun p => p.result?.isNone

/-- By the event `e` a task makes the call `o`. -/
def Calls (s : Pool Op Ans α σ) (e : PoolEvent κ ε) (o : Op) : Prop :=
  ∃ i k, e = .act i ∧ s.tasks[i]? = some (.call o k)

/-! ## One event -/

theorem step_act {i : ℕ} {o : Op} {k : Ans o → Prog Op Ans α}
    (h : s.tasks[i]? = some (.call o k)) : step sys s (.act i) =
      ⟨(sys.call o s.state).2, s.tasks.set i (k (sys.call o s.state).1)⟩ := by
  simp only [step, h]

/-- What an event does to the shared state: a call, a change from outside, or nothing. -/
theorem state_step (sys : TaskSystem Op Ans α κ ε σ) (s : Pool Op Ans α σ) (e : PoolEvent κ ε) :
    (∃ o, s.Calls e o ∧ (step sys s e).state = (sys.call o s.state).2) ∨
    (∃ x, e = .outside x ∧ (step sys s e).state = sys.outside x s.state) ∨
    (step sys s e).state = s.state := by
  cases e with
  | start k => exact .inr (.inr rfl)
  | outside x => exact .inr (.inl ⟨x, rfl, rfl⟩)
  | act i =>
    cases htask : s.tasks[i]? with
    | none => exact .inr (.inr (by simp only [step, htask]))
    | some p =>
      cases p with
      | ret a => exact .inr (.inr (by simp only [step, htask]))
      | call o k => exact .inl ⟨o, ⟨i, k, rfl, htask⟩, by rw [step_act htask]⟩

/-- How the task `i` came to be as it is: it was so before, or made a call, or was started. -/
theorem tasks_step {i : ℕ} {p : Prog Op Ans α} (h : (step sys s e).tasks[i]? = some p) :
    s.tasks[i]? = some p ∨
    (∃ o k, e = .act i ∧ s.tasks[i]? = some (.call o k) ∧ p = k (sys.call o s.state).1) ∨
    (∃ k, e = .start k ∧ i = s.tasks.length ∧ p = sys.start k) := by
  cases e with
  | start k =>
    have h' : (s.tasks ++ [sys.start k])[i]? = some p := h
    rw [List.getElem?_append] at h'
    split at h'
    · exact .inl h'
    · obtain ⟨hlt, hp⟩ := List.getElem?_eq_some_iff.mp h'
      simp only [List.length_singleton] at hlt
      have hi : i = s.tasks.length := by omega
      subst hi
      exact .inr (.inr ⟨k, rfl, rfl, by simpa using hp.symm⟩)
  | outside x => exact .inl h
  | act j =>
    cases htask : s.tasks[j]? with
    | none => exact .inl (by simpa only [step, htask] using h)
    | some q =>
      cases q with
      | ret a => exact .inl (by simpa only [step, htask] using h)
      | call o k =>
        rw [step_act htask] at h
        by_cases hij : j = i
        · subst hij
          have hlt : j < s.tasks.length := (List.getElem?_eq_some_iff.mp htask).1
          rw [List.getElem?_set_self hlt] at h
          exact .inr (.inl ⟨o, k, rfl, htask, (Option.some.inj h).symm⟩)
        · exact .inl ((List.getElem?_set_ne hij).symm.trans h)

/-- A task that has returned does nothing more. -/
theorem ret_run {i : ℕ} {a : α} (h : s.tasks[i]? = some (.ret a)) (evs : List (PoolEvent κ ε)) :
    (run sys s evs).tasks[i]? = some (.ret a) := by
  induction evs generalizing s with
  | nil => exact h
  | cons e evs ih =>
    apply ih
    have hlt : i < s.tasks.length := (List.getElem?_eq_some_iff.mp h).1
    cases e with
    | start k => exact (List.getElem?_append_left hlt).trans h
    | outside x => exact h
    | act j =>
      cases htask : s.tasks[j]? with
      | none => simpa only [step, htask] using h
      | some q =>
        cases q with
        | ret b => simpa only [step, htask] using h
        | call o k =>
          have hij : j ≠ i := by
            rintro rfl
            rw [h] at htask
            cases htask
          rw [step_act htask]
          exact (List.getElem?_set_ne hij).trans h

theorem length_tasks_step (sys : TaskSystem Op Ans α κ ε σ) (s : Pool Op Ans α σ)
    (e : PoolEvent κ ε) :
    s.tasks.length ≤ (step sys s e).tasks.length := by
  cases e with
  | start k => simp [step]
  | outside x => exact Nat.le_refl _
  | act i =>
    unfold step
    simp only
    split <;> simp

theorem length_tasks_run (sys : TaskSystem Op Ans α κ ε σ) (s : Pool Op Ans α σ)
    (evs : List (PoolEvent κ ε)) :
    s.tasks.length ≤ (run sys s evs).tasks.length := by
  induction evs generalizing s with
  | nil => exact Nat.le_refl _
  | cons e evs ih => exact Nat.le_trans (length_tasks_step sys s e) (ih (step sys s e))

/-- An event starts at most one task. -/
theorem length_tasks_run_le (sys : TaskSystem Op Ans α κ ε σ) (s : Pool Op Ans α σ)
    (evs : List (PoolEvent κ ε)) :
    (run sys s evs).tasks.length ≤ s.tasks.length + evs.length := by
  induction evs using List.reverseRecOn with
  | nil => exact Nat.le_refl _
  | append_singleton evs e ih =>
    rw [run_concat, List.length_append, List.length_singleton]
    apply Nat.le_trans _ (Nat.succ_le_succ ih)
    cases e with
    | start k => simp [step]
    | outside x => exact Nat.le_succ _
    | act i =>
      unfold step
      simp only
      split <;> simp

/-- What a list shows after a change at one place. -/
theorem filterMap_set {β γ : Type} {l : List β} {i : ℕ} {x : β} (h : l[i]? = some x)
    (f : β → Option γ) (y : β) : ∃ before after,
      l.filterMap f = before ++ (f x).toList ++ after ∧
        (l.set i y).filterMap f = before ++ (f y).toList ++ after := by
  obtain ⟨hi, hget⟩ := List.getElem?_eq_some_iff.mp h
  have hcons : ∀ z rest, (z :: rest).filterMap f = (f z).toList ++ rest.filterMap f := by
    intro z rest
    cases hz : f z with
    | none => exact List.filterMap_cons_none hz
    | some b => exact List.filterMap_cons_some hz
  refine ⟨(l.take i).filterMap f, (l.drop (i + 1)).filterMap f, ?_, ?_⟩
  · rw [List.append_assoc, ← hcons, ← List.filterMap_append, ← hget, List.getElem_cons_drop,
      List.take_append_drop]
  · rw [List.set_eq_take_append_cons_drop, if_pos hi, List.filterMap_append, hcons,
      List.append_assoc]

/-- A task that returns adds its result to those of the others. -/
theorem results_set {i : ℕ} {o : Op} {k : Ans o → Prog Op Ans α}
    (h : s.tasks[i]? = some (.call o k)) (st : σ) (a : α) :
    (results (⟨st, s.tasks.set i (.ret a)⟩ : Pool Op Ans α σ)).Perm (a :: s.results) := by
  obtain ⟨before, after, hold, hnew⟩ := filterMap_set h Prog.result? (.ret a)
  show ((s.tasks.set i (.ret a)).filterMap Prog.result?).Perm (a :: s.tasks.filterMap Prog.result?)
  rw [hold, hnew, List.append_assoc, List.append_assoc]
  exact List.perm_middle

/-! ## The calls of one task -/

/-- The call that the task `i` makes by the event `e`, with the state that it finds. -/
def callOf (i : ℕ) (s : Pool Op Ans α σ) (e : PoolEvent κ ε) : Option (σ × Op) :=
  match e, s.tasks[i]? with
  | .act j, some (.call o _) => if j = i then some (s.state, o) else none
  | _, _ => none

/-- The calls that the task `i` makes in a run, in order. -/
def history (sys : TaskSystem Op Ans α κ ε σ) (i : ℕ) (s : Pool Op Ans α σ) :
    List (PoolEvent κ ε) → List (σ × Op)
  | [] => []
  | e :: evs => (s.callOf i e).toList ++ history sys i (step sys s e) evs

/-- A call, with the answer in the state that it finds. -/
def answered (sys : TaskSystem Op Ans α κ ε σ) (x : σ × Op) : Σ o, Ans o :=
  ⟨x.2, (sys.call x.2 x.1).1⟩

theorem callOf_eq_some {i : ℕ} {x : σ × Op} (h : s.callOf i e = some x) :
    ∃ k, e = .act i ∧ s.tasks[i]? = some (.call x.2 k) ∧ x.1 = s.state := by
  unfold callOf at h
  split at h
  · rename_i j o k htask
    split at h
    · rename_i hj
      subst hj
      obtain rfl := Option.some.inj h
      exact ⟨k, rfl, htask, rfl⟩
    · cases h
  · cases h

theorem mem_history {i : ℕ} {x : σ × Op} {evs : List (PoolEvent κ ε)}
    (h : x ∈ history sys i s evs) : ∃ pre post k, evs = pre ++ .act i :: post ∧
      (run sys s pre).tasks[i]? = some (.call x.2 k) ∧ x.1 = (run sys s pre).state := by
  induction evs generalizing s with
  | nil => cases h
  | cons e evs ih =>
    rcases List.mem_append.mp h with h | h
    · obtain ⟨k, rfl, htask, hstate⟩ := callOf_eq_some (Option.mem_toList.mp h)
      exact ⟨[], evs, k, rfl, htask, hstate⟩
    · obtain ⟨pre, post, k, rfl, htask, hstate⟩ := ih h
      exact ⟨e :: pre, post, k, rfl, htask, hstate⟩

/-- Another event leaves the task as it is. -/
theorem tasks_step_of_callOf {i : ℕ} {p : Prog Op Ans α} (h : s.tasks[i]? = some p)
    (hcall : s.callOf i e = none) : (step sys s e).tasks[i]? = some p := by
  have hlt : i < s.tasks.length := (List.getElem?_eq_some_iff.mp h).1
  cases e with
  | start k => exact (List.getElem?_append_left hlt).trans h
  | outside x => exact h
  | act j =>
    cases htask : s.tasks[j]? with
    | none => simpa only [step, htask] using h
    | some q =>
      cases q with
      | ret a => simpa only [step, htask] using h
      | call o k =>
        have hij : j ≠ i := by
          rintro rfl
          simp only [callOf, htask, if_pos trivial, reduceCtorEq] at hcall
        rw [step_act htask]
        exact (List.getElem?_set_ne hij).trans h

/-- **A task that has returned** went through its program with the answers that it got. -/
theorem traces_history {i : ℕ} {p : Prog Op Ans α} {a : α} {evs : List (PoolEvent κ ε)}
    (h : s.tasks[i]? = some p) (hret : (run sys s evs).tasks[i]? = some (.ret a)) :
    p.Traces ((history sys i s evs).map (answered sys)) a := by
  induction evs generalizing s p with
  | nil =>
    rw [run_nil, h] at hret
    obtain rfl := Option.some.inj hret
    exact .ret a
  | cons e evs ih =>
    have hret' : (run sys (step sys s e) evs).tasks[i]? = some (.ret a) := hret
    unfold history
    cases hcall : s.callOf i e with
    | none => exact ih (tasks_step_of_callOf h hcall) hret'
    | some x =>
      obtain ⟨st, o⟩ := x
      obtain ⟨k, rfl, htask, rfl⟩ := callOf_eq_some hcall
      obtain rfl := Option.some.inj (h.symm.trans htask)
      have hlt : i < s.tasks.length := (List.getElem?_eq_some_iff.mp h).1
      have hnext : (step sys s (.act i : PoolEvent κ ε)).tasks[i]? =
          some (k (sys.call o s.state).1) := by
        rw [step_act htask]
        exact List.getElem?_set_self hlt
      exact .call _ (ih hnext hret')

/-- The same of a task that is started in the run. -/
theorem traces_history_start {i : ℕ} {a : α} {evs : List (PoolEvent κ ε)}
    (h : s.tasks[i]? = none) (hret : (run sys s evs).tasks[i]? = some (.ret a)) :
    ∃ k, (sys.start k).Traces ((history sys i s evs).map (answered sys)) a := by
  induction evs generalizing s with
  | nil =>
    rw [run_nil, h] at hret
    cases hret
  | cons e evs ih =>
    have hret' : (run sys (step sys s e) evs).tasks[i]? = some (.ret a) := hret
    have hcall : s.callOf i e = none := by
      cases hcall : s.callOf i e with
      | none => rfl
      | some x =>
        obtain ⟨k, -, htask, -⟩ := callOf_eq_some hcall
        rw [h] at htask
        cases htask
    unfold history
    rw [hcall]
    cases htask : (step sys s e).tasks[i]? with
    | none => exact ih htask hret'
    | some p =>
      rcases tasks_step htask with hold | ⟨o, k, -, hold, -⟩ | ⟨k, -, -, rfl⟩
      · rw [h] at hold
        cases hold
      · rw [h] at hold
        cases hold
      · exact ⟨k, traces_history htask hret'⟩

/-! ## Conditions on tasks -/

/-- A condition on tasks, given the shared state, holds of every task in every run, if it holds
of a task when it starts, and neither a call of the task, nor a call of another task, nor a
change from outside breaks it. -/
theorem all_run {G : σ → Prog Op Ans α → Prop}
    (hstart : ∀ st k, G st (sys.start k))
    (hcall : ∀ st o k, G st (.call o k) → G (sys.call o st).2 (k (sys.call o st).1))
    (hother : ∀ st o k p, G st (.call o k) → G st p → G (sys.call o st).2 p)
    (houtside : ∀ st x p, G st p → G (sys.outside x st) p)
    (h : ∀ p ∈ s.tasks, G s.state p) (evs : List (PoolEvent κ ε)) :
    ∀ p ∈ (run sys s evs).tasks, G (run sys s evs).state p := by
  induction evs generalizing s with
  | nil => exact h
  | cons e evs ih =>
    apply ih
    cases e with
    | start k =>
      intro p hp
      rcases List.mem_append.mp hp with hp | hp
      · exact h p hp
      · rw [List.mem_singleton.mp hp]
        exact hstart s.state k
    | outside x => exact fun p hp => houtside s.state x p (h p hp)
    | act i =>
      cases htask : s.tasks[i]? with
      | none => simpa only [step, htask] using h
      | some q =>
        cases q with
        | ret a => simpa only [step, htask] using h
        | call o k =>
          have hq := h _ (List.mem_of_getElem? htask)
          rw [step_act htask]
          intro p hp
          rcases List.mem_or_eq_of_mem_set hp with hp | rfl
          · exact hother s.state o k p hq (h p hp)
          · exact hcall s.state o k hq

/-- A condition on the task `i` alone: it holds in every run, if it holds of a task when it
starts, and the answers that this task gets in the run do not break it. -/
theorem task_run {T : Prog Op Ans α → Prop} {i : ℕ} {evs : List (PoolEvent κ ε)}
    (h : s.tasks[i]? = none) (hstart : ∀ k, T (sys.start k))
    (hcall : ∀ pre post o k, evs = pre ++ .act i :: post →
      (run sys s pre).tasks[i]? = some (.call o k) → T (.call o k) →
        T (k (sys.call o (run sys s pre).state).1))
    {p : Prog Op Ans α} (hp : (run sys s evs).tasks[i]? = some p) : T p := by
  induction evs using List.reverseRecOn generalizing p with
  | nil =>
    rw [run_nil, h] at hp
    cases hp
  | append_singleton evs e ih =>
    have hpre : ∀ q, (run sys s evs).tasks[i]? = some q → T q := fun q hq =>
      ih (fun pre post o k heq => hcall pre (post ++ [e]) o k (by rw [heq]; simp)) hq
    rw [run_concat] at hp
    rcases tasks_step hp with hold | ⟨o, k, rfl, htask, rfl⟩ | ⟨k, -, -, rfl⟩
    · exact hpre p hold
    · exact hcall evs [] o k rfl htask (hpre _ htask)
    · exact hstart k

end Pool

end OxidizedWall
