import Mathlib.Data.List.Basic

/-!
# Timed computations

A future runs from time zero: it does something to the world at certain times, and completes at
some time with a value, or never. Times count from the first poll. `timeout` drops a future at
its deadline, so that what it would have done later does not happen.

`Performs` and `Returns` forget the times. Their rules take a composed future apart; `Acts` is
the same rules as a calculus of postconditions. `time` forgets all but the time of the value, and
`doing` all but the acts of one kind, in order. `Does` keeps the times: a future that is `Causal`
does before a deadline what it does without one.
-/

namespace OxidizedWall

/-- A computation with effects in `ε` and a value in `α`. -/
structure Future (ε α : Type) where
  effects : List (ℕ × ε)
  result : Option (ℕ × α)

namespace Future

variable {ε α β : Type}

/-- The same computation, begun `t` later. -/
def after (t : ℕ) (x : Future ε α) : Future ε α :=
  ⟨x.effects.map fun e => (t + e.1, e.2), x.result.map fun r => (t + r.1, r.2)⟩

/-- Sequencing: `f` begins when `x` completes. -/
def bind (x : Future ε α) (f : α → Future ε β) : Future ε β :=
  match x.result with
  | some (t, a) => ⟨x.effects ++ ((f a).after t).effects, ((f a).after t).result⟩
  | none => ⟨x.effects, none⟩

instance : Monad (Future ε) where
  pure a := ⟨[], some (0, a)⟩
  bind := bind

/-- One act, at once. -/
def emit (e : ε) : Future ε Unit := ⟨[(0, e)], some (0, ())⟩

/-- Waits for something that comes at a given time, or never comes. -/
def wait (r : Option (ℕ × α)) : Future ε α := ⟨[], r⟩

/-- `timeout`: the value, if it comes by the deadline, and `none` at the deadline otherwise. -/
def timeout (d : ℕ) (x : Future ε α) : Future ε (Option α) :=
  match x.result with
  | some (t, a) =>
    if t ≤ d then ⟨x.effects, some (t, some a)⟩
    else ⟨x.effects.filter fun e => e.1 ≤ d, some (d, none)⟩
  | none => ⟨x.effects.filter fun e => e.1 ≤ d, some (d, none)⟩

/-- At some time `x` does `e`. -/
def Performs (x : Future ε α) (e : ε) : Prop := ∃ t, (t, e) ∈ x.effects

/-- At some time `x` completes with `a`. -/
def Returns (x : Future ε α) (a : α) : Prop := ∃ t, x.result = some (t, a)

/-! ## What a composed future does -/

section
variable {x : Future ε α} {f : α → Future ε β} {a : α} {b : β} {e : ε}

theorem Returns.unique {a' : α} (h : x.Returns a) (h' : x.Returns a') : a = a' := by
  obtain ⟨t, ht⟩ := h
  obtain ⟨t', ht'⟩ := h'
  rw [ht] at ht'
  cases ht'
  rfl

@[simp] theorem performs_pure : (pure a : Future ε α).Performs e ↔ False :=
  ⟨fun ⟨_, h⟩ => absurd h List.not_mem_nil, False.elim⟩

@[simp] theorem returns_pure {a' : α} : (pure a : Future ε α).Returns a' ↔ a = a' := by
  constructor
  · rintro ⟨t, ht⟩
    cases ht
    rfl
  · rintro rfl
    exact ⟨0, rfl⟩

@[simp] theorem performs_emit {e' : ε} : (emit e).Performs e' ↔ e' = e := by
  constructor
  · rintro ⟨t, ht⟩
    exact (Prod.mk.inj (List.mem_singleton.mp ht)).2
  · rintro rfl
    exact ⟨0, List.mem_singleton.mpr rfl⟩

@[simp] theorem performs_wait {r : Option (ℕ × α)} : (wait r : Future ε α).Performs e ↔ False :=
  ⟨fun ⟨_, h⟩ => absurd h List.not_mem_nil, False.elim⟩

theorem returns_wait {r : Option (ℕ × α)} : (wait r : Future ε α).Returns a ↔
    ∃ t, r = some (t, a) := Iff.rfl

theorem wait_bind_none : ((wait none : Future ε α) >>= f) = ⟨[], none⟩ := rfl

theorem wait_bind_some {t : ℕ} :
    ((wait (some (t, a)) : Future ε α) >>= f) = (f a).after t := rfl

/-- A sequence does what its first part does, and then what the second does. -/
theorem performs_bind : (x >>= f).Performs e ↔
    x.Performs e ∨ ∃ a, x.Returns a ∧ (f a).Performs e := by
  show (bind x f).Performs e ↔ _
  unfold bind Performs Returns
  cases hx : x.result with
  | none => simp
  | some r =>
    obtain ⟨t, a⟩ := r
    constructor
    · rintro ⟨s, hs⟩
      rcases List.mem_append.mp hs with hs | hs
      · exact .inl ⟨s, hs⟩
      · obtain ⟨e', he', heq⟩ := List.mem_map.mp hs
        cases heq
        exact .inr ⟨a, ⟨t, rfl⟩, e'.1, he'⟩
    · rintro (⟨s, hs⟩ | ⟨a', ⟨t', heq⟩, s, hs⟩)
      · exact ⟨s, List.mem_append_left _ hs⟩
      · cases heq
        exact ⟨t + s, List.mem_append_right _ (List.mem_map.mpr ⟨(s, e), hs, rfl⟩)⟩

theorem returns_bind : (x >>= f).Returns b ↔ ∃ a, x.Returns a ∧ (f a).Returns b := by
  show (bind x f).Returns b ↔ _
  unfold bind Returns
  cases hx : x.result with
  | none => simp
  | some r =>
    obtain ⟨t, a⟩ := r
    constructor
    · rintro ⟨s, hs⟩
      obtain ⟨v, hv, heq⟩ := Option.map_eq_some_iff.mp hs
      cases heq
      exact ⟨a, ⟨t, rfl⟩, v.1, hv⟩
    · rintro ⟨a', ⟨t', heq⟩, s, hs⟩
      cases heq
      exact ⟨t + s, Option.map_eq_some_iff.mpr ⟨(s, b), hs, rfl⟩⟩

/-- From some time on `x` is `y`. -/
structure GoesOn (x y : Future ε β) : Prop where
  performs : ∀ e, y.Performs e → x.Performs e
  returns : ∀ b, x.Returns b ↔ y.Returns b

theorem goesOn_bind (h : x.Returns a) : GoesOn (x >>= f) (f a) := by
  constructor
  · intro e he
    exact performs_bind.mpr (.inr ⟨a, h, he⟩)
  · intro b
    rw [returns_bind]
    constructor
    · rintro ⟨a', h', hb⟩
      exact h.unique h' ▸ hb
    · intro hb
      exact ⟨a, h, hb⟩

theorem GoesOn.trans {w y z : Future ε β} (h : GoesOn w y) (h' : GoesOn y z) : GoesOn w z :=
  ⟨fun e he => h.performs e (h'.performs e he), fun b => (h.returns b).trans (h'.returns b)⟩

/-- What the first part does not do, the second does. -/
theorem Performs.of_bind (h : (x >>= f).Performs e) (hx : ¬ x.Performs e) :
    ∃ a, x.Returns a ∧ (f a).Performs e ∧ GoesOn (x >>= f) (f a) := by
  obtain ⟨a, ha, he⟩ := (performs_bind.mp h).resolve_left hx
  exact ⟨a, ha, he, goesOn_bind ha⟩

/-- A future met its deadline, or it is dropped. -/
theorem timeout_cases (x : Future ε α) (d : ℕ) :
    (∃ t a, t ≤ d ∧ x.result = some (t, a) ∧ x.timeout d = ⟨x.effects, some (t, some a)⟩) ∨
    ((∀ t a, x.result = some (t, a) → d < t) ∧
      x.timeout d = ⟨x.effects.filter fun e => e.1 ≤ d, some (d, none)⟩) := by
  unfold timeout
  cases hx : x.result with
  | none => exact .inr ⟨by simp, rfl⟩
  | some r =>
    obtain ⟨t, a⟩ := r
    by_cases ht : t ≤ d
    · exact .inl ⟨t, a, ht, rfl, if_pos ht⟩
    · refine .inr ⟨fun t' a' h => ?_, if_neg ht⟩
      cases h
      exact Nat.not_le.mp ht

/-- A deadline drops acts and adds none. -/
theorem Performs.of_timeout {d : ℕ} (h : (x.timeout d).Performs e) : x.Performs e := by
  obtain ⟨t, ht⟩ := h
  rcases timeout_cases x d with ⟨_, _, _, _, heq⟩ | ⟨_, heq⟩
  · rw [heq] at ht
    exact ⟨t, ht⟩
  · rw [heq] at ht
    exact ⟨t, List.mem_of_mem_filter ht⟩

theorem returns_timeout_some {d : ℕ} : (x.timeout d).Returns (some a) ↔
    ∃ t, t ≤ d ∧ x.result = some (t, a) := by
  constructor
  · rintro ⟨s, hs⟩
    rcases timeout_cases x d with ⟨t, a', hle, hx, heq⟩ | ⟨_, heq⟩
    · rw [heq] at hs
      cases hs
      exact ⟨_, hle, hx⟩
    · rw [heq] at hs
      cases hs
  · rintro ⟨t, hle, hx⟩
    unfold timeout
    rw [hx]
    simp only [if_pos hle]
    exact ⟨t, rfl⟩

/-- A future with a deadline always completes. -/
theorem exists_returns_timeout (x : Future ε α) (d : ℕ) : ∃ v, (x.timeout d).Returns v := by
  rcases timeout_cases x d with ⟨t, a, _, _, heq⟩ | ⟨_, heq⟩
  · exact ⟨some a, t, by rw [heq]⟩
  · exact ⟨none, d, by rw [heq]⟩

end

/-! ## When it completes -/

/-- The time at which `x` completes, if it does. -/
def time (x : Future ε α) : Option ℕ := x.result.map Prod.fst

/-- The time runs past `d`, or the future stalls. -/
def Exceeds (time : Option ℕ) (d : ℕ) : Prop := ∀ t, time = some t → d < t

instance (time : Option ℕ) (d : ℕ) : Decidable (Exceeds time d) :=
  match time with
  | none => .isTrue fun _ h => nomatch h
  | some t => decidable_of_iff (d < t) ⟨fun h _ ht => Option.some.inj ht ▸ h, fun h => h t rfl⟩

section
variable {x : Future ε α} {f : α → Future ε β} {a : α} {t : ℕ}

@[simp] theorem time_pure : (pure a : Future ε α).time = some 0 := rfl

@[simp] theorem time_wait {r : Option (ℕ × α)} : (wait r : Future ε α).time = r.map Prod.fst := rfl

theorem time_bind (h : x.result = some (t, a)) : (x >>= f).time = (f a).time.map (t + ·) := by
  have hbind : (x >>= f).result = (f a).result.map fun r => (t + r.1, r.2) := by
    show (bind x f).result = _
    unfold bind
    rw [h]
    rfl
  unfold time
  rw [hbind, Option.map_map, Option.map_map]
  rfl

theorem result_bind_of_stalled (h : x.result = none) : (x >>= f).result = none := by
  show (bind x f).result = none
  unfold bind
  rw [h]

theorem time_bind_of_stalled (h : x.result = none) : (x >>= f).time = none := by
  unfold time
  rw [result_bind_of_stalled h]
  rfl

/-- What is done at once takes no time. -/
theorem time_bind_of_instant (hf : ∀ a, (f a).time = some 0) : (x >>= f).time = x.time := by
  cases h : x.result with
  | none => rw [time_bind_of_stalled h, time, h, Option.map_none]
  | some r =>
    rw [time_bind h, hf, time, h]
    rfl

theorem time_emit_bind {e : ε} {f : Unit → Future ε β} : (emit e >>= f).time = (f ()).time := by
  rw [time_bind (x := emit e) rfl]
  simp only [Nat.zero_add, Option.map_id']

/-- A deadline brings the end forward. -/
theorem time_timeout {d : ℕ} :
    (x.timeout d).time = some (x.time.elim d fun t => min t d) := by
  unfold time
  rcases timeout_cases x d with ⟨t, a, ht, hx, heq⟩ | ⟨hlate, heq⟩
  · rw [heq, hx]
    exact congrArg some (Nat.min_eq_left ht).symm
  · rw [heq]
    cases hx : x.result with
    | none => rfl
    | some r => exact congrArg some (Nat.min_eq_right (Nat.le_of_lt (hlate r.1 r.2 hx))).symm

/-- Waiting for an answer until the deadline. -/
theorem result_timeout_wait {d : ℕ} : (timeout d (wait (some (t, a)) : Future ε α)).result =
    if t ≤ d then some (t, some a) else some (d, none) := by
  unfold timeout wait
  by_cases ht : t ≤ d
  · simp only [if_pos ht]
  · simp only [if_neg ht]

theorem returns_timeout_none {d : ℕ} : (x.timeout d).Returns none ↔ Exceeds x.time d := by
  unfold Exceeds time
  rcases timeout_cases x d with ⟨t, a, hle, hx, heq⟩ | ⟨hlate, heq⟩
  · rw [heq, hx]
    constructor
    · rintro ⟨_, h⟩
      cases h
    · exact fun h => absurd (h t rfl) (Nat.not_lt.mpr hle)
  · rw [heq]
    refine ⟨fun _ t ht => ?_, fun _ => ⟨d, rfl⟩⟩
    obtain ⟨⟨t', a⟩, hx, rfl⟩ := Option.map_eq_some_iff.mp ht
    exact hlate t' a hx

end

/-! ## Postconditions -/

/-- Every act of `x` satisfies `E`. -/
def Acts (x : Future ε α) (E : ε → Prop) : Prop := ∀ e, x.Performs e → E e

section
variable {x : Future ε α} {f : α → Future ε β} {E : ε → Prop}

theorem Acts.pure (a : α) : Acts (pure a : Future ε α) E := fun _ h => absurd h performs_pure.mp

theorem Acts.emit {e : ε} (he : E e) : Acts (emit e) E := fun _ h => performs_emit.mp h ▸ he

theorem Acts.wait (r : Option (ℕ × α)) : Acts (wait r : Future ε α) E :=
  fun _ h => absurd h performs_wait.mp

theorem Acts.bind (h : Acts x E) (hf : ∀ a, Acts (f a) E) : Acts (x >>= f) E := by
  intro e he
  rcases performs_bind.mp he with he | ⟨a, -, he⟩
  · exact h e he
  · exact hf a e he

theorem Acts.timeout (h : Acts x E) (d : ℕ) : Acts (x.timeout d) E :=
  fun e he => h e he.of_timeout

theorem Acts.mono {E' : ε → Prop} (h : Acts x E) (hE : ∀ e, E e → E' e) : Acts x E' :=
  fun e he => hE e (h e he)

end

/-- Every value of `x` satisfies `P`. -/
def Gives (x : Future ε α) (P : α → Prop) : Prop := ∀ a, x.Returns a → P a

section
variable {x : Future ε α} {f : α → Future ε β} {a : α} {P : α → Prop} {Q : β → Prop}

theorem Gives.pure (h : P a) : Gives (pure a : Future ε α) P := fun _ ha => returns_pure.mp ha ▸ h

theorem Gives.bind (h : Gives x P) (hf : ∀ a, P a → Gives (f a) Q) : Gives (x >>= f) Q := by
  intro b hb
  obtain ⟨a, ha, hb⟩ := returns_bind.mp hb
  exact hf a (h a ha) b hb

/-- What comes by the deadline is as it would be without one. -/
theorem Gives.timeout (h : Gives x P) (d : ℕ) : Gives (x.timeout d) fun r => ∀ a ∈ r, P a := by
  rintro _ hr a rfl
  obtain ⟨t, -, ht⟩ := returns_timeout_some.mp hr
  exact h a ⟨t, ht⟩

theorem Gives.wait {r : Option (ℕ × α)} (h : ∀ t a, r = some (t, a) → P a) :
    Gives (wait r : Future ε α) P := fun a ⟨t, ht⟩ => h t a ht

theorem Gives.of_forall (h : ∀ a, P a) : Gives x P := fun a _ => h a

end

/-! ## Acts at their times -/

/-- At the time `t` `x` does `e`. -/
def Does (x : Future ε α) (t : ℕ) (e : ε) : Prop := (t, e) ∈ x.effects

/-- `x` has done everything when it completes. -/
def Causal (x : Future ε α) : Prop := ∀ e ∈ x.effects, ∀ r ∈ x.result, e.1 ≤ r.1

section
variable {x : Future ε α} {f : α → Future ε β} {a : α} {e : ε} {t : ℕ}

theorem not_does_pure : ¬ (pure a : Future ε α).Does t e := List.not_mem_nil

theorem not_does_wait {r : Option (ℕ × α)} : ¬ (wait r : Future ε α).Does t e := List.not_mem_nil

theorem does_emit {e' : ε} : (emit e).Does t e' ↔ t = 0 ∧ e' = e := by
  unfold Does emit
  rw [List.mem_singleton, Prod.mk.injEq]

theorem does_bind_of_stalled (h : x.result = none) : (x >>= f).Does t e ↔ x.Does t e := by
  show (bind x f).Does t e ↔ _
  unfold bind Does
  rw [h]

/-- What follows is done later, by the time of what goes before. -/
theorem does_bind {s : ℕ} (h : x.result = some (s, a)) :
    (x >>= f).Does t e ↔ x.Does t e ∨ ∃ u, (f a).Does u e ∧ s + u = t := by
  show (bind x f).Does t e ↔ _
  unfold bind Does after
  rw [h]
  simp only [List.mem_append, List.mem_map, Prod.mk.injEq, Prod.exists]
  refine or_congr_right ⟨?_, ?_⟩
  · rintro ⟨u, e', hmem, hu, rfl⟩
    exact ⟨u, hmem, hu⟩
  · rintro ⟨u, hmem, hu⟩
    exact ⟨u, e, hmem, hu, rfl⟩

/-- Returning a value does nothing more. -/
theorem does_bind_pure {g : α → β} : (x >>= fun a => pure (g a)).Does t e ↔ x.Does t e := by
  cases h : x.result with
  | none => exact does_bind_of_stalled h
  | some r =>
    rw [does_bind h]
    exact ⟨fun h => h.resolve_right fun ⟨_, hdoes, _⟩ => not_does_pure hdoes, .inl⟩

theorem Causal.pure : Causal (pure a : Future ε α) := fun _ he => absurd he List.not_mem_nil

theorem Causal.wait {r : Option (ℕ × α)} : Causal (wait r : Future ε α) :=
  fun _ he => absurd he List.not_mem_nil

theorem Causal.emit : Causal (emit e) := by
  intro e' he r hr
  obtain rfl := List.mem_singleton.mp he
  exact Nat.zero_le _

theorem Causal.bind (h : Causal x) (hf : ∀ a, Causal (f a)) : Causal (x >>= f) := by
  show Causal (Future.bind x f)
  unfold Future.bind
  cases hx : x.result with
  | none => exact fun _ _ r hr => nomatch hr
  | some r =>
    obtain ⟨s, a⟩ := r
    intro e he r hr
    obtain ⟨r', hr', rfl⟩ := Option.map_eq_some_iff.mp hr
    show e.1 ≤ s + r'.1
    rcases List.mem_append.mp he with he | he
    · exact Nat.le_trans (h e he (s, a) hx) (Nat.le_add_right _ _)
    · obtain ⟨e', he', rfl⟩ := List.mem_map.mp he
      exact Nat.add_le_add_left (hf a e' he' r' hr') s

theorem Causal.timeout (h : Causal x) (d : ℕ) : Causal (x.timeout d) := by
  rcases timeout_cases x d with ⟨t, a, -, hx, heq⟩ | ⟨-, heq⟩
  · rw [heq]
    intro e he r hr
    cases hr
    exact h e he (t, a) hx
  · rw [heq]
    intro e he r hr
    cases hr
    simpa using (List.mem_filter.mp he).2

/-- Until the deadline everything is done as without it. -/
theorem does_timeout (h : Causal x) {d : ℕ} : (x.timeout d).Does t e ↔ x.Does t e ∧ t ≤ d := by
  unfold Does
  rcases timeout_cases x d with ⟨s, a, hs, hx, heq⟩ | ⟨-, heq⟩
  · rw [heq]
    exact ⟨fun he => ⟨he, Nat.le_trans (h _ he (s, a) hx) hs⟩, And.left⟩
  · rw [heq]
    simp only [List.mem_filter, decide_eq_true_eq]

end

/-! ## What it does, in order -/

/-- The acts of `x` of one kind. -/
def doing (p : ε → Bool) (x : Future ε α) : List ε := (x.effects.map Prod.snd).filter p

section
variable {p : ε → Bool} {x : Future ε α} {f : α → Future ε β} {a : α}

theorem mem_doing {e : ε} : e ∈ x.doing p ↔ x.Performs e ∧ p e = true := by
  unfold doing Performs
  rw [List.mem_filter, List.mem_map]
  constructor
  · rintro ⟨⟨⟨t, _⟩, h, rfl⟩, hp⟩
    exact ⟨⟨t, h⟩, hp⟩
  · rintro ⟨⟨t, h⟩, hp⟩
    exact ⟨⟨(t, e), h, rfl⟩, hp⟩

theorem Acts.doing_eq_nil (h : x.Acts fun e => p e = false) : x.doing p = [] := by
  apply List.eq_nil_iff_forall_not_mem.mpr
  intro e he
  obtain ⟨hperforms, hp⟩ := mem_doing.mp he
  exact Bool.false_ne_true ((h e hperforms).symm.trans hp)

theorem doing_after (t : ℕ) : (x.after t).doing p = x.doing p := by
  unfold doing after
  rw [List.map_map]
  rfl

theorem doing_bind (h : x.Returns a) : (x >>= f).doing p = x.doing p ++ (f a).doing p := by
  obtain ⟨t, ht⟩ := h
  have heffects : (x >>= f).effects = x.effects ++ ((f a).after t).effects := by
    show (bind x f).effects = _
    unfold bind
    rw [ht]
  rw [← doing_after (x := f a) t]
  unfold doing
  rw [heffects, List.map_append, List.filter_append]

theorem doing_bind_of_stalled (h : x.result = none) : (x >>= f).doing p = x.doing p := by
  have heffects : (x >>= f).effects = x.effects := by
    show (bind x f).effects = _
    unfold bind
    rw [h]
  unfold doing
  rw [heffects]

/-- A deadline cuts the acts off. -/
theorem doing_timeout_sublist (d : ℕ) : ((x.timeout d).doing p).Sublist (x.doing p) := by
  unfold doing
  rcases timeout_cases x d with ⟨_, _, _, _, heq⟩ | ⟨_, heq⟩
  · rw [heq]
  · rw [heq]
    exact (List.filter_sublist.map _).filter _

end

/-- At most `n` acts of `x` are of one kind. -/
def AtMost (p : ε → Bool) (n : ℕ) (x : Future ε α) : Prop := (x.doing p).length ≤ n

section
variable {p : ε → Bool} {x : Future ε α} {f : α → Future ε β} {m n : ℕ}

theorem AtMost.silent (h : x.Acts fun e => p e = false) : AtMost p n x := by
  unfold AtMost
  rw [h.doing_eq_nil]
  exact Nat.zero_le _

theorem AtMost.emit (e : ε) : AtMost p 1 (emit e) := List.length_filter_le _ _

theorem AtMost.bind (h : AtMost p m x) (hf : ∀ a, AtMost p n (f a)) :
    AtMost p (m + n) (x >>= f) := by
  unfold AtMost at *
  cases hx : x.result with
  | none =>
    rw [doing_bind_of_stalled hx]
    exact Nat.le_trans h (Nat.le_add_right _ _)
  | some r =>
    rw [doing_bind ⟨r.1, hx⟩, List.length_append]
    exact Nat.add_le_add h (hf r.2)

theorem AtMost.after_silent (h : x.Acts fun e => p e = false) (hf : ∀ a, AtMost p n (f a)) :
    AtMost p n (x >>= f) := Nat.zero_add n ▸ (AtMost.silent h).bind hf

theorem AtMost.before_silent (h : AtMost p n x) (hf : ∀ a, (f a).Acts fun e => p e = false) :
    AtMost p n (x >>= f) := h.bind (n := 0) fun a => .silent (hf a)

theorem AtMost.timeout (h : AtMost p n x) (d : ℕ) : AtMost p n (x.timeout d) :=
  Nat.le_trans (doing_timeout_sublist d).length_le h

end

end Future

end OxidizedWall
