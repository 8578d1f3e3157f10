import OxidizedWall.Traffic

/-!
# What a throttled body hands out

`Delivers` is what a body wrapper owes its reader: at any moment the frames taken from the inner
body are the frames handed out, followed by at most one that goes out next, and the end is
reported after the last frame.

`poll_frame` keeps only the length of a frame the limiter refuses, so the frame itself is gone.
Hence the wrapper delivers in a run where the bucket covers every amount it asks for
(`exact_run`), and a run to the end of the body that delivers is of that kind (`lost_run`). Whether it
covers them is the code's own comparison, so all this holds in `f64` as in any other arithmetic.
-/

namespace OxidizedWall

variable {F : Type} [NatCast F] [Add F] [Sub F] [Mul F] [Div F] [LT F] [LE F] [DecidableLT F]
  [DecidableLE F]

/-! ## The inner body -/

/-- The frame in an answer. -/
def PollFrame.frames : PollFrame → List Frame
  | .frame f => [f]
  | _ => []

namespace InnerBody

/-- A body before its first poll. -/
def new (polls : List (Option Frame)) (finish : BodyEnd) (knowsEnd : Bool) : InnerBody :=
  ⟨polls, finish, knowsEnd, []⟩

theorem produced_pollFrame (b : InnerBody) :
    b.pollFrame.2.produced = b.produced ++ b.pollFrame.1.frames := by
  unfold pollFrame
  split
  · exact (List.append_nil _).symm
  · rfl
  · split <;> exact (List.append_nil _).symm

/-- A body that reports its end, or an error, has no frame left. -/
theorem left_pollFrame {b : InnerBody}
    (h : b.pollFrame.1 = .endOfStream ∨ ∃ e, b.pollFrame.1 = .error e) :
    b.pollFrame.2.left = [] := by
  unfold pollFrame at h ⊢
  unfold left
  split at h
  · simp at h
  · simp at h
  · rename_i hp
    split <;> exact hp ▸ rfl

theorem left_of_isEndStream {b : InnerBody} (h : b.isEndStream = true) : b.left = [] := by
  unfold isEndStream at h
  simp only [Bool.and_eq_true, List.isEmpty_iff] at h
  exact h.1.2

end InnerBody

namespace Stream

@[simp] theorem emitted_deliver (st : Stream) (r : PollFrame) :
    (st.deliver r).emitted = st.emitted ++ r.frames := by
  cases r <;> simp [deliver, PollFrame.frames]

@[simp] theorem inner_deliver (st : Stream) (r : PollFrame) :
    (st.deliver r).inner = st.inner := by
  cases r <;> rfl

@[simp] theorem self_deliver (st : Stream) (r : PollFrame) : (st.deliver r).self = st.self := by
  cases r <;> rfl

@[simp] theorem running_deliver (st : Stream) (r : PollFrame) :
    (st.deliver r).running = st.running := by
  cases r <;> rfl

theorem finished_deliver {st : Stream} {r : PollFrame} (h : (st.deliver r).finished = true) :
    st.finished = true ∨ r = .endOfStream ∨ ∃ e, r = .error e := by
  cases r with
  | pending => exact .inl h
  | frame f => exact .inl h
  | error e => exact .inr (.inr ⟨e, rfl⟩)
  | endOfStream => exact .inr (.inl rfl)

theorem resume_ret (st : Stream) (r : PollFrame) (self : ThrottledBody) :
    st.resume (.ret (r, self)) = ({ st with self := self, running := none }).deliver r := rfl

end Stream

/-! ## The condition -/

/-- The call of the limiter that the poll in progress is about to make. -/
def Stream.asks (st : Stream) : Option (IpAddr × ℕ × ℕ) :=
  match st.running with
  | some (.call (.tryConsume ip rate amount) _) => some (ip, rate, amount)
  | _ => none

/-- If the event makes stream `i` ask for tokens, the refilled bucket covers the amount. -/
def Covered (s : Traffic F) (now : ℕ) (e : TrafficEvent) (i : ℕ) : Prop :=
  e = .step i → ∀ a ∈ (s.streams.get i).bind Stream.asks,
    (a.2.2 : F) ≤ ((s.limiter.bucket now a.1).fill now a.2.1).tokens

instance (s : Traffic F) (now : ℕ) (e : TrafficEvent) (i : ℕ) :
    Decidable (Covered s now e i) := by unfold Covered; infer_instance

/-- Every event of the run finds the bucket covering what stream `i` asks for. -/
def AlwaysCovered (s : Traffic F) (i : ℕ) : List (ℕ × TrafficEvent) → Prop
  | [] => True
  | e :: evs => Covered s e.1 e.2 i ∧ AlwaysCovered (s.step e.1 e.2) i evs

instance decidableAlwaysCovered (i : ℕ) :
    ∀ (s : Traffic F) (evs : List (ℕ × TrafficEvent)), Decidable (AlwaysCovered s i evs)
  | _, [] => .isTrue trivial
  | s, e :: evs =>
    have := decidableAlwaysCovered i (s.step e.1 e.2) evs
    inferInstanceAs (Decidable (_ ∧ _))

theorem tryConsume_fst (l : BandwidthLimiter F) (now : ℕ) (ip : IpAddr) (rate amount : ℕ) :
    (l.tryConsume now ip rate amount).1 = true ↔
      (amount : F) ≤ ((l.bucket now ip).fill now rate).tokens := by
  unfold BandwidthLimiter.tryConsume TokenBucket.consume
  simp only [apply_ite Prod.fst, ge_iff_le]
  split <;> simp_all

theorem covered_step_iff {s : Traffic F} {now : ℕ} {i : ℕ} {st : Stream} {ip : IpAddr}
    {rate amount : ℕ} {k : Bool → BodyProg (PollFrame × ThrottledBody)}
    (hi : s.streams.get i = some st) (hk : st.running = some (.call (.tryConsume ip rate amount) k)) :
    Covered s now (.step i) i ↔ (s.limiter.tryConsume now ip rate amount).1 = true := by
  rw [tryConsume_fst]
  unfold Covered Stream.asks
  simp [hi, hk]

omit [Sub F] [DecidableLE F] in
/-- Only a call of the limiter can be uncovered. -/
theorem not_covered {s : Traffic F} {now : ℕ} {e : TrafficEvent} {i : ℕ} {st : Stream}
    (hi : s.streams.get i = some st) (hc : ¬ Covered s now e i) :
    e = .step i ∧ ∃ ip rate amount k, st.running = some (.call (.tryConsume ip rate amount) k) := by
  unfold Covered at hc
  push Not at hc
  obtain ⟨he, a, ha, -⟩ := hc
  refine ⟨he, ?_⟩
  rw [hi] at ha
  unfold Stream.asks at ha
  simp only [Option.bind_some] at ha
  split at ha
  · exact ⟨_, _, _, _, by assumption⟩
  · cases ha

theorem alwaysCovered_append {s : Traffic F} {i : ℕ} {p q : List (ℕ × TrafficEvent)} :
    AlwaysCovered s i (p ++ q) ↔ AlwaysCovered s i p ∧ AlwaysCovered (s.run p) i q := by
  induction p generalizing s with
  | nil => simp [AlwaysCovered]
  | cons e p ih =>
    simp only [List.cons_append, AlwaysCovered, ih, and_assoc]
    rfl

theorem alwaysCovered_concat {s : Traffic F} {i : ℕ} {p : List (ℕ × TrafficEvent)}
    {e : ℕ × TrafficEvent} :
    AlwaysCovered s i (p ++ [e]) ↔ AlwaysCovered s i p ∧ Covered (s.run p) e.1 e.2 i := by
  rw [alwaysCovered_append]
  simp [AlwaysCovered]

/-! ## Runs in which every amount is covered -/

/-- The frames taken are those handed out and `held`, which a poll in progress is paying for. -/
structure Exact (st : Stream) (held : List Frame) : Prop where
  pending : st.self.pendingAmount = 0
  produced : st.inner.produced = st.emitted ++ held
  running : (st.running = none ∧ held = []) ∨ ∃ p, st.running = some p ∧ InPoll st.self held p
  finished : st.finished = true → st.running = none ∧ st.inner.left = []

theorem Exact.length_le {st : Stream} {held : List Frame} (h : Exact st held) :
    held.length ≤ 1 := by
  rcases h.running with ⟨-, rfl⟩ | ⟨p, -, hp⟩
  · exact Nat.zero_le 1
  · cases hp <;> simp

theorem exact_new (ip : IpAddr) (rate : ℕ) (polls : List (Option Frame)) (finish : BodyEnd)
    (knowsEnd : Bool) : Exact (.new ip rate (.new polls finish knowsEnd)) [] where
  pending := rfl
  produced := rfl
  running := .inl ⟨rfl, rfl⟩
  finished h := by cases h

/-- The inner body's answer goes straight through. -/
theorem exact_through {st : Stream} (h : Exact st []) (hf : st.finished = false) :
    Exact ({ st with inner := st.inner.pollFrame.2 }.resume
      (.ret (st.inner.pollFrame.1, st.self))) [] where
  pending := by simpa [Stream.resume_ret] using h.pending
  produced := by
    have := h.produced
    rw [List.append_nil] at this
    simp [Stream.resume_ret, InnerBody.produced_pollFrame, this]
  running := .inl ⟨by simp [Stream.resume_ret], rfl⟩
  finished hd := by
    rw [Stream.resume_ret] at hd ⊢
    refine ⟨by simp, ?_⟩
    rcases Stream.finished_deliver hd with hd | hd
    · exact absurd (hf.symm.trans hd) Bool.false_ne_true
    · rw [Stream.inner_deliver]
      exact InnerBody.left_pollFrame hd

theorem Exact.running_some {st : Stream} {held : List Frame} (h : Exact st held)
    {p : BodyProg (PollFrame × ThrottledBody)} (hp : st.running = some p) :
    InPoll st.self held p ∧ st.finished = false := by
  constructor
  · rcases h.running with ⟨hn, -⟩ | ⟨p', hp', hin⟩
    · exact absurd (hn.symm.trans hp) (by simp)
    · rwa [Option.some.inj (hp'.symm.trans hp)] at hin
  · cases hf : st.finished with
    | false => rfl
    | true => exact absurd ((h.finished hf).1.symm.trans hp) (by simp)

theorem exact_step {s : Traffic F} {now : ℕ} {e : TrafficEvent} {i : ℕ} {st st' : Stream}
    {held : List Frame} (h : Exact st held) (hi : s.streams.get i = some st)
    (hc : Covered s now e i) (hs : Traffic.StreamStep s now e i st st') :
    ∃ held', Exact st' held' := by
  cases hs with
  | idle => exact ⟨held, h⟩
  | start hrun hfin =>
    refine ⟨[], ?_⟩
    rw [(resume_inPoll (.entry st.self) st).1]
    refine ⟨h.pending, ?_, .inr ⟨_, rfl, .entry _⟩, fun hd => absurd (hfin.symm.trans hd) (by simp)⟩
    rcases h.running with ⟨-, rfl⟩ | ⟨p, hp, -⟩
    · exact h.produced
    · exact absurd (hrun.symm.trans hp) (by simp)
  | poll k hk =>
    obtain ⟨hin, hfin⟩ := h.running_some hk
    cases hin.step with
    | through _ h0 hret =>
      rw [hret]
      exact ⟨[], exact_through h hfin⟩
    | take _ hr hp hdata hret =>
      by_cases hd : ∃ d, st.inner.pollFrame.1 = .frame (.data d)
      · -- a data frame is taken, and held until it is paid for
        obtain ⟨d, hd⟩ := hd
        refine ⟨[.data d], ?_⟩
        rw [hd, hdata, (resume_inPoll (.charge st.self d hr hp) _).1]
        refine ⟨h.pending, ?_, .inr ⟨_, rfl, .charge _ d hr hp⟩,
          fun hd => absurd (hfin.symm.trans hd) (by simp)⟩
        have := h.produced
        rw [List.append_nil] at this
        show st.inner.pollFrame.2.produced = st.emitted ++ [.data d]
        rw [InnerBody.produced_pollFrame, hd, this]
        rfl
      · rw [hret _ fun d hd' => hd ⟨d, hd'⟩]
        exact ⟨[], exact_through h hfin⟩
  | ask ip rate amount k he hk =>
    obtain ⟨hin, hfin⟩ := h.running_some hk
    subst he
    rw [(covered_step_iff hi hk).mp hc]
    cases hin.step with
    | retry _ _ hpos => exact absurd h.pending (by omega)
    | pay d _ hr hp htrue _ =>
      refine ⟨[], ?_⟩
      rw [htrue, Stream.resume_ret]
      refine ⟨by simpa using h.pending, ?_, .inl ⟨by simp, rfl⟩, fun hd => ?_⟩
      · simpa [PollFrame.frames] using h.produced
      · exact absurd (hfin.symm.trans hd) (by simp)

theorem exact_run {s : Traffic F} {i : ℕ} {st : Stream} (hi : s.streams.get i = some st)
    (h0 : Exact st []) (evs : List (ℕ × TrafficEvent)) (hc : AlwaysCovered s i evs) :
    ∃ st' held, (s.run evs).streams.get i = some st' ∧ Exact st' held := by
  induction evs using List.reverseRecOn with
  | nil => exact ⟨st, [], hi, h0⟩
  | append_singleton evs e ih =>
    obtain ⟨hpre, hlast⟩ := alwaysCovered_concat.mp hc
    obtain ⟨st₁, held₁, h₁, hex₁⟩ := ih hpre
    obtain ⟨st₂, h₂, hs⟩ := Traffic.stream_step e.1 e.2 h₁
    obtain ⟨held₂, hex₂⟩ := exact_step hex₁ h₁ hlast hs
    exact ⟨st₂, held₂, by rw [Traffic.run_concat]; exact h₂, hex₂⟩

/-! ## Frames that are lost -/

/-- At least `n` frames were taken from the inner body that are neither handed out nor held. -/
structure Lost (n : ℕ) (st : Stream) (this : ThrottledBody) (held : List Frame) : Prop where
  count : st.emitted.length + held.length + n ≤ st.inner.produced.length
  running : (st.running = none ∧ held = [] ∧ this = st.self) ∨
    ∃ p, st.running = some p ∧ InPoll this held p
  /-- An amount is pending only for a frame that is gone. -/
  pending : 0 < this.pendingAmount → 0 < n

theorem Lost.running_some {n : ℕ} {st : Stream} {this : ThrottledBody} {held : List Frame}
    (h : Lost n st this held) {p : BodyProg (PollFrame × ThrottledBody)}
    (hp : st.running = some p) : InPoll this held p := by
  rcases h.running with ⟨hn, -⟩ | ⟨p', hp', hin⟩
  · exact absurd (hn.symm.trans hp) (by simp)
  · rwa [Option.some.inj (hp'.symm.trans hp)] at hin

theorem lost_through {n : ℕ} {st : Stream} {this : ThrottledBody} (h : Lost n st this []) :
    Lost n ({ st with inner := st.inner.pollFrame.2 }.resume
      (.ret (st.inner.pollFrame.1, this))) this [] where
  count := by
    have := h.count
    simp only [List.length_nil, Nat.add_zero] at this
    simp [Stream.resume_ret, InnerBody.produced_pollFrame]
    omega
  running := .inl ⟨by simp [Stream.resume_ret], rfl, by simp [Stream.resume_ret]⟩
  pending := h.pending

theorem lost_step {s : Traffic F} {now : ℕ} {e : TrafficEvent} {i n : ℕ} {st st' : Stream}
    {this : ThrottledBody} {held : List Frame} (h : Lost n st this held)
    (hi : s.streams.get i = some st) (hs : Traffic.StreamStep s now e i st st') :
    ∃ n' this' held', Lost n' st' this' held' ∧ n ≤ n' ∧ (¬ Covered s now e i → 0 < n') := by
  cases hs with
  | idle hno =>
    refine ⟨n, this, held, h, le_refl _, fun hc => ?_⟩
    obtain ⟨he, ip, rate, amount, k, hk⟩ := not_covered hi hc
    exact absurd hk (hno _ _ he)
  | start hrun _ =>
    refine ⟨n, st.self, [], ?_, le_refl _, fun hc => ?_⟩
    · rw [(resume_inPoll (.entry st.self) st).1]
      rcases h.running with ⟨-, rfl, rfl⟩ | ⟨p, hp, -⟩
      · exact ⟨h.count, .inr ⟨_, rfl, .entry _⟩, h.pending⟩
      · exact absurd (hrun.symm.trans hp) (by simp)
    · obtain ⟨-, ip, rate, amount, k, hk⟩ := not_covered hi hc
      exact absurd (hrun.symm.trans hk) (by simp)
  | poll k hk =>
    have hnc : Covered s now e i := by
      by_contra hc
      obtain ⟨-, ip, rate, amount, k', hk'⟩ := not_covered hi hc
      exact absurd (hk.symm.trans hk') (by simp)
    have hin := h.running_some hk
    cases hin.step with
    | through _ h0 hret =>
      rw [hret]
      exact ⟨n, this, [], lost_through h, le_refl _, fun hc => absurd hnc hc⟩
    | take _ hr hp hdata hret =>
      by_cases hd : ∃ d, st.inner.pollFrame.1 = .frame (.data d)
      · obtain ⟨d, hd⟩ := hd
        refine ⟨n, this, [.data d], ?_, le_refl _, fun hc => absurd hnc hc⟩
        rw [hd, hdata, (resume_inPoll (.charge this d hr hp) _).1]
        refine ⟨?_, .inr ⟨_, rfl, .charge _ d hr hp⟩, h.pending⟩
        have := h.count
        show st.emitted.length + 1 + n ≤ st.inner.pollFrame.2.produced.length
        rw [InnerBody.produced_pollFrame, hd, List.length_append]
        simp only [List.length_nil, PollFrame.frames, List.length_singleton] at this ⊢
        omega
      · rw [hret _ fun d hd' => hd ⟨d, hd'⟩]
        exact ⟨n, this, [], lost_through h, le_refl _, fun hc => absurd hnc hc⟩
  | ask ip rate amount k he hk =>
    subst he
    have hin := h.running_some hk
    cases hok : (s.limiter.tryConsume now ip rate amount).1 with
    | true =>
      have hnc := (covered_step_iff hi hk).mpr hok
      cases hin.step with
      | retry _ hr hpos htrue _ =>
        refine ⟨n, { this with pendingAmount := 0 }, [], ?_, le_refl _, fun hc => absurd hnc hc⟩
        have hp : InPoll { this with pendingAmount := 0 } []
            (ThrottledBody.pollInner { this with pendingAmount := 0 }) := .inner _ hr rfl
        rw [htrue, (resume_inPoll hp st).1]
        exact ⟨h.count, .inr ⟨_, rfl, hp⟩, fun h0 => absurd h0 (lt_irrefl 0)⟩
      | pay d _ hr hp htrue _ =>
        refine ⟨n, this, [], ?_, le_refl _, fun hc => absurd hnc hc⟩
        rw [htrue, Stream.resume_ret]
        refine ⟨?_, .inl ⟨by simp, rfl, by simp⟩, h.pending⟩
        have := h.count
        simpa [PollFrame.frames] using this
    | false =>
      cases hin.step with
      | retry _ hr hpos _ hfalse =>
        refine ⟨n, this, [], ?_, le_refl _, fun _ => h.pending hpos⟩
        rw [hfalse, Stream.resume_ret]
        exact ⟨by simpa [PollFrame.frames] using h.count, .inl ⟨by simp, rfl, by simp⟩, h.pending⟩
      | pay d _ hr hp _ hfalse =>
        -- the refused frame is neither returned nor kept
        refine ⟨n + 1, { this with pendingAmount := d.length }, [], ?_, Nat.le_succ n,
          fun _ => Nat.succ_pos n⟩
        rw [hfalse, Stream.resume_ret]
        refine ⟨?_, .inl ⟨by simp, rfl, by simp⟩, fun _ => Nat.succ_pos n⟩
        have := h.count
        simp only [List.length_singleton] at this
        simp [PollFrame.frames]
        omega

/-- A run with an uncovered event has lost a frame by its end. -/
theorem lost_run {s : Traffic F} {i : ℕ} {st : Stream} (hi : s.streams.get i = some st)
    (h0 : Lost 0 st st.self []) (evs : List (ℕ × TrafficEvent)) :
    ∃ n st' this held, (s.run evs).streams.get i = some st' ∧ Lost n st' this held ∧
      (¬ AlwaysCovered s i evs → 0 < n) := by
  induction evs using List.reverseRecOn with
  | nil => exact ⟨0, st, st.self, [], hi, h0, fun h => absurd (by simp [AlwaysCovered]) h⟩
  | append_singleton evs e ih =>
    obtain ⟨n₁, st₁, this₁, held₁, h₁, hl₁, hn₁⟩ := ih
    obtain ⟨st₂, h₂, hs⟩ := Traffic.stream_step e.1 e.2 h₁
    obtain ⟨n₂, this₂, held₂, hl₂, hle, hn₂⟩ := lost_step hl₁ h₁ hs
    refine ⟨n₂, st₂, this₂, held₂, by rw [Traffic.run_concat]; exact h₂, hl₂, fun hc => ?_⟩
    by_cases hpre : AlwaysCovered s i evs
    · exact hn₂ fun he => hc (alwaysCovered_concat.mpr ⟨hpre, he⟩)
    · exact (hn₁ hpre).trans_le hle

/-! ## Frames handed out stay handed out -/

theorem emitted_resume (st : Stream) (p : BodyProg (PollFrame × ThrottledBody)) :
    st.emitted <+: (st.resume p).emitted := by
  cases p with
  | ret a =>
    obtain ⟨r, self⟩ := a
    rw [Stream.resume_ret, Stream.emitted_deliver]
    exact List.prefix_append _ _
  | call o k => exact List.prefix_refl _

theorem inner_resume (st : Stream) (p : BodyProg (PollFrame × ThrottledBody)) :
    (st.resume p).inner = st.inner := by
  cases p with
  | ret a => exact Stream.inner_deliver _ _
  | call o k => rfl

theorem grows_step {s : Traffic F} {now : ℕ} {e : TrafficEvent} {i : ℕ} {st st' : Stream}
    (hs : Traffic.StreamStep s now e i st st') :
    st.emitted <+: st'.emitted ∧ st.inner.produced <+: st'.inner.produced := by
  cases hs with
  | idle => exact ⟨List.prefix_refl _, List.prefix_refl _⟩
  | start => exact ⟨emitted_resume _ _, by rw [inner_resume]⟩
  | poll k =>
    refine ⟨emitted_resume { st with inner := st.inner.pollFrame.2 } _, ?_⟩
    rw [inner_resume, InnerBody.produced_pollFrame]
    exact List.prefix_append _ _
  | ask => exact ⟨emitted_resume _ _, by rw [inner_resume]⟩

theorem grows_run {s : Traffic F} {i : ℕ} {st : Stream} (hi : s.streams.get i = some st)
    (evs : List (ℕ × TrafficEvent)) :
    ∃ st', (s.run evs).streams.get i = some st' ∧ st.emitted <+: st'.emitted ∧
      st.inner.produced <+: st'.inner.produced := by
  induction evs using List.reverseRecOn with
  | nil => exact ⟨st, hi, List.prefix_refl _, List.prefix_refl _⟩
  | append_singleton evs e ih =>
    obtain ⟨st₁, h₁, hem₁, hpr₁⟩ := ih
    obtain ⟨st₂, h₂, hs⟩ := Traffic.stream_step e.1 e.2 h₁
    have := grows_step hs
    exact ⟨st₂, by rw [Traffic.run_concat]; exact h₂, hem₁.trans this.1, hpr₁.trans this.2⟩

/-! ## Delivery -/

/-- The frames taken are those handed out and at most one held back, and nothing is left to come
once the end has been reported. -/
structure Delivered (st : Stream) (held : List Frame) : Prop where
  length_le : held.length ≤ 1
  produced : st.inner.produced = st.emitted ++ held
  finished : st.finished = true → held = [] ∧ st.inner.left = []
  isEndStream : st.running = none → st.isEndStream = true → held = [] ∧ st.inner.left = []

/-- Stream `i` delivers throughout the run, and what is held back is what goes out next. -/
def Delivers (s : Traffic F) (i : ℕ) (evs : List (ℕ × TrafficEvent)) : Prop :=
  ∀ p q st, evs = p ++ q → (s.run p).streams.get i = some st →
    ∃ held, Delivered st held ∧
      ∀ q₁ q₂ st', q = q₁ ++ q₂ → (s.run (p ++ q₁)).streams.get i = some st' →
        st'.emitted ≠ st.emitted → (st.emitted ++ held) <+: st'.emitted

theorem Exact.delivered {st : Stream} {held : List Frame} (h : Exact st held) :
    Delivered st held where
  length_le := h.length_le
  produced := h.produced
  finished hf := by
    obtain ⟨hrun, hleft⟩ := h.finished hf
    rcases h.running with ⟨-, hheld⟩ | ⟨p, hp, -⟩
    · exact ⟨hheld, hleft⟩
    · exact absurd (hrun.symm.trans hp) (by simp)
  isEndStream hrun hend := by
    refine ⟨?_, InnerBody.left_of_isEndStream hend⟩
    rcases h.running with ⟨-, hheld⟩ | ⟨p, hp, -⟩
    · exact hheld
    · exact absurd (hrun.symm.trans hp) (by simp)

theorem delivers_of_alwaysCovered {s : Traffic F} {i : ℕ} {st : Stream}
    (hi : s.streams.get i = some st) (h0 : Exact st []) {evs : List (ℕ × TrafficEvent)}
    (hc : AlwaysCovered s i evs) : Delivers s i evs := by
  intro p q st₁ hpq h₁
  subst hpq
  obtain ⟨st₁', held, h₁', hex⟩ := exact_run hi h0 p (alwaysCovered_append.mp hc).1
  obtain rfl : st₁' = st₁ := Option.some.inj (h₁'.symm.trans h₁)
  refine ⟨held, hex.delivered, fun q₁ q₂ st₂ hq h₂ hne => ?_⟩
  subst hq
  rw [← List.append_assoc] at hc
  obtain ⟨st₂', held₂, h₂', hex₂⟩ := exact_run hi h0 (p ++ q₁) (alwaysCovered_append.mp hc).1
  obtain rfl : st₂' = st₂ := Option.some.inj (h₂'.symm.trans h₂)
  obtain ⟨st₂'', h₂'', hem, hpr⟩ := grows_run h₁ q₁
  rw [← Traffic.run_append] at h₂''
  obtain rfl : st₂'' = st₂' := Option.some.inj (h₂''.symm.trans h₂)
  -- both lists are prefixes of the frames taken by then
  have hlen : st₁'.emitted.length < st₂''.emitted.length := by
    rcases Nat.lt_or_ge st₁'.emitted.length st₂''.emitted.length with h | h
    · exact h
    · exact absurd (hem.eq_of_length_le h).symm hne
  have hnow : st₁'.emitted ++ held <+: st₂''.inner.produced := by
    rw [← hex.produced]
    exact hpr
  have hlater : st₂''.emitted <+: st₂''.inner.produced := by
    rw [hex₂.produced]
    exact List.prefix_append _ _
  apply List.prefix_of_prefix_length_le hnow hlater
  have := hex.length_le
  rw [List.length_append]
  omega

theorem alwaysCovered_of_delivers {s : Traffic F} {i : ℕ} {st st' : Stream}
    (hi : s.streams.get i = some st) (h0 : Lost 0 st st.self [])
    {evs : List (ℕ × TrafficEvent)} (hi' : (s.run evs).streams.get i = some st')
    (hfin : st'.finished = true) (hd : Delivers s i evs) : AlwaysCovered s i evs := by
  by_contra hc
  obtain ⟨n, st'', this, held, hi'', hl, hn⟩ := lost_run hi h0 evs
  obtain rfl : st'' = st' := Option.some.inj (hi''.symm.trans hi')
  obtain ⟨held', hdel, -⟩ := hd evs [] st'' (by simp) hi'
  have hpr := hdel.produced
  rw [(hdel.finished hfin).1, List.append_nil] at hpr
  have := hl.count
  have := hn hc
  rw [hpr] at *
  omega

/-- **Delivery.** A throttled body delivers in every run in which the bucket covers each amount
it asks for, and in no other run that reaches the end of the body: a frame refused when it is
taken is never handed out. -/
theorem throttledBody_delivers {s : Traffic F} {i : ℕ} {ip : IpAddr} {rate : ℕ}
    {polls : List (Option Frame)} {finish : BodyEnd} {knowsEnd : Bool}
    (hi : s.streams.get i = some (.new ip rate (.new polls finish knowsEnd)))
    (evs : List (ℕ × TrafficEvent)) :
    (AlwaysCovered s i evs → Delivers s i evs) ∧
      ∀ st, (s.run evs).streams.get i = some st → st.finished = true →
        (Delivers s i evs ↔ AlwaysCovered s i evs) := by
  have hex := exact_new ip rate polls finish knowsEnd
  have hcov : AlwaysCovered s i evs → Delivers s i evs := delivers_of_alwaysCovered hi hex
  refine ⟨hcov, fun st hst hfin => ⟨fun hd => ?_, hcov⟩⟩
  refine alwaysCovered_of_delivers hi ⟨Nat.le_refl 0, .inl ⟨rfl, rfl, rfl⟩, ?_⟩ hst hfin hd
  exact fun h => absurd h (lt_irrefl 0)

/-- In `f64`, refills every tenth of a second bring less than one token in the first second. -/
example : ((List.range 11).foldl (fun b k => b.fill (k * 100000000) 1)
    (TokenBucket.new 0 : TokenBucket Float)).tokens < 1 := by
  decide +kernel

/-- One stream of one data frame on a fresh limiter, at one byte per second. -/
def freshStream : Traffic Float where
  limiter := .new
  streams := KeyMap.empty.insert 0 (.new (.v4 0) 1 (.new [some (.data [7])] .endOfStream true))
  relays := .empty
  calls := []
  released := []

/-- The frame is taken at once, when the new bucket is empty, and the body polled again two
seconds later. -/
def freshStreamRun : List (ℕ × TrafficEvent) :=
  [(0, .poll 0), (0, .step 0), (0, .step 0), (fromSecs 2, .poll 0), (fromSecs 2, .step 0),
    (fromSecs 2, .step 0)]

theorem throttledBody_loses_frame : ¬ Delivers freshStream 0 freshStreamRun := by
  intro h
  have hend : ((freshStream.run freshStreamRun).streams.get 0).map
      (fun st => (st.emitted, st.inner.produced, st.finished)) = some ([], [.data [7]], true) := by
    decide +kernel
  obtain ⟨st, hst, heq⟩ := Option.map_eq_some_iff.mp hend
  simp only [Prod.mk.injEq] at heq
  obtain ⟨held, hd, -⟩ := h freshStreamRun [] st (by simp) hst
  have hpr := hd.produced
  rw [(hd.finished heq.2.2).1, heq.1, heq.2.1] at hpr
  cases hpr

/-- The same stream when the bucket of its address already holds two bytes. -/
def fullStream : Traffic Float :=
  { freshStream with limiter := ⟨KeyMap.empty.insert (.v4 0) ⟨2, 0⟩⟩ }

theorem throttledBody_delivers_full : Delivers fullStream 0 freshStreamRun :=
  (throttledBody_delivers (s := fullStream) (i := 0) rfl freshStreamRun).1 (by decide +kernel)

end OxidizedWall
