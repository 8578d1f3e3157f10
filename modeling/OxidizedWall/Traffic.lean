import OxidizedWall.Bandwidth

/-!
# Runs of streams and relays over one limiter

All bodies being streamed to clients and all WebSocket relay loops share one `BandwidthLimiter`.
A run is a list of events, each with the reading of the clock at that moment:

1. `poll i` starts a `poll_frame` on stream `i`, and `step i` performs its next call, so two polls
   of different streams may overlap;
2. `read j n` is a chunk of `n` bytes read by a relay loop of `handle_websocket`, and `attempt j`
   one turn of the loop that waits for the limiter.

Events that are not enabled leave the state as it is. `calls` and `released` record what the
limiter was asked and which bytes went out.
-/

namespace OxidizedWall

/-- A body being streamed: its wrapper, the body under it, the poll in progress and what the
polls have handed out so far. -/
structure Stream where
  self : ThrottledBody
  inner : InnerBody
  running : Option (BodyProg (PollFrame × ThrottledBody))
  emitted : List Frame
  finished : Bool

namespace Stream

/-- A body wrapped by `ThrottledBody::new` and not polled yet. -/
def new (ip : IpAddr) (rate : ℕ) (inner : InnerBody) : Stream :=
  ⟨.new ip rate, inner, none, [], false⟩

/-- What the poll's caller sees. -/
def deliver (st : Stream) : PollFrame → Stream
  | .pending => st
  | .frame f => { st with emitted := st.emitted ++ [f] }
  | .error _ => { st with finished := true }
  | .endOfStream => { st with finished := true }

/-- Goes on with a poll, up to its next call or its return. -/
def resume (st : Stream) : BodyProg (PollFrame × ThrottledBody) → Stream
  | .ret (res, self) => { st with self := self, running := none }.deliver res
  | .call o k => { st with running := some (.call o k) }

/-- `ThrottledBody::is_end_stream`. -/
def isEndStream (st : Stream) : Bool := st.inner.isEndStream

end Stream

/-- The data a poll hands out by returning. -/
def dataOut : BodyProg (PollFrame × ThrottledBody) → List ℕ
  | .ret (.frame (.data d), _) => [d.length]
  | _ => []

/-- One direction of the relay in `handle_websocket` (`c2b` or `b2c`): the length of the chunk
that waits for the limiter, if any. -/
structure Relay where
  ip : IpAddr
  maxBw : ℕ
  chunk : Option ℕ
  deriving DecidableEq

inductive TrafficEvent
  | poll (i : ℕ)
  | step (i : ℕ)
  | read (j n : ℕ)
  | attempt (j : ℕ)
  deriving DecidableEq

/-- A call of `BandwidthLimiter::try_consume` and its answer. -/
structure LimiterCall where
  ip : IpAddr
  time : ℕ
  amount : ℕ
  granted : Bool

/-- Bytes that went out: a data frame emitted, or a chunk past its wait loop. -/
structure Release where
  ip : IpAddr
  time : ℕ
  amount : ℕ

structure Traffic (F : Type) where
  limiter : BandwidthLimiter F
  streams : KeyMap ℕ Stream
  relays : KeyMap ℕ Relay
  calls : List LimiterCall
  released : List Release

namespace Traffic

variable {F : Type} [NatCast F] [Add F] [Sub F] [Mul F] [Div F] [LT F] [LE F] [DecidableLT F]
  [DecidableLE F]

/-- A call of the limiter. -/
def consume (s : Traffic F) (now : ℕ) (ip : IpAddr) (rate amount : ℕ) : Bool × Traffic F :=
  let r := s.limiter.tryConsume now ip rate amount
  (r.1, { s with limiter := r.2, calls := s.calls ++ [⟨ip, now, amount, r.1⟩] })

/-- Goes on with the poll of stream `i`. -/
def resume (s : Traffic F) (now : ℕ) (i : ℕ) (st : Stream)
    (p : BodyProg (PollFrame × ThrottledBody)) : Traffic F :=
  { s with
    streams := s.streams.insert i (st.resume p)
    released := s.released ++ (dataOut p).map fun n => ⟨st.self.ip, now, n⟩ }

/-- The waiting chunk of relay `j` goes out. -/
def forward (s : Traffic F) (now : ℕ) (j : ℕ) (r : Relay) (n : ℕ) : Traffic F :=
  { s with
    relays := s.relays.insert j { r with chunk := none }
    released := s.released ++ [⟨r.ip, now, n⟩] }

def step (s : Traffic F) (now : ℕ) : TrafficEvent → Traffic F
  | .poll i =>
    match s.streams.get i with
    | some st =>
      if st.running.isNone ∧ st.finished = false then s.resume now i st st.self.pollFrame else s
    | none => s
  | .step i =>
    match s.streams.get i with
    | some st =>
      match st.running with
      | some (.call .innerPollFrame k) =>
        let r := st.inner.pollFrame
        s.resume now i { st with inner := r.2 } (k r.1)
      | some (.call (.tryConsume ip rate amount) k) =>
        let r := s.consume now ip rate amount
        r.2.resume now i st (k r.1)
      | _ => s
    | none => s
  | .read j n =>
    match s.relays.get j with
    | some r =>
      if r.chunk = none ∧ 0 < n ∧ n ≤ 8192 then
        { s with relays := s.relays.insert j { r with chunk := some n } }
      else s
    | none => s
  | .attempt j =>
    match s.relays.get j with
    | some r =>
      match r.chunk with
      | some n =>
        -- `while max_bw > 0 && !try_consume(..)`: the chunk stays until the limiter grants it
        if r.maxBw > 0 then
          let a := s.consume now r.ip r.maxBw n
          if a.1 then a.2.forward now j r n else a.2
        else s.forward now j r n
      | none => s
    | none => s

def run (s : Traffic F) (evs : List (ℕ × TrafficEvent)) : Traffic F :=
  evs.foldl (fun s e => s.step e.1 e.2) s

@[simp] theorem run_nil (s : Traffic F) : s.run [] = s := rfl

theorem run_append (s : Traffic F) (p q : List (ℕ × TrafficEvent)) :
    s.run (p ++ q) = (s.run p).run q := List.foldl_append

theorem run_concat (s : Traffic F) (p : List (ℕ × TrafficEvent))
    (e : ℕ × TrafficEvent) : s.run (p ++ [e]) = (s.run p).step e.1 e.2 :=
  s.run_append p [e]

end Traffic

/-! ## The shape of a poll in progress -/

/-- `p` is a poll in progress of the wrapper `this`, and `held` is the frame it has taken from the
inner body but not handed out. -/
inductive InPoll : (this : ThrottledBody) → (held : List Frame) →
    BodyProg (PollFrame × ThrottledBody) → Prop
  | entry (this) : InPoll this [] this.pollFrame
  | inner (this) : 0 < this.rate → this.pendingAmount = 0 → InPoll this [] this.pollInner
  | charge (this d) : 0 < this.rate → this.pendingAmount = 0 →
      InPoll this [.data d] (this.chargeFrame d)

/-- What a poll can do next. -/
inductive PollStep (this : ThrottledBody) : (held : List Frame) →
    BodyProg (PollFrame × ThrottledBody) → Prop
  /-- The inner body is polled and its answer returned as it is. -/
  | through (k) : this.rate = 0 → (∀ r, k r = .ret (r, this)) →
      PollStep this [] (.call .innerPollFrame k)
  /-- The inner body is polled; a data frame is held until it is paid for. -/
  | take (k) : 0 < this.rate → this.pendingAmount = 0 →
      (∀ d, k (.frame (.data d)) = this.chargeFrame d) →
      (∀ r, (∀ d, r ≠ .frame (.data d)) → k r = .ret (r, this)) →
      PollStep this [] (.call .innerPollFrame k)
  /-- The amount left pending by an earlier poll is paid. -/
  | retry (k) : 0 < this.rate → 0 < this.pendingAmount →
      k true = ThrottledBody.pollInner { this with pendingAmount := 0 } →
      k false = .ret (.pending, this) →
      PollStep this [] (.call (.tryConsume this.ip this.rate this.pendingAmount) k)
  /-- The held frame is paid for and returned, or else given up: only its length is kept. -/
  | pay (d k) : 0 < this.rate → this.pendingAmount = 0 →
      k true = .ret (.frame (.data d), this) →
      k false = .ret (.pending, { this with pendingAmount := d.length }) →
      PollStep this [.data d] (.call (.tryConsume this.ip this.rate d.length) k)

theorem pollInner_step {this : ThrottledBody} (hr : 0 < this.rate)
    (hp : this.pendingAmount = 0) : PollStep this [] this.pollInner := by
  apply PollStep.take _ hr hp (fun d => rfl)
  intro r hr
  cases r with
  | frame f =>
    cases f with
    | data d => exact absurd rfl (hr d)
    | trailers h => rfl
  | pending => rfl
  | error e => rfl
  | endOfStream => rfl

/-- **Every poll in progress is about to make one of four calls.** -/
theorem InPoll.step {this : ThrottledBody} {held : List Frame}
    {p : BodyProg (PollFrame × ThrottledBody)} (h : InPoll this held p) : PollStep this held p := by
  cases h with
  | entry =>
    unfold ThrottledBody.pollFrame
    by_cases h0 : this.rate = 0
    · rw [if_pos h0]
      exact .through _ h0 fun r => rfl
    · rw [if_neg h0]
      by_cases hp : this.pendingAmount > 0
      · rw [if_pos hp]
        exact .retry _ (Nat.pos_of_ne_zero h0) hp rfl rfl
      · rw [if_neg hp]
        exact pollInner_step (Nat.pos_of_ne_zero h0) (by omega)
  | inner hr hp => exact pollInner_step hr hp
  | charge d hr hp => exact .pay d _ hr hp rfl rfl

theorem resume_inPoll {this : ThrottledBody} {held : List Frame}
    {p : BodyProg (PollFrame × ThrottledBody)} (h : InPoll this held p) (st : Stream) :
    st.resume p = { st with running := some p } ∧ dataOut p = [] := by
  cases h.step <;> exact ⟨rfl, rfl⟩

/-! ## What an event does to a stream -/

namespace Traffic

variable {F : Type} [NatCast F] [Add F] [Sub F] [Mul F] [Div F] [LT F] [LE F] [DecidableLT F]
  [DecidableLE F]
  {s : Traffic F} {now : ℕ} {e : TrafficEvent} {i : ℕ} {st : Stream}

/-- What the event `e` at `now` can do to the stream `st` at index `i`. -/
inductive StreamStep (s : Traffic F) (now : ℕ) (e : TrafficEvent) (i : ℕ) (st : Stream) :
    Stream → Prop
  | idle : (∀ o k, e = .step i → st.running ≠ some (.call o k)) → StreamStep s now e i st st
  | start : st.running = none → st.finished = false →
      StreamStep s now e i st (st.resume st.self.pollFrame)
  | poll (k) : st.running = some (.call .innerPollFrame k) →
      StreamStep s now e i st
        ({ st with inner := st.inner.pollFrame.2 }.resume (k st.inner.pollFrame.1))
  | ask (ip rate amount k) : e = .step i →
      st.running = some (.call (.tryConsume ip rate amount) k) →
      StreamStep s now e i st (st.resume (k (s.limiter.tryConsume now ip rate amount).1))

theorem streamStep_insert {j : ℕ} {sj sj' : Stream} (hi : s.streams.get i = some st)
    (hj : s.streams.get j = some sj) (hs : j = i → StreamStep s now e i sj sj')
    (he : j ≠ i → e ≠ .step i) :
    ∃ st', (s.streams.insert j sj').get i = some st' ∧ StreamStep s now e i st st' := by
  by_cases hij : i = j
  · subst hij
    obtain rfl : sj = st := Option.some.inj (hj.symm.trans hi)
    exact ⟨sj', KeyMap.get_insert_self _ _ _, hs rfl⟩
  · exact ⟨st, (KeyMap.get_insert_of_ne hij _).trans hi,
      .idle fun _ _ h => absurd h (he fun hji => hij hji.symm)⟩

theorem stream_step (now : ℕ) (e : TrafficEvent) (hi : s.streams.get i = some st) :
    ∃ st', (s.step now e).streams.get i = some st' ∧ StreamStep s now e i st st' := by
  have hidle : e ≠ .step i → ∃ st', s.streams.get i = some st' ∧ StreamStep s now e i st st' :=
    fun he => ⟨st, hi, .idle fun _ _ h => absurd h he⟩
  cases e with
  | poll j =>
    simp only [step]
    split
    · rename_i sj hj
      split
      · rename_i hrun
        exact streamStep_insert hi hj (fun _ => .start (by simpa using hrun.1) hrun.2) (by simp)
      · exact hidle (by simp)
    · exact hidle (by simp)
  | step j =>
    simp only [step]
    split
    · rename_i sj hj
      split
      · rename_i k hk
        exact streamStep_insert hi hj (fun _ => .poll k hk) (by simp)
      · rename_i ip rate amount k hk
        exact streamStep_insert hi hj (fun hji => .ask ip rate amount k (hji ▸ rfl) hk) (by simp)
      · rename_i hp ha
        refine ⟨st, hi, .idle fun o k he hk => ?_⟩
        obtain rfl : j = i := by simpa using he
        obtain rfl : sj = st := Option.some.inj (hj.symm.trans hi)
        cases o with
        | innerPollFrame => exact hp k hk
        | tryConsume ip rate amount => exact ha ip rate amount k hk
    · rename_i hnone
      apply hidle
      intro he
      obtain rfl : j = i := by simpa using he
      exact absurd (hnone.symm.trans hi) (by simp)
  | read j n =>
    simp only [step]
    split
    · split <;> exact hidle (by simp)
    · exact hidle (by simp)
  | attempt j =>
    simp only [step]
    split
    · split
      · split
        · split <;> exact hidle (by simp)
        · exact hidle (by simp)
      · exact hidle (by simp)
    · exact hidle (by simp)

end Traffic

end OxidizedWall
