import OxidizedWall.Lib.Bucket
import OxidizedWall.Lib.KeyMap
import OxidizedWall.Lib.Prog
import OxidizedWall.Http
import Mathlib.Algebra.Order.Ring.Rat
import Mathlib.Tactic.FieldSimp
import Mathlib.Tactic.NormNum

/-!
# Bandwidth throttling (`bandwidth.rs`)

The per-IP token buckets and the body wrapper that draws on them. The code counts tokens in `f64`;
here the type `F` of the counts is a parameter. `Float` makes it the code, `ℚ` its reading in exact
arithmetic (`toBucket_consume`).

`ThrottledBody::poll_frame` is a program over two shared objects, the wrapped body and the
limiter, so that other readers of the same bucket may act between its calls.
-/

namespace OxidizedWall

/-! ## Token buckets -/

structure TokenBucket (F : Type) where
  tokens : F
  lastFill : ℕ
  deriving DecidableEq

section

variable {F : Type} [NatCast F] [Add F] [Sub F] [Mul F] [Div F] [LT F] [LE F] [DecidableLT F]
  [DecidableLE F]

namespace TokenBucket

def new (now : ℕ) : TokenBucket F := ⟨(0 : ℕ), now⟩

/-- The first half of `TokenBucket::consume`: the refill and its cap of twice the rate. -/
def fill (b : TokenBucket F) (now : ℕ) (rate : F) : TokenBucket F :=
  let elapsed : F := asSecsF64 (now - b.lastFill)
  let tokens := b.tokens + elapsed * rate
  ⟨if tokens > rate * (2 : ℕ) then rate * (2 : ℕ) else tokens, now⟩

def consume (b : TokenBucket F) (now : ℕ) (rate amount : F) : Bool × TokenBucket F :=
  let b := b.fill now rate
  if b.tokens ≥ amount then (true, { b with tokens := b.tokens - amount }) else (false, b)

@[simp] theorem lastFill_consume (b : TokenBucket F) (now : ℕ) (rate amount : F) :
    (b.consume now rate amount).2.lastFill = now := by
  unfold consume
  simp only [apply_ite Prod.snd, apply_ite lastFill]
  exact ite_self _

end TokenBucket

structure BandwidthLimiter (F : Type) where
  buckets : KeyMap IpAddr (TokenBucket F)

namespace BandwidthLimiter

def new : BandwidthLimiter F := ⟨KeyMap.empty⟩

/-- `self.buckets.entry(ip).or_insert(TokenBucket::new())`. -/
def bucket (l : BandwidthLimiter F) (now : ℕ) (ip : IpAddr) : TokenBucket F :=
  (l.buckets.get ip).getD (TokenBucket.new now)

/-- `BandwidthLimiter::try_consume`, under the lock of the map entry. A new bucket and `consume`
read the clock one after the other, which is taken to be the same instant. -/
def tryConsume (l : BandwidthLimiter F) (now : ℕ) (ip : IpAddr) (rate amount : ℕ) :
    Bool × BandwidthLimiter F :=
  let r := (l.bucket now ip).consume now rate amount
  (r.1, ⟨l.buckets.insert ip r.2⟩)

end BandwidthLimiter

end

/-! ## Buckets in exact arithmetic -/

namespace TokenBucket

/-- The bucket with its clock in seconds. -/
def toBucket (b : TokenBucket ℚ) : Bucket ℚ := ⟨b.tokens, asSecs b.lastFill⟩

theorem toBucket_fill {b : TokenBucket ℚ} {now : ℕ} (h : b.lastFill ≤ now) (rate : ℚ) :
    (b.fill now rate).toBucket = b.toBucket.refill (2 * rate) rate (asSecs now) := by
  unfold fill toBucket Bucket.refill
  ext
  · simp only [asSecsF64_rat, Nat.cast_ofNat]
    rw [asSecs_sub h, mul_comm rate 2, mul_comm (asSecs now - asSecs b.lastFill)]
    split
    · rw [min_eq_left (by linarith)]
    · rw [min_eq_right (by linarith)]
  · rfl

/-- `consume` is a draw of the capped bucket, read on a clock that does not run backwards. -/
theorem toBucket_consume {b : TokenBucket ℚ} {now : ℕ} (h : b.lastFill ≤ now)
    (rate amount : ℚ) :
    ((b.consume now rate amount).1, (b.consume now rate amount).2.toBucket) =
      b.toBucket.draw (2 * rate) rate (asSecs now) amount := by
  unfold consume Bucket.draw
  have hlevel : (b.toBucket.refill (2 * rate) rate (asSecs now)).level = (b.fill now rate).tokens := by
    rw [← toBucket_fill h]; rfl
  simp only [hlevel, ge_iff_le]
  split
  · rfl
  · rw [← toBucket_fill h]

end TokenBucket

/-! ## The inner body -/

/-- A body under the wrapper: the polls it will still answer (`none`: `Pending`), how it ends, and
the frames it has handed out. `knowsEnd`: the body can tell that its last frame is out. -/
structure InnerBody where
  polls : List (Option Frame)
  finish : BodyEnd
  knowsEnd : Bool
  produced : List Frame

/-- `Poll<Option<Result<Frame, Error>>>`. -/
inductive PollFrame
  | pending
  | frame (f : Frame)
  | error (e : HyperError)
  | endOfStream
  deriving DecidableEq

namespace InnerBody

/-- `poll_frame` of the inner body. -/
def pollFrame (b : InnerBody) : PollFrame × InnerBody :=
  match b.polls with
  | none :: rest => (.pending, { b with polls := rest })
  | some f :: rest => (.frame f, { b with polls := rest, produced := b.produced ++ [f] })
  | [] =>
    match b.finish with
    | .endOfStream => (.endOfStream, b)
    | .error => (.error ⟨⟩, { b with finish := .endOfStream })

def left (b : InnerBody) : List Frame := b.polls.reduceOption

/-- `is_end_stream` of the inner body. -/
def isEndStream (b : InnerBody) : Bool :=
  b.knowsEnd && b.left.isEmpty && b.finish == .endOfStream

end InnerBody

/-! ## The throttled body -/

/-- The operations a throttled body performs on shared objects. -/
inductive BodyOp
  | innerPollFrame
  | tryConsume (ip : IpAddr) (rate amount : ℕ)

@[reducible] def BodyOp.Ans : BodyOp → Type
  | innerPollFrame => PollFrame
  | tryConsume _ _ _ => Bool

abbrev BodyProg := Prog BodyOp BodyOp.Ans

/-- A `ThrottledBody`, without the inner body and the limiter it points to. -/
structure ThrottledBody where
  ip : IpAddr
  rate : ℕ
  pendingAmount : ℕ
  deriving DecidableEq

namespace ThrottledBody

def new (ip : IpAddr) (rate : ℕ) : ThrottledBody := ⟨ip, rate, 0⟩

def innerPollFrame : BodyProg PollFrame := Prog.perform BodyOp.innerPollFrame

def tryConsume (ip : IpAddr) (rate amount : ℕ) : BodyProg Bool :=
  Prog.perform (BodyOp.tryConsume ip rate amount)

/-- The data branch of `poll_frame`: a frame just taken from the inner body is paid for. -/
def chargeFrame (this : ThrottledBody) (data : Bytes) : BodyProg (PollFrame × ThrottledBody) := do
  if ← tryConsume this.ip this.rate data.length then
    return (.frame (.data data), this)
  else
    return (.pending, { this with pendingAmount := data.length })

/-- `poll_frame` once nothing is pending. -/
def pollInner (this : ThrottledBody) : BodyProg (PollFrame × ThrottledBody) := do
  match ← innerPollFrame with
  | .frame frame =>
    match frame.dataRef with
    | some data => this.chargeFrame data
    | none => return (.frame frame, this)
  | res => return (res, this)

def pollFrame (self : ThrottledBody) : BodyProg (PollFrame × ThrottledBody) := do
  if self.rate = 0 then
    return (← innerPollFrame, self)
  else if self.pendingAmount > 0 then
    if ← tryConsume self.ip self.rate self.pendingAmount then
      pollInner { self with pendingAmount := 0 }
    else
      return (.pending, self)
  else
    self.pollInner

end ThrottledBody

end OxidizedWall
