import OxidizedWall.Traffic
import Mathlib.Algebra.Order.Archimedean.Basic

/-!
# Waiting for the limiter

A throttled body that owes for a frame asks again at every poll, and so does a relay loop every
5 ms. Asking too early does no harm (`consume_after_refused`). But a bucket never holds more than
twice its rate, so what is longer than that is refused for ever (`progress_iff`).
-/

namespace OxidizedWall

namespace TokenBucket

variable {b : TokenBucket ℚ} {now t u : ℕ} {rate amount : ℚ}

/-! ## Refused attempts -/

theorem toBucket_injective {b b' : TokenBucket ℚ} (h : b.toBucket = b'.toBucket) : b = b' := by
  obtain ⟨htokens, htime⟩ := Bucket.mk.inj h
  have hfill : b.lastFill = b'.lastFill :=
    le_antisymm (asSecs_le.mp htime.le) (asSecs_le.mp htime.ge)
  cases b
  cases b'
  simp only at htokens hfill
  rw [htokens, hfill]

theorem fill_fill (hrate : 0 ≤ rate) (ht : b.lastFill ≤ t) (htu : t ≤ u) :
    (b.fill t rate).fill u rate = b.fill u rate := by
  apply toBucket_injective
  rw [toBucket_fill (show (b.fill t rate).lastFill ≤ u from htu), toBucket_fill ht,
    toBucket_fill (ht.trans htu)]
  exact Bucket.refill_refill _ hrate (asSecs_le.mpr htu)

theorem consume_granted_iff (b : TokenBucket ℚ) (now : ℕ) (rate amount : ℚ) :
    (b.consume now rate amount).1 = true ↔ amount ≤ (b.fill now rate).tokens := by
  unfold consume
  simp only [ge_iff_le]
  split <;> simp [*]

/-- A refused attempt refills the bucket, and no more. -/
theorem consume_refused (h : (b.consume now rate amount).1 = false) :
    (b.consume now rate amount).2 = b.fill now rate := by
  have hlow : ¬ amount ≤ (b.fill now rate).tokens := by
    rw [← consume_granted_iff, h]
    exact Bool.false_ne_true
  unfold consume
  simp only [ge_iff_le, if_neg hlow]

/-- The bucket after attempts at these times and for these amounts. -/
def attempts (rate : ℚ) (b : TokenBucket ℚ) (calls : List (ℕ × ℚ)) : TokenBucket ℚ :=
  calls.foldl (fun b call => (b.consume call.1 rate call.2).2) b

/-- Each of the attempts is refused. -/
def AllRefused (rate : ℚ) : TokenBucket ℚ → List (ℕ × ℚ) → Prop
  | _, [] => True
  | b, (now, amount) :: calls =>
    (b.consume now rate amount).1 = false ∧ AllRefused rate (b.consume now rate amount).2 calls

theorem fill_attempts (hrate : 0 ≤ rate) {calls : List (ℕ × ℚ)}
    (hsorted : (b.lastFill :: (calls.map Prod.fst ++ [now])).Pairwise (· ≤ ·))
    (h : AllRefused rate b calls) : (b.attempts rate calls).fill now rate = b.fill now rate := by
  induction calls generalizing b with
  | nil => rfl
  | cons call calls ih =>
    obtain ⟨t, a⟩ := call
    rw [List.map_cons, List.cons_append, List.pairwise_cons] at hsorted
    have ht : b.lastFill ≤ t := hsorted.1 t List.mem_cons_self
    have htnow : t ≤ now := (List.pairwise_cons.mp hsorted.2).1 now (by simp)
    show ((b.consume t rate a).2.attempts rate calls).fill now rate = b.fill now rate
    rw [ih (by rw [lastFill_consume]; exact hsorted.2) h.2, consume_refused h.1,
      fill_fill hrate ht htnow]

/-- **Polling frequency is irrelevant.** After any refused attempts, an attempt has the outcome and
leaves the bucket that it would have without them. The rate is that of a `u64`, and the clock does
not run backwards. -/
theorem consume_after_refused (hrate : 0 ≤ rate) (calls : List (ℕ × ℚ))
    (hsorted : (b.lastFill :: (calls.map Prod.fst ++ [now])).Pairwise (· ≤ ·))
    (h : AllRefused rate b calls) (amount : ℚ) :
    (b.attempts rate calls).consume now rate amount = b.consume now rate amount := by
  unfold consume
  rw [fill_attempts hrate hsorted h]

/-- Three polls that come too early, and one that does not. -/
theorem consume_after_refused_polls :
    ((TokenBucket.new 0).attempts 100 [(0, 50), (5, 50), (fromSecs 1, 101)]).consume
        (fromSecs 2) 100 120 =
      (TokenBucket.new 0).consume (fromSecs 2) 100 120 :=
  consume_after_refused (by norm_num) [(0, 50), (5, 50), (fromSecs 1, 101)] (by decide)
    ⟨by decide +kernel, by decide +kernel, by decide +kernel, trivial⟩ 120

/-! ## Attempts that succeed in the end -/

theorem fill_tokens_le (b : TokenBucket ℚ) (now : ℕ) (rate : ℚ) :
    (b.fill now rate).tokens ≤ 2 * rate := by
  unfold fill
  simp only [Nat.cast_ofNat]
  split <;> linarith

/-- More than twice the rate is never granted. -/
theorem consume_of_cap_lt (h : 2 * rate < amount) (b : TokenBucket ℚ) (now : ℕ) :
    (b.consume now rate amount).1 = false := by
  rw [← Bool.not_eq_true, consume_granted_iff]
  exact not_le.mpr ((fill_tokens_le b now rate).trans_lt h)

/-- A bucket that nobody draws on is full after some time. -/
theorem exists_full (hrate : 0 < rate) (b : TokenBucket ℚ) :
    ∃ delay : ℕ, (b.fill (b.lastFill + delay) rate).tokens = 2 * rate := by
  obtain ⟨delay, hdelay⟩ := exists_nat_ge ((2 * rate - b.tokens) / rate * 1000000000)
  refine ⟨delay, ?_⟩
  have hle : b.lastFill ≤ b.lastFill + delay := Nat.le_add_right _ _
  have hmissing : 2 * rate - b.tokens ≤ rate * asSecs delay := by
    unfold asSecs
    rw [← div_le_iff₀' hrate, le_div_iff₀ (by norm_num)]
    exact hdelay
  have hfull : (b.toBucket.refill (2 * rate) rate (asSecs (b.lastFill + delay))).level = 2 * rate := by
    apply Bucket.refill_full
    show 2 * rate ≤ b.tokens + rate * (asSecs (b.lastFill + delay) - asSecs b.lastFill)
    rw [← asSecs_sub hle, Nat.add_sub_cancel_left]
    linarith
  rw [← hfull, ← toBucket_fill hle]
  rfl

/-- An attempt is granted after some delay if and only if it is for at most twice the rate. -/
theorem exists_delay_iff (hrate : 0 < rate) (b : TokenBucket ℚ) (amount : ℚ) :
    (∃ delay, (b.consume (b.lastFill + delay) rate amount).1 = true) ↔ amount ≤ 2 * rate := by
  constructor
  · rintro ⟨delay, h⟩
    by_contra hlt
    rw [consume_of_cap_lt (not_le.mp hlt)] at h
    cases h
  · intro hle
    obtain ⟨delay, hdelay⟩ := exists_full hrate b
    exact ⟨delay, (consume_granted_iff _ _ _ _).mpr (hdelay ▸ hle)⟩

end TokenBucket

namespace BandwidthLimiter

/-- Whatever an attempt has left in the bucket, after some delay the next one is granted. -/
theorem exists_tryConsume {rate amount : ℕ} (hrate : 0 < rate) (hle : amount ≤ 2 * rate)
    (l : BandwidthLimiter ℚ) (now : ℕ) (ip : IpAddr) : ∃ delay,
    ((l.tryConsume now ip rate amount).2.tryConsume (now + delay) ip rate amount).1 = true := by
  obtain ⟨delay, h⟩ := (TokenBucket.exists_delay_iff (Nat.cast_pos.mpr hrate)
    ((l.bucket now ip).consume now rate amount).2 amount).mpr (by exact_mod_cast hle)
  rw [TokenBucket.lastFill_consume] at h
  refine ⟨delay, ?_⟩
  have hbucket : (l.tryConsume now ip rate amount).2.bucket (now + delay) ip =
      ((l.bucket now ip).consume now rate amount).2 := by
    unfold bucket tryConsume
    rw [KeyMap.get_insert_self, Option.getD_some]
    rfl
  unfold tryConsume at hbucket ⊢
  simp only [hbucket]
  exact h

theorem tryConsume_of_cap_lt {rate amount : ℕ} (h : 2 * rate < amount) (l : BandwidthLimiter ℚ)
    (now : ℕ) (ip : IpAddr) : (l.tryConsume now ip rate amount).1 = false :=
  TokenBucket.consume_of_cap_lt (by exact_mod_cast h) _ _

end BandwidthLimiter

/-! ## Bodies and relays that wait -/

theorem ThrottledBody.pollFrame_pending {this : ThrottledBody} (hr : 0 < this.rate)
    (hp : 0 < this.pendingAmount) : ∃ k,
      this.pollFrame = .call (.tryConsume this.ip this.rate this.pendingAmount) k ∧
      k true = ThrottledBody.pollInner { this with pendingAmount := 0 } ∧
      k false = .ret (.pending, this) := by
  unfold pollFrame
  rw [if_neg hr.ne', if_pos hp]
  exact ⟨_, rfl, rfl, rfl⟩

/-- A body that owes for a frame and is not being polled. -/
structure Stream.Owes (st : Stream) : Prop where
  rate_pos : 0 < st.self.rate
  pending_pos : 0 < st.self.pendingAmount
  idle : st.running = none
  unfinished : st.finished = false

/-- A poll of the body is about to ask the limiter. -/
def Stream.asking (st : Stream) : Stream := { st with running := some st.self.pollFrame }

/-- The poll has paid what was owed, and goes on to the inner body. -/
def Stream.paid (st : Stream) : Stream :=
  { st with running := some (ThrottledBody.pollInner { st.self with pendingAmount := 0 }) }

theorem Stream.Owes.paid_ne {st : Stream} (h : st.Owes) : st.paid ≠ st := by
  intro heq
  have hrunning := congrArg Stream.running heq
  rw [h.idle] at hrunning
  cases hrunning

theorem Stream.Owes.paid_ne_asking {st : Stream} (h : st.Owes) : st.paid ≠ st.asking := by
  intro heq
  obtain ⟨k, hpoll, -, -⟩ := ThrottledBody.pollFrame_pending h.rate_pos h.pending_pos
  have hrunning := congrArg Stream.running heq
  unfold Stream.asking at hrunning
  rw [hpoll] at hrunning
  cases hrunning

namespace Traffic

/-- Some run of events of its own, from `now` on, takes the waiter to where it is `done`. -/
def Unblocks (s : Traffic ℚ) (now : ℕ) (own : TrafficEvent → Prop) (done : Traffic ℚ → Prop) : Prop :=
  ∃ evs, (now :: evs.map Prod.fst).Pairwise (· ≤ ·) ∧ (∀ e ∈ evs, own e.2) ∧ done (s.run evs)

variable {s : Traffic ℚ} {now i j n : ℕ} {st : Stream} {r : Relay}

theorem step_poll_owes (hi : s.streams.get i = some st) (h : st.Owes) (now : ℕ) :
    (s.step now (.poll i)).limiter = s.limiter ∧
      (s.step now (.poll i)).streams.get i = some st.asking := by
  obtain ⟨k, hpoll, -, -⟩ := ThrottledBody.pollFrame_pending h.rate_pos h.pending_pos
  have hstep : s.step now (.poll i) = s.resume now i st st.self.pollFrame := by
    simp only [step, hi]
    rw [if_pos ⟨by rw [h.idle]; rfl, h.unfinished⟩]
  rw [hstep, hpoll]
  refine ⟨rfl, ?_⟩
  show (s.streams.insert i _).get i = _
  rw [KeyMap.get_insert_self]
  unfold Stream.asking
  rw [hpoll]
  rfl

theorem step_ask_owes (hi : s.streams.get i = some st.asking) (h : st.Owes) (now : ℕ) :
    let a := s.limiter.tryConsume now st.self.ip st.self.rate st.self.pendingAmount
    (s.step now (.step i)).limiter = a.2 ∧
      (s.step now (.step i)).streams.get i = some (if a.1 then st.paid else st) := by
  obtain ⟨k, hpoll, htrue, hfalse⟩ :=
    ThrottledBody.pollFrame_pending h.rate_pos h.pending_pos
  intro a
  unfold Stream.asking at hi
  rw [hpoll] at hi
  simp only [step, hi]
  refine ⟨rfl, ?_⟩
  show (s.streams.insert i (Stream.resume _ (k a.1))).get i = _
  rw [KeyMap.get_insert_self]
  cases a.1 with
  | true =>
    rw [htrue]
    rfl
  | false =>
    rw [hfalse]
    show some { st with running := none } = some st
    rw [← h.idle]

/-- A body that owes too much is never done asking, whatever else happens. -/
theorem step_stuck (h : st.Owes) (hcap : 2 * st.self.rate < st.self.pendingAmount)
    (hi : s.streams.get i = some st ∨ s.streams.get i = some st.asking) (now : ℕ)
    (e : TrafficEvent) : (s.step now e).streams.get i = some st ∨
      (s.step now e).streams.get i = some st.asking := by
  obtain ⟨k, hpoll, -, hfalse⟩ :=
    ThrottledBody.pollFrame_pending h.rate_pos h.pending_pos
  rcases hi with hi | hi
  · obtain ⟨st', hst', hstep⟩ := stream_step now e hi
    rw [hst']
    cases hstep with
    | idle => exact .inl rfl
    | start =>
      right
      unfold Stream.asking
      rw [hpoll]
      rfl
    | poll k' hrun => exact absurd (h.idle.symm.trans hrun) (by simp)
    | ask ip rate amount k' he hrun => exact absurd (h.idle.symm.trans hrun) (by simp)
  · obtain ⟨st', hst', hstep⟩ := stream_step now e hi
    rw [hst']
    have hrun : st.asking.running = some st.self.pollFrame := rfl
    rw [hpoll] at hrun
    cases hstep with
    | idle => exact .inr rfl
    | start hnone => exact absurd (hrun.symm.trans hnone) (by simp)
    | poll k' hrun' => exact absurd (hrun.symm.trans hrun') (by simp)
    | ask ip rate amount k' he hrun' =>
      left
      obtain ⟨hop, hk⟩ := Prog.call.inj (Option.some.inj (hrun.symm.trans hrun'))
      obtain ⟨rfl, rfl, rfl⟩ := BodyOp.tryConsume.inj hop
      obtain rfl := eq_of_heq hk
      rw [BandwidthLimiter.tryConsume_of_cap_lt hcap, hfalse]
      show some { st with running := none } = some st
      rw [← h.idle]

theorem run_stuck (h : st.Owes) (hcap : 2 * st.self.rate < st.self.pendingAmount)
    (hi : s.streams.get i = some st) (evs : List (ℕ × TrafficEvent)) :
    (s.run evs).streams.get i = some st ∨ (s.run evs).streams.get i = some st.asking := by
  induction evs using List.reverseRecOn with
  | nil => exact .inl hi
  | append_singleton evs e ih =>
    rw [run_concat]
    exact step_stuck h hcap ih e.1 e.2

theorem unblocks_body_iff (hi : s.streams.get i = some st) (h : st.Owes) (now : ℕ) :
    s.Unblocks now (fun e => e = .poll i ∨ e = .step i)
      (fun s' => s'.streams.get i = some st.paid) ↔ st.self.pendingAmount ≤ 2 * st.self.rate := by
  constructor
  · rintro ⟨evs, -, -, hpaid⟩
    by_contra hlt
    rcases run_stuck h (not_le.mp hlt) hi evs with hstuck | hstuck
    · exact h.paid_ne (Option.some.inj (hpaid.symm.trans hstuck))
    · exact h.paid_ne_asking (Option.some.inj (hpaid.symm.trans hstuck))
  · intro hle
    obtain ⟨delay, hdelay⟩ :=
      s.limiter.exists_tryConsume h.rate_pos hle now st.self.ip
    obtain ⟨hlim, hget⟩ := step_poll_owes hi h now
    obtain ⟨hlim₁, hget₁⟩ := step_ask_owes hget h now
    rw [hlim] at hlim₁ hget₁
    by_cases hnow : (s.limiter.tryConsume now st.self.ip st.self.rate st.self.pendingAmount).1
    · rw [if_pos hnow] at hget₁
      exact ⟨[(now, .poll i), (now, .step i)], by simp, by simp, hget₁⟩
    · rw [if_neg hnow] at hget₁
      obtain ⟨hlim₂, hget₂⟩ := step_poll_owes hget₁ h (now + delay)
      obtain ⟨-, hget₃⟩ := step_ask_owes hget₂ h (now + delay)
      rw [hlim₂, hlim₁, if_pos hdelay] at hget₃
      exact ⟨[(now, .poll i), (now, .step i), (now + delay, .poll i), (now + delay, .step i)],
        by simp, by simp, hget₃⟩

theorem step_attempt (hj : s.relays.get j = some r) (hr : 0 < r.maxBw) (hn : r.chunk = some n)
    (now : ℕ) :
    let a := s.limiter.tryConsume now r.ip r.maxBw n
    (s.step now (.attempt j)).limiter = a.2 ∧ (s.step now (.attempt j)).relays.get j =
      some { r with chunk := if a.1 then none else some n } := by
  intro a
  simp only [step, hj, hn, if_pos hr]
  cases ha : (s.consume now r.ip r.maxBw n).1 with
  | true =>
    have ha' : a.1 = true := ha
    rw [if_pos rfl, if_pos ha']
    exact ⟨rfl, KeyMap.get_insert_self _ _ _⟩
  | false =>
    have ha' : ¬ a.1 = true := by rw [show a.1 = false from ha]; exact Bool.false_ne_true
    rw [if_neg Bool.false_ne_true, if_neg ha', ← hn]
    exact ⟨rfl, hj⟩

theorem unblocks_relay_iff (hj : s.relays.get j = some r) (hr : 0 < r.maxBw)
    (hn : r.chunk = some n) (now : ℕ) :
    s.Unblocks now (· = .attempt j)
      (fun s' => s'.relays.get j = some { r with chunk := none }) ↔ n ≤ 2 * r.maxBw := by
  constructor
  · rintro ⟨evs, -, hown, hdone⟩
    by_contra hlt
    have hstuck : (s.run evs).relays.get j = some r := by
      clear hdone
      induction evs using List.reverseRecOn with
      | nil => exact hj
      | append_singleton evs e ih =>
        obtain ⟨t, e⟩ := e
        obtain rfl : e = .attempt j := hown (t, e) (by simp)
        obtain ⟨-, hget⟩ := step_attempt (ih fun e he => hown e (by simp [he])) hr hn t
        rw [run_concat, hget, BandwidthLimiter.tryConsume_of_cap_lt (not_le.mp hlt),
          if_neg Bool.false_ne_true, ← hn]
    have := congrArg Relay.chunk (Option.some.inj (hdone.symm.trans hstuck))
    rw [hn] at this
    cases this
  · intro hle
    obtain ⟨delay, hdelay⟩ := s.limiter.exists_tryConsume hr hle now r.ip
    obtain ⟨hlim, hget⟩ := step_attempt hj hr hn now
    by_cases hnow : (s.limiter.tryConsume now r.ip r.maxBw n).1
    · rw [if_pos hnow] at hget
      exact ⟨[(now, .attempt j)], by simp, by simp, hget⟩
    · rw [if_neg hnow, ← hn] at hget
      obtain ⟨-, hget'⟩ := step_attempt hget hr hn (now + delay)
      rw [hlim, if_pos hdelay] at hget'
      exact ⟨[(now, .attempt j), (now + delay, .attempt j)], by simp, by simp, hget'⟩

end Traffic

/-- **Progress.** At a positive rate, an attempt of any length is granted after some delay if and
only if the length is at most twice the rate; and so a body gets past the frame it owes for, and
a relay loop past its chunk, if and only if the frame or the chunk is no longer than that. -/
theorem progress_iff {rate : ℕ} (hrate : 0 < rate) (length : ℕ) :
    (∀ b : TokenBucket ℚ, (∃ delay, (b.consume (b.lastFill + delay) rate length).1 = true) ↔
      length ≤ 2 * rate) ∧
    (∀ (s : Traffic ℚ) (now i : ℕ) (st : Stream), s.streams.get i = some st → st.Owes →
      st.self.rate = rate → st.self.pendingAmount = length →
      (s.Unblocks now (fun e => e = .poll i ∨ e = .step i)
        (fun s' => s'.streams.get i = some st.paid) ↔ length ≤ 2 * rate)) ∧
    ∀ (s : Traffic ℚ) (now j : ℕ) (r : Relay), s.relays.get j = some r → r.maxBw = rate →
      r.chunk = some length →
      (s.Unblocks now (· = .attempt j)
        (fun s' => s'.relays.get j = some { r with chunk := none }) ↔ length ≤ 2 * rate) := by
  refine ⟨fun b => ?_, fun s now i st hi h hr hp => ?_, fun s now j r hj hr hn => ?_⟩
  · rw [TokenBucket.exists_delay_iff (by exact_mod_cast hrate)]
    exact_mod_cast Iff.rfl
  · subst hr hp
    exact Traffic.unblocks_body_iff hi h now
  · subst hr
    exact Traffic.unblocks_relay_iff hj hrate hn now

/-- A body that owes for ten bytes at five bytes a second, and a relay that waits with as many. -/
def waitingTraffic : Traffic ℚ :=
  ⟨.new, KeyMap.empty.insert 0 ⟨⟨.v4 1, 5, 10⟩, ⟨[], .endOfStream, true, []⟩, none, [], false⟩,
    KeyMap.empty.insert 0 ⟨.v4 1, 5, some 10⟩, [], []⟩

theorem progress_waiting :
    ((∃ delay, ((TokenBucket.new 0).consume (0 + delay) ((5 : ℕ) : ℚ) (10 : ℕ)).1 = true) ↔
      10 ≤ 2 * 5) ∧
    (waitingTraffic.Unblocks 7 (fun e => e = .poll 0 ∨ e = .step 0)
      (fun s' => s'.streams.get 0 = some (Stream.paid
        ⟨⟨.v4 1, 5, 10⟩, ⟨[], .endOfStream, true, []⟩, none, [], false⟩)) ↔ 10 ≤ 2 * 5) ∧
    (waitingTraffic.Unblocks 7 (· = .attempt 0)
      (fun s' => s'.relays.get 0 = some ⟨.v4 1, 5, none⟩) ↔ 10 ≤ 2 * 5) :=
  have h := progress_iff (show 0 < 5 by decide) 10
  ⟨h.1 (TokenBucket.new 0),
    h.2.1 waitingTraffic 7 0 _ rfl ⟨by decide, by decide, rfl, rfl⟩ rfl rfl,
    h.2.2 waitingTraffic 7 0 _ rfl rfl rfl⟩

/-- At a thousand bytes a second, a frame of three thousand bytes is never paid for. -/
theorem no_progress : ¬ ∃ delay,
    ((TokenBucket.new 0).consume (0 + delay) ((1000 : ℕ) : ℚ) (3000 : ℕ)).1 = true := by
  rintro ⟨delay, h⟩
  rw [TokenBucket.consume_of_cap_lt (by norm_num)] at h
  cases h

end OxidizedWall
