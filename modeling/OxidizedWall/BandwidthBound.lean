import OxidizedWall.Traffic
import Mathlib.Algebra.BigOperators.Ring.Finset

/-!
# How many bytes leave per address

All streams and relays draw with one rate, so the bucket of an address is a capped bucket of rate
`rate` and cap `2 * rate`. `Accounted` says so of every state of a run: the bucket of each address
and the calls granted to it form a `Ledger`, and what was released is a part of what was granted.
-/

namespace OxidizedWall

namespace Traffic

/-- What the limiter has granted to `ip`. -/
def grantsOf (ip : IpAddr) (calls : List LimiterCall) : List (Grant ℚ) :=
  (calls.filter fun c => c.ip = ip ∧ c.granted).map fun c => ⟨asSecs c.time, c.amount⟩

/-- What went out to `ip`. -/
def releasesOf (ip : IpAddr) (released : List Release) : List (Grant ℚ) :=
  (released.filter fun r => r.ip = ip).map fun r => ⟨asSecs r.time, r.amount⟩

/-- The number of bytes released to `ip` in the window `[s, t]`, in seconds. -/
def releasedIn (tr : Traffic ℚ) (ip : IpAddr) (s t : ℚ) : ℕ :=
  ((tr.released.filter fun r => r.ip = ip ∧ s ≤ asSecs r.time ∧ asSecs r.time ≤ t).map
    Release.amount).sum

theorem grantsOf_concat (ip : IpAddr) (calls : List LimiterCall) (c : LimiterCall) :
    grantsOf ip (calls ++ [c]) = grantsOf ip calls ++
      if c.ip = ip ∧ c.granted then [⟨asSecs c.time, c.amount⟩] else [] := by
  unfold grantsOf
  rw [List.filter_append, List.map_append]
  by_cases h : c.ip = ip ∧ c.granted
  · rw [if_pos h, List.filter_cons_of_pos (by simpa using h)]
    rfl
  · rw [if_neg h, List.filter_cons_of_neg (by simpa using h)]
    rfl

theorem releasesOf_concat (ip : IpAddr) (released : List Release) (r : Release) :
    releasesOf ip (released ++ [r]) = releasesOf ip released ++
      if r.ip = ip then [⟨asSecs r.time, r.amount⟩] else [] := by
  unfold releasesOf
  rw [List.filter_append, List.map_append]
  by_cases h : r.ip = ip <;> simp [h]

theorem releasedIn_eq (tr : Traffic ℚ) (ip : IpAddr) (s t : ℚ) :
    (tr.releasedIn ip s t : ℚ) = drawnIn s t (releasesOf ip tr.released) := by
  unfold releasedIn drawnIn releasesOf
  rw [List.filter_map, List.filter_filter, List.map_map, Nat.cast_list_sum, List.map_map]
  congr 2
  apply List.filter_congr
  intro r _
  simp [Bool.and_comm]

/-! ## Pacing -/

/-- A stream that draws with the rate `rate`, for its own address. -/
structure PacedStream (rate : ℕ) (st : Stream) : Prop where
  rate_eq : st.self.rate = rate
  running : ∀ p, st.running = some p →
    ∃ this held, InPoll this held p ∧ this.ip = st.self.ip ∧ this.rate = rate

/-- Every stream and relay draws with the rate `rate`. -/
structure Paced (rate : ℕ) (s : Traffic ℚ) : Prop where
  stream : ∀ i st, s.streams.get i = some st → PacedStream rate st
  relay : ∀ j r, s.relays.get j = some r → r.maxBw = rate

theorem Paced.insert {rate : ℕ} {s s' : Traffic ℚ} (h : Paced rate s) {i : ℕ} {st : Stream}
    (hst : PacedStream rate st) (hs : s'.streams = s.streams.insert i st)
    (hr : s'.relays = s.relays) : Paced rate s' := by
  refine ⟨fun j st' hj => ?_, by rw [hr]; exact h.relay⟩
  rw [hs, KeyMap.get_insert] at hj
  split at hj
  · rwa [← Option.some.inj hj]
  · exact h.stream j st' hj

theorem pacedStream_inPoll {rate : ℕ} {st : Stream} {this : ThrottledBody} {held : List Frame}
    {p : BodyProg (PollFrame × ThrottledBody)} (h : st.self.rate = rate) (hp : InPoll this held p)
    (hip : this.ip = st.self.ip) (hrate : this.rate = rate) : PacedStream rate (st.resume p) := by
  rw [(resume_inPoll hp st).1]
  refine ⟨h, fun p' hp' => ?_⟩
  obtain rfl := Option.some.inj hp'
  exact ⟨this, held, hp, hip, hrate⟩

theorem pacedStream_ret {rate : ℕ} {st : Stream} {self : ThrottledBody} (r : PollFrame)
    (hrate : self.rate = rate) : PacedStream rate (st.resume (.ret (r, self))) := by
  cases r <;> exact ⟨hrate, fun p hp => absurd hp (by simp [Stream.resume, Stream.deliver])⟩

/-- A poll in progress of a paced stream, after its next call has been answered. -/
theorem pacedStream_step {rate : ℕ} {st : Stream} {o : BodyOp}
    {k : o.Ans → BodyProg (PollFrame × ThrottledBody)} (h : PacedStream rate st)
    (hk : st.running = some (.call o k)) (a : o.Ans) (inner : InnerBody) :
    PacedStream rate ({ st with inner := inner }.resume (k a)) := by
  obtain ⟨this, held, hin, hip, hrate⟩ := h.running _ hk
  cases hin.step with
  | through _ _ hret => rw [hret]; exact pacedStream_ret _ hrate
  | take _ hr hp hdata hret =>
    by_cases hd : ∃ d, a = .frame (.data d)
    · obtain ⟨d, rfl⟩ := hd
      rw [hdata]
      exact pacedStream_inPoll h.rate_eq (.charge this d hr hp) hip hrate
    · rw [hret _ fun d hd' => hd ⟨d, hd'⟩]
      exact pacedStream_ret _ hrate
  | retry _ hr _ htrue hfalse =>
    cases a with
    | true =>
      rw [htrue]
      exact pacedStream_inPoll h.rate_eq (.inner { this with pendingAmount := 0 } hr rfl) hip hrate
    | false => rw [hfalse]; exact pacedStream_ret _ hrate
  | pay d _ _ _ htrue hfalse =>
    cases a with
    | true => rw [htrue]; exact pacedStream_ret _ hrate
    | false => rw [hfalse]; exact pacedStream_ret _ hrate

variable {rate : ℕ} {s : Traffic ℚ} {now : ℕ}

theorem paced_relay (h : Paced rate s) {j : ℕ} {r : Relay} (hr : r.maxBw = rate) {s' : Traffic ℚ}
    (hs : s'.streams = s.streams) (hrel : s'.relays = s.relays.insert j r) : Paced rate s' := by
  refine ⟨by rw [hs]; exact h.stream, fun j' r' hj => ?_⟩
  rw [hrel, KeyMap.get_insert] at hj
  split at hj
  · rwa [← Option.some.inj hj]
  · exact h.relay j' r' hj

theorem paced_step (h : Paced rate s) (e : TrafficEvent) : Paced rate (s.step now e) := by
  cases e with
  | poll i =>
    simp only [step]
    split
    · rename_i st hi
      split
      · have hrate := (h.stream i st hi).rate_eq
        exact h.insert (pacedStream_inPoll hrate (.entry st.self) rfl hrate) rfl rfl
      · exact h
    · exact h
  | step i =>
    simp only [step]
    split
    · rename_i st hi
      split
      · rename_i k hk
        exact h.insert (pacedStream_step (h.stream i st hi) hk _ st.inner.pollFrame.2) rfl rfl
      · rename_i ip r amount k hk
        exact h.insert (pacedStream_step (h.stream i st hi) hk _ st.inner) rfl rfl
      · exact h
    · exact h
  | read j n =>
    simp only [step]
    split
    · rename_i r hj
      split
      · exact paced_relay h (r := { r with chunk := some n }) (h.relay j r hj) rfl rfl
      · exact h
    · exact h
  | attempt j =>
    simp only [step]
    split
    · rename_i r hj
      split
      · split
        · split
          · exact paced_relay h (r := { r with chunk := none }) (h.relay j r hj) rfl rfl
          · exact ⟨h.stream, h.relay⟩
        · exact paced_relay h (r := { r with chunk := none }) (h.relay j r hj) rfl rfl
      · exact h
    · exact h

/-! ## What an event draws and releases -/

/-- An event makes no call, or one call at the rate `rate`, and releases bytes only when the call
has just granted them. -/
inductive DrawStep (rate : ℕ) (now : ℕ) (s s' : Traffic ℚ) : Prop
  | quiet : s'.limiter = s.limiter → s'.calls = s.calls → s'.released = s.released →
      DrawStep rate now s s'
  | call (ip amount) : s'.limiter = (s.limiter.tryConsume now ip rate amount).2 →
      s'.calls = s.calls ++ [⟨ip, now, amount, (s.limiter.tryConsume now ip rate amount).1⟩] →
      (s'.released = s.released ∨ (s.limiter.tryConsume now ip rate amount).1 = true ∧
        s'.released = s.released ++ [⟨ip, now, amount⟩]) → DrawStep rate now s s'

theorem released_resume (i : ℕ) (st : Stream) {p : BodyProg (PollFrame × ThrottledBody)}
    (hp : dataOut p = []) : (s.resume now i st p).released = s.released := by
  show s.released ++ (dataOut p).map _ = s.released
  rw [hp, List.map_nil, List.append_nil]

theorem drawStep_step (h : Paced rate s) (hrate : 0 < rate) (e : TrafficEvent) :
    DrawStep rate now s (s.step now e) := by
  have hidle : DrawStep rate now s s := .quiet rfl rfl rfl
  cases e with
  | poll i =>
    simp only [step]
    split
    · rename_i st hi
      split
      · exact .quiet rfl rfl (released_resume i st (resume_inPoll (.entry st.self) st).2)
      · exact hidle
    · exact hidle
  | step i =>
    simp only [step]
    split
    · rename_i st hi
      split
      · rename_i k hk
        obtain ⟨this, held, hin, hip, hr⟩ := (h.stream i st hi).running _ hk
        refine .quiet rfl rfl (released_resume i _ ?_)
        cases hin.step with
        | through _ h0 => omega
        | take _ hr hp hdata hret =>
          by_cases hd : ∃ d, st.inner.pollFrame.1 = .frame (.data d)
          · obtain ⟨d, hd⟩ := hd
            rw [hd, hdata]
            exact (resume_inPoll (.charge this d hr hp) st).2
          · rw [hret _ fun d hd' => hd ⟨d, hd'⟩]
            unfold dataOut
            split
            · rename_i d _ heq
              simp only [Prog.ret.injEq, Prod.mk.injEq] at heq
              exact absurd ⟨d, heq.1⟩ hd
            · rfl
      · rename_i ip r amount k hk
        obtain ⟨this, held, hin, hip, hr⟩ := (h.stream i st hi).running _ hk
        cases hin.step with
        | retry k _ hpos htrue hfalse =>
          rw [hr]
          have hnone : ∀ a, dataOut (k a) = [] := by
            intro a
            cases a with
            | true =>
              rw [htrue]
              exact (resume_inPoll (.inner { this with pendingAmount := 0 } (hr ▸ hrate) rfl) st).2
            | false => rw [hfalse]; rfl
          exact .call this.ip _ rfl rfl (.inl (released_resume i st (hnone _)))
        | pay d k _ _ htrue hfalse =>
          rw [hr]
          refine .call this.ip _ rfl rfl ?_
          cases hok : (s.limiter.tryConsume now this.ip rate d.length).1 with
          | true =>
            refine .inr ⟨rfl, ?_⟩
            show s.released ++ (dataOut (k (s.limiter.tryConsume now this.ip rate d.length).1)).map _
              = _
            rw [hok, htrue, hip]
            rfl
          | false =>
            refine .inl (released_resume i st ?_)
            show dataOut (k (s.limiter.tryConsume now this.ip rate d.length).1) = []
            rw [hok, hfalse]
            rfl
      · exact hidle
    · exact hidle
  | read j n =>
    simp only [step]
    split
    · split <;> exact .quiet rfl rfl rfl
    · exact hidle
  | attempt j =>
    simp only [step]
    split
    · rename_i r hj
      have hr := h.relay j r hj
      split
      · rename_i n hn
        rw [if_pos (by omega), hr]
        split
        · rename_i hok
          exact .call r.ip n rfl rfl (.inr ⟨hok, rfl⟩)
        · exact .call r.ip n rfl rfl (.inl rfl)
      · exact hidle
    · exact hidle

/-! ## The accounts -/

/-- The bucket of every address is a capped bucket that has made the grants of the record, and
what was released is a part of them. -/
structure Accounted (rate : ℕ) (now : ℕ) (s : Traffic ℚ) : Prop where
  absent : ∀ ip, s.limiter.buckets.get ip = none → grantsOf ip s.calls = []
  ledger : ∀ ip b, s.limiter.buckets.get ip = some b → b.lastFill ≤ now ∧
    Ledger (2 * rate : ℚ) rate b.toBucket (grantsOf ip s.calls)
  released : ∀ ip, (releasesOf ip s.released).Sublist (grantsOf ip s.calls)

/-- The bucket an address draws on, new or not, has made the grants of the record. -/
theorem Accounted.bucket {t : ℕ} (h : Accounted rate t s) (ht : t ≤ now) (ip : IpAddr) :
    (s.limiter.bucket now ip).lastFill ≤ now ∧
      Ledger (2 * rate : ℚ) rate (s.limiter.bucket now ip).toBucket (grantsOf ip s.calls) := by
  unfold BandwidthLimiter.bucket
  cases hb : s.limiter.buckets.get ip with
  | some b => exact ⟨(h.ledger ip b hb).1.trans ht, (h.ledger ip b hb).2⟩
  | none =>
    have hcap : (0 : ℚ) ≤ 2 * rate := by positivity
    rw [h.absent ip hb]
    exact ⟨le_refl _, Ledger.nil (Nat.cast_nonneg _) (le_refl _) hcap⟩

theorem accounted_step {t : ℕ} {s' : Traffic ℚ} (h : Accounted rate t s) (ht : t ≤ now)
    (hs : DrawStep rate now s s') : Accounted rate now s' := by
  cases hs with
  | quiet hl hc hr =>
    refine ⟨by rw [hl, hc]; exact h.absent, fun ip b hb => ?_, by rw [hc, hr]; exact h.released⟩
    rw [hl] at hb
    rw [hc]
    exact ⟨(h.ledger ip b hb).1.trans ht, (h.ledger ip b hb).2⟩
  | call ip amount hl hc hr =>
    obtain ⟨hlast, hled⟩ := h.bucket ht ip
    have hdraw := hled.draw (Nat.cast_nonneg rate) (asSecs_le.mpr hlast) (Nat.cast_nonneg amount)
    rw [← TokenBucket.toBucket_consume hlast] at hdraw
    have hbuckets : ∀ ip', s'.limiter.buckets.get ip' = if ip' = ip
        then some ((s.limiter.bucket now ip).consume now rate amount).2
        else s.limiter.buckets.get ip' := by
      intro ip'
      rw [hl]
      rfl
    have hcalls : ∀ ip', grantsOf ip' s'.calls = grantsOf ip' s.calls ++
        if ip = ip' ∧ ((s.limiter.bucket now ip).consume now rate amount).1 = true
        then [⟨asSecs now, amount⟩] else [] := by
      intro ip'
      rw [hc, grantsOf_concat]
      rfl
    refine ⟨fun ip' hb => ?_, fun ip' b hb => ?_, fun ip' => ?_⟩
    · rw [hbuckets] at hb
      by_cases hip : ip' = ip
      · rw [if_pos hip] at hb
        cases hb
      · rw [if_neg hip] at hb
        rw [hcalls, if_neg fun hh => hip hh.1.symm, h.absent ip' hb, List.append_nil]
    · rw [hbuckets] at hb
      by_cases hip : ip' = ip
      · subst hip
        rw [if_pos rfl] at hb
        obtain rfl := Option.some.inj hb
        refine ⟨by rw [TokenBucket.lastFill_consume], ?_⟩
        rw [hcalls]
        convert hdraw using 1
        split <;> simp_all
      · rw [if_neg hip] at hb
        rw [hcalls, if_neg fun hh => hip hh.1.symm, List.append_nil]
        exact ⟨(h.ledger ip' b hb).1.trans ht, (h.ledger ip' b hb).2⟩
    · rcases hr with hr | ⟨hok, hr⟩
      · rw [hr, hcalls]
        exact (h.released ip').trans (List.sublist_append_left _ _)
      · rw [hr, hcalls, releasesOf_concat]
        refine (h.released ip').append ?_
        by_cases hip : ip = ip'
        · rw [if_pos hip, if_pos ⟨hip, hok⟩]
        · rw [if_neg hip, if_neg fun hh => hip hh.1]

/-! ## The bound -/

/-- The start of a run: a new limiter, and streams and relays that draw with the rate `rate`. -/
structure Fresh (rate : ℕ) (s : Traffic ℚ) : Prop where
  limiter : s.limiter = .new
  calls : s.calls = []
  released : s.released = []
  stream : ∀ i st, s.streams.get i = some st → st.self.rate = rate ∧ st.running = none
  relay : ∀ j r, s.relays.get j = some r → r.maxBw = rate

theorem Fresh.accounted (h : Fresh rate s) (now : ℕ) : Accounted rate now s where
  absent _ _ := by rw [h.calls]; rfl
  ledger ip b hb := by
    rw [h.limiter] at hb
    cases hb
  released ip := by rw [h.released, h.calls]; exact List.Sublist.refl _

theorem Fresh.paced (h : Fresh rate s) : Paced rate s where
  stream i st hi :=
    ⟨(h.stream i st hi).1, fun p hp => absurd ((h.stream i st hi).2.symm.trans hp) (by simp)⟩
  relay := h.relay

theorem accounted_from (h : Fresh rate s) (hrate : 0 < rate)
    (evs : List (ℕ × TrafficEvent)) (hsorted : evs.Pairwise (·.1 ≤ ·.1)) (now : ℕ)
    (hnow : ∀ e ∈ evs, e.1 ≤ now) : Paced rate (s.run evs) ∧ Accounted rate now (s.run evs) := by
  induction evs using List.reverseRecOn generalizing now with
  | nil => exact ⟨h.paced, h.accounted now⟩
  | append_singleton evs e ih =>
    rw [List.pairwise_append] at hsorted
    obtain ⟨hp, ha⟩ := ih hsorted.1 e.1 fun e' he' => hsorted.2.2 e' he' e (by simp)
    rw [run_concat]
    refine ⟨paced_step hp e.2, ?_⟩
    have hlast := accounted_step ha (le_refl _) (drawStep_step hp hrate e.2)
    have hle : e.1 ≤ now := hnow e (by simp)
    exact ⟨hlast.absent, fun ip b hb => ⟨(hlast.ledger ip b hb).1.trans hle,
      (hlast.ledger ip b hb).2⟩, hlast.released⟩

/-- At some time after the last event, the accounts are those of the run. -/
theorem Fresh.accounted_run (h : Fresh rate s) (hrate : 0 < rate) {evs : List (ℕ × TrafficEvent)}
    (hsorted : evs.Pairwise (·.1 ≤ ·.1)) : ∃ now, Accounted rate now (s.run evs) := by
  obtain ⟨now, hnow⟩ : ∃ now, ∀ e ∈ evs, e.1 ≤ now :=
    ⟨(evs.map Prod.fst).sum, fun e he => List.le_sum_of_mem (List.mem_map_of_mem he)⟩
  exact ⟨now, (accounted_from h hrate evs hsorted now hnow).2⟩

/-- What leaves in a window is at most a full bucket and what comes in meanwhile. -/
theorem Fresh.releasedIn_le (h : Fresh rate s) (hrate : 0 < rate) {evs : List (ℕ × TrafficEvent)}
    (hsorted : evs.Pairwise (·.1 ≤ ·.1)) (ip : IpAddr) {t u : ℚ} (htu : t ≤ u) :
    ((s.run evs).releasedIn ip t u : ℚ) ≤ 2 * rate + rate * (u - t) := by
  obtain ⟨now, hacc⟩ := h.accounted_run hrate hsorted
  obtain ⟨-, hled⟩ := hacc.bucket (le_refl now) ip
  calc ((s.run evs).releasedIn ip t u : ℚ)
      = drawnIn t u (releasesOf ip (s.run evs).released) := releasedIn_eq _ _ _ _
    _ ≤ drawnIn t u (grantsOf ip (s.run evs).calls) :=
        drawnIn_sublist (hacc.released ip) hled.amount_nonneg
    _ ≤ 2 * rate + rate * (u - t) := hled.window_le t u htu

end Traffic

/-- **Bandwidth.** The bucket of an address always holds between nothing and twice the rate, and
the bytes released to the address in a window of `t - s` seconds are at most twice the rate plus
what the rate allows in the window. -/
theorem bandwidth_bound {rate : ℕ} (hrate : 0 < rate) {tr : Traffic ℚ}
    (h : Traffic.Fresh rate tr) (evs : List (ℕ × TrafficEvent))
    (hsorted : evs.Pairwise (·.1 ≤ ·.1)) (ip : IpAddr) :
    (∀ b, (tr.run evs).limiter.buckets.get ip = some b → 0 ≤ b.tokens ∧ b.tokens ≤ 2 * rate) ∧
      ∀ s t : ℚ, s ≤ t → ((tr.run evs).releasedIn ip s t : ℚ) ≤ 2 * rate + rate * (t - s) := by
  obtain ⟨now, hacc⟩ := h.accounted_run hrate hsorted
  refine ⟨fun b hb => ?_, fun s t hst => h.releasedIn_le hrate hsorted ip hst⟩
  have hled := (hacc.ledger ip b hb).2
  exact ⟨hled.level_nonneg, hled.level_le⟩

/-- A relay waiting with two bytes, at one byte per second. -/
def relayStart : Traffic ℚ where
  limiter := .new
  streams := .empty
  relays := KeyMap.empty.insert 0 ⟨.v4 0, 1, some 2⟩
  calls := []
  released := []

theorem relayStart_fresh : Traffic.Fresh 1 relayStart where
  limiter := rfl
  calls := rfl
  released := rfl
  stream i st hi := by cases hi
  relay j r hj := by
    unfold relayStart at hj
    rw [KeyMap.get_insert] at hj
    split at hj
    · obtain rfl := Option.some.inj hj
      rfl
    · cases hj

/-- The chunk is refused at the start and leaves three seconds later. -/
theorem bandwidth_bound_relay :
    (relayStart.run [(0, .attempt 0), (fromSecs 3, .attempt 0)]).releasedIn (.v4 0) 1 3 = 2 ∧
      ((relayStart.run [(0, .attempt 0), (fromSecs 3, .attempt 0)]).releasedIn (.v4 0) 1 3 : ℚ) ≤
        2 * (1 : ℕ) + (1 : ℕ) * (3 - 1) :=
  ⟨by decide +kernel,
    (bandwidth_bound (by decide) relayStart_fresh _ (by decide) (.v4 0)).2 1 3 (by norm_num)⟩

end OxidizedWall
