import OxidizedWall.RateLimit

/-!
# Rejections of the rate limiter

A rejection is followed by a ban, so it should not come unprovoked. `Accounted` says that what a
record counts are calls that were admitted since the record's window began; cleanups may only
forget such calls. A call is therefore rejected only for as many calls in the last second as the
limit allows (`rejection_justified`).
-/

namespace OxidizedWall

namespace RateLimiter

/-- The admitted calls of an address since `since`. -/
def admittedSince (ip : IpAddr) (since : ℕ) (past : List RateAnswer) : List RateAnswer :=
  past.filter fun a => a.ip = ip ∧ a.ok = true ∧ since ≤ a.time

theorem admittedSince_append (ip : IpAddr) (since : ℕ) (past rest : List RateAnswer) :
    admittedSince ip since (past ++ rest) =
      admittedSince ip since past ++ admittedSince ip since rest := List.filter_append ..

theorem length_admittedSince_le (ip : IpAddr) (since : ℕ) (past rest : List RateAnswer) :
    (admittedSince ip since past).length ≤ (admittedSince ip since (past ++ rest)).length := by
  rw [admittedSince_append, List.length_append]
  exact Nat.le_add_right _ _

/-- At `now`, after the answers `past`, no record counts more than it should. -/
structure Accounted (l : RateLimiter) (past : List RateAnswer) (now : ℕ) : Prop where
  past_le : ∀ a ∈ past, a.time ≤ now
  reset_le : ∀ ip st, l.records.get ip = some st → st.lastReset ≤ now
  count_le : ∀ ip st, l.records.get ip = some st →
    st.count ≤ (admittedSince ip st.lastReset past).length

namespace Accounted

variable {l : RateLimiter} {past : List RateAnswer} {now t maxRps : ℕ} {ip : IpAddr}

theorem new (now : ℕ) : Accounted .new [] now :=
  ⟨by simp, fun _ _ h => (nomatch h), fun _ _ h => (nomatch h)⟩

theorem mono (h : Accounted l past now) (hle : now ≤ t) : Accounted l past t :=
  ⟨fun a ha => (h.past_le a ha).trans hle, fun ip st hst => (h.reset_le ip st hst).trans hle,
    h.count_le⟩

/-- The record that a call finds, or makes. -/
theorem entry (h : Accounted l past now) (ip : IpAddr) :
    ((l.records.get ip).getD ⟨0, now⟩).lastReset ≤ now ∧
      ((l.records.get ip).getD ⟨0, now⟩).count ≤
        (admittedSince ip ((l.records.get ip).getD ⟨0, now⟩).lastReset past).length := by
  cases hst : l.records.get ip with
  | none => exact ⟨le_refl _, Nat.zero_le _⟩
  | some st => exact ⟨h.reset_le ip st hst, h.count_le ip st hst⟩

/-- A hit counts itself if it is admitted. -/
theorem hit {st : RateState} (hreset : st.lastReset ≤ now)
    (hcount : st.count ≤ (admittedSince ip st.lastReset past).length) (maxRps : ℕ) :
    (st.hit now maxRps).2.lastReset ≤ now ∧ (st.hit now maxRps).2.count ≤
      (admittedSince ip (st.hit now maxRps).2.lastReset
        (past ++ [⟨ip, now, (st.hit now maxRps).1⟩])).length := by
  unfold RateState.hit
  by_cases hold : now - st.lastReset ≥ fromSecs 1
  · rw [if_pos hold]
    refine ⟨le_refl _, ?_⟩
    rw [admittedSince_append, List.length_append]
    simp [admittedSince]
  · rw [if_neg hold]
    by_cases hlt : st.count < maxRps
    · rw [if_pos hlt]
      refine ⟨hreset, ?_⟩
      rw [admittedSince_append, List.length_append]
      have hself : admittedSince ip st.lastReset [⟨ip, now, true⟩] = [⟨ip, now, true⟩] := by
        simp [admittedSince, hreset]
      simp only [hself, List.length_singleton]
      omega
    · rw [if_neg hlt]
      exact ⟨hreset, hcount.trans (length_admittedSince_le _ _ _ _)⟩

theorem check (h : Accounted l past now) (ip : IpAddr) (maxRps : ℕ) :
    Accounted (l.check now ip maxRps).2 (past ++ [⟨ip, now, (l.check now ip maxRps).1⟩]) now := by
  have hpast : ∀ a ∈ past ++ [⟨ip, now, (l.check now ip maxRps).1⟩], a.time ≤ now := by
    intro a ha
    rcases List.mem_append.mp ha with ha | ha
    · exact h.past_le a ha
    · rw [List.mem_singleton.mp ha]
  by_cases h0 : maxRps = 0
  · have hl : (l.check now ip maxRps).2 = l := by rw [RateLimiter.check, if_pos h0]
    rw [hl]
    exact ⟨hpast, h.reset_le, fun ip' st hst =>
      (h.count_le ip' st hst).trans (length_admittedSince_le _ _ _ _)⟩
  · obtain ⟨hreset, hcount⟩ := h.entry ip
    have hhit := hit hreset hcount maxRps
    have hcheck : l.check now ip maxRps = ((((l.records.get ip).getD ⟨0, now⟩).hit now maxRps).1,
        ⟨l.records.insert ip (((l.records.get ip).getD ⟨0, now⟩).hit now maxRps).2⟩) := by
      rw [RateLimiter.check, if_neg h0]
    rw [hcheck] at hpast ⊢
    refine ⟨hpast, fun ip' st hst => ?_, fun ip' st hst => ?_⟩
    · rw [KeyMap.get_insert] at hst
      split at hst
      · obtain rfl := Option.some.inj hst
        exact hhit.1
      · exact h.reset_le ip' st hst
    · rw [KeyMap.get_insert] at hst
      split at hst
      · rename_i hip
        obtain rfl := Option.some.inj hst
        rw [hip]
        exact hhit.2
      · exact (h.count_le ip' st hst).trans (length_admittedSince_le _ _ _ _)

theorem cleanup (h : Accounted l past now) : Accounted (l.cleanup now) past now := by
  have hold : ∀ ip st, (l.cleanup now).records.get ip = some st → l.records.get ip = some st :=
    fun ip st hst => (Option.filter_eq_some_iff.mp hst).1
  exact ⟨h.past_le, fun ip st hst => h.reset_le ip st (hold ip st hst),
    fun ip st hst => h.count_le ip st (hold ip st hst)⟩

/-- A call is rejected for calls admitted within the last second. -/
theorem of_rejected (h : Accounted l past now) (hrej : (l.check now ip maxRps).1 = false) :
    maxRps ≤ (past.filter fun a => a.ip = ip ∧ a.ok = true ∧
      now < a.time + fromSecs 1 ∧ a.time ≤ now).length := by
  by_cases h0 : maxRps = 0
  · exact h0 ▸ Nat.zero_le _
  · rw [RateLimiter.check, if_neg h0] at hrej
    obtain ⟨-, hcount⟩ := h.entry ip
    generalize (l.records.get ip).getD ⟨0, now⟩ = st at hrej hcount
    unfold RateState.hit at hrej
    by_cases hold : now - st.lastReset ≥ fromSecs 1
    · simp [if_pos hold] at hrej
    · by_cases hlt : st.count < maxRps
      · simp [if_neg hold, if_pos hlt] at hrej
      · have hrecent : (admittedSince ip st.lastReset past).length ≤ (past.filter fun a =>
            a.ip = ip ∧ a.ok = true ∧ now < a.time + fromSecs 1 ∧ a.time ≤ now).length := by
          unfold admittedSince
          rw [← List.countP_eq_length_filter, ← List.countP_eq_length_filter]
          apply List.countP_mono_left
          intro a ha hsince
          have htime := h.past_le a ha
          simp only [decide_eq_true_eq] at hsince ⊢
          exact ⟨hsince.1, hsince.2.1, by omega, htime⟩
        omega

end Accounted

theorem answers_accounted {maxRps u : ℕ} {ip : IpAddr} {as bs : List RateAnswer}
    (evs : List (ℕ × RateEvent)) {l : RateLimiter} {past : List RateAnswer} {t : ℕ}
    (h : Accounted l past t) (hsorted : (t :: evs.map Prod.fst).Pairwise (· ≤ ·))
    (heq : answers maxRps l evs = as ++ ⟨ip, u, false⟩ :: bs) :
    maxRps ≤ ((past ++ as).filter fun a => a.ip = ip ∧ a.ok = true ∧
      u < a.time + fromSecs 1 ∧ a.time ≤ u).length := by
  induction evs generalizing l past t as with
  | nil => simp [answers] at heq
  | cons e evs ih =>
    obtain ⟨now, ev⟩ := e
    rw [List.map_cons, List.pairwise_cons] at hsorted
    have hnow := h.mono (hsorted.1 now List.mem_cons_self)
    cases ev with
    | check ip' =>
      rw [answers] at heq
      cases as with
      | nil =>
        obtain ⟨ha, -⟩ := List.cons.inj heq
        obtain ⟨rfl, rfl, hrej⟩ := RateAnswer.mk.inj ha
        rw [List.append_nil]
        exact hnow.of_rejected hrej
      | cons a as =>
        obtain ⟨rfl, hrest⟩ := List.cons.inj heq
        have := ih (hnow.check ip' maxRps) hsorted.2 hrest
        rwa [List.append_assoc] at this
    | cleanup => exact ih hnow.cleanup hsorted.2 heq

end RateLimiter

/-- **No unjust rejection.** In every run, a call that is answered `false` comes after `max_rps`
admitted calls of the same address within the last second. -/
theorem rejection_justified {maxRps : ℕ} {evs : List (ℕ × RateEvent)}
    (hsorted : (evs.map Prod.fst).Pairwise (· ≤ ·)) {as bs : List RateAnswer} {ip : IpAddr} {t : ℕ}
    (h : RateLimiter.answers maxRps .new evs = as ++ ⟨ip, t, false⟩ :: bs) :
    maxRps ≤ (as.filter fun a => a.ip = ip ∧ a.ok = true ∧
      t < a.time + fromSecs 1 ∧ a.time ≤ t).length :=
  RateLimiter.answers_accounted evs (RateLimiter.Accounted.new 0)
    (List.pairwise_cons.mpr ⟨fun _ _ => Nat.zero_le _, hsorted⟩) h

/-- Two calls of an address, one of another, a cleanup, and the first one's third call. -/
def thirdCall : List (ℕ × RateEvent) :=
  [(0, .check (.v4 1)), (5, .check (.v4 1)), (5, .check (.v4 2)), (6, .cleanup),
    (7, .check (.v4 1))]

theorem rejection_justified_third :
    2 ≤ ((RateLimiter.answers 2 .new thirdCall).dropLast.filter fun a =>
      a.ip = .v4 1 ∧ a.ok = true ∧ 7 < a.time + fromSecs 1 ∧ a.time ≤ 7).length :=
  rejection_justified (show (thirdCall.map Prod.fst).Pairwise (· ≤ ·) by decide)
    (show RateLimiter.answers 2 .new thirdCall =
      (RateLimiter.answers 2 .new thirdCall).dropLast ++ ⟨.v4 1, 7, false⟩ :: [] by decide)

end OxidizedWall
