import OxidizedWall.Lib.KeyMap
import OxidizedWall.Lib.Windows
import OxidizedWall.Runtime
import Mathlib.Algebra.Order.Archimedean.Real.Basic
import Mathlib.Tactic.NormNum

/-!
# Rate limiting (`ratelimit.rs`)

One record per address counts the requests of a window, which starts at the first request after
the last one ran out. A background task forgets records that are ten seconds old.

1. `answers_matches`: the answers to one address are those of a limiter that sees only its calls and
   forgets nothing. A forgotten record is so old that the next call starts a window anyway.
2. `admitted_windowed`: a single limiter admits at most `max_rps` calls in a window, and its
   windows start at least one second apart.
3. `rateLimiter_bound` counts the windows that meet an interval.
-/

namespace OxidizedWall

structure RateState where
  count : ℕ
  lastReset : ℕ
  deriving DecidableEq

/-- The part of `RateLimiter::check` under the entry's lock. -/
def RateState.hit (entry : RateState) (now : ℕ) (maxRps : ℕ) : Bool × RateState :=
  if now - entry.lastReset ≥ fromSecs 1 then (true, ⟨1, now⟩)
  else if entry.count < maxRps then (true, { entry with count := entry.count + 1 })
  else (false, entry)

structure RateLimiter where
  records : KeyMap IpAddr RateState

namespace RateLimiter

/-- `RateLimiter::new`. -/
def new : RateLimiter := ⟨KeyMap.empty⟩

/-- `RateLimiter::check`. -/
def check (l : RateLimiter) (now : ℕ) (ip : IpAddr) (maxRps : ℕ) : Bool × RateLimiter :=
  if maxRps = 0 then (true, l)
  else
    let entry := (l.records.get ip).getD ⟨0, now⟩
    let r := entry.hit now maxRps
    (r.1, ⟨l.records.insert ip r.2⟩)

/-- One pass of `RateLimiter::spawn_cleanup_task`. -/
def cleanup (l : RateLimiter) (now : ℕ) : RateLimiter :=
  ⟨l.records.retain fun _ state => now - state.lastReset < fromSecs 10⟩

end RateLimiter

/-! ## Runs -/

inductive RateEvent
  | check (ip : IpAddr)
  | cleanup
  deriving DecidableEq

/-- A call of `RateLimiter::check` and its answer. -/
structure RateAnswer where
  ip : IpAddr
  time : ℕ
  ok : Bool
  deriving DecidableEq

namespace RateLimiter

/-- The answers of a run. -/
def answers (maxRps : ℕ) : RateLimiter → List (ℕ × RateEvent) → List RateAnswer
  | _, [] => []
  | l, (now, .check ip) :: evs =>
    ⟨ip, now, (l.check now ip maxRps).1⟩ :: answers maxRps (l.check now ip maxRps).2 evs
  | l, (now, .cleanup) :: evs => answers maxRps (l.cleanup now) evs

/-- The calls of one address, without the cleanups. -/
def callsOf (ip : IpAddr) (evs : List (ℕ × RateEvent)) : List (ℕ × RateEvent) :=
  evs.filter fun e => e.2 = .check ip

/-! ## Isolation -/

/-- As of `t`, the record in `l` is the one in `solo`, or was forgotten and is out of date. -/
def Matches (l solo : RateLimiter) (ip : IpAddr) (t : ℕ) : Prop :=
  l.records.get ip = solo.records.get ip ∨
    (l.records.get ip = none ∧
      ∃ st, solo.records.get ip = some st ∧ st.lastReset + fromSecs 10 ≤ t)

theorem Matches.mono {l solo : RateLimiter} {ip : IpAddr} {t u : ℕ}
    (h : Matches l solo ip t) (htu : t ≤ u) : Matches l solo ip u := by
  rcases h with h | ⟨h, st, hst, hold⟩
  · exact .inl h
  · exact .inr ⟨h, st, hst, hold.trans htu⟩

/-- A fresh record and an old one go on in the same way: a new window, with one call in it. -/
theorem hit_old {st : RateState} {now : ℕ} {maxRps : ℕ} (hpos : 0 < maxRps)
    (hold : st.lastReset + fromSecs 10 ≤ now) :
    st.hit now maxRps = RateState.hit ⟨0, now⟩ now maxRps := by
  unfold RateState.hit
  unfold fromSecs at *
  simp only [Nat.sub_self]
  rw [if_pos (by omega), if_neg (by omega), if_pos hpos]

theorem matches_check {l solo : RateLimiter} {ip : IpAddr} {now : ℕ} (maxRps : ℕ)
    (h : Matches l solo ip now) :
    (l.check now ip maxRps).1 = (solo.check now ip maxRps).1 ∧
      Matches (l.check now ip maxRps).2 (solo.check now ip maxRps).2 ip now := by
  unfold check
  by_cases h0 : maxRps = 0
  · simp only [if_pos h0]
    exact ⟨trivial, h⟩
  · simp only [if_neg h0]
    have hsame : ((l.records.get ip).getD ⟨0, now⟩).hit now maxRps =
        ((solo.records.get ip).getD ⟨0, now⟩).hit now maxRps := by
      rcases h with h | ⟨h, st, hst, hold⟩
      · rw [h]
      · rw [h, hst]
        exact (hit_old (Nat.pos_of_ne_zero h0) hold).symm
    refine ⟨congrArg Prod.fst hsame, .inl ?_⟩
    rw [KeyMap.get_insert_self, KeyMap.get_insert_self, hsame]

/-- A check touches no other record. -/
theorem get_check_of_ne {l : RateLimiter} {now : ℕ} {ip ip' : IpAddr} {maxRps : ℕ}
    (hne : ip ≠ ip') : (l.check now ip' maxRps).2.records.get ip = l.records.get ip := by
  unfold check
  by_cases h0 : maxRps = 0
  · rw [if_pos h0]
  · rw [if_neg h0]
    exact KeyMap.get_insert_of_ne hne _

theorem matches_check_of_ne {l solo : RateLimiter} {ip ip' : IpAddr} {now : ℕ} {maxRps : ℕ}
    (h : Matches l solo ip now) (hne : ip ≠ ip') :
    Matches (l.check now ip' maxRps).2 solo ip now := by
  unfold Matches
  rw [get_check_of_ne hne]
  exact h

theorem matches_cleanup {l solo : RateLimiter} {ip : IpAddr} {now : ℕ}
    (h : Matches l solo ip now) : Matches (l.cleanup now) solo ip now := by
  rcases h with h | ⟨h, hold⟩
  · cases hst : solo.records.get ip with
    | none =>
      left
      show (l.records.get ip).filter _ = _
      rw [h, hst]
      rfl
    | some st =>
      by_cases hkeep : now - st.lastReset < fromSecs 10
      · left
        show (l.records.get ip).filter _ = _
        rw [h, hst, Option.filter_some, if_pos (by simpa using hkeep)]
      · right
        refine ⟨?_, st, hst, ?_⟩
        · show (l.records.get ip).filter _ = _
          rw [h, hst, Option.filter_some, if_neg (by simpa using hkeep)]
        · unfold fromSecs at *
          omega
  · right
    refine ⟨?_, hold⟩
    show (l.records.get ip).filter _ = _
    rw [h]
    rfl

theorem answers_matches {maxRps : ℕ} {ip : IpAddr} (evs : List (ℕ × RateEvent))
    {l solo : RateLimiter} {t : ℕ} (h : Matches l solo ip t)
    (hsorted : (t :: evs.map Prod.fst).Pairwise (· ≤ ·)) :
    (answers maxRps l evs).filter (fun a => a.ip = ip) =
      answers maxRps solo (callsOf ip evs) := by
  induction evs generalizing l solo t with
  | nil => rfl
  | cons e evs ih =>
    obtain ⟨now, ev⟩ := e
    rw [List.map_cons, List.pairwise_cons] at hsorted
    have hnow := h.mono (hsorted.1 now (by simp))
    cases ev with
    | check ip' =>
      by_cases hip : ip' = ip
      · subst hip
        obtain ⟨hok, hnext⟩ := matches_check maxRps hnow
        unfold callsOf
        rw [answers, List.filter_cons_of_pos (by simp), List.filter_cons_of_pos (by simp), answers,
          ← hok, ih hnext hsorted.2]
        rfl
      · unfold callsOf
        rw [answers, List.filter_cons_of_neg (by simpa using hip),
          List.filter_cons_of_neg (by simpa using hip)]
        exact ih (matches_check_of_ne hnow (Ne.symm hip)) hsorted.2
    | cleanup =>
      unfold callsOf
      rw [answers, List.filter_cons_of_neg (by simp)]
      exact ih (matches_cleanup hnow) hsorted.2

end RateLimiter

/-- **Isolation.** The answers given to an address are those of a limiter of its own, which sees
its calls at the same times and never forgets a record. -/
theorem rateLimiter_isolated (maxRps : ℕ) (evs : List (ℕ × RateEvent))
    (hsorted : (evs.map Prod.fst).Pairwise (· ≤ ·)) (ip : IpAddr) :
    (RateLimiter.answers maxRps .new evs).filter (fun a => a.ip = ip) =
      RateLimiter.answers maxRps .new (RateLimiter.callsOf ip evs) :=
  RateLimiter.answers_matches evs (t := 0) (.inl rfl)
    (List.pairwise_cons.mpr ⟨fun _ _ => Nat.zero_le _, hsorted⟩)

/-- Two addresses, a cleanup that forgets the first one's record, and its next call. -/
def rateRun : List (ℕ × RateEvent) :=
  [(0, .check (.v4 1)), (0, .check (.v4 1)), (5, .check (.v4 2)), (fromSecs 10, .cleanup),
    (fromSecs 11, .check (.v4 1))]

theorem rateLimiter_isolated_forgotten :
    (RateLimiter.answers 1 .new rateRun).filter (fun a => a.ip = .v4 1) =
      RateLimiter.answers 1 .new
        [(0, .check (.v4 1)), (0, .check (.v4 1)), (fromSecs 11, .check (.v4 1))] :=
  rateLimiter_isolated 1 rateRun (by decide) (.v4 1)

/-! ## The windows of one address -/

/-- The admitted calls of a record that sees calls at the times `ts`, each with the start of the
window it was counted in. -/
def RateState.admitted (maxRps : ℕ) : RateState → List ℕ → List (ℕ × ℕ)
  | _, [] => []
  | st, t :: ts =>
    let r := st.hit t maxRps
    if r.1 then (t, r.2.lastReset) :: admitted maxRps r.2 ts else admitted maxRps r.2 ts

/-- What the calls admitted from the record `st` on look like. -/
structure Windowed (m : ℕ) (st : RateState) (ws : List (ℕ × ℕ)) : Prop where
  start : ∀ w ∈ ws, w.2 = st.lastReset ∨ st.lastReset + fromSecs 1 ≤ w.2
  own : (ws.map Prod.snd).count st.lastReset + st.count ≤ m
  count : ∀ r, (ws.map Prod.snd).count r ≤ m
  mem : ∀ w ∈ ws, w.2 ≤ w.1 ∧ w.1 < w.2 + fromSecs 1
  spaced : ∀ v ∈ ws, ∀ w ∈ ws, v.2 < w.2 → v.2 + fromSecs 1 ≤ w.2

namespace Windowed

variable {m : ℕ} {st : RateState} {t : ℕ} {ws : List (ℕ × ℕ)}

theorem nil (hst : st.count ≤ m) : Windowed m st [] :=
  ⟨by simp, by simpa using hst, by simp, by simp, by simp⟩

/-- A call that starts a window. -/
theorem reset (h : Windowed m ⟨1, t⟩ ws) (hst : st.count ≤ m)
    (hold : st.lastReset + fromSecs 1 ≤ t) : Windowed m st ((t, t) :: ws) := by
  have hs : 0 < fromSecs 1 := by decide
  have hlater : ∀ w ∈ (t, t) :: ws, t ≤ w.2 ∧ (w.2 = t ∨ t + fromSecs 1 ≤ w.2) := by
    intro w hw
    rcases List.mem_cons.mp hw with rfl | hw
    · exact ⟨le_refl _, .inl rfl⟩
    · have := h.start w hw
      simp only at this
      omega
  refine ⟨fun w hw => .inr (hold.trans (hlater w hw).1), ?_, fun r => ?_, fun w hw => ?_,
    fun v hv w hw hlt => ?_⟩
  · -- no admitted call lies in the window of `st`
    have hnone : (((t, t) :: ws).map Prod.snd).count st.lastReset = 0 := by
      apply List.count_eq_zero.mpr
      intro hmem
      obtain ⟨w, hw, heq⟩ := List.mem_map.mp hmem
      have := (hlater w hw).1
      omega
    omega
  · rw [List.map_cons, List.count_cons]
    by_cases hr : t = r
    · subst hr
      have := h.own
      simp only [beq_self_eq_true, if_true]
      exact this
    · have := h.count r
      simpa [hr] using this
  · rcases List.mem_cons.mp hw with rfl | hw
    · simp only
      omega
    · exact h.mem w hw
  · rcases List.mem_cons.mp hv with rfl | hv
    · have := (hlater w hw).2
      simp only at hlt ⊢
      omega
    · rcases List.mem_cons.mp hw with rfl | hw
      · have := (hlater v (List.mem_cons_of_mem _ hv)).1
        simp only at hlt
        omega
      · exact h.spaced v hv w hw hlt

/-- A call counted in the running window. -/
theorem step (h : Windowed m ⟨st.count + 1, st.lastReset⟩ ws) (hle : st.lastReset ≤ t)
    (hnew : t < st.lastReset + fromSecs 1) : Windowed m st ((t, st.lastReset) :: ws) := by
  have hown := h.own
  refine ⟨fun w hw => ?_, ?_, fun r => ?_, fun w hw => ?_, fun v hv w hw hlt => ?_⟩
  · rcases List.mem_cons.mp hw with rfl | hw
    · exact .inl rfl
    · exact h.start w hw
  · rw [List.map_cons, List.count_cons_self]
    simp only at hown
    omega
  · rw [List.map_cons, List.count_cons]
    by_cases hr : st.lastReset = r
    · subst hr
      simp only [beq_self_eq_true, if_true] at hown ⊢
      omega
    · have := h.count r
      simpa [hr] using this
  · rcases List.mem_cons.mp hw with rfl | hw
    · exact ⟨hle, hnew⟩
    · exact h.mem w hw
  · have hstart : ∀ u ∈ (t, st.lastReset) :: ws,
        u.2 = st.lastReset ∨ st.lastReset + fromSecs 1 ≤ u.2 := by
      intro u hu
      rcases List.mem_cons.mp hu with rfl | hu
      · exact .inl rfl
      · exact h.start u hu
    rcases List.mem_cons.mp hv with rfl | hv'
    · have := hstart w hw
      simp only at hlt ⊢
      omega
    · rcases List.mem_cons.mp hw with rfl | hw'
      · have := hstart v hv
        simp only at hlt
        omega
      · exact h.spaced v hv' w hw' hlt

end Windowed

theorem admitted_windowed {maxRps : ℕ} (ts : List ℕ) {st : RateState}
    (hpos : 0 < maxRps) (hst : st.count ≤ maxRps)
    (hsorted : (st.lastReset :: ts).Pairwise (· ≤ ·)) :
    Windowed maxRps st (st.admitted maxRps ts) := by
  induction ts generalizing st with
  | nil => exact .nil hst
  | cons t ts ih =>
    rw [List.pairwise_cons] at hsorted
    have hle := hsorted.1 t (by simp)
    unfold RateState.admitted RateState.hit
    by_cases hold : t - st.lastReset ≥ fromSecs 1
    · simp only [if_pos hold, if_true]
      have hnext : Windowed maxRps ⟨1, t⟩ (RateState.admitted maxRps ⟨1, t⟩ ts) :=
        ih hpos hsorted.2
      exact hnext.reset hst (by omega)
    · simp only [if_neg hold]
      have hrest : (st.lastReset :: ts).Pairwise (· ≤ ·) :=
        List.pairwise_cons.mpr ⟨fun u hu => hsorted.1 u (by simp [hu]),
          (List.pairwise_cons.mp hsorted.2).2⟩
      by_cases hc : st.count < maxRps
      · simp only [if_pos hc, if_true]
        have hnext : Windowed maxRps ⟨st.count + 1, st.lastReset⟩
            (RateState.admitted maxRps ⟨st.count + 1, st.lastReset⟩ ts) := ih hc hrest
        exact hnext.step hle (by omega)
      · simp only [if_neg hc]
        exact ih hst hrest

/-! ## The bound -/

namespace RateLimiter

/-- The admitted calls of a limiter that sees the calls of one address only. Its record may be
the one that the first call creates. -/
theorem answers_callsOf {maxRps : ℕ} (hpos : 0 < maxRps) {ip : IpAddr}
    (evs : List (ℕ × RateEvent)) {solo : RateLimiter} {st : RateState}
    (hst : ∀ now ∈ ((callsOf ip evs).map Prod.fst).head?,
      (solo.records.get ip).getD ⟨0, now⟩ = st) :
    ((answers maxRps solo (callsOf ip evs)).filter RateAnswer.ok).map RateAnswer.time =
      (st.admitted maxRps ((callsOf ip evs).map Prod.fst)).map Prod.fst := by
  induction evs generalizing solo st with
  | nil => rfl
  | cons e evs ih =>
    obtain ⟨now, ev⟩ := e
    unfold callsOf at ih hst ⊢
    by_cases he : ev = .check ip
    · subst he
      rw [List.filter_cons_of_pos (by simp)] at hst ⊢
      have hcheck : solo.check now ip maxRps = ((st.hit now maxRps).1,
          ⟨solo.records.insert ip (st.hit now maxRps).2⟩) := by
        unfold check
        rw [if_neg hpos.ne', hst now (by simp)]
      have hnext := @ih ⟨solo.records.insert ip (st.hit now maxRps).2⟩
        (st.hit now maxRps).2 (fun _ _ => by simp)
      simp only [List.map_cons, answers, RateState.admitted, hcheck]
      cases hok : (st.hit now maxRps).1 with
      | true =>
        rw [List.filter_cons_of_pos rfl, if_pos rfl, List.map_cons, List.map_cons, hnext]
      | false =>
        rw [List.filter_cons_of_neg (by simp), if_neg (by simp), hnext]
    · rw [List.filter_cons_of_neg (by simpa using he)] at hst ⊢
      exact ih hst

/-- The admitted calls of a new limiter lie in windows. -/
theorem answers_windowed {maxRps : ℕ} (hpos : 0 < maxRps) {evs : List (ℕ × RateEvent)}
    (hsorted : (evs.map Prod.fst).Pairwise (· ≤ ·)) (ip : IpAddr) :
    ∃ st ws, Windowed maxRps st ws ∧ ws.map Prod.fst =
      ((answers maxRps .new (callsOf ip evs)).filter RateAnswer.ok).map RateAnswer.time := by
  have hsub : ((callsOf ip evs).map Prod.fst).Pairwise (· ≤ ·) :=
    hsorted.sublist (List.filter_sublist.map _)
  have hhead : ∀ ts : List ℕ, ts.Pairwise (· ≤ ·) → (ts.headD 0 :: ts).Pairwise (· ≤ ·) := by
    intro ts hts
    cases ts with
    | nil => simp
    | cons t ts =>
      refine List.pairwise_cons.mpr ⟨fun u hu => ?_, hts⟩
      rcases List.mem_cons.mp hu with rfl | hu
      · exact le_refl _
      · exact (List.pairwise_cons.mp hts).1 u hu
  refine ⟨⟨0, ((callsOf ip evs).map Prod.fst).headD 0⟩, _,
    admitted_windowed _ hpos (Nat.zero_le _) (hhead _ hsub), ?_⟩
  refine (answers_callsOf hpos evs fun now hnow => ?_).symm
  rw [List.headD_eq_head?_getD, hnow]
  rfl

end RateLimiter

/-! Seconds on the real line keep the order of the clock. -/

theorem secs_le {t u : ℕ} : (asSecs t : ℝ) ≤ asSecs u ↔ t ≤ u := by
  rw [Rat.cast_le, asSecs_le]

theorem secs_lt {t u : ℕ} : (asSecs t : ℝ) < asSecs u ↔ t < u := by
  rw [← not_le, secs_le, not_le]

theorem secs_injective : Function.Injective fun t : ℕ => (asSecs t : ℝ) := fun _ _ h =>
  Nat.le_antisymm (secs_le.mp h.le) (secs_le.mp h.ge)

theorem secs_add_fromSecs (t : ℕ) : (asSecs (t + fromSecs 1) : ℝ) = asSecs t + 1 := by
  unfold asSecs fromSecs
  push_cast
  ring

/-- The window bound, on the real line. -/
theorem Windowed.length_le {m : ℕ} {st : RateState} {ws : List (ℕ × ℕ)} (h : Windowed m st ws)
    (a : ℝ) {L : ℝ} (hL : 0 < L) :
    (ws.filter fun w => a ≤ (asSecs w.1 : ℝ) ∧ (asSecs w.1 : ℝ) < a + L).length ≤
      m * (⌈L⌉₊ + 1) := by
  have hmap : (ws.filter fun w => a ≤ (asSecs w.1 : ℝ) ∧ (asSecs w.1 : ℝ) < a + L).length =
      ((ws.map fun w => ((asSecs w.1 : ℝ), (asSecs w.2 : ℝ))).filter
        fun w => a ≤ w.1 ∧ w.1 < a + L).length := by
    rw [List.filter_map, List.length_map]
    rfl
  rw [hmap]
  refine length_window_le (fun r => ?_) (fun w hw => ?_) (fun v hv w hw hvw => ?_) hL.le
  · rw [List.map_map]
    by_cases hr : r ∈ ws.map fun w => (asSecs w.2 : ℝ)
    · obtain ⟨w, -, rfl⟩ := List.mem_map.mp hr
      have := List.count_map_of_injective (ws.map Prod.snd) _ secs_injective w.2
      rw [List.map_map] at this
      exact this.trans_le (h.count w.2)
    · exact (List.count_eq_zero.mpr hr).trans_le (Nat.zero_le _)
  · obtain ⟨u, hu, rfl⟩ := List.mem_map.mp hw
    obtain ⟨hle, hlt⟩ := h.mem u hu
    rw [← secs_add_fromSecs]
    exact ⟨secs_le.mpr hle, secs_lt.mpr hlt⟩
  · obtain ⟨v', hv', rfl⟩ := List.mem_map.mp hv
    obtain ⟨w', hw', rfl⟩ := List.mem_map.mp hw
    rw [← secs_add_fromSecs]
    exact secs_le.mpr (h.spaced v' hv' w' hw' (secs_lt.mp hvw))

/-- **Rate bound.** In an interval of `L` seconds, however it lies, an address gets at most
`maxRps * (⌈L⌉ + 1)` of its calls admitted. -/
theorem rateLimiter_bound {maxRps : ℕ} (hpos : 0 < maxRps) (evs : List (ℕ × RateEvent))
    (hsorted : (evs.map Prod.fst).Pairwise (· ≤ ·)) (ip : IpAddr) (a : ℝ) {L : ℝ} (hL : 0 < L) :
    ((RateLimiter.answers maxRps .new evs).filter fun r => r.ip = ip ∧ r.ok = true ∧
      a ≤ (asSecs r.time : ℝ) ∧ (asSecs r.time : ℝ) < a + L).length ≤ maxRps * (⌈L⌉₊ + 1) := by
  obtain ⟨st, ws, hws, htimes⟩ := RateLimiter.answers_windowed hpos hsorted ip
  rw [← RateLimiter.answers_matches evs (t := 0) (.inl rfl)
    (List.pairwise_cons.mpr ⟨fun _ _ => Nat.zero_le _, hsorted⟩), List.filter_filter] at htimes
  set inside : ℕ → Bool := fun t => a ≤ (asSecs t : ℝ) ∧ (asSecs t : ℝ) < a + L with hinside
  calc ((RateLimiter.answers maxRps .new evs).filter fun r => r.ip = ip ∧ r.ok = true ∧
        a ≤ (asSecs r.time : ℝ) ∧ (asSecs r.time : ℝ) < a + L).length
      = ((((RateLimiter.answers maxRps .new evs).filter fun r => r.ok && decide (r.ip = ip)).map
          RateAnswer.time).filter inside).length := by
        rw [List.filter_map, List.length_map, List.filter_filter]
        congr 2
        funext r
        simp only [hinside, Function.comp, Bool.decide_and, Bool.decide_eq_true]
        cases r.ok <;> cases decide (r.ip = ip) <;> simp
    _ = ((ws.map Prod.fst).filter inside).length := by rw [htimes]
    _ = (ws.filter fun w => a ≤ (asSecs w.1 : ℝ) ∧ (asSecs w.1 : ℝ) < a + L).length := by
        rw [List.filter_map, List.length_map]
        rfl
    _ ≤ maxRps * (⌈L⌉₊ + 1) := hws.length_le a hL

/-- Two calls one second apart, each in a window of its own. -/
theorem rateLimiter_bound_straddling :
    ((RateLimiter.answers 1 .new [(0, .check (.v4 1)), (fromSecs 1, .check (.v4 1))]).filter
      fun r => r.ip = .v4 1 ∧ r.ok = true ∧
        (0 : ℝ) ≤ (asSecs r.time : ℝ) ∧ (asSecs r.time : ℝ) < 0 + 2).length ≤ 1 * (⌈(2 : ℝ)⌉₊ + 1) :=
  rateLimiter_bound (by decide) _ (by decide) (.v4 1) 0 (by norm_num)

end OxidizedWall
