import OxidizedWall.Lib.Expiry
import OxidizedWall.Ban
import OxidizedWall.Bandwidth
import OxidizedWall.RateLimit
import Mathlib.Data.List.Dedup

/-!
# What the tables hold

The tables of `ratelimit.rs`, `ban.rs` and `bandwidth.rs` have an entry per address. They are
instances of one map that forgets, so what a table holds after a run is what was written, less what
the sweeps took for stale.

1. `rateLimiter_memory`: a cleanup keeps the addresses that called in the last nine seconds, and none
   that did not call in the last ten.
2. `banManager_memory`: the entries are the most recent bans that no cleanup and no check saw expired.
3. `bandwidthLimiter_memory`: nothing is ever dropped, there is a bucket for each address that drew.
-/

namespace OxidizedWall

/-! ## The rate limiter -/

namespace RateLimiter

/-- The records as a map that forgets. -/
def expiring (maxRps : ℕ) : Expiring IpAddr Unit Unit RateState where
  write now _ o := ((o.getD ⟨0, now⟩).hit now maxRps).2
  fresh _ now _ st := now - st.lastReset < fromSecs 10

def visit : ℕ × RateEvent → ℕ × Visit IpAddr Unit Unit
  | (now, .check ip) => (now, .write ip ())
  | (now, .cleanup) => (now, .sweep ())

/-- The limiter after a run. -/
def after (maxRps : ℕ) (l : RateLimiter) (evs : List (ℕ × RateEvent)) : RateLimiter :=
  evs.foldl (fun l e => match e.2 with
    | .check ip => (l.check e.1 ip maxRps).2
    | .cleanup => l.cleanup e.1) l

variable {maxRps : ℕ} {ip : IpAddr} {evs : List (ℕ × RateEvent)}

theorem after_concat (l : RateLimiter) (evs : List (ℕ × RateEvent)) (e : ℕ × RateEvent) :
    l.after maxRps (evs ++ [e]) = match e.2 with
      | .check ip => ((l.after maxRps evs).check e.1 ip maxRps).2
      | .cleanup => (l.after maxRps evs).cleanup e.1 := by
  unfold after
  rw [List.foldl_append]
  rfl

theorem records_after (hpos : 0 < maxRps) (evs : List (ℕ × RateEvent)) :
    (new.after maxRps evs).records = (expiring maxRps).run (evs.map visit) := by
  induction evs using List.reverseRecOn with
  | nil => rfl
  | append_singleton evs e ih =>
    obtain ⟨now, e⟩ := e
    rw [after_concat, List.map_append, List.map_singleton, Expiring.run_concat, ← ih]
    cases e with
    | check ip =>
      simp only
      unfold check
      rw [if_neg hpos.ne']
      rfl
    | cleanup => rfl

theorem lawful_expiring (hpos : 0 < maxRps) : (expiring maxRps).Lawful where
  fresh_write _ c t _ _ o hle := by
    refine decide_eq_true ?_
    show c - (((o.getD ⟨0, t⟩).hit t maxRps).2).lastReset < fromSecs 10
    unfold RateState.hit fromSecs
    split
    · simp only
      omega
    · split <;> (simp only; omega)
  write_stale _ c t _ _ st hle hstale := by
    have hlate : ¬ c - st.lastReset < fromSecs 10 := of_decide_eq_false hstale
    have hold : st.lastReset + fromSecs 10 ≤ t := by
      unfold fromSecs at *
      omega
    exact congrArg Prod.snd (hit_old hpos hold)

/-- A record starts at one of the calls of its address, and they have all come within a second of
that, or before it. -/
def Holds (ip : IpAddr) (evs : List (ℕ × RateEvent)) : Option RateState → Prop
  | none => ∀ t, (t, .check ip) ∉ evs
  | some st => (st.lastReset, .check ip) ∈ evs ∧
      ∀ t, (t, .check ip) ∈ evs → t < st.lastReset + fromSecs 1

theorem holds_entry (maxRps : ℕ) (ip : IpAddr) (evs : List (ℕ × RateEvent))
    (hsorted : (evs.map Prod.fst).Pairwise (· ≤ ·)) :
    Holds ip evs ((expiring maxRps).entry ip (evs.map visit)) := by
  induction evs using List.reverseRecOn with
  | nil => exact fun _ h => nomatch h
  | append_singleton evs e ih =>
    obtain ⟨hpre, hlast⟩ := times_concat.mp hsorted
    have hbefore := ih hpre
    obtain ⟨now, e⟩ := e
    rw [List.map_append, List.map_singleton, Expiring.entry_concat]
    generalize (expiring maxRps).entry ip (evs.map visit) = o at hbefore ⊢
    by_cases he : e = .check ip
    · subst he
      have hwrite : (expiring maxRps).rewrite ip o (visit (now, .check ip)) =
          some ((o.getD ⟨0, now⟩).hit now maxRps).2 := if_pos rfl
      rw [hwrite]
      -- either the call starts a window, or it falls in the one that goes on
      have hcases : ((o.getD ⟨0, now⟩).hit now maxRps).2.lastReset = now ∨
          ∃ st, o = some st ∧ ((o.getD ⟨0, now⟩).hit now maxRps).2.lastReset = st.lastReset ∧
            now < st.lastReset + fromSecs 1 := by
        unfold RateState.hit
        split
        · exact .inl rfl
        · rename_i hsame
          cases o with
          | none =>
            left
            split <;> rfl
          | some st =>
            right
            have hsame : ¬ now - st.lastReset ≥ fromSecs 1 := hsame
            exact ⟨st, rfl, by split <;> rfl, by omega⟩
      rcases hcases with hnew | ⟨st, hst, hsame, hlt⟩
      · unfold Holds
        simp only
        rw [hnew]
        refine ⟨List.mem_append_right _ (List.mem_singleton_self _), fun t ht => ?_⟩
        have hle : t ≤ now := by
          rcases List.mem_append.mp ht with ht | ht
          · exact hlast _ ht
          · cases List.mem_singleton.mp ht
            exact le_refl _
        unfold fromSecs
        omega
      · rw [hst] at hbefore
        unfold Holds
        simp only
        rw [hsame]
        refine ⟨List.mem_append_left _ hbefore.1, fun t ht => ?_⟩
        rcases List.mem_append.mp ht with ht | ht
        · exact hbefore.2 t ht
        · cases List.mem_singleton.mp ht
          exact hlt
    · have hmem : ∀ t, (t, .check ip) ∈ evs ++ [(now, e)] ↔ (t, .check ip) ∈ evs := by
        intro t
        rw [List.mem_append, List.mem_singleton, Prod.mk.injEq]
        exact or_iff_left fun h => he h.2.symm
      have hkeep : (expiring maxRps).rewrite ip o (visit (now, e)) = o := by
        cases e with
        | check ip' => exact if_neg fun h => he (congrArg _ h)
        | cleanup => rfl
      rw [hkeep]
      cases o with
      | none => exact fun t ht => hbefore t ((hmem t).mp ht)
      | some st => exact ⟨(hmem _).mpr hbefore.1, fun t ht => hbefore.2 t ((hmem t).mp ht)⟩

/-- The addresses that called at a time that satisfies `p`. -/
def callers (p : ℕ → Bool) (evs : List (ℕ × RateEvent)) : List IpAddr :=
  (evs.filterMap fun
    | (t, .check ip) => if p t then some ip else none
    | (_, .cleanup) => none).dedup

theorem mem_callers {p : ℕ → Bool} :
    ip ∈ callers p evs ↔ ∃ t, (t, .check ip) ∈ evs ∧ p t = true := by
  unfold callers
  rw [List.mem_dedup, List.mem_filterMap]
  constructor
  · rintro ⟨⟨t, e⟩, he, heq⟩
    cases e with
    | check ip' =>
      simp only at heq
      split at heq
      · cases heq
        exact ⟨t, he, ‹_›⟩
      · cases heq
    | cleanup => cases heq
  · rintro ⟨t, he, hp⟩
    exact ⟨_, he, if_pos hp⟩

/-- A record is there if its window is, and no cleanup was ten seconds late for it. -/
theorem get_after (hpos : 0 < maxRps) (hsorted : (evs.map Prod.fst).Pairwise (· ≤ ·))
    {st : RateState} : (new.after maxRps evs).records.get ip = some st ↔
      (expiring maxRps).entry ip (evs.map visit) = some st ∧
        ∀ c, (c, .cleanup) ∈ evs → c < st.lastReset + fromSecs 10 := by
  have htimes : ((evs.map visit).map Prod.fst).Pairwise (· ≤ ·) := by
    rw [List.map_map]
    convert hsorted using 2
    funext e
    obtain ⟨now, _ | _⟩ := e <;> rfl
  rw [records_after hpos, Expiring.get_run (lawful_expiring hpos) htimes,
    Option.filter_eq_some_iff, List.all_map, List.all_eq_true]
  refine and_congr_right fun _ => ⟨fun h c hc => ?_, fun h e he => ?_⟩
  · have hfresh : c - st.lastReset < fromSecs 10 := of_decide_eq_true (h _ hc)
    unfold fromSecs at *
    omega
  · obtain ⟨c, e⟩ := e
    cases e with
    | check ip' => rfl
    | cleanup =>
      refine decide_eq_true ?_
      have := h c he
      unfold fromSecs at *
      omega

end RateLimiter

/-- **Memory of the rate limiter.** After every run whose last cleanup is at `c` there is a record
for each address that has called since nine seconds before `c`, and for no address that has not
called since ten seconds before it. -/
theorem rateLimiter_memory {maxRps : ℕ} (hpos : 0 < maxRps) (evs : List (ℕ × RateEvent))
    (hsorted : (evs.map Prod.fst).Pairwise (· ≤ ·)) {c : ℕ} (hc : (c, .cleanup) ∈ evs)
    (hlast : ∀ c', (c', .cleanup) ∈ evs → c' ≤ c) :
    ∃ es, (RateLimiter.new.after maxRps evs).records.IteratesAs es ∧
      RateLimiter.callers (fun t => c ≤ t + fromSecs 9) evs ⊆ es.map Prod.fst ∧
      es.map Prod.fst ⊆ RateLimiter.callers (fun t => c < t + fromSecs 10) evs ∧
      es.length ≤ (RateLimiter.callers (fun t => c < t + fromSecs 10) evs).length := by
  obtain ⟨es, hes⟩ := (RateLimiter.expiring maxRps).exists_iteratesAs (evs.map RateLimiter.visit)
  rw [← RateLimiter.records_after hpos] at hes
  have hupper : es.map Prod.fst ⊆ RateLimiter.callers (fun t => c < t + fromSecs 10) evs := by
    intro ip hip
    obtain ⟨st, hst⟩ := hes.mem_keys.mp hip
    obtain ⟨hentry, hfresh⟩ := (RateLimiter.get_after hpos hsorted).mp hst
    have hholds := RateLimiter.holds_entry maxRps ip evs hsorted
    rw [hentry] at hholds
    exact RateLimiter.mem_callers.mpr ⟨_, hholds.1, decide_eq_true (hfresh c hc)⟩
  refine ⟨es, hes, fun ip hip => ?_, hupper, ?_⟩
  · obtain ⟨t, ht, hrecent⟩ := RateLimiter.mem_callers.mp hip
    have hholds := RateLimiter.holds_entry maxRps ip evs hsorted
    cases hentry : (RateLimiter.expiring maxRps).entry ip (evs.map RateLimiter.visit) with
    | none =>
      rw [hentry] at hholds
      exact absurd ht (hholds t)
    | some st =>
      rw [hentry] at hholds
      refine hes.mem_keys.mpr ⟨st, (RateLimiter.get_after hpos hsorted).mpr ⟨hentry, fun c' hc' => ?_⟩⟩
      have h1 := hholds.2 t ht
      have h2 := hlast c' hc'
      have h3 := of_decide_eq_true hrecent
      unfold fromSecs at *
      omega
  · have := (hes.nodup.subperm hupper).length_le
    rwa [List.length_map] at this

/-- The first address has called within the last ten seconds, but in a window that is older. -/
def olderWindow : List (ℕ × RateEvent) :=
  [(0, .check (.v4 1)), (fromSecs 1 - 1, .check (.v4 1)), (fromSecs 1, .check (.v4 2)),
    (fromSecs 10, .cleanup)]

theorem rateLimiter_memory_olderWindow : ∃ es,
    (RateLimiter.new.after 2 olderWindow).records.IteratesAs es ∧
      RateLimiter.callers (fun t => fromSecs 10 ≤ t + fromSecs 9) olderWindow ⊆ es.map Prod.fst ∧
      es.map Prod.fst ⊆ RateLimiter.callers (fun t => fromSecs 10 < t + fromSecs 10) olderWindow ∧
      es.length ≤
        (RateLimiter.callers (fun t => fromSecs 10 < t + fromSecs 10) olderWindow).length :=
  rateLimiter_memory (Nat.succ_pos 1) olderWindow (by decide) (by simp [olderWindow])
    (by simp [olderWindow])

/-! ## The bans -/

/-- A cleanup, or the look that a check takes at the entry of an address. -/
inductive BanSweep
  | cleanup
  | check (ip : IpAddr)

namespace BanManager

/-- The bans as a map that forgets. -/
def expiring : Expiring IpAddr {d : ℕ // 0 < d} BanSweep BanEntry where
  write now d _ := ⟨now + d⟩
  fresh
    | .cleanup, now, _, entry => now < entry.expireAt
    | .check ip', now, ip, entry => ip' = ip → now ≤ entry.expireAt

theorem lawful_expiring : expiring.Lawful where
  fresh_write s c t k d o hle := by
    have hpos := d.2
    cases s with
    | cleanup =>
      refine decide_eq_true ?_
      show c < t + d
      omega
    | check ip' =>
      refine decide_eq_true fun _ => ?_
      show c ≤ t + d
      omega
  write_stale _ _ _ _ _ _ _ _ := rfl

/-- What a call does to the map. -/
def visits (config : BanConfig) : ℕ × BanEvent → List (ℕ × Visit IpAddr {d : ℕ // 0 < d} BanSweep)
  | (now, .punish ip violation) =>
    if h : 0 < fromSecs (config.durationSec violation) then [(now, .write ip ⟨_, h⟩)] else []
  | (now, .check ip) => [(now, .sweep (.check ip))]
  | (now, .cleanup) => [(now, .sweep .cleanup)]

variable {config : BanConfig} {m m' : BanManager} {ip : IpAddr} {evs : List (ℕ × BanEvent)}
  {now : ℕ} {violation : Violation}

theorem fromSecs_pos {n : ℕ} : 0 < fromSecs n ↔ 0 < n := by
  unfold fromSecs
  omega

theorem visits_punish (h : 0 < config.durationSec violation) :
    visits config (now, .punish ip violation) =
      [(now, .write ip ⟨fromSecs (config.durationSec violation), fromSecs_pos.mpr h⟩)] :=
  dif_pos (fromSecs_pos.mpr h)

theorem visits_punish_of_zero (h : ¬ 0 < config.durationSec violation) :
    visits config (now, .punish ip violation) = [] := dif_neg fun h' => h (fromSecs_pos.mp h')

theorem mem_visits {e : ℕ × BanEvent} {x : ℕ × Visit IpAddr {d : ℕ // 0 < d} BanSweep}
    (h : x ∈ visits config e) : visits config e = [x] ∧ x.1 = e.1 := by
  obtain ⟨now, e⟩ := e
  cases e with
  | punish ip violation =>
    by_cases hdur : 0 < config.durationSec violation
    · rw [visits_punish hdur] at h ⊢
      obtain rfl := List.mem_singleton.mp h
      exact ⟨rfl, rfl⟩
    · rw [visits_punish_of_zero hdur] at h
      cases h
  | check ip =>
    obtain rfl := List.mem_singleton.mp h
    exact ⟨rfl, rfl⟩
  | cleanup =>
    obtain rfl := List.mem_singleton.mp h
    exact ⟨rfl, rfl⟩

theorem visits_times (hsorted : (evs.map Prod.fst).Pairwise (· ≤ ·)) :
    ((evs.flatMap (visits config)).map Prod.fst).Pairwise (· ≤ ·) := by
  rw [List.pairwise_map] at hsorted ⊢
  refine List.pairwise_flatMap.mpr ⟨fun e _ => ?_, hsorted.imp fun hle x hx y hy => ?_⟩
  · match hvisits : visits config e with
    | [] => exact List.Pairwise.nil
    | x :: xs =>
      have hx : x ∈ visits config e := hvisits ▸ List.mem_cons_self
      rw [← hvisits, (mem_visits hx).1]
      exact List.pairwise_singleton _ _
  · rw [(mem_visits hx).2, (mem_visits hy).2]
    exact hle

/-- A check sweeps the entry of its address. -/
theorem bannedIps_check (m : BanManager) (now : ℕ) (ip : IpAddr) :
    ((check ip).run (handle now) m).2.bannedIps =
      m.bannedIps.retain (expiring.fresh (.check ip) now) := by
  rw [check_eq]
  ext1
  funext ip'
  rw [KeyMap.get_retain]
  by_cases hip : ip = ip'
  · subst hip
    cases hget : m.bannedIps.get ip with
    | none => simp [hget]
    | some entry =>
      have hfresh : expiring.fresh (.check ip) now ip entry = decide (now ≤ entry.expireAt) := by
        simp [expiring]
      rw [Option.filter_some, hfresh]
      by_cases hover : entry.expireAt < now
      · simp [hover, Nat.not_le.mpr hover]
      · simp [hover, Nat.not_lt.mp hover, hget]
  · have hfresh : ∀ entry, expiring.fresh (.check ip) now ip' entry = true :=
      fun entry => decide_eq_true fun h => absurd h hip
    have hkept : (m.bannedIps.get ip').filter (expiring.fresh (.check ip) now ip') =
        m.bannedIps.get ip' := by
      cases m.bannedIps.get ip' with
      | none => rfl
      | some entry => exact Option.filter_some_pos (hfresh entry)
    rw [hkept]
    split
    · exact KeyMap.get_remove_of_ne (Ne.symm hip)
    · rfl

theorem bannedIps_step {e : ℕ × BanEvent} (h : m.step config e.1 e.2 = some m') :
    m'.bannedIps = (visits config e).foldl expiring.step m.bannedIps := by
  obtain ⟨now, e⟩ := e
  cases e with
  | punish ip violation =>
    simp only [step, punish_eq] at h
    by_cases hdur : 0 < config.durationSec violation
    · rw [visits_punish hdur]
      rw [if_pos hdur, ban_eq] at h
      cases hadd : instantAdd now (fromSecs (config.durationSec violation)) with
      | none =>
        rw [hadd] at h
        cases h
      | some expireAt =>
        rw [hadd] at h
        cases h
        obtain rfl := instantAdd_eq_some hadd
        rfl
    · rw [visits_punish_of_zero hdur]
      rw [if_neg hdur] at h
      cases h
      rfl
  | check ip =>
    cases h
    exact bannedIps_check m now ip
  | cleanup =>
    cases h
    rfl

theorem bannedIps_run (h : BanManager.new.run config evs = some m) :
    m.bannedIps = expiring.run (evs.flatMap (visits config)) := by
  induction evs using List.reverseRecOn generalizing m with
  | nil =>
    cases h
    rfl
  | append_singleton evs e ih =>
    rw [run_concat] at h
    obtain ⟨m₁, h₁, hs⟩ := Option.bind_eq_some_iff.mp h
    rw [bannedIps_step hs, ih h₁, List.flatMap_append]
    unfold Expiring.run
    rw [List.foldl_append, List.flatMap_singleton]

theorem entry_visits (config : BanConfig) (ip : IpAddr) (evs : List (ℕ × BanEvent)) :
    expiring.entry ip (evs.flatMap (visits config)) = (lastUntil config ip evs).map BanEntry.mk := by
  induction evs using List.reverseRecOn with
  | nil => rfl
  | append_singleton evs e ih =>
    obtain ⟨now, e⟩ := e
    rw [List.flatMap_append, List.flatMap_singleton, lastUntil_concat]
    unfold Expiring.entry at ih ⊢
    rw [List.foldl_append, ih]
    cases e with
    | punish ip' violation =>
      unfold bansUntil
      by_cases hdur : 0 < config.durationSec violation
      · rw [visits_punish hdur]
        by_cases hip : ip' = ip
        · simp [Expiring.rewrite, expiring, hip, hdur]
        · simp [Expiring.rewrite, hip]
      · rw [visits_punish_of_zero hdur]
        simp [hdur]
    | check ip' => rfl
    | cleanup => rfl

end BanManager

/-- **Memory of the bans.** After every run the entries are exactly the most recent bans of
addresses that no cleanup of the run came too late for, and no check of that address. -/
theorem banManager_memory (config : BanConfig) (evs : List (ℕ × BanEvent))
    (hsorted : (evs.map Prod.fst).Pairwise (· ≤ ·)) {m : BanManager}
    (hrun : BanManager.new.run config evs = some m) :
    ∃ es, m.bannedIps.IteratesAs es ∧ ∀ ip T, (ip, ⟨T⟩) ∈ es ↔
      lastUntil config ip evs = some T ∧ (∀ c, (c, .cleanup) ∈ evs → c < T) ∧
        ∀ t, (t, .check ip) ∈ evs → t ≤ T := by
  obtain ⟨es, hes⟩ := BanManager.expiring.exists_iteratesAs (evs.flatMap (BanManager.visits config))
  rw [← BanManager.bannedIps_run hrun] at hes
  refine ⟨es, hes, fun ip T => ?_⟩
  rw [hes.mem_iff, BanManager.bannedIps_run hrun, Expiring.get_run BanManager.lawful_expiring
    (BanManager.visits_times hsorted), BanManager.entry_visits, Option.filter_eq_some_iff]
  have hentry : (lastUntil config ip evs).map BanEntry.mk = some ⟨T⟩ ↔
      lastUntil config ip evs = some T := by
    rw [Option.map_eq_some_iff]
    exact ⟨fun ⟨_, h, heq⟩ => by cases heq; exact h, fun h => ⟨T, h, rfl⟩⟩
  rw [hentry, List.all_flatMap, List.all_eq_true]
  refine and_congr_right fun _ => ⟨fun h => ⟨fun c hc => ?_, fun t ht => ?_⟩, fun h e he => ?_⟩
  · have hkeep := h _ hc
    exact of_decide_eq_true (List.all_eq_true.mp hkeep _ (List.mem_singleton_self _))
  · have hkeep := h _ ht
    exact of_decide_eq_true (List.all_eq_true.mp hkeep _ (List.mem_singleton_self _)) rfl
  · obtain ⟨now, e⟩ := e
    refine List.all_eq_true.mpr fun x hx => ?_
    cases e with
    | punish ip' violation =>
      by_cases hdur : 0 < config.durationSec violation
      · rw [BanManager.visits_punish hdur] at hx
        obtain rfl := List.mem_singleton.mp hx
        rfl
      · rw [BanManager.visits_punish_of_zero hdur] at hx
        cases hx
    | check ip' =>
      obtain rfl := List.mem_singleton.mp hx
      exact decide_eq_true fun hip => h.2 now (hip ▸ he)
    | cleanup =>
      obtain rfl := List.mem_singleton.mp hx
      exact decide_eq_true (h.1 now he)

/-- The second ban of the first address writes over its first; that of the second address is over
when the cleanup comes. -/
def overwritten : List (ℕ × BanEvent) :=
  [(0, .punish (.v4 1) .protocol), (0, .punish (.v4 2) .timeout),
    (fromSecs 1, .punish (.v4 1) .waf), (fromSecs 2, .cleanup)]

theorem banManager_memory_overwritten : ∃ m,
    BanManager.new.run ⟨1, 2, 3, 4⟩ overwritten = some m ∧
    ∃ es, m.bannedIps.IteratesAs es ∧ ∀ ip T, (ip, ⟨T⟩) ∈ es ↔
      lastUntil ⟨1, 2, 3, 4⟩ ip overwritten = some T ∧ (∀ c, (c, .cleanup) ∈ overwritten → c < T) ∧
        ∀ t, (t, .check ip) ∈ overwritten → t ≤ T :=
  ⟨_, rfl, banManager_memory ⟨1, 2, 3, 4⟩ overwritten (by decide) rfl⟩

/-! ## The buckets -/

namespace BandwidthLimiter

/-- A call of `try_consume`. -/
structure Draw where
  ip : IpAddr
  rate : ℕ
  amount : ℕ

/-- The buckets as a map that is never swept. -/
def expiring : Expiring IpAddr Draw Empty (TokenBucket Float) where
  write now d o := ((o.getD (.new now)).consume now d.rate d.amount).2
  fresh s := nomatch s

/-- The limiter after the draws of a run. -/
def after (l : BandwidthLimiter Float) (draws : List (ℕ × Draw)) : BandwidthLimiter Float :=
  draws.foldl (fun l d => (l.tryConsume d.1 d.2.ip d.2.rate d.2.amount).2) l

def visit (d : ℕ × Draw) : ℕ × Visit IpAddr Draw Empty := (d.1, .write d.2.ip d.2)

theorem buckets_after (draws : List (ℕ × Draw)) :
    (new.after draws).buckets = expiring.run (draws.map visit) := by
  induction draws using List.reverseRecOn with
  | nil => rfl
  | append_singleton draws d ih =>
    rw [List.map_append, List.map_singleton, Expiring.run_concat, ← ih]
    unfold after
    rw [List.foldl_append]
    rfl

theorem entry_isSome {ip : IpAddr} {draws : List (ℕ × Draw)} :
    (expiring.entry ip (draws.map visit)).isSome ↔ ∃ d ∈ draws, d.2.ip = ip := by
  induction draws using List.reverseRecOn with
  | nil => simp [Expiring.entry]
  | append_singleton draws d ih =>
    rw [List.map_append, List.map_singleton, Expiring.entry_concat]
    by_cases hip : d.2.ip = ip
    · simp [visit, Expiring.rewrite, hip]
    · simp [visit, Expiring.rewrite, hip, ih]

end BandwidthLimiter

/-- **Memory of the buckets.** After every run there is a bucket for each address that has drawn,
however long ago. -/
theorem bandwidthLimiter_memory (draws : List (ℕ × BandwidthLimiter.Draw))
    (hsorted : (draws.map Prod.fst).Pairwise (· ≤ ·)) :
    ∃ es, (BandwidthLimiter.new.after draws).buckets.IteratesAs es ∧
      (es.map Prod.fst).Perm (draws.map fun d => d.2.ip).dedup := by
  obtain ⟨es, hes⟩ := BandwidthLimiter.expiring.exists_iteratesAs
    (draws.map BandwidthLimiter.visit)
  have hlawful : BandwidthLimiter.expiring.Lawful :=
    ⟨fun s => (nomatch s), fun s => (nomatch s)⟩
  have htimes : ((draws.map BandwidthLimiter.visit).map Prod.fst).Pairwise (· ≤ ·) := by
    rw [List.map_map]
    exact hsorted
  rw [BandwidthLimiter.buckets_after]
  refine ⟨es, hes, (List.perm_ext_iff_of_nodup hes.nodup (List.nodup_dedup _)).mpr fun ip => ?_⟩
  rw [hes.mem_keys, List.mem_dedup, List.mem_map, ← BandwidthLimiter.entry_isSome,
    Option.isSome_iff_exists]
  refine exists_congr fun b => ?_
  rw [Expiring.get_run hlawful htimes, Option.filter_eq_some_iff, List.all_map]
  exact and_iff_left (List.all_eq_true.mpr fun _ _ => rfl)

end OxidizedWall
