import OxidizedWall.Lib.Prog
import OxidizedWall.Config
import Mathlib.Data.List.Pairwise

/-!
# Bans (`ban.rs`)

A map from addresses to the instants at which their bans end, behind a lock. Every method is a
program over the clock and the lock, so that other tasks may act between its phases; `handle`
performs the phases of one call back to back.

1. `check_eq`, `ban_eq`: one lemma per method says what a whole call does to the map.
2. `ban_never_shortened`: a later punishment writes over an earlier one, so a ban is kept exactly
   in the runs in which no later ban of the address ends before it.
-/

namespace OxidizedWall

inductive Violation
  | timeout
  | protocol
  | waf
  | rateLimit
  deriving DecidableEq

structure BanEntry where
  expireAt : ℕ
  deriving DecidableEq

structure BanManager where
  bannedIps : KeyMap IpAddr BanEntry

/-! ## The methods -/

/-- What a method does under one lock, or with the clock. -/
inductive BanOp
  | now
  | get (ip : IpAddr)
  | insert (ip : IpAddr) (entry : BanEntry)
  | removeExpired (ip : IpAddr) (now : ℕ)
  | retain (now : ℕ)

@[reducible] def BanOp.Ans : BanOp → Type
  | .now => ℕ
  | .get _ => Option BanEntry
  | .insert _ _ => Unit
  | .removeExpired _ _ => Bool
  | .retain _ => Unit

abbrev BanProg := Prog BanOp BanOp.Ans

/-- `Instant::now()`. -/
def instantNow : BanProg ℕ := Prog.perform BanOp.now

namespace BanManager

/-- `BanManager::new`. -/
def new : BanManager := ⟨KeyMap.empty⟩

/-- The read of `BanManager::check`, under the read lock. -/
def get (ip : IpAddr) : BanProg (Option BanEntry) := Prog.perform (BanOp.get ip)

/-- The second look of `BanManager::check`, under the write lock. -/
def removeExpired (ip : IpAddr) (now : ℕ) : BanProg Bool :=
  Prog.perform (BanOp.removeExpired ip now)

/-- `BanManager::check`. -/
def check (ip : IpAddr) : BanProg Bool := do
  let now ← instantNow
  match ← get ip with
  | some entry => if now ≤ entry.expireAt then return true else removeExpired ip now
  | none => return false

/-- `BanManager::ban`; `none` where the addition panics. -/
def ban (ip : IpAddr) (duration : ℕ) : BanProg (Option Unit) := do
  let now ← instantNow
  match instantAdd now duration with
  | none => return none
  | some expireAt =>
    Prog.perform (BanOp.insert ip ⟨expireAt⟩)
    return some ()

end BanManager

/-- The duration that `BanManager::punish` takes from the configuration, in seconds. -/
def BanConfig.durationSec (config : BanConfig) : Violation → ℕ
  | .timeout => config.banTimeout
  | .protocol => config.banProtocol
  | .waf => config.banWaf
  | .rateLimit => config.banRateLimit

namespace BanManager

/-- `BanManager::punish`. -/
def punish (ip : IpAddr) (violation : Violation) (config : BanConfig) : BanProg (Option Unit) :=
  if config.durationSec violation > 0 then
    ban ip (fromSecs (config.durationSec violation))
  else return some ()

/-- One pass of `BanManager::spawn_cleanup_task`. -/
def cleanup : BanProg Unit := do
  let now ← instantNow
  Prog.perform (BanOp.retain now)

/-! ## One call at a time -/

/-- The lock and the clock, at the time `now`. -/
def handle (now : ℕ) : (o : BanOp) → BanManager → o.Ans × BanManager
  | .now, m => (now, m)
  | .get ip, m => (m.bannedIps.get ip, m)
  | .insert ip entry, m => ((), ⟨m.bannedIps.insert ip entry⟩)
  | .removeExpired ip now, m =>
    match m.bannedIps.get ip with
    | some entry => if now > entry.expireAt then (false, ⟨m.bannedIps.remove ip⟩) else (true, m)
    | none => (false, m)
  | .retain now, m => ((), ⟨m.bannedIps.retain fun _ entry => entry.expireAt > now⟩)

/-- The answer of a check at `now`. -/
def isBanned (m : BanManager) (now : ℕ) (ip : IpAddr) : Bool :=
  (m.bannedIps.get ip).any fun entry => now ≤ entry.expireAt

/-- A whole check answers from the entry, and drops it if it has expired. -/
theorem check_eq (m : BanManager) (now : ℕ) (ip : IpAddr) :
    (check ip).run (handle now) m = (m.isBanned now ip,
      if (m.bannedIps.get ip).any (fun entry => entry.expireAt < now)
        then ⟨m.bannedIps.remove ip⟩ else m) := by
  have hrun : (check ip).run (handle now) m = Prog.run (handle now)
      (match m.bannedIps.get ip with
        | some entry => if now ≤ entry.expireAt then Prog.ret true else removeExpired ip now
        | none => Prog.ret false) m := rfl
  rw [hrun]
  unfold isBanned
  cases hget : m.bannedIps.get ip with
  | none => rfl
  | some entry =>
    simp only [Option.any_some, decide_eq_true_eq]
    by_cases hlive : now ≤ entry.expireAt
    · rw [if_pos hlive, if_neg (by omega), decide_eq_true hlive, Prog.run_ret]
    · have hold : entry.expireAt < now := by omega
      rw [if_neg hlive, if_pos hold, decide_eq_false hlive]
      show handle now (.removeExpired ip now) m = _
      simp only [handle, hget]
      exact if_pos hold

/-- A whole ban writes its entry, whatever was there. -/
theorem ban_eq (m : BanManager) (now : ℕ) (ip : IpAddr) (duration : ℕ) :
    (ban ip duration).run (handle now) m = match instantAdd now duration with
      | none => (none, m)
      | some expireAt => (some (), ⟨m.bannedIps.insert ip ⟨expireAt⟩⟩) := by
  unfold ban instantNow
  simp only [Prog.perform_bind, Prog.run_call, handle]
  cases instantAdd now duration <;> rfl

theorem punish_eq (m : BanManager) (now : ℕ) (ip : IpAddr) (violation : Violation)
    (config : BanConfig) : (punish ip violation config).run (handle now) m =
      if config.durationSec violation > 0
        then (ban ip (fromSecs (config.durationSec violation))).run (handle now) m
        else (some (), m) := by
  unfold punish
  split <;> rfl

/-- A punishment touches no other entry. -/
theorem get_punish_of_ne {m : BanManager} {now : ℕ} {ip ip' : IpAddr} {violation : Violation}
    {config : BanConfig} (hne : ip ≠ ip') :
    ((punish ip' violation config).run (handle now) m).2.bannedIps.get ip =
      m.bannedIps.get ip := by
  rw [punish_eq]
  split
  · rw [ban_eq]
    split
    · rfl
    · exact KeyMap.get_insert_of_ne hne _
  · rfl

/-- A punishment at `now` completes, and the entry that it leaves for the address does not end
before `now`. Where the configured duration is zero it leaves everything as it was. -/
def Punishes (config : BanConfig) (m : BanManager) (now : ℕ) (ip : IpAddr)
    (violation : Violation) : Prop :=
  ∃ m', (punish ip violation config).run (handle now) m = (some (), m') ∧
    if config.durationSec violation = 0 then m' = m
    else ∃ entry, m'.bannedIps.get ip = some entry ∧ now ≤ entry.expireAt

/-- **When punishing is safe.** For every configuration and at every instant, `punish` does what it
should exactly if the configured duration is zero, or its end is an instant that the clock has. -/
theorem punishes_iff (config : BanConfig) (m : BanManager) (now : ℕ) (ip : IpAddr)
    (violation : Violation) : m.Punishes config now ip violation ↔
      config.durationSec violation = 0 ∨
        now + fromSecs (config.durationSec violation) < fromSecs (2 ^ 63) := by
  unfold Punishes
  rw [punish_eq]
  by_cases hzero : config.durationSec violation = 0
  · rw [if_neg (by omega)]
    simp only [if_pos hzero]
    exact ⟨fun _ => .inl hzero, fun _ => ⟨m, rfl, rfl⟩⟩
  · rw [if_pos (by omega), ban_eq]
    simp only [if_neg hzero]
    by_cases hfits : now + fromSecs (config.durationSec violation) < fromSecs (2 ^ 63)
    · have hadd : instantAdd now (fromSecs (config.durationSec violation)) =
          some (now + fromSecs (config.durationSec violation)) := if_pos hfits
      rw [hadd]
      refine ⟨fun _ => .inr hfits, fun _ => ⟨_, rfl, _, KeyMap.get_insert_self _ _ _, ?_⟩⟩
      show now ≤ now + fromSecs (config.durationSec violation)
      omega
    · have hadd : instantAdd now (fromSecs (config.durationSec violation)) = none := if_neg hfits
      rw [hadd]
      constructor
      · rintro ⟨m', hrun, -⟩
        cases hrun
      · rintro (h | h)
        · exact absurd h hzero
        · exact absurd h hfits

/-- The longest ban that a TOML integer can ask for, one second after the clock's start. -/
theorem not_punishes_longest :
    ¬ new.Punishes ⟨0, 2 ^ 63 - 1, 0, 0⟩ (fromSecs 1) (.v4 1) .protocol := by
  rintro ⟨m', hrun, -⟩
  have hpanic : (none, new) = (some (), m') := hrun
  cases hpanic

/-- A whole pass forgets the entries that have expired. -/
theorem cleanup_eq (m : BanManager) (now : ℕ) :
    cleanup.run (handle now) m = ((), ⟨m.bannedIps.retain fun _ entry => entry.expireAt > now⟩) :=
  rfl

end BanManager

/-! ## Calls -/

inductive BanCall
  | ban (ip : IpAddr) (duration : ℕ)
  | check (ip : IpAddr)
  | cleanup
  deriving DecidableEq

/-- A call at `now`; `none` where it panics, which aborts the process. -/
def BanManager.call (m : BanManager) (now : ℕ) : BanCall → Option BanManager
  | .ban ip duration =>
    let r := (ban ip duration).run (handle now) m
    r.1.map fun _ => r.2
  | .check ip => some ((check ip).run (handle now) m).2
  | .cleanup => some (cleanup.run (handle now) m).2

/-- What a call does to the entry of an address: writes it, drops it when it is over, or nothing.
At the very end of a ban only a cleanup drops it. -/
theorem get_call {m m' : BanManager} {now : ℕ} {c : BanCall} (ip : IpAddr)
    (h : m.call now c = some m') :
    (∃ d, c = .ban ip d ∧ m'.bannedIps.get ip = some ⟨now + d⟩) ∨
    (m'.bannedIps.get ip = none ∧ ∃ entry, m.bannedIps.get ip = some entry ∧
      (c = .check ip ∧ entry.expireAt < now ∨ c = .cleanup ∧ entry.expireAt ≤ now)) ∨
    ((∀ d, c ≠ .ban ip d) ∧ m'.bannedIps.get ip = m.bannedIps.get ip ∧
      (c = .cleanup → ∀ entry, m.bannedIps.get ip = some entry → now < entry.expireAt)) := by
  cases c with
  | ban ip' d =>
    simp only [BanManager.call, BanManager.ban_eq] at h
    cases hadd : instantAdd now d with
    | none =>
      rw [hadd] at h
      cases h
    | some expireAt =>
      rw [hadd] at h
      obtain rfl := instantAdd_eq_some hadd
      obtain rfl := Option.some.inj h
      by_cases hip : ip = ip'
      · subst hip
        exact .inl ⟨d, rfl, KeyMap.get_insert_self _ _ _⟩
      · refine .inr (.inr ⟨fun d' hd' => ?_, KeyMap.get_insert_of_ne hip _, by simp⟩)
        cases hd'
        exact hip rfl
  | check ip' =>
    obtain rfl := Option.some.inj h
    rw [BanManager.check_eq]
    by_cases hover : (m.bannedIps.get ip').any (fun entry => entry.expireAt < now) = true
    · simp only [if_pos hover]
      by_cases hip : ip = ip'
      · subst hip
        obtain ⟨entry, hentry, hlt⟩ := (Option.any_eq_true _ _).mp hover
        exact .inr (.inl ⟨KeyMap.get_remove_self _ _, entry, hentry,
          .inl ⟨rfl, of_decide_eq_true hlt⟩⟩)
      · exact .inr (.inr ⟨by simp, KeyMap.get_remove_of_ne hip, by simp⟩)
    · refine .inr (.inr ⟨by simp, ?_, by simp⟩)
      exact congrArg (fun m : BanManager => m.bannedIps.get ip) (if_neg hover)
  | cleanup =>
    obtain rfl := Option.some.inj h
    rw [BanManager.cleanup_eq]
    show _ ∨ (Option.filter _ (m.bannedIps.get ip) = none ∧ _) ∨
      (_ ∧ Option.filter _ (m.bannedIps.get ip) = _ ∧ _)
    cases hget : m.bannedIps.get ip with
    | none => exact .inr (.inr ⟨by simp, rfl, by simp⟩)
    | some entry =>
      by_cases hkeep : entry.expireAt > now
      · refine .inr (.inr ⟨by simp, Option.filter_some_pos (decide_eq_true hkeep), ?_⟩)
        rintro - _ ⟨⟩
        exact hkeep
      · have hdrop : Option.filter (fun entry : BanEntry => decide (entry.expireAt > now))
            (some entry) = none := Option.filter_some_neg (by simpa using hkeep)
        exact .inr (.inl ⟨hdrop, entry, rfl, .inr ⟨rfl, Nat.not_lt.mp hkeep⟩⟩)

/-! ## Runs -/

/-- A call of the manager, with the durations of the configuration. -/
inductive BanEvent
  | punish (ip : IpAddr) (violation : Violation)
  | check (ip : IpAddr)
  | cleanup
  deriving DecidableEq

/-- The call that an event makes, if any. -/
def BanEvent.call (config : BanConfig) : BanEvent → Option BanCall
  | .punish ip violation =>
    if config.durationSec violation > 0
      then some (.ban ip (fromSecs (config.durationSec violation))) else none
  | .check ip => some (.check ip)
  | .cleanup => some .cleanup

namespace BanManager

/-- A call at `now`; `none` where it panics, which aborts the process. -/
def step (config : BanConfig) (m : BanManager) (now : ℕ) : BanEvent → Option BanManager
  | .punish ip violation =>
    let r := (punish ip violation config).run (handle now) m
    r.1.map fun _ => r.2
  | .check ip => some ((check ip).run (handle now) m).2
  | .cleanup => some (cleanup.run (handle now) m).2

/-- The state after the calls `evs`. -/
def run (config : BanConfig) (m : BanManager) (evs : List (ℕ × BanEvent)) : Option BanManager :=
  evs.foldlM (fun m e => m.step config e.1 e.2) m

theorem run_concat (config : BanConfig) (m : BanManager) (evs : List (ℕ × BanEvent))
    (e : ℕ × BanEvent) : m.run config (evs ++ [e]) =
      (m.run config evs).bind fun m => m.step config e.1 e.2 := by
  unfold run
  rw [List.foldlM_append]
  congr 1
  funext m
  exact bind_pure _

end BanManager

/-- The times of a run in two parts. -/
theorem times_append {ε : Type} {evs evs' : List (ℕ × ε)} :
    ((evs ++ evs').map Prod.fst).Pairwise (· ≤ ·) ↔ (evs.map Prod.fst).Pairwise (· ≤ ·) ∧
      (evs'.map Prod.fst).Pairwise (· ≤ ·) ∧ ∀ e ∈ evs, ∀ e' ∈ evs', e.1 ≤ e'.1 := by
  rw [List.map_append, List.pairwise_append]
  simp only [List.forall_mem_map]

theorem times_concat {ε : Type} {evs : List (ℕ × ε)} {e : ℕ × ε} :
    ((evs ++ [e]).map Prod.fst).Pairwise (· ≤ ·) ↔
      (evs.map Prod.fst).Pairwise (· ≤ ·) ∧ ∀ e' ∈ evs, e'.1 ≤ e.1 := by
  rw [times_append]
  simp only [List.map_singleton, List.pairwise_singleton, true_and, List.forall_mem_singleton]

/-! ## The record of the bans -/

/-- The instant until which a call bans `ip`. -/
def bansUntil (config : BanConfig) (ip : IpAddr) (e : ℕ × BanEvent) : Option ℕ :=
  match e.2 with
  | .punish ip' violation =>
    if ip' = ip ∧ 0 < config.durationSec violation
      then some (e.1 + fromSecs (config.durationSec violation)) else none
  | _ => none

/-- The end of the most recent ban of `ip`. -/
def lastUntil (config : BanConfig) (ip : IpAddr) (evs : List (ℕ × BanEvent)) : Option ℕ :=
  evs.foldl (fun last e => (bansUntil config ip e).or last) none

section
variable {config : BanConfig} {m m' : BanManager} {ip : IpAddr} {now t : ℕ}
  {evs : List (ℕ × BanEvent)}

theorem lastUntil_concat (evs : List (ℕ × BanEvent)) (e : ℕ × BanEvent) :
    lastUntil config ip (evs ++ [e]) = (bansUntil config ip e).or (lastUntil config ip evs) := by
  unfold lastUntil
  rw [List.foldl_append]
  rfl

theorem step_eq (m : BanManager) (now : ℕ) (e : BanEvent) : m.step config now e =
    match e.call config with
    | none => some m
    | some c => m.call now c := by
  cases e with
  | punish ip violation =>
    simp only [BanManager.step, BanEvent.call, BanManager.punish_eq]
    split <;> rfl
  | check ip => rfl
  | cleanup => rfl

theorem bansUntil_eq_some {e : ℕ × BanEvent} {T : ℕ} : bansUntil config ip e = some T ↔
    ∃ d, e.2.call config = some (.ban ip d) ∧ T = e.1 + d := by
  obtain ⟨now, e⟩ := e
  cases e with
  | punish ip' violation =>
    simp only [bansUntil, BanEvent.call]
    by_cases hdur : 0 < config.durationSec violation
    · by_cases hip : ip' = ip <;> simp [hdur, hip, eq_comm, Ne.symm]
    · simp [hdur]
  | check ip' => simp [bansUntil, BanEvent.call]
  | cleanup => simp [bansUntil, BanEvent.call]

theorem bansUntil_eq_none {e : ℕ × BanEvent} : bansUntil config ip e = none ↔
    ∀ d, e.2.call config ≠ some (.ban ip d) := by
  rw [Option.eq_none_iff_forall_ne_some]
  simp only [Ne, bansUntil_eq_some, not_exists, not_and]
  exact ⟨fun h d hd => h _ d hd rfl, fun h _ d hd => absurd hd (h d)⟩

/-- What an event may do to the entry of an address: write it, drop it when it is over, or
nothing. -/
theorem get_step {e : BanEvent} (hs : m.step config now e = some m') :
    (∃ T, bansUntil config ip (now, e) = some T ∧ m'.bannedIps.get ip = some ⟨T⟩) ∨
    (bansUntil config ip (now, e) = none ∧ m'.bannedIps.get ip = m.bannedIps.get ip) ∨
    (bansUntil config ip (now, e) = none ∧ m'.bannedIps.get ip = none ∧
      ∃ entry, m.bannedIps.get ip = some entry ∧
        (entry.expireAt < now ∨ (entry.expireAt = now ∧ e = .cleanup))) := by
  rw [step_eq] at hs
  rw [bansUntil_eq_none]
  simp only [bansUntil_eq_some]
  cases hcall : e.call config with
  | none =>
    rw [hcall] at hs
    obtain rfl := Option.some.inj hs
    exact .inr (.inl ⟨by simp, rfl⟩)
  | some c =>
    rw [hcall] at hs
    rcases get_call ip hs with ⟨d, rfl, hget⟩ | ⟨hdrop, entry, hentry, hover⟩ | ⟨hno, hsame, -⟩
    · exact .inl ⟨_, ⟨d, rfl, rfl⟩, hget⟩
    · refine .inr (.inr ⟨?_, hdrop, entry, hentry, ?_⟩)
      · rcases hover with ⟨rfl, -⟩ | ⟨rfl, -⟩ <;> simp
      · rcases hover with ⟨-, hlt⟩ | ⟨rfl, hle⟩
        · exact .inl hlt
        · have he : e = .cleanup := by
            cases e with
            | punish ip' violation =>
              simp only [BanEvent.call] at hcall
              split at hcall <;> cases hcall
            | check ip' => cases hcall
            | cleanup => rfl
          exact (Nat.lt_or_eq_of_le hle).imp_right fun h => ⟨h, he⟩
    · exact .inr (.inl ⟨fun d hd => hno d (Option.some.inj hd), hsame⟩)

/-- As of `now`, after the calls `evs`, the entry of `ip` is that of its most recent ban, or has
been dropped because that ban is over. -/
def Recorded (config : BanConfig) (ip : IpAddr) (now : ℕ) (evs : List (ℕ × BanEvent))
    (m : BanManager) : Prop :=
  match lastUntil config ip evs with
  | none => m.bannedIps.get ip = none
  | some T => m.bannedIps.get ip = some ⟨T⟩ ∨
    (m.bannedIps.get ip = none ∧ (T < now ∨ (T, .cleanup) ∈ evs))

theorem Recorded.mono (h : Recorded config ip t evs m) (ht : t ≤ now) :
    Recorded config ip now evs m := by
  unfold Recorded at h ⊢
  cases hlast : lastUntil config ip evs with
  | none =>
    rw [hlast] at h
    exact h
  | some T =>
    rw [hlast] at h
    exact h.imp_right fun h => ⟨h.1, h.2.imp_left fun h => h.trans_le ht⟩

theorem recorded_step (h : Recorded config ip t evs m) (ht : t ≤ now) {e : BanEvent}
    (hs : m.step config now e = some m') : Recorded config ip now (evs ++ [(now, e)]) m' := by
  replace h := h.mono ht
  unfold Recorded at h ⊢
  rw [lastUntil_concat]
  rcases get_step hs with ⟨T, hb, hget⟩ | ⟨hb, hsame⟩ | ⟨hb, hdrop, entry, hentry, hover⟩
  · rw [hb]
    exact .inl hget
  · rw [hb, Option.none_or]
    cases hlast : lastUntil config ip evs with
    | none =>
      rw [hlast] at h
      exact hsame.trans h
    | some T =>
      rw [hlast] at h
      simp only
      rw [hsame]
      exact h.imp_right fun h => ⟨h.1, h.2.imp_right (List.mem_append_left _)⟩
  · rw [hb, Option.none_or]
    cases hlast : lastUntil config ip evs with
    | none => exact hdrop
    | some T =>
      rw [hlast] at h
      simp only at h
      rw [hentry] at h
      obtain rfl : entry = ⟨T⟩ := Option.some.inj (h.resolve_right fun h => nomatch h.1)
      refine .inr ⟨hdrop, hover.imp_right ?_⟩
      rintro ⟨hT, rfl⟩
      subst hT
      exact List.mem_append_right _ (List.mem_singleton.mpr rfl)

/-- In every run the entry of an address is that of its most recent ban, or that ban is over. -/
theorem recorded_run (hsorted : (evs.map Prod.fst).Pairwise (· ≤ ·))
    (hle : ∀ e ∈ evs, e.1 ≤ now) (hrun : BanManager.new.run config evs = some m) :
    Recorded config ip now evs m := by
  induction evs using List.reverseRecOn generalizing m now with
  | nil =>
    obtain rfl := Option.some.inj hrun
    exact KeyMap.get_empty ip
  | append_singleton evs e ih =>
    rw [BanManager.run_concat] at hrun
    obtain ⟨m₁, h₁, hs⟩ := Option.bind_eq_some_iff.mp hrun
    obtain ⟨hpre, hlast⟩ := times_concat.mp hsorted
    exact (recorded_step (ih hpre hlast h₁) (le_refl _) hs).mono (hle e (by simp))

/-! ## Keeping bans -/

/-- Every check in the run of an address that a call before it has banned until a later instant
answers `true`. -/
def BansKept (config : BanConfig) (evs : List (ℕ × BanEvent)) : Prop :=
  ∀ p e q x ip r T m, evs = (p ++ e :: q) ++ (x, .check ip) :: r →
    bansUntil config ip e = some T → x < T → BanManager.new.run config (p ++ e :: q) = some m →
      ((BanManager.check ip).run (BanManager.handle x) m).1 = true

/-- No punishment ends before an earlier one of the same address. -/
def NoneShorter (config : BanConfig) (evs : List (ℕ × BanEvent)) : Prop :=
  evs.Pairwise fun e e' => ∀ ip T T', bansUntil config ip e = some T →
    bansUntil config ip e' = some T' → T ≤ T'

theorem le_bansUntil {e : ℕ × BanEvent} {T : ℕ} (h : bansUntil config ip e = some T) : e.1 ≤ T := by
  unfold bansUntil at h
  split at h
  · split at h
    · obtain rfl := Option.some.inj h
      omega
    · cases h
  · cases h

/-- The most recent ban of an address is then its longest. -/
theorem NoneShorter.le_lastUntil {evs : List (ℕ × BanEvent)} (h : NoneShorter config evs)
    {e : ℕ × BanEvent} (he : e ∈ evs) {T : ℕ} (hT : bansUntil config ip e = some T) :
    ∃ T', lastUntil config ip evs = some T' ∧ T ≤ T' := by
  induction evs using List.reverseRecOn with
  | nil => cases he
  | append_singleton evs e' ih =>
    obtain ⟨hpre, -, hlast⟩ := List.pairwise_append.mp h
    rw [lastUntil_concat]
    rcases List.mem_append.mp he with he | he
    · cases hb : bansUntil config ip e' with
      | none => exact ih hpre he
      | some T' => exact ⟨T', rfl, hlast e he e' (by simp) ip T T' hT hb⟩
    · obtain rfl := List.mem_singleton.mp he
      rw [hT]
      exact ⟨T, rfl, le_refl T⟩

theorem bansKept_of_noneShorter {evs : List (ℕ × BanEvent)}
    (hsorted : (evs.map Prod.fst).Pairwise (· ≤ ·)) (h : NoneShorter config evs) :
    BansKept config evs := by
  rintro p e q x ip r T m rfl hT hx hrun
  have hpre : NoneShorter config (p ++ e :: q) := (List.pairwise_append.mp h).1
  obtain ⟨T', hlast, hle⟩ := hpre.le_lastUntil (by simp) hT
  obtain ⟨htimes, -, hcross⟩ := times_append.mp hsorted
  have hbefore : ∀ e' ∈ p ++ e :: q, e'.1 ≤ x := fun e' he' => hcross e' he' _ (.head _)
  have hrec : Recorded config ip x (p ++ e :: q) m := recorded_run htimes hbefore hrun
  unfold Recorded at hrec
  rw [hlast] at hrec
  rcases hrec with hget | ⟨-, hover⟩
  · rw [BanManager.check_eq]
    unfold BanManager.isBanned
    rw [hget]
    exact decide_eq_true (hx.le.trans hle)
  · have : T' ≤ x := hover.elim Nat.le_of_lt (hbefore _)
    omega

/-- A cleanup at the end of the most recent ban makes the address free at that instant. -/
theorem check_after_cleanup {T : ℕ} (h : Recorded config ip T evs m)
    (hlast : lastUntil config ip evs = some T) (hs : m.step config T .cleanup = some m') :
    ((BanManager.check ip).run (BanManager.handle T) m').1 = false := by
  obtain rfl := Option.some.inj hs
  have hnone : (m.bannedIps.retain fun _ entry => entry.expireAt > T).get ip = none := by
    rw [KeyMap.get_retain]
    unfold Recorded at h
    rw [hlast] at h
    rcases h with h | h
    · rw [h, Option.filter_some_neg (by simp)]
    · rw [h.1]
      rfl
  rw [BanManager.cleanup_eq, BanManager.check_eq]
  unfold BanManager.isBanned
  rw [hnone]
  rfl

theorem noneShorter_of_bansKept {evs : List (ℕ × BanEvent)}
    (hsorted : (evs.map Prod.fst).Pairwise (· ≤ ·))
    (hrun : (BanManager.new.run config evs).isSome)
    (h : ∀ p later, p <+: evs → (∀ e ∈ later, ∀ ip, bansUntil config ip e = none) →
      ((p ++ later).map Prod.fst).Pairwise (· ≤ ·) → BansKept config (p ++ later)) :
    NoneShorter config evs := by
  induction evs using List.reverseRecOn with
  | nil => exact List.Pairwise.nil
  | append_singleton evs e' ih =>
    obtain ⟨m, hm⟩ := Option.isSome_iff_exists.mp hrun
    have hm' := hm
    rw [BanManager.run_concat] at hm'
    obtain ⟨m₁, h₁, -⟩ := Option.bind_eq_some_iff.mp hm'
    obtain ⟨htimes, hbefore⟩ := times_concat.mp hsorted
    have hpre : NoneShorter config evs := ih htimes (by rw [h₁]; rfl)
      fun p later hp => h p later (hp.trans (List.prefix_append _ _))
    refine List.pairwise_append.mpr ⟨hpre, List.pairwise_singleton _ _, ?_⟩
    intro e he e'' he'' ip T T' hT hT'
    obtain rfl := List.mem_singleton.mp he''
    by_contra hlt
    -- a cleanup when the later ban ends, and a check after it
    have hle := le_bansUntil hT'
    have hlater : ∀ e' ∈ evs ++ [e''], e'.1 ≤ T' := by
      intro e' he'
      rcases List.mem_append.mp he' with he' | he'
      · exact (hbefore e' he').trans hle
      · obtain rfl := List.mem_singleton.mp he'
        exact hle
    have hkept := h (evs ++ [e'']) [(T', .cleanup), (T', .check ip)] (List.prefix_refl _)
      (by simp [bansUntil]) (times_append.mpr ⟨hsorted, by simp, fun e' he' => by
        simpa using hlater e' he'⟩)
    have hrec : Recorded config ip T' (evs ++ [e'']) m := recorded_run hsorted hlater hm
    have hlast : lastUntil config ip (evs ++ [e'']) = some T' := by
      rw [lastUntil_concat, hT', Option.some_or]
    have hstep : m.step config T' .cleanup = some ⟨m.bannedIps.retain fun _ entry =>
      entry.expireAt > T'⟩ := rfl
    obtain ⟨a, b, rfl⟩ := List.append_of_mem he
    have htrue := hkept a e (b ++ [e'', (T', .cleanup)]) T' ip [] T _ (by simp) hT
      (by omega) (by
        rw [show a ++ e :: (b ++ [e'', (T', .cleanup)]) =
          (a ++ e :: b ++ [e'']) ++ [(T', .cleanup)] by simp, BanManager.run_concat, hm]
        exact hstep)
    rw [check_after_cleanup hrec hlast hstep] at htrue
    cases htrue

end

/-- **Bans are not shortened**, in exactly the runs in which no punishment of an address ends
before an earlier one: a punishment writes over the entry of the address, whatever its end. In
the other runs checks and a cleanup suffice, from some moment on, to see an address go free. -/
theorem ban_never_shortened (config : BanConfig) (evs : List (ℕ × BanEvent))
    (hsorted : (evs.map Prod.fst).Pairwise (· ≤ ·))
    (hrun : (BanManager.new.run config evs).isSome) :
    NoneShorter config evs ↔
      ∀ p later, p <+: evs → (∀ e ∈ later, ∀ ip, bansUntil config ip e = none) →
        ((p ++ later).map Prod.fst).Pairwise (· ≤ ·) → BansKept config (p ++ later) := by
  refine ⟨fun h p later hp hnone hs => bansKept_of_noneShorter hs ?_,
    noneShorter_of_bansKept hsorted hrun⟩
  have hlater : NoneShorter config later :=
    List.pairwise_of_forall_mem_list fun e he e' _ ip T T' hT => by simp [hnone e he] at hT
  refine List.pairwise_append.mpr ⟨h.sublist hp.sublist, hlater, ?_⟩
  intro e _ e' he' ip T T' _ hT'
  rw [hnone e' he'] at hT'
  cases hT'

/-- The longer ban second. -/
theorem ban_never_shortened_lengthened : BansKept ⟨0, 1, 3600, 0⟩
    [(0, .punish (.v4 1) .protocol), (0, .punish (.v4 1) .waf), (fromSecs 2, .check (.v4 1))] := by
  have hlonger : NoneShorter ⟨0, 1, 3600, 0⟩ [(0, .punish (.v4 1) .protocol),
      (0, .punish (.v4 1) .waf), (fromSecs 2, .check (.v4 1))] := by
    simp +contextual [NoneShorter, bansUntil, BanConfig.durationSec, fromSecs]
  have hkept := (ban_never_shortened _ _ (by decide) rfl).mp hlonger _ [] (List.prefix_refl _)
    (by simp) (by decide)
  exact hkept

/-- A ban of an hour for an attack, then one of a second for a malformed request. -/
def hourThenSecond : List (ℕ × BanEvent) :=
  [(0, .punish (.v4 1) .waf), (0, .punish (.v4 1) .protocol), (fromSecs 2, .check (.v4 1))]

theorem ban_shortened : ¬ BansKept ⟨0, 1, 3600, 0⟩ hourThenSecond := by
  intro h
  have := h [] (0, .punish (.v4 1) .waf) [(0, .punish (.v4 1) .protocol)] (fromSecs 2) (.v4 1) []
    (fromSecs 3600) _ rfl rfl (by decide) rfl
  revert this
  decide

end OxidizedWall
