import OxidizedWall.Lib.Pool
import OxidizedWall.Ban

/-!
# Concurrent calls of the ban manager

The calls of the manager as tasks: each reads the clock once, and takes the locks later, one
after the other. What a removal compares an entry with is therefore an old reading.

1. `current_task`: no call removes anything by a reading that is ahead of the clock.
2. `get_step_live`: so no step removes an entry that ends after the clock's present time.
3. `live_ban_kept`: the entry of a ban stays until it is written over, or its end has come.
-/

namespace OxidizedWall

/-- The clock, and the manager behind its lock. -/
structure BanWorld where
  now : ℕ
  manager : BanManager

/-- The program of a call, without its answer. -/
def BanCall.prog : BanCall → BanProg Unit
  | .ban ip duration => do
    let _ ← BanManager.ban ip duration
    return ()
  | .check ip => do
    let _ ← BanManager.check ip
    return ()
  | .cleanup => BanManager.cleanup

/-- Any number of calls, under a clock that only moves forward. -/
def banSystem : TaskSystem BanOp BanOp.Ans Unit BanCall ℕ BanWorld where
  start := BanCall.prog
  call o w :=
    let r := BanManager.handle w.now o w.manager
    (r.1, ⟨w.now, r.2⟩)
  outside elapsed w := ⟨w.now + elapsed, w.manager⟩

/-- The calls of the manager at work. -/
abbrev BanPool := Pool BanOp BanOp.Ans Unit BanWorld

def BanPool.idle (w : BanWorld) : BanPool := ⟨w, []⟩

/-! ## Old clock readings -/

/-- The clock reading that a removal compares entries with. -/
def BanOp.reading : BanOp → Option ℕ
  | .removeExpired _ r => some r
  | .retain r => some r
  | _ => none

/-- However the program goes on from the time `t`, the readings that it removes by are not ahead
of the clock. -/
def Current (t : ℕ) : BanProg Unit → Prop
  | .ret _ => True
  | .call o k => (∀ r, o.reading = some r → r ≤ t) ∧
    ∀ t' m, t ≤ t' → Current t' (k (BanManager.handle t' o m).1)

theorem Current.mono {t t' : ℕ} {p : BanProg Unit} (h : Current t p) (ht : t ≤ t') :
    Current t' p := by
  cases p with
  | ret a => trivial
  | call o k =>
    exact ⟨fun r hr => (h.1 r hr).trans ht, fun u m hu => h.2 u m (ht.trans hu)⟩

theorem current_removeExpired {t r : ℕ} (ip : IpAddr) (hr : r ≤ t) :
    Current t (BanManager.removeExpired ip r >>= fun _ => pure ()) := by
  refine ⟨fun r' hr' => ?_, fun _ _ _ => trivial⟩
  cases hr'
  exact hr

theorem current_insert {t : ℕ} (ip : IpAddr) (expireAt : Option ℕ) :
    Current t ((match expireAt with
      | none => Prog.ret none
      | some expireAt => Prog.call (BanOp.insert ip ⟨expireAt⟩) fun _ => Prog.ret (some ())) >>=
        fun _ => Prog.ret ()) := by
  cases expireAt with
  | none => trivial
  | some expireAt => exact ⟨fun _ h => (nomatch h), fun _ _ _ => trivial⟩

theorem current_recheck {t r : ℕ} (ip : IpAddr) (entry : Option BanEntry) (hr : r ≤ t) :
    Current t ((match entry with
      | some entry => if r ≤ entry.expireAt then Prog.ret true else BanManager.removeExpired ip r
      | none => Prog.ret false) >>= fun _ => Prog.ret ()) := by
  cases entry with
  | none => trivial
  | some entry =>
    by_cases hlive : r ≤ entry.expireAt
    · simp only [if_pos hlive]
      trivial
    · simp only [if_neg hlive]
      exact current_removeExpired ip hr

/-- A call reads the clock before it removes anything, and the clock does not go back. -/
theorem current_task (t : ℕ) (c : BanCall) : Current t c.prog := by
  cases c with
  | ban ip duration =>
    exact ⟨fun _ h => (nomatch h), fun t' _ _ => current_insert ip (instantAdd t' duration)⟩
  | check ip =>
    exact ⟨fun _ h => (nomatch h), fun t' _ _ => ⟨fun _ h => (nomatch h),
      fun u m hu => current_recheck ip (m.bannedIps.get ip) hu⟩⟩
  | cleanup =>
    refine ⟨fun _ h => (nomatch h), fun t' _ _ => ⟨fun r hr => ?_, fun _ _ _ => trivial⟩⟩
    cases hr
    exact le_refl t'

theorem current_run (w : BanWorld) (evs : List (PoolEvent BanCall ℕ)) :
    ∀ p ∈ ((BanPool.idle w).run banSystem evs).tasks,
      Current ((BanPool.idle w).run banSystem evs).state.now p := by
  apply Pool.all_run (G := fun (w : BanWorld) p => Current w.now p)
  · exact fun w c => current_task w.now c
  · exact fun w o k h => h.2 w.now w.manager (le_refl _)
  · exact fun _ _ _ _ _ h => h
  · exact fun w elapsed p h => h.mono (Nat.le_add_right w.now elapsed)
  · exact fun p hp => absurd hp List.not_mem_nil

/-! ## Live entries -/

/-- An operation leaves an entry that ends after the readings it removes by, unless it writes
over it. -/
theorem get_handle {now : ℕ} {o : BanOp} {m : BanManager} {ip : IpAddr} {entry : BanEntry}
    (hget : m.bannedIps.get ip = some entry) (hwrite : ∀ entry', o ≠ .insert ip entry')
    (hlive : ∀ r, o.reading = some r → r < entry.expireAt) :
    (BanManager.handle now o m).2.bannedIps.get ip = some entry := by
  cases o with
  | now => exact hget
  | get ip' => exact hget
  | insert ip' entry' =>
    have hip : ip ≠ ip' := by
      rintro rfl
      exact hwrite entry' rfl
    exact (KeyMap.get_insert_of_ne hip entry').trans hget
  | removeExpired ip' r =>
    have hr := hlive r rfl
    simp only [BanManager.handle]
    cases hget' : m.bannedIps.get ip' with
    | none => exact hget
    | some entry' =>
      by_cases hover : r > entry'.expireAt
      · simp only [if_pos hover]
        have hip : ip ≠ ip' := by
          rintro rfl
          rw [hget] at hget'
          cases hget'
          omega
        exact (KeyMap.get_remove_of_ne hip).trans hget
      · simp only [if_neg hover]
        exact hget
  | retain r =>
    show Option.filter _ (m.bannedIps.get ip) = some entry
    rw [hget]
    exact Option.filter_some_pos (decide_eq_true (hlive r rfl))

/-- A step keeps an entry that ends after the clock's present time, unless it writes over it. -/
theorem get_step_live {s : BanPool} (hcurrent : ∀ p ∈ s.tasks, Current s.state.now p)
    {e : PoolEvent BanCall ℕ} {ip : IpAddr} {entry : BanEntry}
    (hget : s.state.manager.bannedIps.get ip = some entry)
    (hwrite : ∀ entry', ¬ s.Calls e (.insert ip entry')) (hlive : s.state.now < entry.expireAt) :
    (s.step banSystem e).state.manager.bannedIps.get ip = some entry := by
  rcases Pool.state_step banSystem s e with ⟨o, ho, heq⟩ | ⟨elapsed, -, heq⟩ | heq
  · rw [heq]
    obtain ⟨i, k, rfl, htask⟩ := id ho
    have hreading := (hcurrent _ (List.mem_of_getElem? htask)).1
    refine get_handle hget ?_ fun r hr => (hreading r hr).trans_lt hlive
    rintro entry' rfl
    exact hwrite entry' ho
  · rw [heq]
    exact hget
  · rw [heq]
    exact hget

theorem now_le_step (s : BanPool) (e : PoolEvent BanCall ℕ) :
    s.state.now ≤ (s.step banSystem e).state.now := by
  rcases Pool.state_step banSystem s e with ⟨o, -, heq⟩ | ⟨elapsed, -, heq⟩ | heq
  · rw [heq]
    exact le_refl s.state.now
  · rw [heq]
    exact Nat.le_add_right s.state.now elapsed
  · rw [heq]

/-- **No live ban is lost.** The entry that a ban has written stays in the map, whatever checks,
bans and cleanups do in between, until another ban of the address writes over it or the clock
reaches its end. -/
theorem live_ban_kept (w : BanWorld) (before after : List (PoolEvent BanCall ℕ))
    (e : PoolEvent BanCall ℕ) (ip : IpAddr) (entry : BanEntry)
    (hwrite : ((BanPool.idle w).run banSystem before).Calls e (.insert ip entry))
    (hlast : ∀ a e' b, after = a ++ e' :: b → ∀ entry',
      ¬ ((BanPool.idle w).run banSystem (before ++ e :: a)).Calls e' (.insert ip entry'))
    (hclock : ((BanPool.idle w).run banSystem (before ++ e :: after)).state.now < entry.expireAt) :
    ((BanPool.idle w).run banSystem (before ++ e :: after)).state.manager.bannedIps.get ip =
      some entry := by
  induction after using List.reverseRecOn with
  | nil =>
    obtain ⟨i, k, rfl, htask⟩ := hwrite
    rw [Pool.run_concat, Pool.step_act htask]
    exact KeyMap.get_insert_self _ ip entry
  | append_singleton after e' ih =>
    have hsplit : before ++ e :: (after ++ [e']) = (before ++ e :: after) ++ [e'] := by simp
    rw [hsplit, Pool.run_concat] at hclock ⊢
    have hnow := (now_le_step _ e').trans_lt hclock
    refine get_step_live (current_run w _) (ih ?_ hnow) (hlast after e' [] rfl) hnow
    intro a e'' b heq
    exact hlast a e'' (b ++ [e']) (by rw [heq]; simp)

/-- A check finds that a ban is over; before it takes the write lock, the address is banned
again. -/
def checkThenBan : List (PoolEvent BanCall ℕ) :=
  [.start (.ban (.v4 1) 1), .act 0, .act 0, .outside 5, .start (.check (.v4 1)), .act 1, .act 1,
    .start (.ban (.v4 1) 10), .act 2]

/-- The new entry survives the second look of the check. -/
theorem live_ban_kept_recheck : ((BanPool.idle ⟨0, .new⟩).run banSystem
    (checkThenBan ++ .act 2 :: [.act 1])).state.manager.bannedIps.get (.v4 1) = some ⟨15⟩ := by
  apply live_ban_kept
  · exact ⟨2, _, rfl, rfl⟩
  · intro a e' b heq entry' hcalls
    obtain ⟨rfl, rfl, -⟩ : a = [] ∧ e' = .act 1 ∧ b = [] := by
      cases a with
      | nil =>
        obtain ⟨rfl, rfl⟩ := List.cons.inj heq
        exact ⟨rfl, rfl, rfl⟩
      | cons c a =>
        have := congrArg List.length heq
        simp at this
    obtain ⟨i, k, hi, htask⟩ := hcalls
    cases hi
    -- the task is about to look again, not to write
    have htask' : some (Prog.call (BanOp.removeExpired (.v4 1) 5) fun _ => Prog.ret ()) =
        some (Prog.call (BanOp.insert (.v4 1) entry') k) := htask
    cases htask'
  · decide

end OxidizedWall
