import OxidizedWall.Server
import OxidizedWall.Lib.Semaphore

/-!
# Accept loops, connection tasks and shutdown (`main.rs`, `server.rs`)

`main` starts one accept loop per address. The loops share a semaphore of `max_connections`
permits: a loop that has accepted a connection waits for a permit, outside its `select!`, and the
connection's task gives it back when it is over. Ctrl-C cancels the token; the loops and the tasks
look at it where they `select!`, and `main` joins the loops, which join their tasks.

A run is any order of the steps of all of these. The peers and the network decide what `accept`
returns and when a handshake or a connection is over.

1. `sound_run`: permits are neither lost nor duplicated, and a loop waits only while all of them
   are in use.
2. `stopped_clean`: when `main` returns nothing is left.
3. `able_to_stop_iff`, `work_run`: whether `main` returns after Ctrl-C, and after how many steps.
4. `permit_within`: how many connections have to end before a waiting loop has its permit.
-/

namespace OxidizedWall

/-- Where the task of a connection is. -/
inductive ConnTask
  /-- In the TLS handshake, which does not look at the token. -/
  | handshaking
  | serving
  /-- After `graceful_shutdown`. -/
  | draining
  /-- Over, and not joined yet. -/
  | finished
  deriving DecidableEq

inductive ConnEvent
  /-- The handshake is over: it succeeded, or it failed or timed out. -/
  | handshake (ok : Bool)
  /-- `conn` resolves. -/
  | closed
  /-- The branch of the token. -/
  | cancelled
  deriving DecidableEq

/-- One step of a connection's task. -/
def ConnTask.step (cancelled : Bool) : ConnTask → ConnEvent → Option ConnTask
  | .handshaking, .handshake ok => some (if ok then .serving else .finished)
  | .serving, .closed => some .finished
  | .serving, .cancelled => if cancelled then some .draining else none
  | .draining, .closed => some .finished
  | _, _ => none

/-- The task that a listener spawns for a connection. -/
def Listener.task : Listener → ConnTask
  | .http => .serving
  | .https => .handshaking

/-- Where an accept loop is. -/
inductive LoopPlace
  | binding
  /-- At the `select!`. -/
  | selecting
  /-- In `acquire_owned`, with a connection that passed the ban check. -/
  | acquiring
  /-- Has a permit, and spawns next. -/
  | permitted
  /-- After the loop. -/
  | joining
  | returned
  /-- Taken out of `server_set`. -/
  | joined
  deriving DecidableEq

structure AcceptLoop where
  listener : Listener
  place : LoopPlace
  connSet : List ConnTask
  deriving DecidableEq

/-- What comes of `accept`: an error, a peer that `ban_manager.check` refuses, or another one. -/
inductive Accepted
  | error
  | banned
  | peer
  deriving DecidableEq

inductive LoopEvent
  /-- `TcpListener::bind`. The task panics when it fails; where a panic unwinds, `main` goes on with
  the other listeners. The release profile aborts: its runs are those in which every `bind`
  succeeds, and a failing one ends the process. -/
  | bind (ok : Bool)
  | accept (res : Accepted)
  | spawn
  /-- `join_next` yields the task `i`. -/
  | joinNext (i : ℕ)
  | cancelled
  | ret
  deriving DecidableEq

/-- `main` waits for Ctrl-C, then for the accept loops, then it is over. -/
inductive MainPhase
  | serving
  | stopping
  | stopped
  deriving DecidableEq

inductive ProcessEvent
  | loop (l : ℕ) (e : LoopEvent)
  | conn (l i : ℕ) (e : ConnEvent)
  | ctrlC
  | joinServer (l : ℕ)
  | stop
  deriving DecidableEq

structure Process where
  phase : MainPhase
  limit : Semaphore ℕ
  servers : List AcceptLoop

namespace Process

/-- Steps [7] to [9] of `main`. -/
def start (maxConnections : ℕ) (listeners : List Listener) : Process :=
  ⟨.serving, .new maxConnections, listeners.map fun listener => ⟨listener, .binding, []⟩⟩

/-- `cancel_token.is_cancelled()`. -/
def cancelled (s : Process) : Bool := decide (s.phase ≠ .serving)

def setLoop (s : Process) (l : ℕ) (a : AcceptLoop) : Process :=
  { s with servers := s.servers.set l a }

/-- A permit is dropped; the loop that gets it, if any, can go on. -/
def dropPermit (s : Process) : Process :=
  let r := s.limit.release
  let s := { s with limit := r.2 }
  match r.1 with
  | none => s
  | some l =>
    match s.servers[l]? with
    | some a => s.setLoop l { a with place := .permitted }
    | none => s

/-- A step of the accept loop `a` at index `l`: `http_server` and `https_server`. -/
def loopStep (s : Process) (l : ℕ) (a : AcceptLoop) : LoopEvent → Option Process
  | .bind ok =>
    if a.place = .binding then
      some (s.setLoop l { a with place := if ok then .selecting else .returned })
    else none
  | .accept .peer =>
    if a.place = .selecting then
      let r := s.limit.acquire l
      let place := if r.1 then .permitted else .acquiring
      some ({ s with limit := r.2 }.setLoop l { a with place := place })
    else none
  | .accept _ => if a.place = .selecting then some s else none
  | .spawn =>
    if a.place = .permitted then
      some (s.setLoop l
        { a with place := .selecting, connSet := a.connSet ++ [a.listener.task] })
    else none
  | .joinNext i =>
    if (a.place = .selecting ∨ a.place = .joining) ∧ a.connSet[i]? = some .finished then
      some (s.setLoop l { a with connSet := a.connSet.eraseIdx i })
    else none
  | .cancelled =>
    if a.place = .selecting ∧ s.cancelled then some (s.setLoop l { a with place := .joining })
    else none
  | .ret =>
    if a.place = .joining ∧ a.connSet = [] then some (s.setLoop l { a with place := .returned })
    else none

/-- A step of the task `c`, the `i`-th of the loop `a` at index `l`. A task that ends drops its
permit. -/
def connStep (s : Process) (l : ℕ) (a : AcceptLoop) (i : ℕ) (c : ConnTask) (e : ConnEvent) :
    Option Process :=
  (c.step s.cancelled e).map fun c =>
    let s := s.setLoop l { a with connSet := a.connSet.set i c }
    if c = .finished then s.dropPermit else s

/-- One step; `none` where it cannot happen. Nothing happens once `main` has returned. -/
def step (s : Process) (e : ProcessEvent) : Option Process :=
  if s.phase = .stopped then none
  else
    match e with
    | .loop l e => (s.servers[l]?).bind fun a => s.loopStep l a e
    | .conn l i e =>
      (s.servers[l]?).bind fun a => (a.connSet[i]?).bind fun c => s.connStep l a i c e
    | .ctrlC => if s.phase = .serving then some { s with phase := .stopping } else none
    | .joinServer l =>
      (s.servers[l]?).bind fun a =>
        if s.phase = .stopping ∧ a.place = .returned then
          some (s.setLoop l { a with place := .joined })
        else none
    | .stop =>
      if s.phase = .stopping ∧ s.servers.all (fun a => decide (a.place = .joined)) then
        some { s with phase := .stopped }
      else none

def run (s : Process) (evs : List ProcessEvent) : Option Process := evs.foldlM step s

theorem run_cons (s : Process) (e : ProcessEvent) (evs : List ProcessEvent) :
    s.run (e :: evs) = (s.step e).bind fun s => s.run evs := rfl

/-- Two loops share one permit: the first one has it for a connection, the second one waits. -/
def sharedPermit : List ProcessEvent :=
  [.loop 0 (.bind true), .loop 1 (.bind true), .loop 0 (.accept .peer), .loop 0 .spawn,
    .loop 1 (.accept .peer)]

end Process

/-! ## What a step does -/

/-- The permit of a task that is not over. -/
def ConnTask.holds : ConnTask → ℕ
  | .finished => 0
  | _ => 1

/-- The permits that a loop and its tasks hold. -/
def AcceptLoop.holds (a : AcceptLoop) : ℕ :=
  (if a.place = .permitted then 1 else 0) + (a.connSet.map ConnTask.holds).sum

theorem AcceptLoop.holds_connSet (a : AcceptLoop) (connSet : List ConnTask) :
    { a with connSet := connSet }.holds + (a.connSet.map ConnTask.holds).sum =
      a.holds + (connSet.map ConnTask.holds).sum := by
  unfold AcceptLoop.holds
  simp only
  omega

theorem AcceptLoop.holds_permitted {a : AcceptLoop} (h : a.place ≠ .permitted) :
    { a with place := .permitted }.holds = a.holds + 1 := by
  unfold AcceptLoop.holds
  rw [if_neg h, if_pos rfl, Nat.zero_add, Nat.add_comm]

theorem AcceptLoop.holds_acquiring {a : AcceptLoop} (h : a.place ≠ .permitted) :
    { a with place := .acquiring }.holds = a.holds := by
  unfold AcceptLoop.holds
  rw [if_neg h, if_neg (by simp)]

/-- The steps that change one loop and leave the permits where they are. -/
inductive LoopMove (phase : MainPhase) (a : AcceptLoop) : AcceptLoop → Prop
  | bind (ok : Bool) : a.place = .binding →
      LoopMove phase a { a with place := if ok then .selecting else .returned }
  | spawn : a.place = .permitted → LoopMove phase a
      { a with place := .selecting, connSet := a.connSet ++ [a.listener.task] }
  | joinNext (i : ℕ) : a.place = .selecting ∨ a.place = .joining →
      a.connSet[i]? = some .finished → LoopMove phase a { a with connSet := a.connSet.eraseIdx i }
  | cancelled : phase ≠ .serving → a.place = .selecting →
      LoopMove phase a { a with place := .joining }
  | ret : a.place = .joining → a.connSet = [] → LoopMove phase a { a with place := .returned }
  | handshake (i : ℕ) : a.connSet[i]? = some .handshaking →
      LoopMove phase a { a with connSet := a.connSet.set i .serving }
  | drain (i : ℕ) : phase ≠ .serving → a.connSet[i]? = some .serving →
      LoopMove phase a { a with connSet := a.connSet.set i .draining }
  | joinServer : phase = .stopping → a.place = .returned →
      LoopMove phase a { a with place := .joined }

/-- The event ends a connection. -/
def ProcessEvent.ends : ProcessEvent → Bool
  | conn _ _ (.handshake false) => true
  | conn _ _ .closed => true
  | _ => false

/-- In the event a listener accepts. -/
def ProcessEvent.accepts : ProcessEvent → Bool
  | loop _ (.accept _) => true
  | _ => false

/-- In the event a listener accepts a connection that passes the ban check. -/
def ProcessEvent.letsIn : ProcessEvent → Bool
  | loop _ (.accept .peer) => true
  | _ => false

theorem ProcessEvent.letsIn_eq_false {e : ProcessEvent} (h : e.accepts = false) :
    e.letsIn = false := by
  unfold letsIn
  split
  · cases h
  · rfl

namespace Process

/-- What the step `e` can do. -/
inductive Moves (s : Process) (e : ProcessEvent) : Process → Prop
  | refused : e.accepts = true → e.ends = false → e.letsIn = false → Moves s e s
  | accept (l : ℕ) (a : AcceptLoop) : e.accepts = true → e.ends = false →
      s.servers[l]? = some a → a.place = .selecting → e.letsIn = true →
      Moves s e ({ s with limit := (s.limit.acquire l).2 }.setLoop l
        { a with place := if (s.limit.acquire l).1 then .permitted else .acquiring })
  | move (l : ℕ) (a a' : AcceptLoop) : e.accepts = false → e.ends = false →
      s.servers[l]? = some a → LoopMove s.phase a a' → Moves s e (s.setLoop l a')
  | finish (l : ℕ) (a : AcceptLoop) (i : ℕ) (c : ConnTask) : e.accepts = false → e.ends = true →
      s.servers[l]? = some a → a.connSet[i]? = some c → c ≠ .finished →
      Moves s e (s.setLoop l { a with connSet := a.connSet.set i .finished }).dropPermit
  | ctrlC : e.accepts = false → e.ends = false → s.phase = .serving →
      Moves s e { s with phase := .stopping }
  | stop : e.accepts = false → e.ends = false → s.phase = .stopping →
      (∀ a ∈ s.servers, a.place = .joined) → Moves s e { s with phase := .stopped }

variable {s s' : Process} {e : ProcessEvent}

theorem moves_loop {l : ℕ} {a : AcceptLoop} {e : LoopEvent} (ha : s.servers[l]? = some a)
    (h : s.loopStep l a e = some s') : Moves s (.loop l e) s' := by
  cases e with
  | accept res =>
    cases res with
    | peer =>
      obtain ⟨hplace, heq⟩ := Option.ite_none_right_eq_some.mp h
      cases heq
      exact .accept l a rfl rfl ha hplace rfl
    | error | banned =>
      obtain ⟨-, heq⟩ := Option.ite_none_right_eq_some.mp h
      cases heq
      exact .refused rfl rfl rfl
  | bind ok =>
    obtain ⟨hplace, heq⟩ := Option.ite_none_right_eq_some.mp h
    cases heq
    exact .move l a _ rfl rfl ha (.bind ok hplace)
  | spawn =>
    obtain ⟨hplace, heq⟩ := Option.ite_none_right_eq_some.mp h
    cases heq
    exact .move l a _ rfl rfl ha (.spawn hplace)
  | joinNext i =>
    obtain ⟨⟨hplace, hi⟩, heq⟩ := Option.ite_none_right_eq_some.mp h
    cases heq
    exact .move l a _ rfl rfl ha (.joinNext i hplace hi)
  | cancelled =>
    obtain ⟨⟨hplace, hphase⟩, heq⟩ := Option.ite_none_right_eq_some.mp h
    cases heq
    exact .move l a _ rfl rfl ha (.cancelled (of_decide_eq_true hphase) hplace)
  | ret =>
    obtain ⟨⟨hplace, hnil⟩, heq⟩ := Option.ite_none_right_eq_some.mp h
    cases heq
    exact .move l a _ rfl rfl ha (.ret hplace hnil)

theorem moves_conn {l i : ℕ} {a : AcceptLoop} {c : ConnTask} {e : ConnEvent}
    (ha : s.servers[l]? = some a) (hc : a.connSet[i]? = some c)
    (h : s.connStep l a i c e = some s') : Moves s (.conn l i e) s' := by
  obtain ⟨c', hstep, rfl⟩ := Option.map_eq_some_iff.mp h
  cases c <;> cases e <;> simp only [ConnTask.step, reduceCtorEq] at hstep
  case handshaking.handshake ok =>
    cases ok with
    | true =>
      cases hstep
      exact .move l a _ rfl rfl ha (.handshake i hc)
    | false =>
      cases hstep
      exact .finish l a i _ rfl rfl ha hc (by simp)
  case serving.closed =>
    cases hstep
    exact .finish l a i _ rfl rfl ha hc (by simp)
  case serving.cancelled =>
    obtain ⟨hphase, heq⟩ := Option.ite_none_right_eq_some.mp hstep
    cases heq
    exact .move l a _ rfl rfl ha (.drain i (of_decide_eq_true hphase) hc)
  case draining.closed =>
    cases hstep
    exact .finish l a i _ rfl rfl ha hc (by simp)

theorem moves_of_step (h : s.step e = some s') : s.phase ≠ .stopped ∧ Moves s e s' := by
  unfold step at h
  split at h
  · cases h
  · rename_i hphase
    refine ⟨hphase, ?_⟩
    cases e with
    | loop l e =>
      obtain ⟨a, ha, h⟩ := Option.bind_eq_some_iff.mp h
      exact moves_loop ha h
    | conn l i e =>
      obtain ⟨a, ha, h⟩ := Option.bind_eq_some_iff.mp h
      obtain ⟨c, hc, h⟩ := Option.bind_eq_some_iff.mp h
      exact moves_conn ha hc h
    | ctrlC =>
      obtain ⟨hserving, heq⟩ := Option.ite_none_right_eq_some.mp h
      cases heq
      exact .ctrlC rfl rfl hserving
    | joinServer l =>
      obtain ⟨a, ha, h⟩ := Option.bind_eq_some_iff.mp h
      obtain ⟨⟨hstopping, hplace⟩, heq⟩ := Option.ite_none_right_eq_some.mp h
      cases heq
      exact .move l a _ rfl rfl ha (.joinServer hstopping hplace)
    | stop =>
      obtain ⟨⟨hstopping, hall⟩, heq⟩ := Option.ite_none_right_eq_some.mp h
      cases heq
      exact .stop rfl rfl hstopping fun a ha => of_decide_eq_true (List.all_eq_true.mp hall a ha)

end Process

/-! ## Permits -/

/-- What holds of a loop: one that is not in its loop has no tasks, and nothing ends before
Ctrl-C. -/
structure AcceptLoop.Fits (phase : MainPhase) (a : AcceptLoop) : Prop where
  ended : a.place = .binding ∨ a.place = .returned ∨ a.place = .joined → a.connSet = []
  running : phase = .serving →
    a.place ≠ .joining ∧ a.place ≠ .joined ∧ .draining ∉ a.connSet
  stopped : phase = .stopped → a.place = .joined

theorem AcceptLoop.Fits.inLoop {phase : MainPhase} {a : AcceptLoop} (h : a.Fits phase)
    (hphase : phase ≠ .stopped) {place : LoopPlace}
    (hplace : place = .acquiring ∨ place = .permitted) : { a with place := place }.Fits phase := by
  refine ⟨fun hout => ?_, fun hserving => ?_, fun hstopped => absurd hstopped hphase⟩
  · rcases hplace with rfl | rfl <;> simp at hout
  · have hdraining := (h.running hserving).2.2
    rcases hplace with rfl | rfl
    · exact ⟨by simp, by simp, hdraining⟩
    · exact ⟨by simp, by simp, hdraining⟩

namespace LoopMove

variable {phase : MainPhase} {a a' : AcceptLoop}

theorem holds_eq (h : LoopMove phase a a') : a'.holds = a.holds := by
  cases h with
  | bind ok hplace => cases ok <;> simp [AcceptLoop.holds, hplace]
  | spawn hplace =>
    have htask : a.listener.task.holds = 1 := by cases a.listener <;> rfl
    simp [AcceptLoop.holds, hplace, htask, Nat.add_comm]
  | joinNext i _ hi =>
    have hsum := sum_map_eraseIdx (f := ConnTask.holds) hi
    have hnew := a.holds_connSet (a.connSet.eraseIdx i)
    simp only [ConnTask.holds] at hsum
    omega
  | cancelled _ hplace => simp [AcceptLoop.holds, hplace]
  | ret hplace => simp [AcceptLoop.holds, hplace]
  | handshake i hi =>
    have hsum := sum_map_set (f := ConnTask.holds) (b := .serving) hi
    have hnew := a.holds_connSet (a.connSet.set i .serving)
    simp only [ConnTask.holds] at hsum
    omega
  | drain i _ hi =>
    have hsum := sum_map_set (f := ConnTask.holds) (b := .draining) hi
    have hnew := a.holds_connSet (a.connSet.set i .draining)
    simp only [ConnTask.holds] at hsum
    omega
  | joinServer _ hplace => simp [AcceptLoop.holds, hplace]

theorem acquiring_iff (h : LoopMove phase a a') :
    a'.place = .acquiring ↔ a.place = .acquiring := by
  cases h with
  | bind ok hplace => cases ok <;> simp [hplace]
  | spawn hplace => simp [hplace]
  | joinNext i => rfl
  | cancelled _ hplace => simp [hplace]
  | ret hplace => simp [hplace]
  | handshake i => rfl
  | drain i => rfl
  | joinServer _ hplace => simp [hplace]

theorem fits (h : LoopMove phase a a') (hphase : phase ≠ .stopped) (ha : a.Fits phase) :
    a'.Fits phase := by
  refine ⟨fun hout => ?_, fun hserving => ?_, fun hstopped => absurd hstopped hphase⟩
  · cases h with
    | bind ok hplace => exact ha.ended (.inl hplace)
    | spawn hplace => simp at hout
    | joinNext i hplace => rcases hplace with hplace | hplace <;> simp [hplace] at hout
    | cancelled _ hplace => simp at hout
    | ret _ hnil => exact hnil
    | handshake i hi | drain i _ hi =>
      have hnil : a.connSet = [] := ha.ended hout
      rw [hnil] at hi
      cases hi
    | joinServer _ hplace => exact ha.ended (.inr (.inl hplace))
  · obtain ⟨hjoining, hjoined, hdraining⟩ := ha.running hserving
    cases h with
    | bind ok hplace => exact ⟨by cases ok <;> simp, by cases ok <;> simp, hdraining⟩
    | spawn hplace =>
      refine ⟨by simp, by simp, ?_⟩
      have htask : .draining ≠ a.listener.task := by cases a.listener <;> simp [Listener.task]
      simp [hdraining, htask]
    | joinNext i => exact ⟨hjoining, hjoined, fun h => hdraining (List.mem_of_mem_eraseIdx h)⟩
    | cancelled hcancelled => exact absurd hserving hcancelled
    | ret hplace => exact absurd hplace hjoining
    | handshake i =>
      refine ⟨hjoining, hjoined, fun h => ?_⟩
      rcases List.mem_or_eq_of_mem_set h with h | h
      · exact hdraining h
      · cases h
    | drain i hcancelled => exact absurd hserving hcancelled
    | joinServer hstopping =>
      rw [hserving] at hstopping
      cases hstopping

end LoopMove

namespace Process

variable {s s' : Process} {e : ProcessEvent} {l : ℕ} {a a' : AcceptLoop} {maxConnections : ℕ}

/-- The permits in use. -/
def held (s : Process) : ℕ := (s.servers.map AcceptLoop.holds).sum

/-- The loop `l` waits for a permit. -/
def Waits (s : Process) (l : ℕ) : Prop := ∃ a, s.servers[l]? = some a ∧ a.place = .acquiring

/-- No permit is lost or duplicated, and the queue of the semaphore is that of the loops that
wait. -/
structure Sound (maxConnections : ℕ) (s : Process) : Prop where
  conserved : s.limit.permits + s.held = maxConnections
  queued : ∀ l, l ∈ s.limit.queue ↔ s.Waits l
  nodup : s.limit.queue.Nodup
  fits : ∀ (l : ℕ) (a : AcceptLoop), s.servers[l]? = some a → a.Fits s.phase

theorem get_setLoop (ha : s.servers[l]? = some a) (a' : AcceptLoop) (k : ℕ) :
    (s.setLoop l a').servers[k]? = if k = l then some a' else s.servers[k]? := by
  have hlt : l < s.servers.length := (List.getElem?_eq_some_iff.mp ha).1
  show (s.servers.set l a')[k]? = _
  rw [List.getElem?_set]
  by_cases hkl : k = l
  · rw [if_pos hkl.symm, if_pos hlt, if_pos hkl]
  · rw [if_neg fun h => hkl h.symm, if_neg hkl]

theorem held_setLoop (ha : s.servers[l]? = some a) (a' : AcceptLoop) :
    (s.setLoop l a').held + a.holds = s.held + a'.holds := sum_map_set ha

theorem waits_setLoop (ha : s.servers[l]? = some a) (a' : AcceptLoop) (k : ℕ) :
    (s.setLoop l a').Waits k ↔ if k = l then a'.place = .acquiring else s.Waits k := by
  unfold Waits
  rw [get_setLoop ha]
  by_cases hkl : k = l
  · simp [hkl]
  · simp [hkl]

theorem waits_iff (ha : s.servers[l]? = some a) : s.Waits l ↔ a.place = .acquiring := by
  simp [Waits, ha]

/-- A loop is replaced by one that waits exactly if the old one did. -/
theorem Sound.setLoop {n : ℕ} (h : Sound n s) (ha : s.servers[l]? = some a)
    (hplace : a'.place = .acquiring ↔ a.place = .acquiring) (hfits : a'.Fits s.phase)
    {n' : ℕ} (hheld : n' + a.holds = n + a'.holds) : Sound n' (s.setLoop l a') := by
  refine ⟨?_, fun k => ?_, h.nodup, fun k b hb => ?_⟩
  · have hset := held_setLoop ha a'
    have hconserved := h.conserved
    show s.limit.permits + _ = n'
    omega
  · rw [waits_setLoop ha]
    show k ∈ s.limit.queue ↔ _
    rw [h.queued]
    by_cases hkl : k = l
    · rw [if_pos hkl, hkl, hplace, waits_iff ha]
    · rw [if_neg hkl]
  · rw [get_setLoop ha] at hb
    split at hb
    · obtain rfl := Option.some.inj hb
      exact hfits
    · exact h.fits k b hb

/-- Either nobody waits, or the first in the queue gets the permit. -/
theorem dropPermit_cases (h : Sound maxConnections s) :
    (s.limit.queue = [] ∧ s.dropPermit = { s with limit := s.limit.release.2 } ∧
      s.limit.release.2.permits = s.limit.permits + 1 ∧ s.limit.release.2.queue = []) ∨
    (∃ l a, s.limit.queue = l :: s.limit.release.2.queue ∧ s.servers[l]? = some a ∧
      a.place = .acquiring ∧ s.limit.permits = 0 ∧ s.limit.release.2.permits = 0 ∧
      s.dropPermit =
        { s with limit := s.limit.release.2 }.setLoop l { a with place := .permitted }) := by
  rcases s.limit.release_cases with ⟨hnil, hnone, hpermits, hqueue⟩ | ⟨l, hl, hq, hzero, hzero'⟩
  · refine .inl ⟨hnil, ?_, hpermits, hqueue⟩
    unfold dropPermit
    simp only [hnone]
  · obtain ⟨a, ha, hplace⟩ := (h.queued l).mp (by rw [hq]; simp)
    refine .inr ⟨l, a, hq, ha, hplace, hzero, hzero', ?_⟩
    unfold dropPermit
    simp only [hl, ha]

/-- A permit that is dropped is free again, or in the hands of a loop that waited. -/
theorem Sound.dropPermit (h : Sound maxConnections s) (hphase : s.phase ≠ .stopped) :
    Sound (maxConnections + 1) s.dropPermit := by
  have hconserved := h.conserved
  rcases dropPermit_cases h with ⟨hnil, heq, hpermits, hqueue⟩ | ⟨l, a, hq, ha, hplace, hzero,
    hzero', heq⟩
  · rw [heq]
    refine ⟨?_, fun k => ?_, ?_, h.fits⟩
    · show s.limit.release.2.permits + s.held = _
      omega
    · have hk := h.queued k
      rw [hnil] at hk
      show k ∈ s.limit.release.2.queue ↔ s.Waits k
      rw [hqueue]
      exact hk
    · show s.limit.release.2.queue.Nodup
      rw [hqueue]
      exact List.nodup_nil
  · have hnodup := h.nodup
    rw [hq, List.nodup_cons] at hnodup
    have ha' : ({ s with limit := s.limit.release.2 } : Process).servers[l]? = some a := ha
    rw [heq]
    refine ⟨?_, fun k => ?_, hnodup.2, fun k b hb => ?_⟩
    · have hset := held_setLoop ha' { a with place := .permitted }
      have hholds := AcceptLoop.holds_permitted (a := a) (by simp [hplace])
      show s.limit.release.2.permits + _ = _
      have hheld : ({ s with limit := s.limit.release.2 } : Process).held = s.held := rfl
      omega
    · rw [waits_setLoop ha']
      show k ∈ s.limit.release.2.queue ↔ _
      have hk := h.queued k
      rw [hq, List.mem_cons] at hk
      by_cases hkl : k = l
      · subst hkl
        simp [hnodup.1]
      · rw [if_neg hkl]
        exact (or_iff_right hkl).symm.trans hk
    · rw [get_setLoop ha'] at hb
      split at hb
      · obtain rfl := Option.some.inj hb
        exact (h.fits l a ha).inLoop hphase (.inr rfl)
      · exact h.fits k b hb

/-- A permit that is dropped makes nobody wait. -/
theorem waits_of_dropPermit (h : Sound maxConnections s) {k : ℕ} (hk : s.dropPermit.Waits k) :
    s.Waits k := by
  rcases dropPermit_cases h with ⟨-, heq, -⟩ | ⟨l, a, -, ha, -, -, -, heq⟩
  · rw [heq] at hk
    exact hk
  · have ha' : ({ s with limit := s.limit.release.2 } : Process).servers[l]? = some a := ha
    rw [heq, waits_setLoop ha'] at hk
    split at hk
    · cases hk
    · exact hk

/-- The waiting loop `l` gets the permit that is dropped, or moves up in the queue. -/
theorem queue_dropPermit (h : Sound maxConnections s) {ahead behind : List ℕ}
    (hqueue : s.limit.queue = ahead ++ l :: behind) :
    (∃ a, s.dropPermit.servers[l]? = some a ∧ a.place = .permitted) ∨
    ∃ ahead', s.dropPermit.limit.queue = ahead' ++ l :: behind ∧
      ahead'.length + 1 = ahead.length := by
  rcases dropPermit_cases h with ⟨hnil, -⟩ | ⟨j, a, hcons, ha, -, -, -, heq⟩
  · rw [hnil] at hqueue
    exact absurd hqueue.symm (by simp)
  · rw [heq]
    have ha' : ({ s with limit := s.limit.release.2 } : Process).servers[j]? = some a := ha
    rw [hqueue] at hcons
    cases ahead with
    | nil =>
      obtain ⟨rfl, -⟩ := List.cons.inj hcons
      exact .inl ⟨_, (get_setLoop ha' _ l).trans (if_pos rfl), rfl⟩
    | cons b ahead =>
      obtain ⟨rfl, htail⟩ := List.cons.inj hcons
      exact .inr ⟨ahead, htail.symm, rfl⟩

/-- A loop that has accepted a connection takes a permit or queues up. -/
theorem Sound.accept (h : Sound maxConnections s) (hphase : s.phase ≠ .stopped)
    (ha : s.servers[l]? = some a) (hplace : a.place = .selecting) :
    Sound maxConnections ({ s with limit := (s.limit.acquire l).2 }.setLoop l
      { a with place := if (s.limit.acquire l).1 then .permitted else .acquiring }) := by
  have hconserved := h.conserved
  have hnot : l ∉ s.limit.queue := by
    rw [h.queued, waits_iff ha, hplace]
    simp
  have ha' : ({ s with limit := (s.limit.acquire l).2 } : Process).servers[l]? = some a := ha
  have hheld : ({ s with limit := (s.limit.acquire l).2 } : Process).held = s.held := rfl
  rcases s.limit.acquire_cases l with ⟨htrue, hpermits, hqueue⟩ | ⟨hfalse, hzero, hpermits, hqueue⟩
  · rw [htrue, if_pos rfl]
    refine ⟨?_, fun k => ?_, ?_, fun k b hb => ?_⟩
    · have hset := held_setLoop ha' { a with place := .permitted }
      have hholds := AcceptLoop.holds_permitted (a := a) (by simp [hplace])
      show (s.limit.acquire l).2.permits + _ = _
      omega
    · rw [waits_setLoop ha']
      show k ∈ (s.limit.acquire l).2.queue ↔ _
      rw [hqueue]
      by_cases hkl : k = l
      · subst hkl
        simp [hnot]
      · rw [if_neg hkl]
        exact h.queued k
    · show (s.limit.acquire l).2.queue.Nodup
      rw [hqueue]
      exact h.nodup
    · rw [get_setLoop ha'] at hb
      split at hb
      · obtain rfl := Option.some.inj hb
        exact (h.fits l a ha).inLoop hphase (.inr rfl)
      · exact h.fits k b hb
  · rw [hfalse, if_neg (by simp)]
    refine ⟨?_, fun k => ?_, ?_, fun k b hb => ?_⟩
    · have hset := held_setLoop ha' { a with place := .acquiring }
      have hholds := AcceptLoop.holds_acquiring (a := a) (by simp [hplace])
      show (s.limit.acquire l).2.permits + _ = _
      omega
    · rw [waits_setLoop ha']
      show k ∈ (s.limit.acquire l).2.queue ↔ _
      rw [hqueue]
      by_cases hkl : k = l
      · subst hkl
        simp
      · rw [if_neg hkl]
        simp only [List.mem_append, List.mem_singleton, hkl, or_false]
        exact h.queued k
    · show (s.limit.acquire l).2.queue.Nodup
      rw [hqueue]
      exact List.nodup_append.mpr ⟨h.nodup, List.nodup_singleton l, fun x hx y hy heq => by
        rw [List.mem_singleton.mp hy] at heq
        exact hnot (heq ▸ hx)⟩
    · rw [get_setLoop ha'] at hb
      split at hb
      · obtain rfl := Option.some.inj hb
        exact (h.fits l a ha).inLoop hphase (.inl rfl)
      · exact h.fits k b hb

/-- A task that is over: its permit is in nobody's hands. -/
theorem Sound.over (h : Sound maxConnections s) (hphase : s.phase ≠ .stopped)
    (ha : s.servers[l]? = some a) {i : ℕ} {c : ConnTask} (hc : a.connSet[i]? = some c)
    (hlive : c ≠ .finished) : ∃ n, maxConnections = n + 1 ∧
      Sound n (s.setLoop l { a with connSet := a.connSet.set i .finished }) := by
  have hone : c.holds = 1 := by cases c <;> first | rfl | exact absurd rfl hlive
  have hsum := sum_map_set (f := ConnTask.holds) (b := .finished) hc
  have hholds := a.holds_connSet (a.connSet.set i .finished)
  simp only [ConnTask.holds] at hsum
  have hset := held_setLoop ha { a with connSet := a.connSet.set i .finished }
  have hconserved := h.conserved
  have hfits := h.fits l a ha
  have hfits' : { a with connSet := a.connSet.set i .finished }.Fits s.phase := by
    refine ⟨fun hout => ?_, fun hserving => ?_, fun hstopped => absurd hstopped hphase⟩
    · have hnil : a.connSet = [] := hfits.ended hout
      rw [hnil] at hc
      cases hc
    · obtain ⟨hjoining, hjoined, hdraining⟩ := hfits.running hserving
      refine ⟨hjoining, hjoined, fun hmem => ?_⟩
      rcases List.mem_or_eq_of_mem_set hmem with hmem | heq
      · exact hdraining hmem
      · cases heq
  refine ⟨maxConnections - 1, by omega, h.setLoop ha ?_ hfits' ?_⟩
  · exact Iff.rfl
  · omega

theorem sound_start (maxConnections : ℕ) (listeners : List Listener) :
    Sound maxConnections (start maxConnections listeners) := by
  have hget : ∀ (l : ℕ) (a : AcceptLoop),
      (start maxConnections listeners).servers[l]? = some a → a.place = .binding ∧ a.connSet = [] := by
    intro l a ha
    rw [start, List.getElem?_map] at ha
    obtain ⟨listener, -, rfl⟩ := Option.map_eq_some_iff.mp ha
    exact ⟨rfl, rfl⟩
  refine ⟨?_, fun l => ?_, List.nodup_nil, fun l a ha => ?_⟩
  · have hzero : (start maxConnections listeners).held = 0 := by
      unfold held
      rw [List.sum_eq_zero_iff]
      intro n hn
      obtain ⟨a, ha, rfl⟩ := List.mem_map.mp hn
      obtain ⟨l, hl⟩ := List.mem_iff_getElem?.mp ha
      obtain ⟨hplace, hnil⟩ := hget l a hl
      simp [AcceptLoop.holds, hplace, hnil]
    rw [hzero]
    rfl
  · show l ∈ [] ↔ _
    simp only [List.not_mem_nil, false_iff]
    rintro ⟨a, ha, hplace⟩
    rw [(hget l a ha).1] at hplace
    cases hplace
  · obtain ⟨hplace, hnil⟩ := hget l a ha
    exact ⟨fun _ => hnil, fun _ => ⟨by simp [hplace], by simp [hplace], by simp [hnil]⟩,
      fun h => (nomatch h)⟩

theorem sound_step (h : Sound maxConnections s) (hstep : s.step e = some s') :
    Sound maxConnections s' := by
  obtain ⟨hphase, hmoves⟩ := moves_of_step hstep
  cases hmoves with
  | refused => exact h
  | accept l a _ _ ha hplace => exact h.accept hphase ha hplace
  | move l a a' _ _ ha hmove =>
    exact h.setLoop ha hmove.acquiring_iff (hmove.fits hphase (h.fits l a ha))
      (by rw [hmove.holds_eq])
  | finish l a i c _ _ ha hc hlive =>
    obtain ⟨n, rfl, hover⟩ := h.over hphase ha hc hlive
    exact hover.dropPermit hphase
  | ctrlC _ _ hserving =>
    exact ⟨h.conserved, h.queued, h.nodup, fun l a ha =>
      ⟨(h.fits l a ha).ended, fun h => (nomatch h), fun h => (nomatch h)⟩⟩
  | stop _ _ hstopping hall =>
    exact ⟨h.conserved, h.queued, h.nodup, fun l a ha =>
      ⟨(h.fits l a ha).ended, fun h => (nomatch h), fun _ => hall a (List.mem_of_getElem? ha)⟩⟩

theorem sound_run_from (h : Sound maxConnections s) {evs : List ProcessEvent}
    (hrun : s.run evs = some s') : Sound maxConnections s' := by
  induction evs generalizing s with
  | nil =>
    obtain rfl := Option.some.inj hrun
    exact h
  | cons e evs ih =>
    obtain ⟨s₁, h₁, hrun⟩ := Option.bind_eq_some_iff.mp hrun
    exact ih (sound_step h h₁) hrun

theorem sound_run {listeners : List Listener} {evs : List ProcessEvent}
    (hrun : (start maxConnections listeners).run evs = some s) : Sound maxConnections s :=
  sound_run_from (sound_start maxConnections listeners) hrun

/-- The connections that are open: the tasks that are not over. -/
def connections (s : Process) : ℕ :=
  (s.servers.map fun a => (a.connSet.map ConnTask.holds).sum).sum

theorem connections_le_held (s : Process) : s.connections ≤ s.held :=
  List.sum_le_sum fun _ _ => Nat.le_add_left _ _

theorem Sound.limit_eq_zero (h : Sound maxConnections s) (hl : s.Waits l) :
    s.limit.permits = 0 :=
  s.limit.busy.resolve_right (List.ne_nil_of_mem ((h.queued l).mpr hl))

/-- **Permits are neither lost nor duplicated**, in any order of the steps of the accept loops and
the tasks: no more than `max_connections` connections are open over all listeners, and a loop waits
for a permit only while all of them are in use. -/
theorem permits_conserved {listeners : List Listener} {evs : List ProcessEvent}
    (hrun : (start maxConnections listeners).run evs = some s) :
    s.limit.permits + s.held = maxConnections ∧ s.connections ≤ maxConnections ∧
      ∀ l, s.Waits l → s.held = maxConnections := by
  have h := sound_run hrun
  have hconserved := h.conserved
  refine ⟨hconserved, ?_, fun l hl => ?_⟩
  · have hle := s.connections_le_held
    omega
  · have hzero := h.limit_eq_zero hl
    omega

theorem permits_conserved_sharedPermit :
    ∃ s, (start 1 [.http, .https]).run sharedPermit = some s ∧ s.Waits 1 ∧ s.held = 1 := by
  have hwaits : ∃ s, (start 1 [.http, .https]).run sharedPermit = some s ∧ s.Waits 1 :=
    ⟨_, rfl, _, rfl, rfl⟩
  obtain ⟨s, hrun, hl⟩ := hwaits
  exact ⟨s, hrun, hl, (permits_conserved hrun).2.2 1 hl⟩

/-- **Nothing ends before Ctrl-C, and nothing is left at the end**: while `main` waits for Ctrl-C
no accept loop leaves its loop and no connection is told to drain; when `main` returns, all loops
are joined, with all their tasks, and all permits are back. -/
theorem lifecycle {listeners : List Listener} {evs : List ProcessEvent}
    (hrun : (start maxConnections listeners).run evs = some s) :
    (s.phase = .serving → ∀ a ∈ s.servers,
      a.place ≠ .joining ∧ a.place ≠ .joined ∧ .draining ∉ a.connSet) ∧
    (s.phase = .stopped → s.limit.permits = maxConnections ∧
      ∀ a ∈ s.servers, a.place = .joined ∧ a.connSet = []) := by
  have h := sound_run hrun
  have hfits : ∀ a ∈ s.servers, a.Fits s.phase := fun a ha => by
    obtain ⟨l, hl⟩ := List.mem_iff_getElem?.mp ha
    exact h.fits l a hl
  refine ⟨fun hserving a ha => (hfits a ha).running hserving, fun hstopped => ?_⟩
  have hclean : ∀ a ∈ s.servers, a.place = .joined ∧ a.connSet = [] := fun a ha =>
    have hplace := (hfits a ha).stopped hstopped
    ⟨hplace, (hfits a ha).ended (.inr (.inr hplace))⟩
  refine ⟨?_, hclean⟩
  have hzero : s.held = 0 := by
    unfold held
    rw [List.sum_eq_zero_iff]
    intro n hn
    obtain ⟨a, ha, rfl⟩ := List.mem_map.mp hn
    obtain ⟨hplace, hnil⟩ := hclean a ha
    simp [AcceptLoop.holds, hplace, hnil]
  have hconserved := h.conserved
  omega

theorem lifecycle_shutdown :
    ∃ s, (start 1 [.http]).run [.loop 0 (.bind true), .loop 0 (.accept .peer), .ctrlC,
        .loop 0 .spawn, .loop 0 .cancelled, .conn 0 0 .cancelled, .conn 0 0 .closed,
        .loop 0 (.joinNext 0), .loop 0 .ret, .joinServer 0, .stop] = some s ∧
      s.limit.permits = 1 := by
  have hstopped : ∃ s, (start 1 [.http]).run [.loop 0 (.bind true), .loop 0 (.accept .peer),
      .ctrlC, .loop 0 .spawn, .loop 0 .cancelled, .conn 0 0 .cancelled, .conn 0 0 .closed,
      .loop 0 (.joinNext 0), .loop 0 .ret, .joinServer 0, .stop] = some s ∧
      s.phase = .stopped := ⟨_, rfl, rfl⟩
  obtain ⟨s, hrun, hphase⟩ := hstopped
  exact ⟨s, hrun, ((lifecycle hrun).2 hphase).1⟩

/-! ## Shutdown -/

end Process

/-- How many steps a task can still make, its being joined included. -/
def ConnTask.work : ConnTask → ℕ
  | .handshaking => 4
  | .serving => 3
  | .draining => 2
  | .finished => 1

/-- How many steps a loop can still make, without accepting anything. -/
def LoopPlace.work : LoopPlace → ℕ
  | .binding => 4
  | .selecting => 3
  | .acquiring => 9
  | .permitted => 8
  | .joining => 2
  | .returned => 1
  | .joined => 0

def MainPhase.work : MainPhase → ℕ
  | .serving => 2
  | .stopping => 1
  | .stopped => 0

def AcceptLoop.work (a : AcceptLoop) : ℕ := a.place.work + (a.connSet.map ConnTask.work).sum

theorem LoopMove.work_lt {phase : MainPhase} {a a' : AcceptLoop} (h : LoopMove phase a a') :
    a'.work < a.work := by
  unfold AcceptLoop.work
  cases h with
  | bind ok hplace => cases ok <;> simp [hplace, LoopPlace.work]
  | spawn hplace =>
    have htask : a.listener.task.work ≤ 4 := by cases a.listener <;> decide
    simp only [hplace, LoopPlace.work, List.map_append, List.map_cons, List.map_nil,
      List.sum_append, List.sum_singleton]
    omega
  | joinNext i _ hi =>
    have hsum := sum_map_eraseIdx (f := ConnTask.work) hi
    simp only [ConnTask.work] at hsum ⊢
    omega
  | cancelled _ hplace => simp [hplace, LoopPlace.work]
  | ret hplace => simp [hplace, LoopPlace.work]
  | handshake i hi =>
    have hsum := sum_map_set (f := ConnTask.work) (b := .serving) hi
    simp only [ConnTask.work] at hsum ⊢
    omega
  | drain i _ hi =>
    have hsum := sum_map_set (f := ConnTask.work) (b := .draining) hi
    simp only [ConnTask.work] at hsum ⊢
    omega
  | joinServer _ hplace => simp [hplace, LoopPlace.work]

namespace Process

variable {s s' : Process} {e : ProcessEvent} {l : ℕ} {a a' : AcceptLoop} {maxConnections : ℕ}

/-- How many steps are left, without accepting anything. -/
def work (s : Process) : ℕ := s.phase.work + (s.servers.map AcceptLoop.work).sum

theorem work_setLoop (ha : s.servers[l]? = some a) (a' : AcceptLoop) :
    (s.setLoop l a').work + a.work = s.work + a'.work := by
  have hsum : ((s.servers.set l a').map AcceptLoop.work).sum + _ = _ := sum_map_set ha
  unfold work setLoop
  simp only
  omega

theorem work_dropPermit (h : Sound maxConnections s) : s.dropPermit.work ≤ s.work := by
  rcases dropPermit_cases h with ⟨-, heq, -⟩ | ⟨l, a, -, ha, hplace, -, -, heq⟩
  · rw [heq]
    exact le_refl _
  · rw [heq]
    have hset := work_setLoop (s := { s with limit := s.limit.release.2 }) ha
      { a with place := .permitted }
    have hwork : ({ a with place := .permitted } : AcceptLoop).work + 1 = a.work := by
      unfold AcceptLoop.work
      simp only [hplace, LoopPlace.work]
      omega
    have hsame : ({ s with limit := s.limit.release.2 } : Process).work = s.work := rfl
    omega

/-- **Every step uses up work**, but for those in which a connection is accepted. -/
theorem work_step (h : Sound maxConnections s) (hstep : s.step e = some s') :
    s'.work + 1 ≤ s.work + if e.accepts then 7 else 0 := by
  obtain ⟨hphase, hmoves⟩ := moves_of_step hstep
  cases hmoves with
  | refused haccepts =>
    rw [haccepts, if_pos rfl]
    omega
  | accept l a haccepts _ ha hplace =>
    rw [haccepts, if_pos rfl]
    have hset := work_setLoop (s := { s with limit := (s.limit.acquire l).2 }) ha
      { a with place := if (s.limit.acquire l).1 then .permitted else .acquiring }
    have hwork : AcceptLoop.work
        { a with place := if (s.limit.acquire l).1 then .permitted else .acquiring } ≤
          a.work + 6 := by
      unfold AcceptLoop.work
      simp only [hplace]
      split <;> simp only [LoopPlace.work] <;> omega
    have hsame : ({ s with limit := (s.limit.acquire l).2 } : Process).work = s.work := rfl
    omega
  | move l a a' _ _ ha hmove =>
    have hset := work_setLoop ha a'
    have hlt := hmove.work_lt
    omega
  | finish l a i c _ _ ha hc hlive =>
    obtain ⟨n, -, hover⟩ := h.over hphase ha hc hlive
    have hdrop := work_dropPermit hover
    have hset := work_setLoop ha { a with connSet := a.connSet.set i .finished }
    have hsum := sum_map_set (f := ConnTask.work) (b := .finished) hc
    have hlt : ConnTask.finished.work < c.work := by
      cases c <;> first | decide | exact absurd rfl hlive
    unfold AcceptLoop.work at hset
    simp only at hset
    omega
  | ctrlC _ _ hserving =>
    unfold work
    simp only [hserving, MainPhase.work]
    omega
  | stop _ _ hstopping =>
    unfold work
    simp only [hstopping, MainPhase.work]
    omega

theorem work_run (h : Sound maxConnections s) {evs : List ProcessEvent}
    (hrun : s.run evs = some s') :
    s'.work + evs.length ≤ s.work + 7 * evs.countP ProcessEvent.accepts := by
  induction evs generalizing s with
  | nil =>
    obtain rfl := Option.some.inj hrun
    simp
  | cons e evs ih =>
    obtain ⟨s₁, h₁, hrun⟩ := Option.bind_eq_some_iff.mp hrun
    have hone := work_step h h₁
    have hrest := ih (sound_step h h₁) hrun
    rw [List.countP_cons, List.length_cons]
    split at hone
    · rename_i haccepts
      rw [if_pos haccepts]
      omega
    · rename_i haccepts
      rw [if_neg haccepts]
      omega

/-! ### What is always possible -/

theorem step_loop (hphase : s.phase = .stopping) (ha : s.servers[l]? = some a) (e : LoopEvent) :
    s.step (.loop l e) = s.loopStep l a e := by
  unfold step
  rw [if_neg (by rw [hphase]; simp)]
  simp only [ha, Option.bind_some]

theorem step_conn (hphase : s.phase = .stopping) (ha : s.servers[l]? = some a) {i : ℕ}
    {c : ConnTask} (hc : a.connSet[i]? = some c) (e : ConnEvent) :
    s.step (.conn l i e) = s.connStep l a i c e := by
  unfold step
  rw [if_neg (by rw [hphase]; simp)]
  simp only [ha, hc, Option.bind_some]

/-- The state `s` can go on without accepting anything. -/
def GoesOn (s : Process) : Prop := ∃ e s', e.accepts = false ∧ s.step e = some s'

/-- A task that is not over can end, whatever its loop is doing. -/
theorem goesOn_task (hphase : s.phase = .stopping) (ha : s.servers[l]? = some a) {i : ℕ}
    {c : ConnTask} (hc : a.connSet[i]? = some c) (hlive : c ≠ .finished) : s.GoesOn := by
  cases c with
  | handshaking =>
    exact ⟨.conn l i (.handshake false), _, rfl, (step_conn hphase ha hc _).trans rfl⟩
  | serving => exact ⟨.conn l i .closed, _, rfl, (step_conn hphase ha hc _).trans rfl⟩
  | draining => exact ⟨.conn l i .closed, _, rfl, (step_conn hphase ha hc _).trans rfl⟩
  | finished => exact absurd rfl hlive

/-- A loop that does not wait for a permit, and is not joined yet, can go on after Ctrl-C, or one
of its tasks can. -/
theorem goesOn_loop (hphase : s.phase = .stopping) (ha : s.servers[l]? = some a)
    (hacquiring : a.place ≠ .acquiring) (hjoined : a.place ≠ .joined) : s.GoesOn := by
  have hcancelled : s.cancelled = true := decide_eq_true (by rw [hphase]; simp)
  cases hplace : a.place with
  | binding => exact ⟨.loop l (.bind true), _, rfl, (step_loop hphase ha _).trans (if_pos hplace)⟩
  | selecting =>
    exact ⟨.loop l .cancelled, _, rfl, (step_loop hphase ha _).trans (if_pos ⟨hplace, hcancelled⟩)⟩
  | acquiring => exact absurd hplace hacquiring
  | permitted => exact ⟨.loop l .spawn, _, rfl, (step_loop hphase ha _).trans (if_pos hplace)⟩
  | joining =>
    cases hset : a.connSet with
    | nil =>
      exact ⟨.loop l .ret, _, rfl, (step_loop hphase ha _).trans (if_pos ⟨hplace, hset⟩)⟩
    | cons c connSet =>
      have hc : a.connSet[0]? = some c := by rw [hset]; rfl
      by_cases hlive : c = .finished
      · subst hlive
        exact ⟨.loop l (.joinNext 0), _, rfl,
          (step_loop hphase ha _).trans (if_pos ⟨.inr hplace, hc⟩)⟩
      · exact goesOn_task hphase ha hc hlive
  | returned =>
    refine ⟨.joinServer l, s.setLoop l { a with place := .joined }, rfl, ?_⟩
    unfold step
    rw [if_neg (by rw [hphase]; simp)]
    simp only [ha, Option.bind_some]
    rw [if_pos ⟨hphase, hplace⟩]
  | joined => exact absurd hplace hjoined

/-- Who holds a permit can go on. -/
theorem goesOn_holds (hphase : s.phase = .stopping) (ha : s.servers[l]? = some a)
    (hholds : 0 < a.holds) : s.GoesOn := by
  by_cases hplace : a.place = .permitted
  · exact goesOn_loop hphase ha (by simp [hplace]) (by simp [hplace])
  · unfold AcceptLoop.holds at hholds
    rw [if_neg hplace, Nat.zero_add] at hholds
    obtain ⟨n, hn, hpos⟩ := List.exists_mem_ne_zero_of_sum_ne_zero hholds.ne'
    obtain ⟨c, hc, rfl⟩ := List.mem_map.mp hn
    obtain ⟨i, hi⟩ := List.mem_iff_getElem?.mp hc
    exact goesOn_task hphase ha hi (by rintro rfl; exact hpos rfl)

/-- **No deadlock**: after Ctrl-C something can always happen until `main` returns, if there are
permits at all, or no loop waits for one. -/
theorem Sound.goesOn (h : Sound maxConnections s) (hphase : s.phase = .stopping)
    (hmax : 0 < maxConnections ∨ ∀ l, ¬ s.Waits l) : s.GoesOn := by
  by_cases hall : ∀ a ∈ s.servers, a.place = .joined
  · refine ⟨.stop, { s with phase := .stopped }, rfl, ?_⟩
    have hall' : s.servers.all (fun a => decide (a.place = .joined)) = true :=
      List.all_eq_true.mpr fun a ha => decide_eq_true (hall a ha)
    unfold step
    rw [if_neg (by rw [hphase]; simp)]
    exact if_pos ⟨hphase, hall'⟩
  · push Not at hall
    obtain ⟨a, ha, hjoined⟩ := hall
    obtain ⟨l, hl⟩ := List.mem_iff_getElem?.mp ha
    by_cases hacquiring : a.place = .acquiring
    · -- the permits it waits for are in use
      have hwaits : s.Waits l := ⟨a, hl, hacquiring⟩
      have hpos : 0 < maxConnections := hmax.resolve_right fun hnone => hnone l hwaits
      have hconserved := h.conserved
      have hzero := h.limit_eq_zero hwaits
      have hheld : s.held ≠ 0 := by omega
      obtain ⟨n, hn, hne⟩ := List.exists_mem_ne_zero_of_sum_ne_zero hheld
      obtain ⟨b, hb, rfl⟩ := List.mem_map.mp hn
      obtain ⟨k, hk⟩ := List.mem_iff_getElem?.mp hb
      exact goesOn_holds hphase hk (Nat.pos_of_ne_zero hne)
    · exact goesOn_loop hphase hl hacquiring hjoined

/-- A loop that waits has waited before, unless it has just accepted a connection. -/
theorem waits_of_step (h : Sound maxConnections s) (hstep : s.step e = some s')
    (haccepts : e.accepts = false) {k : ℕ} (hk : s'.Waits k) : s.Waits k := by
  obtain ⟨hphase, hmoves⟩ := moves_of_step hstep
  cases hmoves with
  | refused htrue => rw [htrue] at haccepts; cases haccepts
  | accept l a htrue => rw [htrue] at haccepts; cases haccepts
  | move l a a' _ _ ha hmove =>
    rw [waits_setLoop ha] at hk
    split at hk
    · rename_i hkl
      rw [hkl, waits_iff ha]
      exact hmove.acquiring_iff.mp hk
    · exact hk
  | finish l a i c _ _ ha hc hlive =>
    obtain ⟨n, -, hover⟩ := h.over hphase ha hc hlive
    have hmid := waits_of_dropPermit hover hk
    rw [waits_setLoop ha] at hmid
    split at hmid
    · rename_i hkl
      rw [hkl, waits_iff ha]
      exact hmid
    · exact hmid
  | ctrlC => exact hk
  | stop => exact hk

/-- Without permits a loop that waits does so for ever. -/
theorem waits_step (h : Sound 0 s) (hstep : s.step e = some s') {k : ℕ} (hk : s.Waits k) :
    s'.Waits k := by
  obtain ⟨hphase, hmoves⟩ := moves_of_step hstep
  cases hmoves with
  | refused => exact hk
  | accept l a _ _ ha hplace =>
    have ha' : ({ s with limit := (s.limit.acquire l).2 } : Process).servers[l]? = some a := ha
    rw [waits_setLoop ha']
    split
    · rename_i hkl
      rw [hkl, waits_iff ha, hplace] at hk
      cases hk
    · exact hk
  | move l a a' _ _ ha hmove =>
    rw [waits_setLoop ha]
    split
    · rename_i hkl
      rw [hkl, waits_iff ha] at hk
      exact hmove.acquiring_iff.mpr hk
    · exact hk
  | finish l a i c _ _ ha hc hlive =>
    obtain ⟨n, hn, -⟩ := h.over hphase ha hc hlive
    cases hn
  | ctrlC => exact hk
  | stop => exact hk

theorem waits_run (h : Sound 0 s) {k : ℕ} (hk : s.Waits k) {evs : List ProcessEvent}
    (hrun : s.run evs = some s') : s'.Waits k := by
  induction evs generalizing s with
  | nil =>
    obtain rfl := Option.some.inj hrun
    exact hk
  | cons e evs ih =>
    obtain ⟨s₁, h₁, hrun⟩ := Option.bind_eq_some_iff.mp hrun
    exact ih (sound_step h h₁) (waits_step h h₁ hk) hrun

/-- Ctrl-C is not taken back. -/
theorem phase_step (hstep : s.step e = some s') (hphase : s.phase ≠ .serving) :
    s'.phase ≠ .serving := by
  have hdrop : ∀ s : Process, s.dropPermit.phase = s.phase := fun s => by
    unfold dropPermit
    simp only
    split
    · rfl
    · split <;> rfl
  obtain ⟨-, hmoves⟩ := moves_of_step hstep
  cases hmoves with
  | refused => exact hphase
  | accept => exact hphase
  | move => exact hphase
  | finish =>
    rw [hdrop]
    exact hphase
  | ctrlC => simp
  | stop => simp

theorem phase_run (hphase : s.phase ≠ .serving) {evs : List ProcessEvent}
    (hrun : s.run evs = some s') : s'.phase ≠ .serving := by
  induction evs generalizing s with
  | nil =>
    obtain rfl := Option.some.inj hrun
    exact hphase
  | cons e evs ih =>
    obtain ⟨s₁, h₁, hrun⟩ := Option.bind_eq_some_iff.mp hrun
    exact ih (phase_step h₁ hphase) hrun

/-- After Ctrl-C `main` returns, if there are permits or no loop waits for one. -/
theorem Sound.stops (h : Sound maxConnections s) (hphase : s.phase = .stopping)
    (hmax : 0 < maxConnections ∨ ∀ l, ¬ s.Waits l) :
    ∃ evs s', s.run evs = some s' ∧ s'.phase = .stopped := by
  induction hwork : s.work using Nat.strongRecOn generalizing s with
  | _ n ih =>
    subst hwork
    obtain ⟨e, s₁, haccepts, hstep⟩ := h.goesOn hphase hmax
    have hless := work_step h hstep
    rw [haccepts, if_neg (by simp)] at hless
    cases hphase₁ : s₁.phase with
    | serving => exact absurd hphase₁ (phase_step hstep (by rw [hphase]; simp))
    | stopping =>
      have hmax₁ : 0 < maxConnections ∨ ∀ l, ¬ s₁.Waits l :=
        hmax.imp_right fun hnone l hl => hnone l (waits_of_step h hstep haccepts hl)
      obtain ⟨evs, s₂, hrun, hstopped⟩ :=
        ih s₁.work (by omega) (sound_step h hstep) hphase₁ hmax₁ rfl
      exact ⟨e :: evs, s₂, by rw [run_cons, hstep]; exact hrun, hstopped⟩
    | stopped => exact ⟨[e], s₁, by rw [run_cons, hstep]; rfl, hphase₁⟩

/-- **Whether the process can stop**: from a state that a run has led to, `main` can still return
if and only if there are permits at all or no accept loop waits for one. With
`max_connections = 0`, one connection that passes the ban check makes that impossible for good. -/
theorem able_to_stop_iff {listeners : List Listener} {evs : List ProcessEvent}
    (hrun : (start maxConnections listeners).run evs = some s) :
    (∃ evs' s', s.run evs' = some s' ∧ s'.phase = .stopped) ↔
      0 < maxConnections ∨ ∀ l, ¬ s.Waits l := by
  have h := sound_run hrun
  constructor
  · rintro ⟨evs', s', hrun', hstopped⟩
    by_contra hneither
    push Not at hneither
    obtain ⟨hzero, l, hl⟩ := hneither
    obtain rfl : maxConnections = 0 := by omega
    obtain ⟨a, ha, hplace⟩ := waits_run h hl hrun'
    have hjoined := ((sound_run_from h hrun').fits l a ha).stopped hstopped
    rw [hplace] at hjoined
    cases hjoined
  · intro hmax
    cases hphase : s.phase with
    | serving =>
      have hctrlC : s.step .ctrlC = some { s with phase := .stopping } := by
        unfold step
        rw [if_neg (by rw [hphase]; simp)]
        exact if_pos hphase
      obtain ⟨evs', s', hrun', hstopped⟩ := (sound_step h hctrlC).stops rfl hmax
      exact ⟨.ctrlC :: evs', s', by rw [run_cons, hctrlC]; exact hrun', hstopped⟩
    | stopping => exact h.stops hphase hmax
    | stopped => exact ⟨[], s, rfl, hphase⟩

/-- A listener without permits accepts a connection. -/
theorem unable_to_stop_zero : ∃ s, (start 0 [.https]).run
    [.loop 0 (.bind true), .loop 0 (.accept .peer), .ctrlC] = some s ∧
      ¬ ∃ evs' s', s.run evs' = some s' ∧ s'.phase = .stopped := by
  have hwaits : ∃ s, (start 0 [.https]).run
      [.loop 0 (.bind true), .loop 0 (.accept .peer), .ctrlC] = some s ∧ s.Waits 0 :=
    ⟨_, rfl, _, rfl, rfl⟩
  obtain ⟨s, hrun, hl⟩ := hwaits
  refine ⟨s, hrun, fun hstops => ?_⟩
  rcases (able_to_stop_iff hrun).mp hstops with hpos | hnone
  · exact absurd hpos (by decide)
  · exact hnone 0 hl

/-- **Shutdown terminates**: after Ctrl-C a run in which `k` connections are still accepted has at
most `7 * k` steps more than the work that was left, and where it can only go on by accepting,
`main` has returned. -/
theorem shutdown_terminates {listeners : List Listener} {evs evs' : List ProcessEvent}
    (hrun : (start maxConnections listeners).run evs = some s) (hphase : s.phase ≠ .serving)
    (hpos : 0 < maxConnections) (hrun' : s.run evs' = some s') :
    evs'.length ≤ s.work + 7 * evs'.countP ProcessEvent.accepts ∧
      (¬ s'.GoesOn → s'.phase = .stopped) := by
  have h := sound_run hrun
  refine ⟨?_, fun hstuck => ?_⟩
  · have hwork := work_run h hrun'
    omega
  · cases hphase' : s'.phase with
    | serving => exact absurd hphase' (phase_run hphase hrun')
    | stopping => exact absurd ((sound_run_from h hrun').goesOn hphase' (.inl hpos)) hstuck
    | stopped => rfl

/-- Ctrl-C while the second loop waits for the permit of the first. -/
theorem shutdown_terminates_sharedPermit :
    ∃ s, (start 1 [.http, .https]).run (sharedPermit ++ [.ctrlC]) = some s ∧
      [ProcessEvent.conn 0 0 .closed, .loop 1 .spawn].length ≤ s.work := by
  have hreached : ∃ s, (start 1 [.http, .https]).run (sharedPermit ++ [.ctrlC]) = some s ∧
      s.phase ≠ .serving ∧ ∃ s', s.run [.conn 0 0 .closed, .loop 1 .spawn] = some s' :=
    ⟨_, rfl, by decide, _, rfl⟩
  obtain ⟨s, hrun, hphase, s', hrun'⟩ := hreached
  exact ⟨s, hrun, (shutdown_terminates hrun hphase (by decide) hrun').1⟩

/-! ## Waiting for a permit -/

/-- In one step a waiting loop gets its permit, or keeps its place in the queue, or moves up if a
connection ended. -/
theorem queue_step (h : Sound maxConnections s) (hstep : s.step e = some s')
    {ahead behind : List ℕ} (hqueue : s.limit.queue = ahead ++ l :: behind) :
    (∃ a, s'.servers[l]? = some a ∧ a.place = .permitted) ∨
    ∃ ahead' behind', s'.limit.queue = ahead' ++ l :: behind' ∧
      ahead'.length + (if e.ends then 1 else 0) = ahead.length := by
  obtain ⟨hphase, hmoves⟩ := moves_of_step hstep
  cases hmoves with
  | refused _ hends => exact .inr ⟨ahead, behind, hqueue, by rw [hends]; rfl⟩
  | accept k a _ hends =>
    obtain ⟨behind', hqueue'⟩ := Semaphore.acquire_queue hqueue k
    exact .inr ⟨ahead, behind', hqueue', by rw [hends]; rfl⟩
  | move k a a' _ hends => exact .inr ⟨ahead, behind, hqueue, by rw [hends]; rfl⟩
  | finish k a i c _ hends ha hc hlive =>
    obtain ⟨n, -, hover⟩ := h.over hphase ha hc hlive
    rcases queue_dropPermit hover hqueue with hpermit | ⟨ahead', hqueue', hlength⟩
    · exact .inl hpermit
    · exact .inr ⟨ahead', behind, hqueue', by rw [hends]; exact hlength⟩
  | ctrlC _ hends => exact .inr ⟨ahead, behind, hqueue, by rw [hends]; rfl⟩
  | stop _ hends => exact .inr ⟨ahead, behind, hqueue, by rw [hends]; rfl⟩

/-- With more ends of connections than loops ahead of it a waiting loop gets its permit. -/
theorem queue_run (h : Sound maxConnections s) {ahead behind : List ℕ}
    (hqueue : s.limit.queue = ahead ++ l :: behind) {evs : List ProcessEvent}
    (hrun : s.run evs = some s') (hends : ahead.length < evs.countP ProcessEvent.ends) :
    ∃ p q s₁ a, evs = p ++ q ∧ s.run p = some s₁ ∧ s₁.servers[l]? = some a ∧
      a.place = .permitted := by
  induction evs generalizing s ahead behind with
  | nil => exact absurd hends (Nat.not_lt_zero _)
  | cons e evs ih =>
    obtain ⟨s₁, h₁, hrest⟩ := Option.bind_eq_some_iff.mp hrun
    rcases queue_step h h₁ hqueue with ⟨a, ha, hplace⟩ | ⟨ahead', behind', hqueue', hlength⟩
    · exact ⟨[e], evs, s₁, a, rfl, by rw [run_cons, h₁]; rfl, ha, hplace⟩
    · rw [List.countP_cons] at hends
      obtain ⟨p, q, s₂, a, rfl, hp, ha, hplace⟩ :=
        ih (sound_step h h₁) hqueue' hrest (by omega)
      exact ⟨e :: p, q, s₂, a, rfl, by rw [run_cons, h₁]; exact hp, ha, hplace⟩

/-- **No loop starves**: a loop that waits gets its permit before more connections have ended than
there are loops ahead of it in the queue, whatever else is accepted meanwhile. -/
theorem permit_within {listeners : List Listener} {evs evs' : List ProcessEvent}
    (hrun : (start maxConnections listeners).run evs = some s) (hl : s.Waits l)
    (hrun' : s.run evs' = some s')
    (hends : s.limit.queue.idxOf l < evs'.countP ProcessEvent.ends) :
    ∃ p q s₁ a, evs' = p ++ q ∧ s.run p = some s₁ ∧ s₁.servers[l]? = some a ∧
      a.place = .permitted := by
  have h := sound_run hrun
  obtain ⟨ahead, behind, hqueue, hnot⟩ := List.eq_append_cons_of_mem ((h.queued l).mpr hl)
  refine queue_run h hqueue hrun' ?_
  rw [hqueue, List.idxOf_append_of_notMem hnot, List.idxOf_cons_self, Nat.add_zero] at hends
  exact hends

/-- The second loop has the permit once the connection of the first is over. -/
theorem permit_within_sharedPermit :
    ∃ s, (start 1 [.http, .https]).run sharedPermit = some s ∧
      ∃ p q s₁ a, [ProcessEvent.ctrlC, .conn 0 0 .closed] = p ++ q ∧ s.run p = some s₁ ∧
        s₁.servers[1]? = some a ∧ a.place = .permitted := by
  have hreached : ∃ s, (start 1 [.http, .https]).run sharedPermit = some s ∧ s.Waits 1 ∧
      s.limit.queue = [1] ∧ ∃ s', s.run [.ctrlC, .conn 0 0 .closed] = some s' :=
    ⟨_, rfl, ⟨_, rfl, rfl⟩, rfl, _, rfl⟩
  obtain ⟨s, hrun, hl, hqueue, s', hrun'⟩ := hreached
  exact ⟨s, hrun, permit_within hrun hl hrun' (by rw [hqueue]; decide)⟩

end Process

end OxidizedWall
