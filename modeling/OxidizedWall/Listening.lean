import OxidizedWall.Process

/-!
# The accept loops and what they serve

`Process` has the accept loops and the tasks of the connections, and leaves open whom the ban
manager refuses. `Server` has the managers and the handlers, and accepts at any moment. Here both
run side by side, and meet where a loop accepts a connection: it goes on as the ban manager answers.

1. `projects_run`: a run of both is a run of each, with the same accepts and refusals.
2. `letIn_run`: the connections let in that are not over yet hold the permits, or their loop waits
   for one.
-/

namespace OxidizedWall

/-- What the ban manager answered to an accept loop. -/
def Mark.answer : Mark → Option Accepted
  | accepted _ _ => some .peer
  | refused _ => some .banned
  | _ => none

def ProcessEvent.answer : ProcessEvent → Option Accepted
  | loop _ (.accept .peer) => some .peer
  | loop _ (.accept .banned) => some .banned
  | _ => none

structure System where
  process : Process
  server : Server

inductive SystemEvent
  /-- The loop `l` accepts the connection `c`. -/
  | accept (l c : ℕ) (remoteAddr : SocketAddr)
  /-- Any other step of a loop, a task or `main`. -/
  | process (e : ProcessEvent)
  /-- Any other step of a manager or a handler. -/
  | server (e : ServerEvent)

/-- The part of the event that the loops see, if they see all of it. -/
def SystemEvent.processEvent : SystemEvent → Option ProcessEvent
  | process e => some e
  | _ => none

/-- The part of the event that the server sees, where the loops are those of `listeners`. -/
def SystemEvent.serverEvent (listeners : List Listener) : SystemEvent → Option ServerEvent
  | accept l c remoteAddr => (listeners[l]?).map fun listener => .accept c listener remoteAddr
  | process _ => none
  | server e => some e

namespace System

def start (maxConnections : ℕ) (listeners : List Listener) : System :=
  ⟨.start maxConnections listeners, .new⟩

/-- One step at the time `now`; `none` where it cannot happen. -/
def step (lib : Externals) (config : Config) (s : System) (now : ℕ) :
    SystemEvent → Option (System × List Mark)
  | .accept l c remoteAddr =>
    (s.process.servers[l]?).bind fun a =>
      let r := s.server.accept now c a.listener remoteAddr
      (r.2.head?.bind Mark.answer).bind fun res =>
        (s.process.step (.loop l (.accept res))).map fun p => (⟨p, r.1⟩, r.2)
  | .process e =>
    if e.answer = none then (s.process.step e).map fun p => (⟨p, s.server⟩, []) else none
  | .server (.accept _ _ _) => none
  | .server e => (s.server.step lib config now e).map fun r => (⟨s.process, r.1⟩, r.2)

def run (lib : Externals) (config : Config) (s : System) (evs : List (ℕ × SystemEvent)) :
    Option (System × List (ℕ × Mark)) :=
  evs.foldlM (fun (s, log) e => (s.step lib config e.1 e.2).map fun (s, marks) =>
    (s, log ++ marks.map fun mark => (e.1, mark))) (s, [])

theorem run_concat (lib : Externals) (config : Config) (s : System) (evs : List (ℕ × SystemEvent))
    (e : ℕ × SystemEvent) : run lib config s (evs ++ [e]) =
      (run lib config s evs).bind fun (s, log) => (s.step lib config e.1 e.2).map fun (s, marks) =>
        (s, log ++ marks.map fun mark => (e.1, mark)) := by
  unfold run
  rw [List.foldlM_append]
  congr 1
  funext sl
  exact bind_pure _

end System

/-! ## The loops keep their listeners -/

theorem LoopMove.listener_eq {phase : MainPhase} {a a' : AcceptLoop} (h : LoopMove phase a a') :
    a'.listener = a.listener := by
  cases h <;> rfl

namespace Process

variable {s s' : Process} {e : ProcessEvent} {l : ℕ} {a a' : AcceptLoop} {maxConnections : ℕ}

theorem run_append {evs evs' : List ProcessEvent} :
    s.run (evs ++ evs') = some s' ↔ ∃ s₁, s.run evs = some s₁ ∧ s₁.run evs' = some s' := by
  unfold run
  rw [List.foldlM_append]
  exact Option.bind_eq_some_iff

def listeners (s : Process) : List Listener := s.servers.map AcceptLoop.listener

theorem listeners_setLoop (ha : s.servers[l]? = some a) (heq : a'.listener = a.listener) :
    (s.setLoop l a').listeners = s.listeners := by
  show (s.servers.set l a').map AcceptLoop.listener = s.servers.map AcceptLoop.listener
  ext k x
  rw [List.getElem?_map, List.getElem?_map, List.getElem?_set]
  by_cases hlk : l = k
  · subst hlk
    have hlt := (List.getElem?_eq_some_iff.mp ha).1
    rw [if_pos rfl, if_pos hlt, ha, Option.map_some, Option.map_some, heq]
  · rw [if_neg hlk]

theorem listeners_dropPermit (s : Process) : s.dropPermit.listeners = s.listeners := by
  unfold dropPermit
  simp only
  split
  · rfl
  · split
    · rename_i l _ a ha
      exact listeners_setLoop ha rfl
    · rfl

theorem listeners_step (hstep : s.step e = some s') : s'.listeners = s.listeners := by
  obtain ⟨-, hmoves⟩ := moves_of_step hstep
  cases hmoves with
  | refused => rfl
  | accept l a _ _ ha => exact listeners_setLoop ha rfl
  | move l a a' _ _ ha hmove => exact listeners_setLoop ha hmove.listener_eq
  | finish l a i c _ _ ha => exact (listeners_dropPermit _).trans (listeners_setLoop ha rfl)
  | ctrlC => rfl
  | stop => rfl

theorem listeners_start (maxConnections : ℕ) (listeners : List Listener) :
    (start maxConnections listeners).listeners = listeners := by
  show (listeners.map _).map AcceptLoop.listener = listeners
  rw [List.map_map]
  exact List.map_id listeners

theorem listeners_run {listeners : List Listener} {evs : List ProcessEvent}
    (hrun : (start maxConnections listeners).run evs = some s) : s.listeners = listeners := by
  induction evs using List.reverseRecOn generalizing s with
  | nil =>
    cases hrun
    exact listeners_start maxConnections listeners
  | append_singleton evs e ih =>
    obtain ⟨s₁, h₁, hlast⟩ := run_append.mp hrun
    obtain ⟨s₂, h₂, heq⟩ := Option.bind_eq_some_iff.mp hlast
    cases heq
    exact (listeners_step h₂).trans (ih h₁)

end Process

/-! ## A run of both is a run of each -/

theorem ProcessEvent.answer_of_accept {res : Accepted} {l : ℕ} {mark : Mark}
    (h : mark.answer = some res) : (ProcessEvent.loop l (.accept res)).answer = some res := by
  cases mark <;> cases h <;> rfl

/-- Only an accept asks the ban manager for a loop. -/
theorem Server.answer_step {lib : Externals} {config : Config} {s s' : Server} {now : ℕ}
    {e : ServerEvent} {marks : List Mark} (he : ∀ c listener remoteAddr,
      e ≠ .accept c listener remoteAddr) (hs : s.step lib config now e = some (s', marks)) :
    marks.filterMap Mark.answer = [] := by
  cases e with
  | accept c listener remoteAddr => exact absurd rfl (he c listener remoteAddr)
  | request i c req env =>
    obtain heq := Option.some.inj hs
    unfold Server.request at heq
    split at heq
    · cases heq
      rfl
    · cases heq
      rfl
  | act i =>
    unfold Server.step Server.act at hs
    simp only at hs
    split at hs
    · split at hs
      · split at hs
        · obtain ⟨_, -, heq⟩ := Option.map_eq_some_iff.mp hs
          cases heq
          rfl
        · cases hs
          rfl
        · cases hs
          rfl
      · cases hs
        rfl
    · cases hs
      rfl
  | banCleanup =>
    cases hs
    rfl
  | rateCleanup =>
    cases hs
    rfl

/-- An accept makes one entry, or none where the connection exists already. -/
theorem Server.marks_accept (s : Server) (now c : ℕ) (listener : Listener)
    (remoteAddr : SocketAddr) :
    (s.accept now c listener remoteAddr).2 = [] ∨ ∃ mark res, mark.answer = some res ∧
      (s.accept now c listener remoteAddr).2 = [mark] := by
  unfold Server.accept
  split
  · exact .inl rfl
  · simp only
    split
    · exact .inr ⟨_, .banned, rfl, rfl⟩
    · exact .inr ⟨_, .peer, rfl, rfl⟩

namespace System

variable {lib : Externals} {config : Config} {s s' : System} {now maxConnections : ℕ}
  {listeners : List Listener} {log : List (ℕ × Mark)}

/-- What a step is to the loops, and what it is to the server. -/
structure Projects (lib : Externals) (config : Config) (listeners : List Listener) (now : ℕ)
    (s s' : System) (e : SystemEvent) (marks : List Mark) (pevs : List ProcessEvent) : Prop where
  process : s.process.run pevs = some s'.process
  server : (e.serverEvent listeners).elim (s'.server = s.server ∧ marks = [])
    fun e => s.server.step lib config now e = some (s'.server, marks)
  answers : pevs.filterMap ProcessEvent.answer = marks.filterMap Mark.answer
  others : pevs.filter (fun e => e.answer.isNone) = e.processEvent.toList

theorem projects_step {e : SystemEvent} {marks : List Mark}
    (hlisteners : s.process.listeners = listeners)
    (hs : s.step lib config now e = some (s', marks)) :
    ∃ pevs, Projects lib config listeners now s s' e marks pevs := by
  cases e with
  | accept l c remoteAddr =>
    obtain ⟨a, ha, hs⟩ := Option.bind_eq_some_iff.mp hs
    obtain ⟨res, hres, hs⟩ := Option.bind_eq_some_iff.mp hs
    obtain ⟨p, hp, heq⟩ := Option.map_eq_some_iff.mp hs
    cases heq
    have hlistener : listeners[l]? = some a.listener := by
      rw [← hlisteners, Process.listeners, List.getElem?_map, ha, Option.map_some]
    rcases s.server.marks_accept now c a.listener remoteAddr with hnil | ⟨mark, res', hmark, hone⟩
    · rw [hnil] at hres
      cases hres
    · rw [hone] at hres
      obtain rfl : res' = res := Option.some.inj (hmark.symm.trans hres)
      have hanswer := ProcessEvent.answer_of_accept (l := l) hmark
      refine ⟨[.loop l (.accept res')], ?_, ?_, ?_, ?_⟩
      · show (s.process.step _).bind _ = _
        rw [hp]
        rfl
      · simp only [SystemEvent.serverEvent, hlistener, Option.map_some, Option.elim_some]
        rfl
      · rw [hone, List.filterMap_cons_some hanswer, List.filterMap_cons_some hmark]
        rfl
      · rw [List.filter_cons_of_neg (by rw [hanswer]; simp)]
        rfl
  | process e =>
    obtain ⟨hnone, hs⟩ := Option.ite_none_right_eq_some.mp hs
    obtain ⟨p, hp, heq⟩ := Option.map_eq_some_iff.mp hs
    cases heq
    refine ⟨[e], ?_, ⟨rfl, rfl⟩, ?_, ?_⟩
    · show (s.process.step _).bind _ = _
      rw [hp]
      rfl
    · rw [List.filterMap_cons_none hnone]
      rfl
    · rw [List.filter_cons_of_pos (by rw [hnone]; rfl)]
      rfl
  | server e =>
    have hother : (∀ c listener remoteAddr, e ≠ .accept c listener remoteAddr) ∧
        (s.server.step lib config now e).map (fun r => (⟨s.process, r.1⟩, r.2)) =
          some (s', marks) := by
      cases e with
      | accept c listener remoteAddr => cases hs
      | request i c req env => exact ⟨fun _ _ _ h => (nomatch h), hs⟩
      | act i => exact ⟨fun _ _ _ h => (nomatch h), hs⟩
      | banCleanup => exact ⟨fun _ _ _ h => (nomatch h), hs⟩
      | rateCleanup => exact ⟨fun _ _ _ h => (nomatch h), hs⟩
    obtain ⟨hne, hs⟩ := hother
    obtain ⟨⟨server, marks'⟩, hserver, heq⟩ := Option.map_eq_some_iff.mp hs
    cases heq
    exact ⟨[], rfl, hserver, (Server.answer_step hne hserver).symm, rfl⟩

/-- The server's part of a run. -/
def serverEvents (listeners : List Listener) (evs : List (ℕ × SystemEvent)) :
    List (ℕ × ServerEvent) :=
  evs.filterMap fun e => (e.2.serverEvent listeners).map fun se => (e.1, se)

/-- **A run of both is a run of each**: of the accept loops and tasks, and of the managers and
handlers. The loops see the ban manager's answers in the order of the log, and their other steps
are those of the run. -/
theorem projects_run {evs : List (ℕ × SystemEvent)}
    (hrun : run lib config (start maxConnections listeners) evs = some (s, log)) :
    Server.run lib config (serverEvents listeners evs) = some (s.server, log) ∧
    ∃ pevs, (Process.start maxConnections listeners).run pevs = some s.process ∧
      pevs.filterMap ProcessEvent.answer = log.filterMap (fun e => e.2.answer) ∧
      pevs.filter (fun e => e.answer.isNone) = evs.filterMap fun e => e.2.processEvent := by
  induction evs using List.reverseRecOn generalizing s log with
  | nil =>
    cases hrun
    exact ⟨rfl, [], rfl, rfl, rfl⟩
  | append_singleton evs e ih =>
    rw [run_concat] at hrun
    obtain ⟨⟨s₁, log₁⟩, h₁, hs⟩ := Option.bind_eq_some_iff.mp hrun
    obtain ⟨⟨s₂, marks⟩, h₂, heq⟩ := Option.map_eq_some_iff.mp hs
    cases heq
    obtain ⟨hserver, pevs, hprocess, hanswers, hothers⟩ := ih h₁
    obtain ⟨last, hlast⟩ := projects_step (Process.listeners_run hprocess) h₂
    refine ⟨?_, pevs ++ last, ?_, ?_, ?_⟩
    · have hstep := hlast.server
      unfold serverEvents at hserver ⊢
      rw [List.filterMap_append]
      cases hse : e.2.serverEvent listeners with
      | none =>
        rw [hse] at hstep
        obtain ⟨heq, rfl⟩ := hstep
        rw [List.filterMap_cons_none (by rw [hse]; rfl), List.filterMap_nil, List.append_nil,
          List.map_nil, List.append_nil, hserver, heq]
      | some se =>
        rw [hse] at hstep
        have hstep' : s₁.server.step lib config e.1 se = some (s.server, marks) := hstep
        rw [List.filterMap_cons_some (b := (e.1, se)) (by rw [hse]; rfl), List.filterMap_nil,
          Server.run_concat, hserver, Option.bind_some]
        simp only [hstep', Option.map_some]
    · exact Process.run_append.mpr ⟨_, hprocess, hlast.process⟩
    · rw [List.filterMap_append, List.filterMap_append, hanswers, hlast.answers,
        List.filterMap_map]
      rfl
    · rw [List.filter_append, List.filterMap_append, hothers, hlast.others]
      cases hpe : e.2.processEvent <;> simp [hpe]

end System

/-! ## The connections let in -/

namespace Process

variable {s s' : Process} {e : ProcessEvent} {maxConnections : ℕ}

/-- The connections that passed the ban check and are not over: those with a permit, and those
whose loop waits for one. -/
def current (s : Process) : ℕ := s.held + s.limit.queue.length

theorem current_move {l : ℕ} {a a' : AcceptLoop} (ha : s.servers[l]? = some a)
    (hholds : a'.holds = a.holds) : (s.setLoop l a').current = s.current := by
  have hset := held_setLoop ha a'
  have hqueue : (s.setLoop l a').limit = s.limit := rfl
  unfold current
  rw [hqueue]
  omega

theorem current_accept {l : ℕ} {a : AcceptLoop} (ha : s.servers[l]? = some a)
    (hplace : a.place = .selecting) :
    ({ s with limit := (s.limit.acquire l).2 }.setLoop l
      { a with place := if (s.limit.acquire l).1 then .permitted else .acquiring }).current =
        s.current + 1 := by
  have hset := held_setLoop (s := { s with limit := (s.limit.acquire l).2 }) ha
    { a with place := if (s.limit.acquire l).1 then .permitted else .acquiring }
  have hheld : ({ s with limit := (s.limit.acquire l).2 } : Process).held = s.held := rfl
  show _ + (s.limit.acquire l).2.queue.length = _ + 1
  unfold current
  rcases s.limit.acquire_cases l with ⟨htrue, -, hqueue⟩ | ⟨hfalse, -, -, hqueue⟩
  · rw [htrue, if_pos rfl] at hset ⊢
    have hholds := AcceptLoop.holds_permitted (a := a) (by simp [hplace])
    rw [hqueue]
    omega
  · rw [hfalse, if_neg (by simp)] at hset ⊢
    have hholds := AcceptLoop.holds_acquiring (a := a) (by simp [hplace])
    rw [hqueue, List.length_append, List.length_singleton]
    omega

/-- The permit of a connection that is over goes to a loop that waits, if there is one. -/
theorem current_dropPermit (h : Sound maxConnections s) : s.dropPermit.current = s.current := by
  unfold current
  rcases dropPermit_cases h with ⟨hnil, heq, -, hqueue⟩ | ⟨l, a, hqueue, ha, hplace, -, -, heq⟩
  · rw [heq, hnil]
    show s.held + s.limit.release.2.queue.length = _
    rw [hqueue]
  · have hset := held_setLoop (s := { s with limit := s.limit.release.2 }) ha
      { a with place := .permitted }
    have hholds := AcceptLoop.holds_permitted (a := a) (by simp [hplace])
    have hheld : ({ s with limit := s.limit.release.2 } : Process).held = s.held := rfl
    rw [heq]
    show _ + s.limit.release.2.queue.length = _
    rw [hqueue, List.length_cons]
    omega

theorem current_finish (h : Sound maxConnections s) (hphase : s.phase ≠ .stopped) {l i : ℕ}
    {a : AcceptLoop} {c : ConnTask} (ha : s.servers[l]? = some a) (hc : a.connSet[i]? = some c)
    (hlive : c ≠ .finished) :
    (s.setLoop l { a with connSet := a.connSet.set i .finished }).dropPermit.current + 1 =
      s.current := by
  obtain ⟨n, rfl, hover⟩ := h.over hphase ha hc hlive
  have hbefore := h.conserved
  have hafter := hover.conserved
  have hlimit : (s.setLoop l { a with connSet := a.connSet.set i .finished }).limit = s.limit := rfl
  rw [current_dropPermit hover]
  unfold current
  rw [hlimit] at hafter ⊢
  omega

theorem current_step (h : Sound maxConnections s) (hstep : s.step e = some s') :
    s'.current + (if e.ends then 1 else 0) = s.current + if e.letsIn then 1 else 0 := by
  obtain ⟨hphase, hmoves⟩ := moves_of_step hstep
  cases hmoves with
  | refused _ hends hletsIn => rw [hends, hletsIn]
  | accept l a _ hends ha hplace hletsIn =>
    rw [hends, hletsIn, current_accept ha hplace]
    rfl
  | move l a a' haccepts hends ha hmove =>
    rw [hends, ProcessEvent.letsIn_eq_false haccepts, current_move ha hmove.holds_eq]
  | finish l a i c haccepts hends ha hc hlive =>
    rw [hends, ProcessEvent.letsIn_eq_false haccepts]
    exact current_finish h hphase ha hc hlive
  | ctrlC haccepts hends =>
    rw [hends, ProcessEvent.letsIn_eq_false haccepts]
    rfl
  | stop haccepts hends =>
    rw [hends, ProcessEvent.letsIn_eq_false haccepts]
    rfl

/-- What came in is over or still there. -/
theorem letIn_run {listeners : List Listener} {evs : List ProcessEvent}
    (hrun : (start maxConnections listeners).run evs = some s) :
    s.current + evs.countP ProcessEvent.ends = evs.countP ProcessEvent.letsIn := by
  induction evs using List.reverseRecOn generalizing s with
  | nil =>
    cases hrun
    have hconserved := (sound_start maxConnections listeners).conserved
    have hpermits : (start maxConnections listeners).limit.permits = maxConnections := rfl
    show (start maxConnections listeners).held + 0 + 0 = 0
    omega
  | append_singleton evs e ih =>
    obtain ⟨s₁, h₁, hlast⟩ := run_append.mp hrun
    obtain ⟨s₂, h₂, heq⟩ := Option.bind_eq_some_iff.mp hlast
    cases heq
    have hstep := current_step (sound_run h₁) h₂
    have hpre := ih h₁
    rw [List.countP_append, List.countP_append, List.countP_singleton, List.countP_singleton]
    omega

/-- Each loop waits once at most. -/
theorem Sound.length_queue_le (h : Sound maxConnections s) :
    s.limit.queue.length ≤ s.servers.length := by
  have hsub : s.limit.queue ⊆ List.range s.servers.length := by
    intro l hl
    obtain ⟨a, ha, -⟩ := (h.queued l).mp hl
    exact List.mem_range.mpr (List.getElem?_eq_some_iff.mp ha).1
  calc s.limit.queue.length ≤ (List.range s.servers.length).length :=
        (h.nodup.subperm hsub).length_le
    _ = s.servers.length := List.length_range

end Process

theorem ProcessEvent.letsIn_iff {e : ProcessEvent} : e.letsIn = true ↔ e.answer = some .peer := by
  cases e with
  | loop l e =>
    cases e with
    | accept res => cases res <;> simp [letsIn, answer]
    | _ => simp [letsIn, answer]
  | _ => simp [letsIn, answer]

theorem countP_letsIn (evs : List ProcessEvent) : evs.countP ProcessEvent.letsIn =
    (evs.filterMap ProcessEvent.answer).countP fun res => decide (res = .peer) := by
  rw [List.countP_filterMap]
  refine List.countP_congr fun e _ => ?_
  rw [ProcessEvent.letsIn_iff]
  cases e.answer <;> simp

theorem ProcessEvent.answer_of_ends {e : ProcessEvent} (h : e.ends = true) : e.answer = none := by
  unfold ends at h
  split at h
  · rfl
  · rfl
  · cases h

/-- The mark of a connection that is let in. -/
def Mark.letsIn (mark : Mark) : Bool := decide (mark.answer = some .peer)

/-- The event ends a connection. -/
def SystemEvent.ends : SystemEvent → Bool
  | process e => e.ends
  | _ => false

/-- **What is let in and not over** is at most `max_connections` and one connection for each
address that the process listens on. -/
theorem System.letIn_le {lib : Externals} {config : Config} {s : System} {maxConnections : ℕ}
    {listeners : List Listener} {evs : List (ℕ × SystemEvent)} {log : List (ℕ × Mark)}
    (hrun : run lib config (start maxConnections listeners) evs = some (s, log)) :
    log.countP (fun e => e.2.letsIn) ≤
      evs.countP (fun e => e.2.ends) + maxConnections + listeners.length := by
  obtain ⟨-, pevs, hprocess, hanswers, hothers⟩ := projects_run hrun
  have hsound := Process.sound_run hprocess
  have hletIn := Process.letIn_run hprocess
  have hends : pevs.countP ProcessEvent.ends = evs.countP fun e => e.2.ends := by
    have hfilter : pevs.countP ProcessEvent.ends =
        (pevs.filter fun e => e.answer.isNone).countP ProcessEvent.ends := by
      rw [List.countP_filter]
      refine List.countP_congr fun e _ => ?_
      rw [Bool.and_eq_true, Option.isNone_iff_eq_none]
      exact ⟨fun h => ⟨h, ProcessEvent.answer_of_ends h⟩, And.left⟩
    rw [hfilter, hothers, List.countP_filterMap]
    refine List.countP_congr fun e _ => ?_
    cases e.2 <;> rfl
  have hpeers : log.countP (fun e => e.2.letsIn) = pevs.countP ProcessEvent.letsIn := by
    rw [countP_letsIn, hanswers, List.countP_filterMap]
    refine List.countP_congr fun e _ => ?_
    unfold Mark.letsIn
    cases e.2.answer <;> simp
  have hqueue := hsound.length_queue_le
  have hlength : s.process.servers.length = listeners.length := by
    rw [← Process.listeners_run hprocess, Process.listeners, List.length_map]
  have hconserved := hsound.conserved
  unfold Process.current at hletIn
  omega

end OxidizedWall
