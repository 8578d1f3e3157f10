import OxidizedWall.BandwidthBound

/-!
# The bytes of a WebSocket relay (`handle_websocket`)

A relay starts when both of its connections have been upgraded. Its two loops `c2b` and `b2c` then
read into a buffer of 8192 bytes, wait for the limiter and write what was read to the other side.
`Wire` is one of them, with its buffer and what it has read and written so far; all wires share the
limiter with the bodies being streamed.

Whether the upgrades succeed is up to the library that drives the connections. `server.rs` serves
its clients without support for upgrades, and `proxy.rs` drives the upstream's connection so: as the
program stands no relay starts, and what follows is about the loops it would run.

1. `relay_intact`: what a wire has written, together with what it holds, is what it has read, and
   without both upgrades that is nothing.
2. `simulates_run`: without the bytes a wire is a relay of `Traffic`, so what it writes in a window
   of time is bounded (`relay_window`).
-/

namespace OxidizedWall

variable {F : Type} [NatCast F] [Add F] [Sub F] [Mul F] [Div F] [LT F] [LE F] [DecidableLT F]
  [DecidableLE F]

/-- Where the loop of a wire is. -/
inductive WirePlace
  /-- Before the loop, in the `join!` of the two upgrades. -/
  | upgrading
  /-- In `timeout(idle, read(..))`, since an instant. -/
  | reading (since : ℕ)
  /-- Between two calls of the limiter, with `n` bytes read; it sleeps until `wake`. -/
  | waiting (n wake : ℕ)
  /-- In `write_all(&buf[..n])`, with `k` bytes written. -/
  | writing (n k : ℕ)
  /-- After the loop: the peer was done, or silent, or could not be read. Or without the loop: an
  upgrade failed. -/
  | ended
  /-- After the loop: a write failed when `k` of `n` bytes were written. -/
  | broken (n k : ℕ)
  deriving DecidableEq

/-- One direction of a relay. `received` and `sent` are the bytes read and written so far,
`granted` and `written` the records of the chunks let through and of the writes. -/
structure Wire where
  ip : IpAddr
  maxBw : ℕ
  idle : ℕ
  buf : Bytes
  place : WirePlace
  received : Bytes
  sent : Bytes
  granted : List Release
  written : List Release

inductive WireEvent
  /-- The two upgrades end, each well or not. -/
  | upgraded (client upstream : Bool)
  /-- `read` returns: the bytes, none of them when the peer is done. -/
  | read (data : Bytes)
  | readError
  | idle
  | attempt
  /-- `write_all` gets rid of `k` bytes. -/
  | write (k : ℕ)
  | writeError
  deriving DecidableEq

namespace Wire

/-- A wire of a connection that is to be upgraded. -/
def new (ip : IpAddr) (maxBw idle : ℕ) : Wire :=
  ⟨ip, maxBw, idle, List.replicate 8192 0, .upgrading, [], [], [], []⟩

/-- What the wire reads goes to the front of its buffer. -/
def take (w : Wire) (now : ℕ) (data : Bytes) : Wire :=
  if data = [] then { w with place := .ended }
  else
    { w with
      buf := data ++ w.buf.drop data.length
      place := .waiting data.length now
      received := w.received ++ data }

/-- `write_all` writes the `k` bytes after the first `done` of `&buf[..n]`. -/
def put (w : Wire) (now n done k : ℕ) : Wire :=
  { w with
    place := if done + k = n then .reading now else .writing n (done + k)
    sent := w.sent ++ ((w.buf.take n).drop done).take k
    written := w.written ++ [⟨w.ip, now, k⟩] }

/-- The amount for which the event asks the limiter, if it does. -/
def asks (w : Wire) (now : ℕ) : WireEvent → Option ℕ
  | .attempt =>
    match w.place with
    | .waiting n wake => if wake ≤ now then some n else none
    | _ => none
  | _ => none

/-- The limiter lets the chunk of `n` bytes through. -/
def grant (w : Wire) (now n : ℕ) : Wire :=
  { w with place := .writing n 0, granted := w.granted ++ [⟨w.ip, now, n⟩] }

/-- An event but for those that ask the limiter. -/
def step (w : Wire) (now : ℕ) : WireEvent → Wire
  | .upgraded client upstream =>
    match w.place with
    | .upgrading => { w with place := if client && upstream then .reading now else .ended }
    | _ => w
  | .read data =>
    match w.place with
    | .reading _ => if data.length ≤ 8192 then w.take now data else w
    | _ => w
  | .readError =>
    match w.place with
    | .reading _ => { w with place := .ended }
    | _ => w
  | .idle =>
    match w.place with
    | .reading since => if since + fromSecs w.idle ≤ now then { w with place := .ended } else w
    | _ => w
  | .attempt => w
  | .write k =>
    match w.place with
    | .writing n done => if 0 < k ∧ done + k ≤ n then w.put now n done k else w
    | _ => w
  | .writeError =>
    match w.place with
    | .writing n done => { w with place := .broken n done }
    | _ => w

end Wire

inductive BridgeEvent
  /-- An event of a body being streamed. -/
  | poll (i : ℕ)
  | step (i : ℕ)
  | wire (j : ℕ) (e : WireEvent)
  deriving DecidableEq

/-- The streams and the limiter, whose relays are the `wires`. -/
structure Bridges (F : Type) where
  traffic : Traffic F
  wires : KeyMap ℕ Wire

namespace Bridges

/-- The condition of the inner `while`, negated. -/
def letThrough (s : Traffic F) (now : ℕ) (w : Wire) (n : ℕ) : Bool × Traffic F :=
  if w.maxBw > 0 then s.consume now w.ip w.maxBw n else (true, s)

/-- The wire `w` at index `j` asks the limiter for `n` bytes. If they are refused it sleeps for
5 ms. -/
def attempt (s : Bridges F) (now j : ℕ) (w : Wire) (n : ℕ) : Bridges F :=
  let r := letThrough s.traffic now w n
  if r.1 then
    ⟨{ r.2 with released := r.2.released ++ [⟨w.ip, now, n⟩] }, s.wires.insert j (w.grant now n)⟩
  else ⟨r.2, s.wires.insert j { w with place := .waiting n (now + 5000000) }⟩

def step (s : Bridges F) (now : ℕ) : BridgeEvent → Bridges F
  | .poll i => { s with traffic := s.traffic.step now (.poll i) }
  | .step i => { s with traffic := s.traffic.step now (.step i) }
  | .wire j e =>
    match s.wires.get j with
    | some w =>
      match w.asks now e with
      | some n => s.attempt now j w n
      | none => { s with wires := s.wires.insert j (w.step now e) }
    | none => s

def run (s : Bridges F) (evs : List (ℕ × BridgeEvent)) : Bridges F :=
  evs.foldl (fun s e => s.step e.1 e.2) s

theorem run_concat (s : Bridges F) (p : List (ℕ × BridgeEvent)) (e : ℕ × BridgeEvent) :
    s.run (p ++ [e]) = (s.run p).step e.1 e.2 := List.foldl_append

end Bridges

/-! ## What an event does to a wire -/

/-- What an event at `now` can do to a wire; `asks` if it asks the limiter. -/
inductive WireMove (now : ℕ) (w : Wire) : (asks : Bool) → Wire → Prop
  | idle : WireMove now w false w
  | start : w.place = .upgrading → WireMove now w false { w with place := .reading now }
  | read (since : ℕ) (data : Bytes) : w.place = .reading since → data ≠ [] → data.length ≤ 8192 →
      WireMove now w false { w with
        buf := data ++ w.buf.drop data.length
        place := .waiting data.length now
        received := w.received ++ data }
  | finish : (w.place = .upgrading ∨ ∃ since, w.place = .reading since) →
      WireMove now w false { w with place := .ended }
  | put (n done k : ℕ) : w.place = .writing n done → 0 < k → done + k ≤ n →
      WireMove now w false (w.put now n done k)
  | fail (n done : ℕ) : w.place = .writing n done →
      WireMove now w false { w with place := .broken n done }
  | refused (n wake : ℕ) : w.place = .waiting n wake →
      WireMove now w true { w with place := .waiting n (now + 5000000) }
  | granted (n wake : ℕ) : w.place = .waiting n wake → WireMove now w true (w.grant now n)

namespace Wire

variable {w w' : Wire} {now n : ℕ} {e : WireEvent}

theorem move_step (w : Wire) (now : ℕ) (e : WireEvent) :
    WireMove now w false (w.step now e) := by
  cases e with
  | upgraded client upstream =>
    unfold step
    simp only
    split
    · rename_i hplace
      split
      · exact .start hplace
      · exact .finish (.inl hplace)
    · exact .idle
  | read data =>
    unfold step
    simp only
    split
    · rename_i since hplace
      split
      · rename_i hle
        unfold take
        split
        · exact .finish (.inr ⟨since, hplace⟩)
        · rename_i hne
          exact .read since data hplace hne hle
      · exact .idle
    · exact .idle
  | readError =>
    unfold step
    simp only
    split
    · rename_i since hplace
      exact .finish (.inr ⟨since, hplace⟩)
    · exact .idle
  | idle =>
    unfold step
    simp only
    split
    · rename_i since hplace
      split
      · exact .finish (.inr ⟨since, hplace⟩)
      · exact .idle
    · exact .idle
  | attempt => exact .idle
  | write k =>
    unfold step
    simp only
    split
    · rename_i n done hplace
      split
      · rename_i hk
        exact .put n done k hplace hk.1 hk.2
      · exact .idle
    · exact .idle
  | writeError =>
    unfold step
    simp only
    split
    · rename_i n done hplace
      exact .fail n done hplace
    · exact .idle

theorem asks_eq_some (h : w.asks now e = some n) : ∃ wake, w.place = .waiting n wake := by
  unfold asks at h
  cases e <;> simp only [reduceCtorEq] at h
  split at h
  · rename_i m wake hplace
    obtain ⟨-, heq⟩ := Option.ite_none_right_eq_some.mp h
    cases heq
    exact ⟨wake, hplace⟩
  · cases h

end Wire

namespace Bridges

variable {s : Bridges F} {now j : ℕ} {w : Wire}

theorem wires_attempt (s : Bridges F) (now j : ℕ) {n wake : ℕ} (hplace : w.place = .waiting n wake) :
    ∃ w', (s.attempt now j w n).wires = s.wires.insert j w' ∧ WireMove now w true w' := by
  unfold attempt
  simp only
  split
  · exact ⟨_, rfl, .granted n wake hplace⟩
  · exact ⟨_, rfl, .refused n wake hplace⟩

/-- The events of others leave a wire as it is. -/
theorem wires_step_of_ne {e : BridgeEvent} (h : ∀ e', e ≠ .wire j e') :
    (s.step now e).wires.get j = s.wires.get j := by
  cases e with
  | poll i => rfl
  | step i => rfl
  | wire k e =>
    have hjk : j ≠ k := fun heq => h e (heq ▸ rfl)
    simp only [step]
    split
    · split
      · unfold attempt
        simp only
        split <;> exact KeyMap.get_insert_of_ne hjk _
      · exact KeyMap.get_insert_of_ne hjk _
    · rfl

/-- Every event makes a move of every wire, most of them none at all. -/
theorem wire_step (now : ℕ) (e : BridgeEvent) (hj : s.wires.get j = some w) :
    ∃ asks w', (s.step now e).wires.get j = some w' ∧ WireMove now w asks w' := by
  have hinsert : ∀ k asks (v v' : Wire), s.wires.get k = some v → WireMove now v asks v' →
      ∃ asks w', (s.wires.insert k v').get j = some w' ∧ WireMove now w asks w' := by
    intro k asks v v' hk hmove
    rw [KeyMap.get_insert]
    by_cases hjk : j = k
    · subst hjk
      obtain rfl : w = v := Option.some.inj (hj.symm.trans hk)
      exact ⟨asks, v', if_pos rfl, hmove⟩
    · exact ⟨false, w, (if_neg hjk).trans hj, .idle⟩
  cases e with
  | poll i => exact ⟨false, w, hj, .idle⟩
  | step i => exact ⟨false, w, hj, .idle⟩
  | wire k e =>
    simp only [step]
    split
    · rename_i v hk
      split
      · rename_i n hasks
        obtain ⟨wake, hplace⟩ := Wire.asks_eq_some hasks
        obtain ⟨v', hwires, hmove⟩ := wires_attempt s now k hplace
        rw [hwires]
        exact hinsert k true v v' hk hmove
      · exact hinsert k false v _ hk (v.move_step now e)
    · exact ⟨false, w, hj, .idle⟩

end Bridges

/-! ## No byte is lost, changed or made up -/

namespace Wire

variable {w w' : Wire} {now : ℕ}

/-- The bytes that have been read and not been written. -/
def held (w : Wire) : Bytes :=
  match w.place with
  | .waiting n _ => w.buf.take n
  | .writing n k | .broken n k => (w.buf.take n).drop k
  | _ => []

structure Intact (w : Wire) : Prop where
  size : w.buf.length = 8192
  received_eq : w.received = w.sent ++ w.held

theorem intact_new (ip : IpAddr) (maxBw idle : ℕ) : (new ip maxBw idle).Intact :=
  ⟨List.length_replicate, rfl⟩

theorem Intact.move (h : w.Intact) {asks : Bool} (hmove : WireMove now w asks w') :
    w'.Intact := by
  have hreceived := h.received_eq
  cases hmove with
  | idle => exact h
  | start hplace =>
    rw [held, hplace] at hreceived
    exact ⟨h.size, hreceived⟩
  | read since data hplace hne hle =>
    refine ⟨?_, ?_⟩
    · simp only [List.length_append, List.length_drop, h.size]
      omega
    · -- the stale rest of the buffer is behind the bytes just read
      rw [held, hplace, List.append_nil] at hreceived
      rw [held]
      simp only [List.take_left', hreceived]
  | finish hplace =>
    refine ⟨h.size, ?_⟩
    rcases hplace with hplace | ⟨since, hplace⟩ <;> rw [held, hplace] at hreceived <;>
      exact hreceived
  | refused n wake hplace =>
    rw [held, hplace] at hreceived
    exact ⟨h.size, hreceived⟩
  | granted n wake hplace =>
    rw [held, hplace] at hreceived
    exact ⟨h.size, hreceived⟩
  | put n done k hplace hk hle =>
    refine ⟨h.size, ?_⟩
    rw [held, hplace] at hreceived
    have hcut : ((w.buf.take n).drop done) =
        ((w.buf.take n).drop done).take k ++ (w.buf.take n).drop (done + k) := by
      rw [← List.drop_drop, List.take_append_drop]
    have hheld : (w.put now n done k).held = (w.buf.take n).drop (done + k) := by
      unfold held put
      by_cases heq : done + k = n
      · have hnil : (w.buf.take n).drop n = [] := by simp
        rw [heq, hnil]
        simp
      · simp [heq]
    rw [hheld]
    show w.received = (w.sent ++ ((w.buf.take n).drop done).take k) ++ _
    rw [List.append_assoc, ← hcut]
    exact hreceived
  | fail n done hplace =>
    rw [held, hplace] at hreceived
    exact ⟨h.size, hreceived⟩

theorem Intact.length_held_le (h : w.Intact) : w.held.length ≤ 8192 := by
  unfold held
  split <;> simp only [List.length_drop, List.length_take, h.size, List.length_nil] <;> omega

end Wire

namespace Bridges

variable {s : Bridges F} {now j : ℕ} {w : Wire}

theorem intact_run (hj : s.wires.get j = some w) (h : w.Intact) (evs : List (ℕ × BridgeEvent)) :
    ∃ w', (s.run evs).wires.get j = some w' ∧ w'.Intact := by
  induction evs using List.reverseRecOn with
  | nil => exact ⟨w, hj, h⟩
  | append_singleton evs e ih =>
    obtain ⟨w₁, hj₁, h₁⟩ := ih
    obtain ⟨asks, w₂, hj₂, hmove⟩ := wire_step e.1 e.2 hj₁
    rw [run_concat]
    exact ⟨w₂, hj₂, h₁.move hmove⟩

end Bridges

/-! ## Without the upgrades -/

namespace Wire

variable {w : Wire} {now : ℕ} {e : WireEvent}

/-- The loop has not begun, and nothing has been read. -/
structure Off (w : Wire) : Prop where
  place : w.place = .upgrading ∨ w.place = .ended
  received : w.received = []

theorem off_new (ip : IpAddr) (maxBw idle : ℕ) : (new ip maxBw idle).Off := ⟨.inl rfl, rfl⟩

theorem Off.asks (h : w.Off) (now : ℕ) (e : WireEvent) : w.asks now e = none := by
  unfold Wire.asks
  cases e <;> rcases h.place with hplace | hplace <;> simp only [hplace]

theorem Off.step (h : w.Off) (he : e ≠ .upgraded true true) : (w.step now e).Off := by
  rcases h.place with hplace | hplace
  · cases e with
    | upgraded client upstream =>
      have hfailed : ¬ (client && upstream) = true := by
        intro hboth
        obtain ⟨rfl, rfl⟩ := Bool.and_eq_true_iff.mp hboth
        exact he rfl
      simp only [Wire.step, hplace, if_neg hfailed]
      exact ⟨.inr rfl, h.received⟩
    | _ => simpa only [Wire.step, hplace] using h
  · cases e <;> simpa only [Wire.step, hplace] using h

end Wire

namespace Bridges

variable {s : Bridges F} {now j : ℕ} {w : Wire}

theorem off_step (hj : s.wires.get j = some w) (h : w.Off) {e : BridgeEvent}
    (he : e ≠ .wire j (.upgraded true true)) :
    ∃ w', (s.step now e).wires.get j = some w' ∧ w'.Off := by
  by_cases hown : ∃ e', e = .wire j e'
  · obtain ⟨e', rfl⟩ := hown
    refine ⟨w.step now e', ?_, h.step fun heq => he (heq ▸ rfl)⟩
    simp only [step, hj, h.asks]
    exact KeyMap.get_insert_self _ _ _
  · refine ⟨w, ?_, h⟩
    rw [wires_step_of_ne fun e' heq => hown ⟨e', heq⟩]
    exact hj

theorem off_run (hj : s.wires.get j = some w) (h : w.Off) {evs : List (ℕ × BridgeEvent)}
    (hevs : ∀ e ∈ evs, e.2 ≠ .wire j (.upgraded true true)) :
    ∃ w', (s.run evs).wires.get j = some w' ∧ w'.Off := by
  induction evs using List.reverseRecOn with
  | nil => exact ⟨w, hj, h⟩
  | append_singleton evs e ih =>
    obtain ⟨w₁, hj₁, h₁⟩ := ih fun e' he' => hevs e' (List.mem_append_left _ he')
    rw [run_concat]
    exact off_step hj₁ h₁ (hevs e (by simp))

end Bridges

/-- **A relay is faithful**: in every run, whatever else draws on the limiter, what a direction has
written is the beginning of what it has read; the rest is at most one buffer, which it holds, and
nothing is missing once its loop has ended without a failed write. Unless both upgrades have
succeeded, nothing is read at all. -/
theorem relay_intact {s : Bridges F} {j : ℕ} {ip : IpAddr} {maxBw idle : ℕ}
    (hj : s.wires.get j = some (.new ip maxBw idle)) (evs : List (ℕ × BridgeEvent)) :
    ∃ w, (s.run evs).wires.get j = some w ∧ w.received = w.sent ++ w.held ∧
      w.held.length ≤ 8192 ∧ (w.place = .ended → w.sent = w.received) ∧
      ((∀ e ∈ evs, e.2 ≠ .wire j (.upgraded true true)) → w.received = []) := by
  obtain ⟨w, hw, h⟩ := Bridges.intact_run hj (Wire.intact_new ip maxBw idle) evs
  refine ⟨w, hw, h.received_eq, h.length_held_le, fun hended => ?_, fun hevs => ?_⟩
  · have hreceived := h.received_eq
    rw [Wire.held, hended, List.append_nil] at hreceived
    exact hreceived.symm
  · obtain ⟨w', hw', hoff⟩ := Bridges.off_run hj (Wire.off_new ip maxBw idle) hevs
    obtain rfl := Option.some.inj (hw.symm.trans hw')
    exact hoff.received

/-- A relay without a limit, and nothing else. -/
def freshBridge : Bridges Float where
  traffic := ⟨.new, .empty, .empty, [], []⟩
  wires := KeyMap.empty.insert 0 (.new (.v4 0) 0 60)

/-- Both connections are upgraded, four bytes are read, and two of them written. -/
def freshBridgeRun : List (ℕ × BridgeEvent) :=
  [(1, .wire 0 (.upgraded true true)), (1, .wire 0 (.read [1, 2, 3, 4])), (1, .wire 0 .attempt),
    (2, .wire 0 (.write 2))]

/-- The last two bytes are still held. -/
theorem relay_intact_fresh : ∃ w, (freshBridge.run freshBridgeRun).wires.get 0 = some w ∧
    w.received = w.sent ++ w.held ∧ w.held.length ≤ 8192 ∧
      (w.place = .ended → w.sent = w.received) ∧
      ((∀ e ∈ freshBridgeRun, e.2 ≠ .wire 0 (.upgraded true true)) → w.received = []) :=
  relay_intact (KeyMap.get_insert_self _ _ _) _

/-! ## The relays of `Traffic` -/

/-- A wire without its bytes. -/
def Wire.relay (w : Wire) : Relay where
  ip := w.ip
  maxBw := w.maxBw
  chunk :=
    match w.place with
    | .waiting n _ => some n
    | _ => none

/-- An event of a wire that does not ask the limiter: its relay reads, or does nothing. -/
theorem WireMove.relay {now : ℕ} {w w' : Wire} (h : WireMove now w false w') :
    w'.relay = w.relay ∨ ∃ n, w.relay.chunk = none ∧ 0 < n ∧ n ≤ 8192 ∧
      w'.relay = { w.relay with chunk := some n } := by
  cases h with
  | idle => exact .inl rfl
  | start hplace =>
    left
    simp only [Wire.relay, hplace]
  | read since data hplace hne hle =>
    refine .inr ⟨data.length, ?_, List.length_pos_iff.mpr hne, hle, rfl⟩
    simp only [Wire.relay, hplace]
  | finish hplace =>
    left
    rcases hplace with hplace | ⟨since, hplace⟩ <;> simp only [Wire.relay, hplace]
  | put n done k hplace =>
    left
    unfold Wire.relay Wire.put
    by_cases heq : done + k = n <;> simp [hplace, heq]
  | fail n done hplace =>
    left
    simp only [Wire.relay, hplace]

namespace Bridges

variable {s : Bridges F} {now j : ℕ} {w : Wire}

/-- The relays behind the wires. -/
def abs (s : Bridges F) : Traffic F := { s.traffic with relays := s.wires.map Wire.relay }

theorem abs_poll (s : Bridges F) (now i : ℕ) :
    (s.step now (.poll i)).abs = s.abs.step now (.poll i) := by
  show ({ s.traffic.step now (.poll i) with relays := _ } : Traffic F) = _
  unfold abs Traffic.step
  simp only
  split
  · split <;> rfl
  · rfl

theorem abs_step (s : Bridges F) (now i : ℕ) :
    (s.step now (.step i)).abs = s.abs.step now (.step i) := by
  show ({ s.traffic.step now (.step i) with relays := _ } : Traffic F) = _
  unfold abs Traffic.step
  simp only
  split
  · split <;> rfl
  · rfl

/-- The chunk of a wire goes out like that of its relay. -/
theorem abs_grant {G : Type} (t : Traffic G) (wires : KeyMap ℕ Wire) (now j : ℕ) (w : Wire) (n : ℕ) :
    (⟨{ t with released := t.released ++ [⟨w.ip, now, n⟩] }, wires.insert j (w.grant now n)⟩ :
      Bridges G).abs =
      ({ t with relays := wires.map Wire.relay } : Traffic G).forward now j w.relay n := by
  unfold abs Traffic.forward
  rw [KeyMap.map_insert]
  rfl

/-- A wire that asks the limiter is a relay that does. -/
theorem abs_attempt (hj : s.wires.get j = some w) {n wake : ℕ}
    (hplace : w.place = .waiting n wake) :
    (s.attempt now j w n).abs = s.abs.step now (.attempt j) := by
  have hrelay : s.abs.relays.get j = some w.relay := by
    show (s.wires.map Wire.relay).get j = _
    rw [KeyMap.get_map, hj]
    rfl
  have hchunk : w.relay.chunk = some n := by simp only [Wire.relay, hplace]
  -- a refused wire is the same relay
  have hrefused : s.wires.map Wire.relay = (s.wires.insert j
      { w with place := .waiting n (now + 5000000) }).map Wire.relay := by
    rw [KeyMap.map_insert]
    refine (KeyMap.insert_get ?_).symm
    rw [KeyMap.get_map, hj]
    simp only [Wire.relay, hplace, Option.map_some]
  unfold Traffic.step
  simp only [hrelay, hchunk]
  unfold attempt letThrough
  by_cases hbw : w.maxBw > 0
  · have hbw' : w.relay.maxBw > 0 := hbw
    have hconsume : s.abs.consume now w.relay.ip w.relay.maxBw n =
        ((s.traffic.consume now w.ip w.maxBw n).1,
          { (s.traffic.consume now w.ip w.maxBw n).2 with relays := s.wires.map Wire.relay }) := rfl
    simp only [if_pos hbw, if_pos hbw', hconsume]
    split
    · exact abs_grant _ _ _ _ _ _
    · unfold abs
      rw [← hrefused]
  · have hbw' : ¬ w.relay.maxBw > 0 := hbw
    simp only [if_neg hbw, if_neg hbw', if_true]
    exact abs_grant _ _ _ _ _ _

/-- **Without their bytes the wires are relays**: an event of the wires and streams is at most one
event of the relays and streams at the same time. -/
theorem simulates_step (s : Bridges F) (now : ℕ) (e : BridgeEvent) :
    (s.step now e).abs = s.abs ∨ ∃ e', (s.step now e).abs = s.abs.step now e' := by
  cases e with
  | poll i => exact .inr ⟨.poll i, abs_poll s now i⟩
  | step i => exact .inr ⟨.step i, abs_step s now i⟩
  | wire j e =>
    simp only [step]
    split
    · rename_i w hj
      split
      · rename_i n hasks
        obtain ⟨wake, hplace⟩ := Wire.asks_eq_some hasks
        exact .inr ⟨.attempt j, abs_attempt hj hplace⟩
      · have hmap : (s.wires.insert j (w.step now e)).map Wire.relay =
            (s.wires.map Wire.relay).insert j (w.step now e).relay := KeyMap.map_insert _ _ _ _
        have hrelay : (s.wires.map Wire.relay).get j = some w.relay := by
          rw [KeyMap.get_map, hj]
          rfl
        rcases (w.move_step now e).relay with hsame | ⟨n, hnone, hpos, hle, hread⟩
        · left
          unfold abs
          rw [hmap, hsame, KeyMap.insert_get hrelay]
        · refine .inr ⟨.read j n, ?_⟩
          have hrelay' : s.abs.relays.get j = some w.relay := hrelay
          unfold Traffic.step
          simp only [hrelay']
          rw [if_pos ⟨hnone, hpos, hle⟩]
          unfold abs
          rw [hmap, hread]
    · exact .inl rfl

/-- Every run of the wires is a run of the relays. -/
theorem simulates_run (s : Bridges F) {evs : List (ℕ × BridgeEvent)}
    (hsorted : evs.Pairwise (·.1 ≤ ·.1)) : ∃ evs' : List (ℕ × TrafficEvent),
      (s.run evs).abs = s.abs.run evs' ∧ evs'.Pairwise (·.1 ≤ ·.1) ∧
        ∀ e' ∈ evs', ∃ e ∈ evs, e.1 = e'.1 := by
  induction evs using List.reverseRecOn with
  | nil => exact ⟨[], rfl, List.Pairwise.nil, fun e he => absurd he List.not_mem_nil⟩
  | append_singleton evs e ih =>
    rw [List.pairwise_append] at hsorted
    obtain ⟨evs', hrun, hsorted', htimes⟩ := ih hsorted.1
    have htimes' : ∀ e' ∈ evs', ∃ x ∈ evs ++ [e], x.1 = e'.1 := fun e' he' => by
      obtain ⟨x, hx, heq⟩ := htimes e' he'
      exact ⟨x, List.mem_append_left _ hx, heq⟩
    rw [run_concat]
    rcases simulates_step (s.run evs) e.1 e.2 with hsame | ⟨e', hstep⟩
    · exact ⟨evs', hsame.trans hrun, hsorted', htimes'⟩
    · refine ⟨evs' ++ [(e.1, e')], ?_, ?_, fun x hx => ?_⟩
      · rw [hstep, hrun, Traffic.run_concat]
      · refine List.pairwise_append.mpr ⟨hsorted', List.pairwise_singleton _ _, fun x hx y hy => ?_⟩
        obtain ⟨z, hz, heq⟩ := htimes x hx
        rw [List.mem_singleton.mp hy, ← heq]
        exact hsorted.2.2 z hz e (by simp)
      · rcases List.mem_append.mp hx with hx | hx
        · exact htimes' x hx
        · rw [List.mem_singleton.mp hx]
          exact ⟨e, by simp, rfl⟩

end Bridges

/-! ## How fast a wire writes -/

/-- The bytes of the records in the window `[s, t]`, in seconds. -/
def bytesIn (s t : ℚ) (rs : List Release) : ℕ :=
  ((rs.filter fun r => s ≤ asSecs r.time ∧ asSecs r.time ≤ t).map Release.amount).sum

theorem bytesIn_concat (s t : ℚ) (rs : List Release) (ip : IpAddr) (now n : ℕ) :
    bytesIn s t (rs ++ [⟨ip, now, n⟩]) =
      bytesIn s t rs + if s ≤ asSecs now ∧ asSecs now ≤ t then n else 0 := by
  unfold bytesIn
  rw [List.filter_append, List.map_append, List.sum_append]
  by_cases h : s ≤ asSecs now ∧ asSecs now ≤ t
  · rw [if_pos h, List.filter_cons_of_pos (by simpa using h)]
    simp
  · rw [if_neg h, List.filter_cons_of_neg (by simpa using h)]
    simp

/-- Nothing was recorded after the last record. -/
theorem bytesIn_eq_zero {s t : ℚ} {now : ℕ} {rs : List Release} (h : ∀ r ∈ rs, r.time ≤ now)
    (hs : ¬ s ≤ asSecs now) : bytesIn s t rs = 0 := by
  unfold bytesIn
  rw [List.filter_eq_nil_iff.mpr fun r hr => ?_]
  · rfl
  · have hle := asSecs_le.mpr (h r hr)
    simp only [decide_eq_true_eq, not_and, not_le]
    intro hsr
    exact absurd (hsr.trans hle) hs

namespace Wire

variable {w w' : Wire} {t now : ℕ} {ip : IpAddr}

/-- What the limiter has let through and is not written yet. -/
def due (w : Wire) : ℕ :=
  match w.place with
  | .writing n k => n - k
  | _ => 0

/-- The records of a wire up to `now`: in every window it has written at most what was let through
in it, and one buffer. -/
structure Paid (ip : IpAddr) (now : ℕ) (w : Wire) : Prop where
  ip_eq : w.ip = ip
  granted_ip : ∀ r ∈ w.granted, r.ip = ip
  time_le : ∀ r ∈ w.written, r.time ≤ now
  waiting_le : ∀ n wake, w.place = .waiting n wake → n ≤ 8192
  window : ∀ s t : ℚ, bytesIn s t w.written + (if asSecs now ≤ t then w.due else 0) ≤
    bytesIn s t w.granted + 8192

theorem paid_new (ip : IpAddr) (maxBw idle now : ℕ) :
    (new ip maxBw idle).Paid ip now where
  ip_eq := rfl
  granted_ip r hr := absurd hr List.not_mem_nil
  time_le r hr := absurd hr List.not_mem_nil
  waiting_le n wake h := by cases h
  window s t := by
    show 0 + (if asSecs now ≤ t then 0 else 0) ≤ 0 + 8192
    split <;> omega

theorem Paid.mono (h : w.Paid ip t) (ht : t ≤ now) : w.Paid ip now := by
  refine ⟨h.ip_eq, h.granted_ip, fun r hr => (h.time_le r hr).trans ht, h.waiting_le,
    fun s u => ?_⟩
  have hwindow := h.window s u
  by_cases hu : asSecs now ≤ u
  · rw [if_pos ((asSecs_le.mpr ht).trans hu)] at hwindow
    rw [if_pos hu]
    exact hwindow
  · rw [if_neg hu]
    omega

/-- A wire that has nothing let through that it did not have before. -/
theorem Paid.of_due_le (h : w.Paid ip now) {place : WirePlace} {buf received : Bytes}
    (hwaiting : ∀ n wake, place = .waiting n wake → n ≤ 8192)
    (hdue : { w with buf := buf, place := place, received := received }.due ≤ w.due) :
    { w with buf := buf, place := place, received := received }.Paid ip now := by
  refine ⟨h.ip_eq, h.granted_ip, h.time_le, hwaiting, fun s u => ?_⟩
  have hwindow := h.window s u
  show bytesIn s u w.written + _ ≤ bytesIn s u w.granted + 8192
  split
  · rename_i hu
    rw [if_pos hu] at hwindow
    omega
  · omega

theorem Paid.move (h : w.Paid ip t) (ht : t ≤ now) {asks : Bool} (hmove : WireMove now w asks w') :
    w'.Paid ip now := by
  replace h := h.mono ht
  cases hmove with
  | idle => exact h
  | read since data hplace hne hle =>
    refine h.of_due_le (fun n wake heq => ?_) (Nat.zero_le _)
    cases heq
    exact hle
  | start hplace => exact h.of_due_le (fun n wake heq => by cases heq) (Nat.zero_le _)
  | finish hplace => exact h.of_due_le (fun n wake heq => by cases heq) (Nat.zero_le _)
  | fail n done hplace => exact h.of_due_le (fun n wake heq => by cases heq) (Nat.zero_le _)
  | refused n wake hplace =>
    refine h.of_due_le (fun n' wake' heq => ?_) (Nat.zero_le _)
    cases heq
    exact h.waiting_le n wake hplace
  | granted n wake hplace =>
    have hn := h.waiting_le n wake hplace
    refine ⟨h.ip_eq, fun r hr => ?_, h.time_le, fun n wake heq => (nomatch heq), fun s u => ?_⟩
    · rcases List.mem_append.mp hr with hr | hr
      · exact h.granted_ip r hr
      · rw [List.mem_singleton.mp hr]
        exact h.ip_eq
    · have hwindow := h.window s u
      show bytesIn s u w.written + (if asSecs now ≤ u then n - 0 else 0) ≤
        bytesIn s u (w.granted ++ [⟨w.ip, now, n⟩]) + 8192
      rw [bytesIn_concat]
      by_cases hs : s ≤ asSecs now
      · by_cases hu : asSecs now ≤ u
        · rw [if_pos hu, if_pos ⟨hs, hu⟩]
          rw [if_pos hu] at hwindow
          omega
        · rw [if_neg hu, if_neg fun hh => hu hh.2]
          omega
      · -- the window has not begun
        rw [bytesIn_eq_zero h.time_le hs]
        split <;> omega
  | put n done k hplace hk hle =>
    have hdue : w.due = n - done := by simp only [due, hplace]
    have hdue' : (w.put now n done k).due = n - (done + k) := by
      unfold due put
      by_cases heq : done + k = n
      · simp [heq]
      · simp [heq]
    refine ⟨h.ip_eq, h.granted_ip, fun r hr => ?_, fun m wake heq => ?_, fun s u => ?_⟩
    · rcases List.mem_append.mp hr with hr | hr
      · exact h.time_le r hr
      · rw [List.mem_singleton.mp hr]
    · unfold put at heq
      simp only at heq
      split at heq <;> cases heq
    · have hwindow := h.window s u
      rw [hdue] at hwindow
      rw [hdue']
      show bytesIn s u (w.written ++ [⟨w.ip, now, k⟩]) + _ ≤ bytesIn s u w.granted + 8192
      rw [bytesIn_concat]
      by_cases hu : asSecs now ≤ u
      · rw [if_pos hu] at hwindow
        rw [if_pos hu]
        split <;> omega
      · rw [if_neg hu] at hwindow
        rw [if_neg hu, if_neg fun hh => hu hh.2]
        omega

end Wire

/-- The releases are a record that only grows. -/
theorem Traffic.released_step (s : Traffic F) (now : ℕ) (e : TrafficEvent) :
    s.released.Sublist (s.step now e).released := by
  have happend : ∀ l, s.released.Sublist (s.released ++ l) := List.sublist_append_left _
  cases e with
  | poll i =>
    simp only [step]
    split
    · split
      · exact happend _
      · exact List.Sublist.refl _
    · exact List.Sublist.refl _
  | step i =>
    simp only [step]
    split
    · split
      · exact happend _
      · exact happend _
      · exact List.Sublist.refl _
    · exact List.Sublist.refl _
  | read j n =>
    simp only [step]
    split
    · split <;> exact List.Sublist.refl _
    · exact List.Sublist.refl _
  | attempt j =>
    simp only [step]
    split
    · split
      · split
        · split
          · exact happend _
          · exact List.Sublist.refl _
        · exact happend _
      · exact List.Sublist.refl _
    · exact List.Sublist.refl _

namespace Bridges

variable {s : Bridges ℚ} {now j : ℕ} {w : Wire} {ip : IpAddr}

/-- What the limiter has let a wire write is among what was released. -/
def Recorded (s : Bridges ℚ) : Prop :=
  ∀ j w, s.wires.get j = some w → w.granted.Sublist s.traffic.released

theorem recorded_insert {traffic : Traffic ℚ} {w' : Wire} (h : s.Recorded)
    (hgrows : s.traffic.released.Sublist traffic.released)
    (hw' : w'.granted.Sublist traffic.released) :
    Recorded ⟨traffic, s.wires.insert j w'⟩ := by
  intro k v hk
  rw [KeyMap.get_insert] at hk
  split at hk
  · obtain rfl := Option.some.inj hk
    exact hw'
  · exact (h k v hk).trans hgrows

theorem granted_step (w : Wire) (now : ℕ) (e : WireEvent) : (w.step now e).granted = w.granted := by
  have hmove := w.move_step now e
  generalize w.step now e = w' at hmove
  cases hmove <;> rfl

theorem recorded_step (h : s.Recorded) (now : ℕ) (e : BridgeEvent) : (s.step now e).Recorded := by
  cases e with
  | poll i => exact fun k v hk => (h k v hk).trans (Traffic.released_step _ _ _)
  | step i => exact fun k v hk => (h k v hk).trans (Traffic.released_step _ _ _)
  | wire j e =>
    simp only [step]
    split
    · rename_i w hj
      split
      · rename_i n hasks
        have hsame : (letThrough s.traffic now w n).2.released = s.traffic.released := by
          unfold letThrough
          split <;> rfl
        unfold attempt
        simp only
        split
        · have hgranted : (w.grant now n).granted = w.granted ++ [⟨w.ip, now, n⟩] := rfl
          refine recorded_insert h ?_ ?_
          · rw [hsame]
            exact List.sublist_append_left _ _
          · rw [hgranted, hsame]
            exact (h j w hj).append (List.Sublist.refl _)
        · refine recorded_insert h ?_ ?_
          · rw [hsame]
          · rw [hsame]
            exact h j w hj
      · refine recorded_insert h (List.Sublist.refl _) ?_
        rw [granted_step]
        exact h j w hj
    · exact h

theorem paid_run (hj : s.wires.get j = some w) (h : ∀ now, w.Paid ip now) (hrec : s.Recorded)
    {evs : List (ℕ × BridgeEvent)} (hsorted : evs.Pairwise (·.1 ≤ ·.1))
    (hnow : ∀ e ∈ evs, e.1 ≤ now) : (s.run evs).Recorded ∧
      ∃ w', (s.run evs).wires.get j = some w' ∧ w'.Paid ip now := by
  induction evs using List.reverseRecOn generalizing now with
  | nil => exact ⟨hrec, w, hj, h now⟩
  | append_singleton evs e ih =>
    rw [List.pairwise_append] at hsorted
    obtain ⟨hrec₁, w₁, hj₁, h₁⟩ := ih hsorted.1 fun e' he' => hsorted.2.2 e' he' e (by simp)
    obtain ⟨asks, w₂, hj₂, hmove⟩ := wire_step e.1 e.2 hj₁
    rw [run_concat]
    exact ⟨recorded_step hrec₁ e.1 e.2, w₂, hj₂,
      (h₁.move (le_refl _) hmove).mono (hnow e (by simp))⟩

/-- The start of a run: a new limiter, and streams and relays that draw with the rate `rate` and
have not begun. -/
structure Fresh (rate : ℕ) (s : Bridges ℚ) : Prop where
  traffic : Traffic.Fresh rate s.abs
  wires : ∀ j w, s.wires.get j = some w → ∃ ip idle, w = .new ip rate idle

end Bridges

/-- **A relay keeps to the limit**, up to one buffer: in every run, the bytes that a direction
writes in a window of `t - s` seconds are at most twice the rate, what the rate allows in the
window, and the 8192 bytes that were let through before. -/
theorem relay_window {rate : ℕ} (hrate : 0 < rate) {br : Bridges ℚ} (h : Bridges.Fresh rate br)
    {evs : List (ℕ × BridgeEvent)} (hsorted : evs.Pairwise (·.1 ≤ ·.1)) {j : ℕ} {ip : IpAddr}
    {idle : ℕ} (hj : br.wires.get j = some (.new ip rate idle)) :
    ∃ w, (br.run evs).wires.get j = some w ∧ ∀ s t : ℚ, s ≤ t →
      (bytesIn s t w.written : ℚ) ≤ 2 * rate + rate * (t - s) + 8192 := by
  have hrec : br.Recorded := fun k v hk => by
    obtain ⟨ip, idle, rfl⟩ := h.wires k v hk
    exact List.nil_sublist _
  have hnow : ∀ e ∈ evs, e.1 ≤ (evs.map Prod.fst).sum := fun e he =>
    List.le_sum_of_mem (List.mem_map_of_mem he)
  obtain ⟨hrec', w, hw, hpaid⟩ :=
    Bridges.paid_run hj (Wire.paid_new ip rate idle) hrec hsorted hnow
  obtain ⟨evs', hrun, hsorted', -⟩ := Bridges.simulates_run br hsorted
  refine ⟨w, hw, fun s t hst => ?_⟩
  have hwritten : bytesIn s t w.written ≤ bytesIn s t w.granted + 8192 :=
    (Nat.le_add_right _ _).trans (hpaid.window s t)
  have hreleased : bytesIn s t w.granted ≤ (br.run evs).abs.releasedIn ip s t := by
    unfold bytesIn Traffic.releasedIn
    have hfilter : w.granted.filter (fun r => s ≤ asSecs r.time ∧ asSecs r.time ≤ t) =
        w.granted.filter (fun r => r.ip = ip ∧ s ≤ asSecs r.time ∧ asSecs r.time ≤ t) := by
      apply List.filter_congr
      intro r hr
      simp [hpaid.granted_ip r hr]
    rw [hfilter]
    exact List.Sublist.sum_le_sum (((hrec' j w hw).filter _).map _) fun _ _ => Nat.zero_le _
  have hbound := h.traffic.releasedIn_le hrate hsorted' ip hst
  rw [← hrun] at hbound
  calc (bytesIn s t w.written : ℚ)
      ≤ ((br.run evs).abs.releasedIn ip s t : ℚ) + 8192 := by
        exact_mod_cast hwritten.trans (Nat.add_le_add_right hreleased 8192)
    _ ≤ 2 * rate + rate * (t - s) + 8192 := by linarith

/-- A relay of four bytes per second, and nothing else. -/
def limitedBridge : Bridges ℚ where
  traffic := ⟨.new, .empty, .empty, [], []⟩
  wires := KeyMap.empty.insert 0 (.new (.v4 0) 4 60)

theorem limitedBridge_fresh : limitedBridge.Fresh 4 where
  traffic := by
    refine ⟨rfl, rfl, rfl, fun i st hi => (nomatch hi), fun j r hj => ?_⟩
    have hj' : ((KeyMap.empty.insert 0 (Wire.new (.v4 0) 4 60)).map Wire.relay).get j = some r := hj
    rw [KeyMap.get_map, KeyMap.get_insert] at hj'
    split at hj'
    · cases hj'
      rfl
    · cases hj'
  wires j w hj := by
    have hj' : (KeyMap.empty.insert 0 (Wire.new (.v4 0) 4 60)).get j = some w := hj
    rw [KeyMap.get_insert] at hj'
    split at hj'
    · exact ⟨.v4 0, 60, (Option.some.inj hj').symm⟩
    · cases hj'

/-- Four bytes are refused at first, and written a second later. -/
def limitedRun : List (ℕ × BridgeEvent) :=
  [(0, .wire 0 (.upgraded true true)), (0, .wire 0 (.read [1, 2, 3, 4])), (0, .wire 0 .attempt),
    (fromSecs 1, .wire 0 .attempt), (fromSecs 1, .wire 0 (.write 4))]

theorem relay_window_limited : ∃ w, (limitedBridge.run limitedRun).wires.get 0 = some w ∧
    (bytesIn 1 2 w.written : ℚ) ≤ 2 * (4 : ℕ) + (4 : ℕ) * (2 - 1) + 8192 := by
  have hsorted : limitedRun.Pairwise (·.1 ≤ ·.1) := by decide
  obtain ⟨w, hw, hwindow⟩ := relay_window (by decide) limitedBridge_fresh hsorted
    (KeyMap.get_insert_self _ _ _)
  exact ⟨w, hw, hwindow 1 2 (by norm_num)⟩

end OxidizedWall
