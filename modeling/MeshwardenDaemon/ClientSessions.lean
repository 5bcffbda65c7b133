import MeshwardenDaemon.FrameParser
import MeshwardenDaemon.Library.Runs

/-! The TCP server of the proxy: `start`, `stop` and the executions of `_handle_client`,
each carried from one await to the next. A connection is accepted by the server some time
before its handler begins to run; `connections` are those that the server waits for in
`wait_closed`. What a command does to the device is the business of the command slot: here
it returns, or raises. Fields marked ghost are written only. -/
namespace MeshwardenDaemon.ClientSessions
open Protocol Framing Library Library.Scanning

abbrev ClientId := ℕ

structure Settings where
  proxyMaxClients : ℕ

/-- The await that a handler is suspended at; in `handling` it is `_handle_command` of
`frame`, and `rest` are the frames of the same read that come after it. -/
inductive Phase
  | unknown
  | accepted
  | reading
  | handling (frame : Frame) (rest : List Frame)
  | ended
  deriving DecidableEq

def Phase.active : Phase → Bool
  | .reading | .handling _ _ => true
  | _ => false

def Phase.rest : Phase → List Frame
  | .handling _ rest => rest
  | _ => []

structure Session where
  phase : Phase := .unknown
  parser : FrameParser := FrameParser.init frameToNode
  /-- `writer.close()` was called. -/
  closed : Bool := false
  /-- Ghost: the bytes read. -/
  received : List UInt8 := []
  /-- Ghost: the frames given to `_handle_command`. -/
  handled : List Frame := []

/-- `self._server`: `None`, listening, or closed and waited for. -/
inductive Server
  | absent | serving | closing
  deriving DecidableEq

structure State where
  server : Server
  connections : List ClientId
  clients : List ClientId
  sessions : ClientId → Session
  msgsWaiting : Bool

def init : State where
  server := .absent
  connections := []
  clients := []
  sessions _ := {}
  msgsWaiting := false

inductive Action
  | start | stop | stopReturns
  | accept (c : ClientId)
  | handleClient (c : ClientId)
  | read (c : ClientId) (data : List UInt8)
  | eof (c : ClientId)
  | commandReturns (c : ClientId)
  | raises (c : ClientId)
  | connectionLost (c : ClientId)
  | fetch
  deriving DecidableEq

def State.set (s : State) (c : ClientId) (x : Session) : State :=
  { s with sessions := Function.update s.sessions c x }

def Session.next (x : Session) : List Frame → Session
  | [] => { x with phase := .reading }
  | frame :: rest =>
    { x with phase := .handling frame rest, handled := x.handled ++ [frame] }

/-- The `finally` of `_handle_client`. -/
def State.leave (s : State) (c : ClientId) : State :=
  { s with
    clients := s.clients.erase c
    msgsWaiting := s.msgsWaiting || (s.clients.erase c).isEmpty }.set c
    { s.sessions c with phase := .ended, closed := true }

def step (P : Settings) (s : State) : Action → Option State
  | .start => if s.server = .absent then some { s with server := .serving } else none
  | .stop =>
    if s.server = .serving then
      some { s with
        server := .closing
        clients := []
        sessions := fun c => if c ∈ s.clients then { s.sessions c with closed := true }
          else s.sessions c }
    else none
  | .stopReturns =>
    if s.server = .closing ∧ s.connections = [] then some { s with server := .absent } else none
  | .accept c =>
    if s.server = .serving ∧ (s.sessions c).phase = .unknown then
      some ({ s with connections := s.connections ++ [c] }.set c
        { s.sessions c with phase := .accepted })
    else none
  | .handleClient c =>
    if (s.sessions c).phase = .accepted then
      some (if P.proxyMaxClients ≤ s.clients.length then
          s.set c { s.sessions c with phase := .ended, closed := true }
        else { s with clients := s.clients ++ [c] }.set c
          { s.sessions c with phase := .reading })
    else none
  | .read c data =>
    if (s.sessions c).phase = .reading ∧ data ≠ [] ∧ data.length ≤ 4096 then
      some (s.set c (({ s.sessions c with
        parser := ((s.sessions c).parser.feed data).2
        received := (s.sessions c).received ++ data } : Session).next
          ((s.sessions c).parser.feed data).1))
    else none
  | .eof c => if (s.sessions c).phase = .reading then some (s.leave c) else none
  | .commandReturns c =>
    match (s.sessions c).phase with
    | .handling _ rest => some (s.set c ((s.sessions c).next rest))
    | _ => none
  -- an exception or a cancellation at the await; what was parsed and not handled is lost
  | .raises c => if (s.sessions c).phase.active then some (s.leave c) else none
  | .connectionLost c =>
    if c ∈ s.connections then some { s with connections := s.connections.erase c } else none
  | .fetch => some { s with msgsWaiting := false }

structure InOrder (x : Session) : Prop where
  start : x.parser.start = frameToNode
  buf : x.parser.buf = ((wire frameToNode).scan x.received).2
  handled : x.handled <+: ((wire frameToNode).scan x.received).1
  active : x.phase.active = true →
    x.handled ++ x.phase.rest = ((wire frameToNode).scan x.received).1
  unbegun : x.phase = .unknown ∨ x.phase = .accepted →
    x.received = [] ∧ x.handled = [] ∧ x.closed = false
  ended : x.phase = .ended → x.closed = true

structure Counted (P : Settings) (s : State) : Prop where
  bounded : s.clients.length ≤ P.proxyMaxClients
  nodup : s.clients.Nodup
  client : ∀ c, c ∈ s.clients ↔
    (s.sessions c).phase.active = true ∧ (s.sessions c).closed = false
  session : ∀ c, InOrder (s.sessions c)
  known : ∀ c ∈ s.connections, (s.sessions c).phase ≠ .unknown

theorem fresh_inOrder : InOrder {} where
  start := rfl
  buf := by rw [scan_no_start (by simp)]; rfl
  handled := List.nil_prefix
  active := nofun
  unbegun _ := ⟨rfl, rfl, rfl⟩
  ended := nofun

theorem init_counted (P : Settings) : Counted P init := by
  constructor <;> simp [init, Phase.active, fresh_inOrder]

@[simp] theorem set_self (s : State) (c : ClientId) (x : Session) :
    (s.set c x).sessions c = x := by simp [State.set]

theorem set_ne {c d : ClientId} (h : d ≠ c) (s : State) (x : Session) :
    (s.set c x).sessions d = s.sessions d := by simp [State.set, h]

@[simp] theorem set_clients (s : State) (c : ClientId) (x : Session) :
    (s.set c x).clients = s.clients := rfl

@[simp] theorem set_connections (s : State) (c : ClientId) (x : Session) :
    (s.set c x).connections = s.connections := rfl

theorem next_closed (x : Session) (frames : List Frame) : (x.next frames).closed = x.closed := by
  cases frames <;> rfl

theorem next_active (x : Session) (frames : List Frame) :
    (x.next frames).phase.active = true := by
  cases frames <;> rfl

theorem phase_of_active {p : Phase} (h : p.active = true) : p ≠ .unknown := by
  rintro rfl
  cases h

theorem not_accepted {p : Phase} (h : p.active = true) : p ≠ .accepted := by
  rintro rfl
  cases h

theorem next_inOrder {x : Session} {frames : List Frame} (start : x.parser.start = frameToNode)
    (buf : x.parser.buf = ((wire frameToNode).scan x.received).2)
    (todo : x.handled ++ frames = ((wire frameToNode).scan x.received).1) :
    InOrder (x.next frames) := by
  cases frames with
  | nil =>
    refine ⟨start, buf, ?_, fun _ => todo, by simp [Session.next], nofun⟩
    exact todo ▸ List.prefix_append _ _
  | cons frame rest =>
    refine ⟨start, buf, ?_, fun _ => ?_, by simp [Session.next], nofun⟩
    · refine ⟨rest, ?_⟩
      simpa [Session.next] using todo
    · simpa [Session.next, Phase.rest] using todo

theorem InOrder.read {x : Session} (h : InOrder x) (phase : x.phase = .reading)
    (data : List UInt8) :
    InOrder (({ x with
      parser := (x.parser.feed data).2, received := x.received ++ data } : Session).next
        (x.parser.feed data).1) := by
  obtain ⟨frames, buf, start⟩ := x.parser.feed_eq data
  rw [h.start] at frames buf start
  have whole := scan_append (S := wire frameToNode) x.received data
  have before : x.handled = ((wire frameToNode).scan x.received).1 := by
    simpa [phase, Phase.rest] using h.active (by simp [phase, Phase.active])
  refine next_inOrder start ?_ ?_
  · rw [buf, h.buf]
    exact (congrArg Prod.snd whole).symm
  · rw [frames, h.buf, before]
    exact (congrArg Prod.fst whole).symm

theorem InOrder.leave {x : Session} (h : InOrder x) :
    InOrder { x with phase := .ended, closed := true } where
  start := h.start
  buf := h.buf
  handled := h.handled
  active := nofun
  unbegun := by simp
  ended _ := rfl

theorem InOrder.close {x : Session} (h : InOrder x) (active : x.phase.active = true) :
    InOrder { x with closed := true } where
  start := h.start
  buf := h.buf
  handled := h.handled
  active := h.active
  unbegun unbegun := by
    have idle : x.phase = .unknown ∨ x.phase = .accepted := unbegun
    rcases idle with hp | hp <;> simp [hp, Phase.active] at active
  ended _ := rfl

theorem Counted.change {P : Settings} {s t : State} {c : ClientId} {x : Session}
    (h : Counted P s) (sessions : t.sessions = Function.update s.sessions c x)
    (bounded : t.clients.length ≤ P.proxyMaxClients) (nodup : t.clients.Nodup)
    (others : ∀ d, d ≠ c → (d ∈ t.clients ↔ d ∈ s.clients))
    (self : c ∈ t.clients ↔ x.phase.active = true ∧ x.closed = false) (order : InOrder x)
    (known : x.phase ≠ .unknown)
    (connections : ∀ d ∈ t.connections, d ≠ c → d ∈ s.connections) : Counted P t where
  bounded := bounded
  nodup := nodup
  client d := by
    rw [sessions]
    by_cases hd : d = c
    · subst hd
      simpa using self
    · rw [Function.update_of_ne hd, others d hd]
      exact h.client d
  session d := by
    rw [sessions]
    by_cases hd : d = c
    · subst hd
      simpa using order
    · rw [Function.update_of_ne hd]
      exact h.session d
  known d hmem := by
    rw [sessions]
    by_cases hd : d = c
    · subst hd
      simpa using known
    · rw [Function.update_of_ne hd]
      exact h.known d (connections d hmem hd)

theorem Counted.leave {P : Settings} {s : State} {c : ClientId} (h : Counted P s) :
    Counted P (s.leave c) := by
  have gone : c ∉ s.clients.erase c := h.nodup.not_mem_erase
  refine h.change rfl ?_ (h.nodup.erase c) ?_ ?_ (h.session c).leave nofun fun d mem _ => mem
  · exact Nat.le_trans List.erase_sublist.length_le h.bounded
  · exact fun d hd => List.mem_erase_of_ne hd
  · exact iff_of_false gone (by simp)

section Counted
variable {P : Settings} {s t : State} {c : ClientId}

theorem Counted.outside (h : Counted P s) (idle : (s.sessions c).phase.active = false) :
    c ∉ s.clients := fun mem =>
  Bool.false_ne_true (idle.symm.trans ((h.client c).mp mem).1)

theorem Counted.stop (h : Counted P s) (hs : ClientSessions.step P s .stop = some t) :
    Counted P t := by
  simp only [ClientSessions.step, Option.ite_none_right_eq_some, Option.some.injEq] at hs
  obtain ⟨-, rfl⟩ := hs
  refine ⟨by simp, List.nodup_nil, fun c => ?_, fun c => ?_, fun c mem => ?_⟩
  · by_cases hc : c ∈ s.clients
    · simp [hc]
    · have := (h.client c).not.mp hc
      simpa [hc] using this
  · by_cases hc : c ∈ s.clients
    · simpa [hc] using (h.session c).close ((h.client c).mp hc).1
    · simpa [hc] using h.session c
  · by_cases hc : c ∈ s.clients <;> simpa [hc] using h.known c mem

theorem Counted.accept (h : Counted P s) (hs : ClientSessions.step P s (.accept c) = some t) :
    Counted P t := by
  simp only [ClientSessions.step, Option.ite_none_right_eq_some, Option.some.injEq] at hs
  obtain ⟨⟨-, phase⟩, rfl⟩ := hs
  have order := h.session c
  have outside : c ∉ s.clients := h.outside (by rw [phase]; rfl)
  refine h.change rfl h.bounded h.nodup (fun _ _ => Iff.rfl) ?_ ?_ nofun ?_
  · exact iff_of_false outside (by simp [Phase.active])
  · exact { order with
      active := nofun, unbegun := fun _ => order.unbegun (Or.inl phase), ended := nofun }
  · intro d mem hd
    simpa [hd] using mem

theorem Counted.handleClient (h : Counted P s)
    (hs : ClientSessions.step P s (.handleClient c) = some t) : Counted P t := by
  simp only [ClientSessions.step, Option.ite_none_right_eq_some, Option.some.injEq] at hs
  obtain ⟨phase, rfl⟩ := hs
  have order := h.session c
  have outside : c ∉ s.clients := h.outside (by rw [phase]; rfl)
  split
  · refine h.change rfl h.bounded h.nodup (fun _ _ => Iff.rfl) ?_ order.leave nofun
      fun d mem _ => mem
    exact iff_of_false outside (by simp)
  · rename_i room
    obtain ⟨silent, unheard, opened⟩ := order.unbegun (Or.inr phase)
    refine h.change rfl ?_ ?_ ?_ ?_ ?_ nofun fun d mem _ => mem
    · simpa using Nat.succ_le_of_lt (Nat.lt_of_not_le room)
    · simpa [List.nodup_append] using ⟨h.nodup, fun d mem => ne_of_mem_of_not_mem mem outside⟩
    · intro d hd
      simp [hd]
    · simp [Phase.active, opened]
    · have started : InOrder ((s.sessions c).next []) := by
        refine next_inOrder order.start order.buf ?_
        rw [silent, unheard, scan_no_start (by simp)]
        rfl
      exact started

theorem Counted.next (h : Counted P s) {x : Session} {frames : List Frame}
    (active : (s.sessions c).phase.active = true) (closed : x.closed = (s.sessions c).closed)
    (order : InOrder (x.next frames)) : Counted P (s.set c (x.next frames)) := by
  refine h.change rfl h.bounded h.nodup (fun _ _ => Iff.rfl) ?_ order ?_ fun d mem _ => mem
  · rw [next_active, next_closed, closed]
    simpa [active] using h.client c
  · exact phase_of_active (next_active _ _)

theorem Counted.read (h : Counted P s) {data : List UInt8}
    (hs : ClientSessions.step P s (.read c data) = some t) : Counted P t := by
  simp only [ClientSessions.step, Option.ite_none_right_eq_some, Option.some.injEq] at hs
  obtain ⟨⟨phase, -, -⟩, rfl⟩ := hs
  exact h.next (by rw [phase]; rfl) rfl ((h.session c).read phase data)

theorem Counted.commandReturns (h : Counted P s)
    (hs : ClientSessions.step P s (.commandReturns c) = some t) : Counted P t := by
  simp only [ClientSessions.step] at hs
  split at hs
  · rename_i frame rest phase
    cases hs
    have order := h.session c
    have active : (s.sessions c).phase.active = true := by rw [phase]; rfl
    refine h.next active rfl (next_inOrder order.start order.buf ?_)
    simpa [phase, Phase.rest] using order.active active
  · cases hs

theorem Counted.step {a : Action} (h : Counted P s)
    (hs : ClientSessions.step P s a = some t) : Counted P t := by
  cases a with
  | stop => exact h.stop hs
  | accept c => exact h.accept hs
  | handleClient c => exact h.handleClient hs
  | read c data => exact h.read hs
  | commandReturns c => exact h.commandReturns hs
  | start | stopReturns =>
    simp only [ClientSessions.step, Option.ite_none_right_eq_some, Option.some.injEq] at hs
    obtain ⟨-, rfl⟩ := hs
    exact ⟨h.bounded, h.nodup, h.client, h.session, h.known⟩
  | eof c | raises c =>
    simp only [ClientSessions.step, Option.ite_none_right_eq_some, Option.some.injEq] at hs
    obtain ⟨-, rfl⟩ := hs
    exact h.leave
  | connectionLost c =>
    simp only [ClientSessions.step, Option.ite_none_right_eq_some, Option.some.injEq] at hs
    obtain ⟨-, rfl⟩ := hs
    exact ⟨h.bounded, h.nodup, h.client, h.session,
      fun d mem => h.known d (List.mem_of_mem_erase mem)⟩
  | fetch =>
    simp only [ClientSessions.step, Option.some.injEq] at hs
    subst hs
    exact ⟨h.bounded, h.nodup, h.client, h.session, h.known⟩

end Counted

theorem counted_run {P : Settings} {acts : List Action} {s : State}
    (hrun : Runs.run (step P) init acts = some s) : Counted P s :=
  Runs.reachable (fun _ _ _ h hs => h.step hs) (init_counted P) hrun

/-- Whatever the clients send, in whatever pieces, and however their handlers interleave:
the commands of a client are handled one after another in the order in which a scan of its
bytes finds them, none of them left out while it is connected; no more clients than allowed
are counted, and those are the ones whose handler runs with its writer open. -/
theorem clients_served_in_order (P : Settings) (acts : List Action) (s : State)
    (hrun : Runs.run (step P) init acts = some s) :
    s.clients.length ≤ P.proxyMaxClients ∧ ∀ c,
      (c ∈ s.clients ↔
        (s.sessions c).phase.active = true ∧ (s.sessions c).closed = false) ∧
      (s.sessions c).handled <+: ((wire frameToNode).scan (s.sessions c).received).1 ∧
      ((s.sessions c).phase.active = true →
        (s.sessions c).handled ++ (s.sessions c).phase.rest =
          ((wire frameToNode).scan (s.sessions c).received).1) ∧
      ((s.sessions c).phase = .ended → (s.sessions c).closed = true) := by
  have counted := counted_run hrun
  refine ⟨counted.bounded, fun c => ⟨counted.client c, ?_⟩⟩
  have order := counted.session c
  exact ⟨order.handled, order.active, order.ended⟩

def sharedRun : List Action :=
  [.start, .accept 0, .accept 1, .handleClient 0, .read 0 [0x3C, 1, 0, 7, 0x3C, 2],
    .handleClient 1, .commandReturns 0, .read 0 [0, 8, 9]]

theorem clients_served_in_order_shared :
    ∃ s, Runs.run (step ⟨1⟩) init sharedRun = some s ∧ s.clients.length ≤ 1 ∧
      (s.sessions 0).handled <+: ((wire frameToNode).scan (s.sessions 0).received).1 ∧
      (s.sessions 0).handled = [[7], [8, 9]] := by
  have got : (Runs.run (step ⟨1⟩) init sharedRun).map (fun s => (s.sessions 0).handled) =
      some [[7], [8, 9]] := by decide +kernel
  rw [Option.map_eq_some_iff] at got
  obtain ⟨s, hs, handled⟩ := got
  obtain ⟨bounded, served⟩ := clients_served_in_order ⟨1⟩ sharedRun s hs
  exact ⟨s, hs, bounded, (served 0).2.1, handled⟩

/-- Since a stop in state `s` the server takes nobody in, and only handlers that had not
begun then can join. -/
structure Late (s u : State) : Prop where
  closed : u.server ≠ .serving
  accepted : ∀ c, (u.sessions c).phase = .accepted → (s.sessions c).phase = .accepted
  clients : ∀ c ∈ u.clients, (s.sessions c).phase = .accepted

theorem Late.change {s u v : State} {c : ClientId} {x : Session} (h : Late s u)
    (server : v.server = u.server) (sessions : v.sessions = Function.update u.sessions c x)
    (phase : x.phase ≠ .accepted)
    (clients : ∀ d ∈ v.clients, d ∈ u.clients ∨ (u.sessions d).phase = .accepted) :
    Late s v where
  closed := server ▸ h.closed
  accepted d hd := by
    rw [sessions] at hd
    by_cases hdc : d = c
    · subst hdc
      exact absurd (by simpa using hd) phase
    · rw [Function.update_of_ne hdc] at hd
      exact h.accepted d hd
  clients d hd := (clients d hd).elim (h.clients d) (h.accepted d)

theorem Late.leave {s u : State} {c : ClientId} (h : Late s u) : Late s (u.leave c) :=
  h.change rfl rfl nofun fun _ hd => Or.inl (List.mem_of_mem_erase hd)

theorem Late.step {P : Settings} {s u v : State} {a : Action} (h : Late s u)
    (stays : a ≠ .start) (hv : ClientSessions.step P u a = some v) : Late s v := by
  cases a with
  | start => exact absurd rfl stays
  | stop | accept =>
    simp only [ClientSessions.step, Option.ite_none_right_eq_some] at hv
    exact absurd (by simp_all) h.closed
  | stopReturns =>
    simp only [ClientSessions.step, Option.ite_none_right_eq_some, Option.some.injEq] at hv
    obtain ⟨-, rfl⟩ := hv
    exact ⟨nofun, h.accepted, h.clients⟩
  | handleClient c =>
    simp only [ClientSessions.step, Option.ite_none_right_eq_some, Option.some.injEq] at hv
    obtain ⟨phase, rfl⟩ := hv
    split
    · exact h.change rfl rfl nofun fun d hd => Or.inl hd
    · refine h.change rfl rfl nofun fun d hd => ?_
      rcases List.mem_append.mp hd with mem | mem
      · exact Or.inl mem
      · exact Or.inr (List.mem_singleton.mp mem ▸ phase)
  | read c data =>
    simp only [ClientSessions.step, Option.ite_none_right_eq_some, Option.some.injEq] at hv
    obtain ⟨-, rfl⟩ := hv
    exact h.change rfl rfl (not_accepted (next_active _ _)) fun d hd => Or.inl hd
  | eof c =>
    simp only [ClientSessions.step, Option.ite_none_right_eq_some, Option.some.injEq] at hv
    obtain ⟨-, rfl⟩ := hv
    exact h.leave
  | raises c =>
    simp only [ClientSessions.step, Option.ite_none_right_eq_some, Option.some.injEq] at hv
    obtain ⟨-, rfl⟩ := hv
    exact h.leave
  | commandReturns c =>
    simp only [ClientSessions.step] at hv
    split at hv
    · cases hv
      exact h.change rfl rfl (not_accepted (next_active _ _)) fun d hd => Or.inl hd
    · cases hv
  | connectionLost c =>
    simp only [ClientSessions.step, Option.ite_none_right_eq_some, Option.some.injEq] at hv
    obtain ⟨-, rfl⟩ := hv
    exact ⟨h.closed, h.accepted, h.clients⟩
  | fetch =>
    simp only [ClientSessions.step, Option.some.injEq] at hv
    subst hv
    exact ⟨h.closed, h.accepted, h.clients⟩

/-- After `stop` has closed the clients, who is counted is a late one: its connection was
accepted before and its handler began only after. Every connection that `stop` still waits
for is closed by the daemon, or is such a late one, which nobody closes. -/
theorem stopped_server_leaves (P : Settings) (acts more : List Action) (s t u : State)
    (hs : Runs.run (step P) init acts = some s) (stop : step P s .stop = some t)
    (hu : Runs.run (step P) t more = some u) (stays : .start ∉ more) :
    (∀ c ∈ u.clients, (s.sessions c).phase = .accepted) ∧
      ∀ c ∈ u.connections, (u.sessions c).closed = true ∨
        (s.sessions c).phase = .accepted := by
  have counted : Counted P u :=
    Runs.reachable (fun _ _ _ h hs => h.step hs) ((counted_run hs).step stop) hu
  have start : Late s t := by
    simp only [step, Option.ite_none_right_eq_some, Option.some.injEq] at stop
    obtain ⟨-, rfl⟩ := stop
    refine ⟨nofun, fun c hc => ?_, nofun⟩
    by_cases mem : c ∈ s.clients <;> simpa [mem] using hc
  have late : Late s u := Runs.invariant (C := fun _ a => a ≠ .start)
    (fun _ _ _ h stays hs => h.step stays hs) start
    (Runs.along_of_forall (fun _ mem => ne_of_mem_of_not_mem mem stays) t) hu
  refine ⟨late.clients, fun c mem => ?_⟩
  cases phase : (u.sessions c).phase with
  | unknown => exact absurd phase (counted.known c mem)
  | accepted => exact Or.inr (late.accepted c phase)
  | ended => exact Or.inl ((counted.session c).ended phase)
  | reading | handling =>
    cases open_ : (u.sessions c).closed with
    | true => exact Or.inl rfl
    | false =>
      refine Or.inr (late.clients c ((counted.client c).mpr ⟨?_, open_⟩))
      simp [phase, Phase.active]

def lateRun : List Action := [.start, .accept 0, .handleClient 0, .accept 1]

theorem stopped_server_leaves_late :
    ∃ s t u, Runs.run (step ⟨5⟩) init lateRun = some s ∧ step ⟨5⟩ s .stop = some t ∧
      Runs.run (step ⟨5⟩) t [.handleClient 1, .eof 0, .connectionLost 0] = some u ∧
      u.connections = [1] ∧ (∀ c ∈ u.clients, (s.sessions c).phase = .accepted) := by
  have got : (Runs.run (step ⟨5⟩) init (lateRun ++ (.stop ::
      [.handleClient 1, .eof 0, .connectionLost 0]))).map State.connections = some [1] := by
    decide +kernel
  rw [Option.map_eq_some_iff] at got
  obtain ⟨u, hrun, connections⟩ := got
  obtain ⟨s, hs, rest⟩ := Runs.run_append.mp hrun
  obtain ⟨t, ht, hu⟩ := Runs.run_cons.mp rest
  exact ⟨s, t, u, hs, ht, hu, connections,
    (stopped_server_leaves ⟨5⟩ _ _ s t u hs ht hu (by decide)).1⟩

end MeshwardenDaemon.ClientSessions
