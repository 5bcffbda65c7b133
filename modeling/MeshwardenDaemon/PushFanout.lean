import MeshwardenDaemon.Protocol
import MeshwardenDaemon.Library.Convoy
import MeshwardenDaemon.Library.Runs
import Mathlib.Logic.Function.Basic

/-! The fan-out of pushes to the clients. Every frame from the node has a task that walks
through a copy of the client set, as the set was when the task started, and writes the
frame to one client after the other; each write is followed by a `drain` under the
client's lock, which may take any time. -/
namespace MeshwardenDaemon.PushFanout
open Protocol Library

abbrev ClientId := ℕ

@[ext] structure Push where
  frame : Frame
  number : ℕ
  deriving DecidableEq

/-- Who calls `send_frame`: the broadcast of a push, or the client's own handler. -/
inductive Writer
  | broadcast (push : Push)
  | response (frame : Frame)
  deriving DecidableEq

def Writer.push? : Writer → Option Push
  | .broadcast push => some push
  | .response _ => none

/-- A client with its write lock: the writer that drains, those that wait for the lock,
and all that was written. -/
structure Client where
  holder : Option Writer := none
  waiters : List Writer := []
  written : List Writer := []

structure State where
  /-- The frames whose tasks have started. -/
  frames : List Frame
  /-- The client set, in the order in which it is walked through. -/
  clients : List ClientId
  client : ClientId → Client
  /-- What each task has before it; it stands at the first of these. -/
  remaining : ℕ → List ClientId
  known : List ClientId
  /-- Ghost: how many tasks had started when the client connected. -/
  since : ClientId → ℕ

def init : State where
  frames := []
  clients := []
  client _ := {}
  remaining _ := []
  known := []
  since _ := 0

inductive Action
  /-- A client connects; `order` is the set with it. -/
  | join (client : ClientId) (order : List ClientId)
  | leave (client : ClientId)
  | dispatch (frame : Frame)
  /-- The client's handler calls `send_frame`. -/
  | respond (client : ClientId) (frame : Frame)
  /-- The next writer gets the lock and writes. -/
  | write (client : ClientId)
  /-- The `drain` of the writer that has the lock returns or raises. -/
  | drained (client : ClientId)
  deriving DecidableEq

def State.setClient (s : State) (c : ClientId) (client : Client) : State :=
  { s with client := Function.update s.client c client }

/-- `async with self._write_lock`. -/
def State.lineUp (s : State) (c : ClientId) (w : Writer) : State :=
  s.setClient c { s.client c with waiters := (s.client c).waiters ++ [w] }

/-- The loop of `_on_device_frame`, up to the lock of the next client. -/
def State.broadcast (s : State) (push : Push) (route : List ClientId) : State :=
  let s := { s with remaining := Function.update s.remaining push.number route }
  match route with
  | [] => s
  | c :: _ => s.lineUp c (.broadcast push)

def step (proxyMaxClients : ℕ) (s : State) : Action → Option State
  | .join c order =>
    if c ∉ s.known ∧ s.clients.length < proxyMaxClients ∧ order.Perm (c :: s.clients) then
      some { s with
        clients := order, known := c :: s.known
        since := Function.update s.since c s.frames.length }
    else none
  | .leave c => if c ∈ s.clients then some { s with clients := s.clients.erase c } else none
  | .dispatch frame =>
    let t := { s with frames := s.frames ++ [frame] }
    if isPush frame then some (t.broadcast ⟨frame, s.frames.length⟩ s.clients) else some t
  | .respond c frame => if c ∈ s.clients then some (s.lineUp c (.response frame)) else none
  | .write c =>
    match (s.client c).holder, (s.client c).waiters with
    | none, w :: rest =>
      some (s.setClient c ⟨some w, rest, (s.client c).written ++ [w]⟩)
    | _, _ => none
  | .drained c =>
    match (s.client c).holder with
    | some w =>
      let t := s.setClient c { s.client c with holder := none }
      match w with
      | .broadcast push => some (t.broadcast push (s.remaining push.number).tail)
      | .response _ => some t
    | none => none

def State.pushesTo (s : State) (c : ClientId) : List Push :=
  (s.client c).written.filterMap Writer.push?

/-- The push frames from the node since a client connected. -/
def State.pushesSince (s : State) (c : ClientId) : List Push :=
  (s.frames.zipIdx.map fun x => (⟨x.1, x.2⟩ : Push)).filter fun p =>
    isPush p.frame && decide (s.since c ≤ p.number)

def State.Quiet (s : State) : Prop := ∀ i < s.frames.length, s.remaining i = []

/-- Every task under way leads the one that starts. -/
def InStep (s : State) : Action → Prop
  | .dispatch frame => isPush frame = true → ∀ i < s.frames.length,
      Convoy.Leads (s.remaining i) s.clients
  | _ => True

instance (s : State) : Decidable s.Quiet :=
  inferInstanceAs (Decidable (∀ i < s.frames.length, s.remaining i = []))

instance (s : State) (a : Action) : Decidable (InStep s a) := by
  unfold InStep
  induction a using Action.casesOn <;> infer_instance

section Frame
variable (s : State) (c d : ClientId) (client : Client) (w : Writer) (push : Push)
  (route : List ClientId)

def State.lined : List Push :=
  (s.client c).written.filterMap Writer.push? ++ (s.client c).waiters.filterMap Writer.push?

/-- Pushes line up at a client whoever has its lock. -/
theorem lined_release (holder : Option Writer) :
    (s.setClient c { s.client c with holder := holder }).lined d = s.lined d := by
  by_cases h : d = c
  · subst h
    simp [State.lined, State.setClient]
  · simp [State.lined, State.setClient, h]

@[simp] theorem broadcast_frames : (s.broadcast push route).frames = s.frames := by
  cases route <;> rfl

@[simp] theorem broadcast_clients : (s.broadcast push route).clients = s.clients := by
  cases route <;> rfl

@[simp] theorem broadcast_known : (s.broadcast push route).known = s.known := by
  cases route <;> rfl

@[simp] theorem broadcast_since : (s.broadcast push route).since = s.since := by
  cases route <;> rfl

@[simp] theorem broadcast_remaining : (s.broadcast push route).remaining =
    Function.update s.remaining push.number route := by
  cases route <;> rfl

@[simp] theorem broadcast_holder :
    ((s.broadcast push route).client c).holder = (s.client c).holder := by
  cases route with
  | nil => rfl
  | cons d _ =>
    simp only [State.broadcast, State.lineUp, State.setClient]
    by_cases h : c = d
    · subst h
      simp
    · simp [h]

@[simp] theorem broadcast_written :
    ((s.broadcast push route).client c).written = (s.client c).written := by
  cases route with
  | nil => rfl
  | cons d _ =>
    simp only [State.broadcast, State.lineUp, State.setClient]
    by_cases h : c = d
    · subst h
      simp
    · simp [h]

theorem broadcast_waiters : ((s.broadcast push route).client c).waiters =
    (s.client c).waiters ++ if route.head? = some c then [.broadcast push] else [] := by
  cases route with
  | nil => simp [State.broadcast]
  | cons d _ =>
    simp only [State.broadcast, State.lineUp, State.setClient, List.head?_cons,
      Option.some.injEq]
    by_cases h : c = d
    · subst h
      simp
    · simp [h, Ne.symm h]

theorem broadcast_lined : (s.broadcast push route).lined c =
    s.lined c ++ if route.head? = some c then [push] else [] := by
  simp only [State.lined, broadcast_written, broadcast_waiters, List.filterMap_append,
    List.append_assoc]
  split <;> rfl

end Frame

end MeshwardenDaemon.PushFanout
