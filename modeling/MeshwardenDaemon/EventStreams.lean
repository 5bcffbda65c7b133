import MeshwardenDaemon.Library.Runs
import Mathlib.Data.Finset.Erase
import Mathlib.Data.Finset.Insert
import Mathlib.Data.List.ReduceOption

/-! `StreamEvents`. Every stream has a queue of its own, into which each event of the device
goes while there is room; the stream takes its items out one by one and yields those of the
types that were asked for. On shutdown every queue gets an end marker, room or not. -/
namespace MeshwardenDaemon.EventStreams
open Library Runs

structure Event (P : Type) where
  type : String
  payload : P

structure DaemonEvent where
  type : String
  ts : ℕ
  payloadJson : String
  deriving DecidableEq

inductive Phase
  /-- It waits for an item, or takes one. -/
  | getting
  /-- The client has not asked for more yet. -/
  | yielding
  | ended
  deriving DecidableEq

structure Stream where
  wanted : List String
  queue : List (Option DaemonEvent) := []
  phase : Phase := .getting
  yielded : List DaemonEvent := []
  deriving DecidableEq

structure State where
  streams : ℕ → Option Stream
  /-- `_event_streams`. -/
  eventStreams : Finset ℕ

def init : State := ⟨fun _ => none, ∅⟩

inductive Action (P : Type)
  /-- `_on_any_event`, at a time. -/
  | event (e : Event P) (now : ℕ)
  | closeEventStreams
  /-- `StreamEvents` up to its first `get`. -/
  | openStream (i : ℕ) (types : List String)
  /-- A `get` that finds an item. -/
  | get (i : ℕ)
  /-- The client asks for more. -/
  | next (i : ℕ)
  /-- The call is cancelled, and its `finally` runs. -/
  | cancel (i : ℕ)

/-- `not wanted or item.type in wanted`. -/
def wants (wanted : List String) (item : DaemonEvent) : Bool :=
  wanted.isEmpty || wanted.contains item.type

/-- `put_nowait` of an event, unless the consumer is slow. -/
def Stream.offer (item : DaemonEvent) (st : Stream) : Stream :=
  if st.queue.length < 1000 then { st with queue := st.queue ++ [some item] } else st

def Stream.putMarker (st : Stream) : Stream := { st with queue := st.queue ++ [none] }

def Stream.get (st : Stream) : Option Stream :=
  match st.phase, st.queue with
  | .getting, none :: rest => some { st with queue := rest, phase := .ended }
  | .getting, some item :: rest =>
    if wants st.wanted item then
      some { st with queue := rest, phase := .yielding, yielded := st.yielded ++ [item] }
    else some { st with queue := rest }
  | _, _ => none

def Stream.next (st : Stream) : Option Stream :=
  if st.phase = .yielding then some { st with phase := .getting } else none

def Stream.cancel (st : Stream) : Option Stream :=
  if st.phase = .ended then none else some { st with phase := .ended }

/-- The loop over `_event_streams`. -/
def State.forEach (s : State) (f : Stream → Stream) : State :=
  { s with streams := fun i => if i ∈ s.eventStreams then (s.streams i).map f else s.streams i }

/-- A stream goes on; when it has ended its `finally` discards the queue. -/
def State.put (s : State) (i : ℕ) (st : Stream) : State where
  streams := Function.update s.streams i (some st)
  eventStreams := if st.phase = .ended then s.eventStreams.erase i else s.eventStreams

def State.act (s : State) (i : ℕ) (f : Stream → Option Stream) : Option State :=
  (s.streams i).bind fun st => (f st).map (s.put i)

variable {P : Type} (dumps : P → String)

/-- The item of an event; `_dumps` has a text for every payload. -/
def Event.item (e : Event P) (now : ℕ) : DaemonEvent := ⟨e.type, now, dumps e.payload⟩

def step (s : State) : Action P → Option State
  | .event e now => some (s.forEach (Stream.offer (e.item dumps now)))
  | .closeEventStreams => some (s.forEach Stream.putMarker)
  | .openStream i types =>
    if s.streams i = none then
      some { streams := Function.update s.streams i (some { wanted := types })
             eventStreams := insert i s.eventStreams }
    else none
  | .get i => s.act i Stream.get
  | .next i => s.act i Stream.next
  | .cancel i => s.act i Stream.cancel

def State.waiting (s : State) (i : ℕ) : ℕ := (s.streams i).elim 0 fun st => st.queue.length

/-- The wanted events of a stream up to its end marker, of those that find room. -/
def untilMarker (i : ℕ) (wanted : List String) : List (State × Action P) → List DaemonEvent
  | [] => []
  | (_, .closeEventStreams) :: _ => []
  | (s, .event e now) :: rest =>
    if wants wanted (e.item dumps now) && s.waiting i < 1000 then
      e.item dumps now :: untilMarker i wanted rest
    else untilMarker i wanted rest
  | _ :: rest => untilMarker i wanted rest

/-- What the stream has to yield in a run: it begins where the stream subscribes. -/
def due (i : ℕ) : List (State × Action P) → List DaemonEvent
  | [] => []
  | (_, .openStream j types) :: rest => if j = i then untilMarker dumps i types rest else due i rest
  | _ :: rest => due i rest

def wantedOf (wanted : List String) : List (Option DaemonEvent) → List DaemonEvent
  | [] => []
  | none :: _ => []
  | some item :: rest =>
    if wants wanted item then item :: wantedOf wanted rest else wantedOf wanted rest

def Stream.pending (st : Stream) : List DaemonEvent := wantedOf st.wanted st.queue

def concerns (i : ℕ) : Action P → Bool
  | .event _ _ => true
  | .closeEventStreams => true
  | .openStream j _ => j = i
  | .get j => j = i
  | .next j => j = i
  | .cancel j => j = i

def Stream.unlessEnded (f : Stream → Stream) (st : Stream) : Stream :=
  if st.phase = .ended then st else f st

def own : Option Stream → Action P → Option (Option Stream)
  | st, .event e now => some (st.map (Stream.unlessEnded (Stream.offer (e.item dumps now))))
  | st, .closeEventStreams => some (st.map (Stream.unlessEnded Stream.putMarker))
  | none, .openStream _ types => some (some { wanted := types })
  | some _, .openStream _ _ => none
  | st, .get _ => st.bind fun st => st.get.map some
  | st, .next _ => st.bind fun st => st.next.map some
  | st, .cancel _ => st.bind fun st => st.cancel.map some

def Subscribed (s : State) : Prop :=
  ∀ i, i ∈ s.eventStreams ↔ ∃ st, s.streams i = some st ∧ st.phase ≠ .ended

section steps
variable {dumps} {s t : State} {a : Action P} {i : ℕ}

theorem init_subscribed : Subscribed init := by
  intro i
  simp [init]

theorem offer_phase (item : DaemonEvent) (st : Stream) : (st.offer item).phase = st.phase := by
  unfold Stream.offer
  split <;> rfl

theorem unlessEnded_phase {f : Stream → Stream} (keeps : ∀ st, (f st).phase = st.phase)
    (st : Stream) : (st.unlessEnded f).phase = st.phase := by
  unfold Stream.unlessEnded
  split
  · rfl
  · exact keeps st

theorem Subscribed.forEach_own (h : Subscribed s) (f : Stream → Stream) (i : ℕ) :
    (s.forEach f).streams i = (s.streams i).map (Stream.unlessEnded f) := by
  cases stream : s.streams i with
  | none => simp [State.forEach, stream]
  | some st =>
    by_cases ended : st.phase = .ended
    · have out : i ∉ s.eventStreams := by
        rw [h i, stream]
        simp [ended]
      simp [State.forEach, stream, Stream.unlessEnded, out, ended]
    · have subscribed : i ∈ s.eventStreams := (h i).mpr ⟨st, stream, ended⟩
      simp [State.forEach, stream, Stream.unlessEnded, subscribed, ended]

theorem Subscribed.forEach (h : Subscribed s) {f : Stream → Stream}
    (keeps : ∀ st, (f st).phase = st.phase) : Subscribed (s.forEach f) := by
  intro i
  rw [h.forEach_own f i]
  refine (h i).trans ?_
  simp [unlessEnded_phase keeps]

theorem Subscribed.put (h : Subscribed s) {st st' : Stream} (stream : s.streams i = some st)
    (running : st.phase ≠ .ended) : Subscribed (s.put i st') := by
  intro j
  simp only [State.put]
  by_cases same : j = i
  · subst same
    by_cases ended : st'.phase = .ended
    · simp [ended]
    · simpa [ended] using (h j).mpr ⟨st, stream, running⟩
  · rw [Function.update_of_ne same, ← h j]
    split
    · simp [same]
    · rfl

theorem get_running {st st' : Stream} (h : st.get = some st') : st.phase ≠ .ended := by
  intro ended
  simp [Stream.get, ended] at h

theorem next_eq_some {st st' : Stream} :
    st.next = some st' ↔ st.phase = .yielding ∧ { st with phase := .getting } = st' := by
  simp only [Stream.next, Option.ite_none_right_eq_some, Option.some.injEq]

theorem cancel_eq_some {st st' : Stream} :
    st.cancel = some st' ↔ st.phase ≠ .ended ∧ { st with phase := .ended } = st' := by
  simp only [Stream.cancel, Option.ite_none_left_eq_some, Option.some.injEq, ne_eq]

theorem Subscribed.act (h : Subscribed s) {f : Stream → Option Stream}
    (running : ∀ {st st'}, f st = some st' → st.phase ≠ .ended) (hs : s.act i f = some t) :
    Subscribed t := by
  simp only [State.act, Option.bind_eq_some_iff, Option.map_eq_some_iff] at hs
  obtain ⟨st, stream, st', acted, rfl⟩ := hs
  exact h.put stream (running acted)

theorem Subscribed.step (h : Subscribed s) (hs : step dumps s a = some t) : Subscribed t := by
  cases a with
  | event e now =>
    obtain rfl := Option.some.inj hs
    exact h.forEach (offer_phase _)
  | closeEventStreams =>
    obtain rfl := Option.some.inj hs
    exact h.forEach fun _ => rfl
  | openStream i types =>
    simp only [EventStreams.step, Option.ite_none_right_eq_some, Option.some.injEq] at hs
    obtain ⟨fresh, rfl⟩ := hs
    intro j
    by_cases same : j = i
    · subst same
      simp
    · simp [same, h j]
  | get i => exact h.act get_running hs
  | next i =>
    refine h.act (fun {st st'} resumed => ?_) hs
    rw [(next_eq_some.mp resumed).1]
    nofun
  | cancel i => exact h.act (fun cancelled => (cancel_eq_some.mp cancelled).1) hs

theorem act_own {j : ℕ} {f : Stream → Option Stream} (hs : s.act j f = some t) :
    (s.streams j).bind (fun st => (f st).map some) = some (t.streams j) ∧
      ∀ i, i ≠ j → t.streams i = s.streams i := by
  simp only [State.act, Option.bind_eq_some_iff, Option.map_eq_some_iff] at hs
  obtain ⟨st, stream, st', acted, rfl⟩ := hs
  refine ⟨by simp [stream, acted, State.put], fun i other => ?_⟩
  simp [State.put, other]

theorem step_own (h : Subscribed s) (hs : step dumps s a = some t) (mine : concerns i a = true) :
    own dumps (s.streams i) a = some (t.streams i) := by
  cases a with
  | event e now =>
    obtain rfl := Option.some.inj hs
    rw [h.forEach_own]
    rfl
  | closeEventStreams =>
    obtain rfl := Option.some.inj hs
    rw [h.forEach_own]
    rfl
  | openStream j types =>
    obtain rfl : j = i := by simpa [concerns] using mine
    simp only [EventStreams.step, Option.ite_none_right_eq_some, Option.some.injEq] at hs
    obtain ⟨fresh, rfl⟩ := hs
    simp [own, fresh]
  | get j | next j | cancel j =>
    obtain rfl : j = i := by simpa [concerns] using mine
    exact (act_own hs).1

theorem step_other (hs : step dumps s a = some t) (other : concerns i a = false) :
    t.streams i = s.streams i := by
  cases a with
  | event e now => cases other
  | closeEventStreams => cases other
  | openStream j types =>
    have apart : i ≠ j := by simpa [concerns, eq_comm] using other
    simp only [EventStreams.step, Option.ite_none_right_eq_some, Option.some.injEq] at hs
    obtain ⟨fresh, rfl⟩ := hs
    simp [apart]
  | get j | next j | cancel j =>
    exact (act_own hs).2 i (by simpa [concerns, eq_comm] using other)

theorem run_own {as : List (Action P)} (hr : run (step dumps) init as = some t) :
    run (own dumps) none (as.filter (concerns i)) = some (t.streams i) :=
  project (fun s : State => s.streams i) (fun _ _ _ h hs => h.step hs)
    (fun _ _ _ h hs mine => step_own h hs mine) (fun _ _ _ _ hs other => step_other hs other)
    init_subscribed hr

theorem own_cases {st : Stream} {o : Option Stream} (h : own dumps (some st) a = some o) :
    ∃ st', o = some st' ∧
      ((∃ e now, a = .event e now ∧ st.unlessEnded (Stream.offer (e.item dumps now)) = st') ∨
        (a = .closeEventStreams ∧ st.unlessEnded Stream.putMarker = st') ∨
        (∃ j, a = .get j ∧ st.get = some st') ∨
        (∃ j, a = .next j ∧ st.phase = .yielding ∧ { st with phase := .getting } = st') ∨
        ∃ j, a = .cancel j ∧ st.phase ≠ .ended ∧ { st with phase := .ended } = st') := by
  cases a with
  | event e now =>
    obtain rfl := Option.some.inj h
    exact ⟨_, rfl, Or.inl ⟨e, now, rfl, rfl⟩⟩
  | closeEventStreams =>
    obtain rfl := Option.some.inj h
    exact ⟨_, rfl, Or.inr (Or.inl ⟨rfl, rfl⟩)⟩
  | openStream j types => cases h
  | get j =>
    obtain ⟨st', got, rfl⟩ := Option.map_eq_some_iff.mp h
    exact ⟨st', rfl, Or.inr (Or.inr (Or.inl ⟨j, rfl, got⟩))⟩
  | next j =>
    obtain ⟨st', resumed, rfl⟩ := Option.map_eq_some_iff.mp h
    exact ⟨st', rfl, Or.inr (Or.inr (Or.inr (Or.inl ⟨j, rfl, next_eq_some.mp resumed⟩)))⟩
  | cancel j =>
    obtain ⟨st', cancelled, rfl⟩ := Option.map_eq_some_iff.mp h
    exact ⟨st', rfl, Or.inr (Or.inr (Or.inr (Or.inr ⟨j, rfl, cancel_eq_some.mp cancelled⟩)))⟩

theorem wantedOf_append {wanted : List String} {queue more : List (Option DaemonEvent)}
    (unmarked : none ∉ queue) :
    wantedOf wanted (queue ++ more) = wantedOf wanted queue ++ wantedOf wanted more := by
  induction queue with
  | nil => rfl
  | cons x queue ih =>
    obtain ⟨first, rest⟩ := List.ne_and_not_mem_of_not_mem_cons unmarked
    cases x with
    | none => exact absurd rfl first
    | some item =>
      simp only [List.cons_append, wantedOf, ih rest]
      split <;> rfl

/-- What comes after the end marker does not count. -/
theorem wantedOf_append_marked {wanted : List String} {queue more : List (Option DaemonEvent)}
    (marked : none ∈ queue) : wantedOf wanted (queue ++ more) = wantedOf wanted queue := by
  induction queue with
  | nil => cases marked
  | cons x queue ih =>
    cases x with
    | none => rfl
    | some item =>
      have rest : none ∈ queue := by simpa using marked
      simp only [List.cons_append, wantedOf, ih rest]

variable (dumps i) in
def Stream.owed (st : Stream) (rest : List (State × Action P)) : List DaemonEvent :=
  st.pending ++ if none ∈ st.queue then [] else untilMarker dumps i st.wanted rest

theorem owed_offer {st : Stream} {e : Event P} {now : ℕ} {rest : List (State × Action P)}
    (stream : s.streams i = some st) :
    (st.offer (e.item dumps now)).owed dumps i rest =
      st.owed dumps i ((s, .event e now) :: rest) := by
  have waiting : s.waiting i = st.queue.length := by simp [State.waiting, stream]
  simp only [Stream.owed, untilMarker, waiting]
  by_cases room : st.queue.length < 1000
  · simp only [Stream.offer, if_pos room, Stream.pending]
    by_cases marked : none ∈ st.queue
    · simp [wantedOf_append_marked marked, marked]
    · by_cases wanted : wants st.wanted (e.item dumps now) = true
      · simp [wantedOf_append marked, wantedOf, marked, wanted, room]
      · simp [wantedOf_append marked, wantedOf, marked, wanted]
  · simp [Stream.offer, room]

theorem owed_putMarker {st : Stream} {rest : List (State × Action P)} :
    st.putMarker.owed dumps i rest = st.owed dumps i ((s, .closeEventStreams) :: rest) := by
  simp only [Stream.owed, Stream.putMarker, Stream.pending, untilMarker]
  by_cases marked : none ∈ st.queue
  · simp [wantedOf_append_marked marked, marked]
  · simp [wantedOf_append marked, wantedOf]

theorem get_owed {st st' : Stream} (h : st.get = some st') :
    st'.phase = .ended ∧ st'.yielded = st.yielded ∨
      st'.phase ≠ .ended ∧ ∀ rest : List (State × Action P),
        st'.yielded ++ st'.owed dumps i rest = st.yielded ++ st.owed dumps i rest := by
  unfold Stream.get at h
  split at h
  · obtain rfl := Option.some.inj h
    exact Or.inl ⟨rfl, rfl⟩
  · rename_i item queue phase waiting
    refine Or.inr ?_
    split at h
    · rename_i wanted
      obtain rfl := Option.some.inj h
      simp [Stream.owed, Stream.pending, waiting, wantedOf, wanted]
    · rename_i unwanted
      obtain rfl := Option.some.inj h
      simp [Stream.owed, Stream.pending, waiting, wantedOf, unwanted, phase]
  · cases h

theorem step_owed {st : Stream} (h : Subscribed s) (stream : s.streams i = some st)
    (running : st.phase ≠ .ended) (hs : step dumps s a = some t) :
    ∃ st', t.streams i = some st' ∧
      (st'.phase = .ended ∧ st'.yielded = st.yielded ∨
        st'.phase ≠ .ended ∧ ∀ rest, st'.yielded ++ st'.owed dumps i rest =
          st.yielded ++ st.owed dumps i ((s, a) :: rest)) := by
  have untouched : ∀ f, st.unlessEnded f = f st := fun f => if_neg running
  by_cases mine : concerns i a = true
  · have moved := step_own h hs mine
    rw [stream] at moved
    obtain ⟨st', here, ⟨e, now, rfl, rfl⟩ | ⟨rfl, rfl⟩ | ⟨j, rfl, got⟩ | ⟨j, rfl, -, rfl⟩ |
      ⟨j, rfl, -, rfl⟩⟩ := own_cases moved
    · refine ⟨_, here, Or.inr ⟨?_, fun rest => ?_⟩⟩
      · rwa [untouched, offer_phase]
      · rw [untouched, owed_offer stream]
        unfold Stream.offer
        split <;> rfl
    · refine ⟨_, here, Or.inr ⟨?_, fun rest => ?_⟩⟩
      · rwa [untouched]
      · rw [untouched, owed_putMarker (s := s)]
        rfl
    · exact ⟨st', here, get_owed got⟩
    · exact ⟨_, here, Or.inr ⟨nofun, fun rest => rfl⟩⟩
    · exact ⟨_, here, Or.inl ⟨rfl, rfl⟩⟩
  · have same := step_other hs (by simpa using mine)
    refine ⟨st, same.trans stream, Or.inr ⟨running, fun rest => ?_⟩⟩
    cases a with
    | event | closeEventStreams => exact absurd rfl mine
    | openStream | get | next | cancel => rfl

theorem step_ended {st : Stream} (h : Subscribed s) (stream : s.streams i = some st)
    (ended : st.phase = .ended) (hs : step dumps s a = some t) : t.streams i = some st := by
  by_cases mine : concerns i a = true
  · have moved := step_own h hs mine
    rw [stream] at moved
    obtain ⟨st', here, ⟨e, now, -, rfl⟩ | ⟨-, rfl⟩ | ⟨j, -, got⟩ | ⟨j, -, yielding, -⟩ |
      ⟨j, -, running, -⟩⟩ := own_cases moved
    · rw [here, Stream.unlessEnded, if_pos ended]
    · rw [here, Stream.unlessEnded, if_pos ended]
    · exact absurd ended (get_running got)
    · rw [yielding] at ended
      cases ended
    · exact absurd ended running
  · exact (step_other hs (by simpa using mine)).trans stream

theorem run_ended {st : Stream} {as : List (Action P)} (h : Subscribed s)
    (stream : s.streams i = some st) (ended : st.phase = .ended)
    (hr : run (step dumps) s as = some t) : t.streams i = some st :=
  (reachable (I := fun s => Subscribed s ∧ s.streams i = some st)
    (fun _ _ _ hI hs => ⟨hI.1.step hs, step_ended hI.1 hI.2 ended hs⟩) ⟨h, stream⟩ hr).2

theorem run_owed {st : Stream} {as : List (Action P)} (h : Subscribed s)
    (stream : s.streams i = some st) (running : st.phase ≠ .ended)
    (hr : run (step dumps) s as = some t) : ∃ st', t.streams i = some st' ∧
      st'.yielded <+: st.yielded ++ st.owed dumps i (trace (step dumps) s as) ∧
      (st'.phase ≠ .ended → st'.yielded ++ st'.pending =
        st.yielded ++ st.owed dumps i (trace (step dumps) s as)) := by
  induction as generalizing s st with
  | nil =>
    rw [run_nil, Option.some.injEq] at hr
    have owes : st.owed dumps i [] = st.pending := by simp [Stream.owed, untilMarker]
    refine ⟨st, hr ▸ stream, List.prefix_append _ _, fun _ => ?_⟩
    rw [trace, owes]
  | cons a as ih =>
    obtain ⟨u, hu, hr⟩ := run_cons.mp hr
    rw [trace_cons hu]
    obtain ⟨st', here, ⟨ended, yielded⟩ | ⟨going, same⟩⟩ := step_owed h stream running hu
    · refine ⟨st', run_ended (h.step hu) here ended hr, ?_, fun other => absurd ended other⟩
      rw [yielded]
      exact List.prefix_append _ _
    · simp only [← same]
      exact ih (h.step hu) here going hr

theorem run_due {st : Stream} {as : List (Action P)} (h : Subscribed s)
    (unopened : s.streams i = none) (hr : run (step dumps) s as = some t)
    (stream : t.streams i = some st) :
    st.yielded <+: due dumps i (trace (step dumps) s as) ∧
      (st.phase ≠ .ended →
        st.yielded ++ st.pending = due dumps i (trace (step dumps) s as)) := by
  induction as generalizing s with
  | nil =>
    rw [run_nil, Option.some.injEq] at hr
    subst hr
    exact absurd (unopened.symm.trans stream) nofun
  | cons a as ih =>
    obtain ⟨u, hu, later⟩ := run_cons.mp hr
    rw [trace_cons hu]
    by_cases opens : ∃ types, a = .openStream i types
    · obtain ⟨types, rfl⟩ := opens
      have opened : u.streams i = some { wanted := types } := by
        have moved := step_own (i := i) h hu (by simp [concerns])
        simpa [own, unopened, eq_comm] using moved
      obtain ⟨st', here, yields⟩ := run_owed (h.step hu) opened nofun later
      obtain rfl := Option.some.inj (here.symm.trans stream)
      simpa [due, Stream.owed, Stream.pending, wantedOf] using yields
    · have still : u.streams i = none := by
        by_cases mine : concerns i a = true
        · have moved := step_own h hu mine
          rw [unopened] at moved
          cases a with
          | event | closeEventStreams => simpa [own, eq_comm] using moved
          | openStream j types =>
            obtain rfl : j = i := by simpa [concerns] using mine
            exact absurd ⟨types, rfl⟩ opens
          | get | next | cancel => simp [own] at moved
        · exact (step_other hu (by simpa using mine)).trans unopened
      have skips : due dumps i ((s, a) :: trace (step dumps) u as) =
          due dumps i (trace (step dumps) u as) := by
        cases a with
        | openStream j types =>
          rw [due, if_neg]
          rintro rfl
          exact opens ⟨types, rfl⟩
        | event | closeEventStreams | get | next | cancel => rfl
      rw [skips]
      exact ih (h.step hu) still later

def Stream.Bounded (st : Stream) : Prop := st.queue.reduceOption.length ≤ 1000

theorem unlessEnded_bounded {st : Stream} {f : Stream → Stream} (h : st.Bounded)
    (kept : (f st).Bounded) : (st.unlessEnded f).Bounded := by
  unfold Stream.unlessEnded
  split
  · exact h
  · exact kept

theorem offer_bounded {item : DaemonEvent} {st : Stream} (h : st.Bounded) :
    (st.offer item).Bounded := by
  unfold Stream.offer
  split
  · rename_i room
    have size := List.reduceOption_length_le st.queue
    have one : [some item].reduceOption.length = 1 := rfl
    rw [Stream.Bounded, List.reduceOption_append, List.length_append, one]
    omega
  · exact h

theorem get_bounded {st st' : Stream} (h : st.Bounded) (got : st.get = some st') :
    st'.Bounded := by
  unfold Stream.get at got
  split at got
  · rename_i waiting
    obtain rfl := Option.some.inj got
    simpa [Stream.Bounded, waiting] using h
  · rename_i waiting
    simp only [Stream.Bounded, waiting, List.reduceOption_cons_of_some, List.length_cons] at h
    split at got <;>
    · obtain rfl := Option.some.inj got
      simp only [Stream.Bounded]
      omega
  · cases got

theorem own_bounded {o o' : Option Stream} (ho : ∀ st ∈ o, st.Bounded)
    (hs : own dumps o a = some o') : ∀ st ∈ o', st.Bounded := by
  cases o with
  | none =>
    cases a with
    | event | closeEventStreams =>
      simp only [own, Option.map_none, Option.some.injEq] at hs
      simp [← hs]
    | openStream i types =>
      obtain rfl := Option.some.inj hs
      simp [Stream.Bounded]
    | get | next | cancel => cases hs
  | some st =>
    have bounded := ho st rfl
    obtain ⟨st', rfl, ⟨e, now, -, rfl⟩ | ⟨-, rfl⟩ | ⟨j, -, got⟩ | ⟨j, -, -, rfl⟩ |
      ⟨j, -, -, rfl⟩⟩ := own_cases hs
    · rintro _ ⟨⟩
      exact unlessEnded_bounded bounded (offer_bounded bounded)
    · rintro _ ⟨⟩
      refine unlessEnded_bounded bounded ?_
      simpa [Stream.Bounded, Stream.putMarker, List.reduceOption_append] using bounded
    · rintro _ ⟨⟩
      exact get_bounded bounded got
    · rintro _ ⟨⟩
      exact bounded
    · rintro _ ⟨⟩
      exact bounded

theorem run_bounded {as : List (Action P)} (hr : run (step dumps) init as = some t) :
    ∀ st ∈ t.streams i, st.Bounded :=
  reachable (I := fun o : Option Stream => ∀ st ∈ o, st.Bounded)
    (fun _ _ _ ho hs => own_bounded ho hs) (by simp) (run_own (i := i) hr)

end steps

/-- Whatever the other streams do: a stream yields, one after the other, a first part of the
wanted events between its subscription and its end marker, except those that came while its
own queue was full. -/
theorem streams_yield_due {t : State} {as : List (Action P)}
    (hr : run (step dumps) init as = some t) :
    (∀ i st, t.streams i = some st →
      st.yielded <+: due dumps i (trace (step dumps) init as) ∧
      (st.phase ≠ .ended →
        st.yielded ++ st.pending = due dumps i (trace (step dumps) init as)) ∧
      st.queue.reduceOption.length ≤ 1000 ∧
      (st.phase = .ended → i ∉ t.eventStreams)) ∧
    ∀ i bs u, run (step dumps) init bs = some u →
      as.filter (concerns i) = bs.filter (concerns i) → t.streams i = u.streams i := by
  refine ⟨fun i st stream => ?_, fun i bs u hu same => ?_⟩
  · obtain ⟨first, all⟩ := run_due init_subscribed rfl hr stream
    refine ⟨first, all, run_bounded hr st stream, fun ended subscribed => ?_⟩
    have invariant := reachable (I := Subscribed) (fun _ _ _ h hs => h.step hs) init_subscribed hr
    obtain ⟨st', here, running⟩ := (invariant i).mp subscribed
    obtain rfl := Option.some.inj (here.symm.trans stream)
    exact running ended
  · have mine := run_own (i := i) hr
    rw [same, run_own hu] at mine
    exact (Option.some.inj mine).symm

def shutdown : List (Action String) :=
  [.openStream 0 ["advert"], .event ⟨"ack", "1"⟩ 7, .event ⟨"advert", "2"⟩ 8, .closeEventStreams,
    .event ⟨"advert", "3"⟩ 9, .get 0, .get 0, .next 0, .get 0]

theorem streams_yield_due_shutdown : ∃ t st, run (step id) init shutdown = some t ∧
    t.streams 0 = some st ∧ st.yielded = [⟨"advert", 8, "2"⟩] ∧
    st.yielded <+: due id 0 (trace (step id) init shutdown) ∧ 0 ∉ t.eventStreams := by
  have hr : run (step id) init shutdown = some _ := rfl
  have result := streams_yield_due id hr
  exact ⟨_, _, hr, rfl, rfl, (result.1 0 _ rfl).1, (result.1 0 _ rfl).2.2.2 rfl⟩

end MeshwardenDaemon.EventStreams
