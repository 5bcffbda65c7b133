import MeshwardenDaemon.Library.Runs

/-! The message pump: `_message_pump` with the event that wakes it, the clients whose
presence forbids it to fetch, and the command slot it shares with everybody else. The
node appears as a queue of messages, the fetch commands under way to it and the frames
under way back, which arrive in the order in which it sent them; a push may then be held
up in the broadcast to the clients before its event is dispatched. -/
namespace MeshwardenDaemon.MessagePump
open Library

inductive FetchMode
  | auto | always | never
  deriving DecidableEq

structure Settings where
  messageFetchMode : FetchMode
  proxyMaxClients : ℕ

abbrev ClientId := ℕ
abbrev Conn := ℕ

/-- What the events that can answer `get_msg` are to the pump. -/
inductive Result
  /-- CONTACT_MSG_RECV or CHANNEL_MSG_RECV. -/
  | message
  | noMoreMsgs
  | error
  deriving DecidableEq

inductive Kind
  | answer (result : Result)
  | messagesWaiting
  deriving DecidableEq

structure Rx where
  conn : Conn
  kind : Kind
  deriving DecidableEq

/-- The await the pump stands at; a fetch keeps the connection it read. -/
inductive Pump
  /-- At `_msgs_waiting.wait()`. -/
  | parked
  | waiting (mc : Conn)
  /-- It has the command slot, `get_msg` is not yet sent. -/
  | holding (mc : Conn)
  | running (mc : Conn)
  | sleeping
  | ended
  deriving DecidableEq

def Pump.fetch : Pump → Option Conn
  | .waiting mc | .holding mc | .running mc => some mc
  | _ => none

inductive Holder
  | pump | other
  deriving DecidableEq

structure State where
  mc : Option Conn
  connected : Bool
  connections : ℕ
  stop : Bool
  msgsWaiting : Bool
  clients : List ClientId
  pump : Pump
  commandLock : Option Holder
  /-- The messages queued in the node. -/
  queued : ℕ
  requests : ℕ
  wire : List Rx
  /-- The connections of the pushes whose dispatch has begun. -/
  held : List Conn
  /-- Ghost: the last `get_msg` ended in an ERROR event or an exception. -/
  failed : Bool
  /-- Ghost: the clients that connected after the pump last looked at them. -/
  newcomers : List ClientId

def init (queued : ℕ) : State where
  mc := none
  connected := false
  connections := 0
  stop := false
  msgsWaiting := false
  clients := []
  pump := .parked
  commandLock := none
  queued := queued
  requests := 0
  wire := []
  held := []
  failed := false
  newcomers := []

inductive Action
  /-- A message reaches the node. -/
  | arrive
  /-- The node answers the next SYNC_NEXT_MESSAGE it has received. -/
  | answer
  | refuse
  /-- The dispatch of the next frame begins. -/
  | receive
  /-- The next frame was sent on a connection that is gone, and is lost with it. -/
  | drop
  /-- `_on_messages_waiting` runs for the push at `k`. -/
  | onMessagesWaiting (k : ℕ)
  | join (client : ClientId)
  | leave (client : ClientId)
  | connect
  | lose
  /-- `mc.disconnect()` is over. -/
  | close
  | wake
  | acquire
  | send
  /-- The transport it is written to is closed. -/
  | sendLost
  /-- The library gives the command up and returns an ERROR event. -/
  | timeout
  | raise
  /-- The pump's `sleep` is over. -/
  | resume
  | otherAcquires
  | otherFetches
  | otherReleases
  | stop
  | cancel
  deriving DecidableEq

def State.isConnected (s : State) : Bool := s.mc.isSome && s.connected

def State.fetchAllowed (P : Settings) (s : State) : Bool :=
  match P.messageFetchMode with
  | .always => true
  | .never => false
  | .auto => s.clients.isEmpty

def State.fetchOrPark (P : Settings) (s : State) : State :=
  match s.mc with
  | some mc =>
    if s.connected && s.fetchAllowed P then { s with pump := .waiting mc, newcomers := [] }
    else { s with pump := .parked }
  | none => { s with pump := .parked }

def State.finish (s : State) (result : Result) : State :=
  { s with
    commandLock := none
    pump := if result = .message then .sleeping else .parked
    failed := result = .error }

def step (P : Settings) (s : State) : Action → Option State
  | .arrive =>
    match s.mc with
    | some mc =>
      if s.connected then
        some { s with queued := s.queued + 1, wire := s.wire ++ [⟨mc, .messagesWaiting⟩] }
      else some { s with queued := s.queued + 1 }
    | none => some { s with queued := s.queued + 1 }
  | .answer =>
    match s.mc with
    | some mc =>
      if s.requests = 0 then none
      else if s.queued = 0 then
        some { s with
          requests := s.requests - 1, wire := s.wire ++ [⟨mc, .answer .noMoreMsgs⟩] }
      else
        some { s with
          requests := s.requests - 1, queued := s.queued - 1
          wire := s.wire ++ [⟨mc, .answer .message⟩] }
    | none => none
  | .refuse =>
    match s.mc with
    | some mc =>
      if s.requests = 0 then none
      else some { s with requests := s.requests - 1, wire := s.wire ++ [⟨mc, .answer .error⟩] }
    | none => none
  | .receive =>
    match s.wire with
    | ⟨mc, .messagesWaiting⟩ :: rest => some { s with wire := rest, held := s.held ++ [mc] }
    | ⟨mc, .answer result⟩ :: rest =>
      -- an answer that nobody waits for any more is dropped by the dispatcher
      if s.pump = .running mc then some ({ s with wire := rest }.finish result)
      else some { s with wire := rest }
    | [] => none
  | .drop =>
    match s.wire with
    | rx :: rest => if s.mc = some rx.conn then none else some { s with wire := rest }
    | [] => none
  | .onMessagesWaiting k =>
    if k < s.held.length then
      some { s with held := s.held.eraseIdx k, msgsWaiting := true }
    else none
  | .join client =>
    if client ∈ s.clients ∨ P.proxyMaxClients ≤ s.clients.length then none
    else some { s with
      clients := client :: s.clients, newcomers := client :: s.newcomers }
  | .leave client =>
    if client ∈ s.clients then
      some { s with
        clients := s.clients.erase client
        msgsWaiting := s.msgsWaiting || (s.clients.erase client).isEmpty }
    else none
  | .connect =>
    if s.mc = none then
      some { s with
        mc := some s.connections, connected := true, connections := s.connections + 1
        msgsWaiting := true, requests := 0 }
    else none
  | .lose => if s.isConnected then some { s with connected := false } else none
  | .close =>
    if s.mc.isSome && !s.connected then some { s with mc := none } else none
  | .wake =>
    if s.pump = .parked ∧ s.msgsWaiting = true then
      if s.stop then some { s with msgsWaiting := false, pump := .ended }
      else some ({ s with msgsWaiting := false }.fetchOrPark P)
    else none
  | .acquire =>
    match s.pump with
    | .waiting mc =>
      if s.commandLock = none then
        some { s with commandLock := some .pump, pump := .holding mc }
      else none
    | _ => none
  | .send =>
    match s.pump with
    | .holding mc =>
      if s.mc = some mc then
        some { s with pump := .running mc, requests := s.requests + 1 }
      else none
    | _ => none
  | .sendLost =>
    match s.pump with
    | .holding mc => if s.mc = some mc then none else some { s with pump := .running mc }
    | _ => none
  | .timeout =>
    match s.pump with
    | .running _ => some (s.finish .error)
    | _ => none
  | .raise =>
    match s.pump with
    | .holding _ | .running _ => some (s.finish .error)
    | _ => none
  | .resume => if s.pump = .sleeping then some (s.fetchOrPark P) else none
  | .otherAcquires =>
    if s.commandLock = none then some { s with commandLock := some .other } else none
  | .otherFetches =>
    if s.commandLock = some .other then some { s with requests := s.requests + 1 } else none
  | .otherReleases =>
    if s.commandLock = some .other then some { s with commandLock := none } else none
  | .stop => some { s with stop := true, msgsWaiting := true }
  | .cancel =>
    if s.stop then
      some { s with
        pump := .ended
        commandLock := if s.commandLock = some .pump then none else s.commandLock }
    else none

section cases
variable {P : Settings} {s t : State}

theorem arrive_cases (hs : step P s .arrive = some t) :
    (∃ c, s.mc = some c ∧ s.connected = true ∧
      t = { s with queued := s.queued + 1, wire := s.wire ++ [⟨c, .messagesWaiting⟩] }) ∨
    s.isConnected = false ∧ t = { s with queued := s.queued + 1 } := by
  simp only [step] at hs
  split at hs
  · rename_i c up
    split at hs <;> cases hs
    · rename_i connected
      exact Or.inl ⟨c, up, connected, rfl⟩
    · rename_i down
      exact Or.inr ⟨by simpa [State.isConnected] using fun _ => down, rfl⟩
  · rename_i none
    cases hs
    exact Or.inr ⟨by simp [State.isConnected, none], rfl⟩

theorem answer_cases (hs : step P s .answer = some t) :
    ∃ c, s.mc = some c ∧ 0 < s.requests ∧
      (s.queued = 0 ∧ t = { s with
        requests := s.requests - 1, wire := s.wire ++ [⟨c, .answer .noMoreMsgs⟩] } ∨
      0 < s.queued ∧ t = { s with
        requests := s.requests - 1, queued := s.queued - 1
        wire := s.wire ++ [⟨c, .answer .message⟩] }) := by
  simp only [step] at hs
  split at hs
  · rename_i c up
    simp only [Option.ite_none_left_eq_some] at hs
    obtain ⟨asked, hs⟩ := hs
    refine ⟨c, up, Nat.pos_of_ne_zero asked, ?_⟩
    split at hs <;> cases hs
    · rename_i empty
      exact Or.inl ⟨empty, rfl⟩
    · rename_i some
      exact Or.inr ⟨Nat.pos_of_ne_zero some, rfl⟩
  · cases hs

theorem refuse_cases (hs : step P s .refuse = some t) :
    ∃ c, s.mc = some c ∧ 0 < s.requests ∧ t = { s with
      requests := s.requests - 1, wire := s.wire ++ [⟨c, .answer .error⟩] } := by
  simp only [step] at hs
  split at hs
  · rename_i c up
    simp only [Option.ite_none_left_eq_some, Option.some.injEq] at hs
    exact ⟨c, up, Nat.pos_of_ne_zero hs.1, hs.2.symm⟩
  · cases hs

theorem receive_cases (hs : step P s .receive = some t) :
    (∃ c rest, s.wire = ⟨c, .messagesWaiting⟩ :: rest ∧
      t = { s with wire := rest, held := s.held ++ [c] }) ∨
    ∃ c result rest, s.wire = ⟨c, .answer result⟩ :: rest ∧
      (s.pump = .running c ∧ t = { s with wire := rest }.finish result ∨
        s.pump ≠ .running c ∧ t = { s with wire := rest }) := by
  simp only [step] at hs
  split at hs
  · rename_i c rest wire
    cases hs
    exact Or.inl ⟨c, rest, wire, rfl⟩
  · rename_i c result rest wire
    refine Or.inr ⟨c, result, rest, wire, ?_⟩
    split at hs <;> cases hs
    · rename_i running
      exact Or.inl ⟨running, rfl⟩
    · rename_i apart
      exact Or.inr ⟨apart, rfl⟩
  · cases hs

theorem drop_cases (hs : step P s .drop = some t) :
    ∃ rx rest, s.wire = rx :: rest ∧ s.mc ≠ some rx.conn ∧ t = { s with wire := rest } := by
  simp only [step] at hs
  split at hs
  · rename_i rx rest wire
    simp only [Option.ite_none_left_eq_some, Option.some.injEq] at hs
    exact ⟨rx, rest, wire, hs.1, hs.2.symm⟩
  · cases hs

theorem wake_cases (hs : step P s .wake = some t) :
    s.pump = .parked ∧ s.msgsWaiting = true ∧
      (s.stop = true ∧ t = { s with msgsWaiting := false, pump := .ended } ∨
        t = { s with msgsWaiting := false }.fetchOrPark P) := by
  simp only [step, Option.ite_none_right_eq_some] at hs
  obtain ⟨⟨parked, set⟩, hs⟩ := hs
  refine ⟨parked, set, ?_⟩
  split at hs <;> cases hs
  · rename_i stop
    exact Or.inl ⟨stop, rfl⟩
  · exact Or.inr rfl

end cases

/-- Who is there while a fetch waits to be sent has come since the pump looked. -/
def Looked (s : State) : Prop :=
  ∀ mc, s.pump = .waiting mc ∨ s.pump = .holding mc → ∀ c ∈ s.clients, c ∈ s.newcomers

section Looked
variable {P : Settings} {s t : State} {a : Action}

theorem init_looked (queued : ℕ) : Looked (init queued) := by
  intro mc h
  simp [init] at h

theorem fetchOrPark_looked (auto : P.messageFetchMode = .auto) (s : State) :
    Looked (s.fetchOrPark P) := by
  unfold State.fetchOrPark
  split
  · split
    · rename_i look
      simp only [State.fetchAllowed, auto, Bool.and_eq_true, List.isEmpty_iff] at look
      intro mc _ c hc
      simp [look.2] at hc
    · intro mc h
      simp at h
  · intro mc h
    simp at h

theorem finish_looked (s : State) (result : Result) : Looked (s.finish result) := by
  intro mc h
  cases result <;> simp [State.finish] at h

theorem Looked.of_eq (h : Looked s) (pump : t.pump = s.pump) (clients : t.clients = s.clients)
    (newcomers : t.newcomers = s.newcomers) : Looked t := by
  intro mc hp c hc
  rw [pump] at hp
  rw [newcomers]
  exact h mc hp c (clients ▸ hc)

theorem Looked.step (auto : P.messageFetchMode = .auto) (h : Looked s)
    (hs : MessagePump.step P s a = some t) : Looked t := by
  cases a with
  | join client =>
    simp only [MessagePump.step, Option.ite_none_left_eq_some, Option.some.injEq] at hs
    obtain ⟨-, rfl⟩ := hs
    intro mc hp c hc
    rcases List.mem_cons.mp hc with rfl | hc
    · exact List.mem_cons_self
    · exact List.mem_cons_of_mem _ (h mc hp c hc)
  | leave client =>
    simp only [MessagePump.step, Option.ite_none_right_eq_some, Option.some.injEq] at hs
    obtain ⟨-, rfl⟩ := hs
    exact fun mc hp c hc => h mc hp c (List.mem_of_mem_erase hc)
  | wake =>
    obtain ⟨-, -, ⟨-, rfl⟩ | rfl⟩ := wake_cases hs
    · intro mc hp
      simp at hp
    · exact fetchOrPark_looked auto _
  | resume =>
    simp only [MessagePump.step, Option.ite_none_right_eq_some, Option.some.injEq] at hs
    obtain ⟨-, rfl⟩ := hs
    exact fetchOrPark_looked auto _
  | acquire =>
    simp only [MessagePump.step] at hs
    split at hs
    · rename_i mc phase
      simp only [Option.ite_none_right_eq_some, Option.some.injEq] at hs
      obtain ⟨-, rfl⟩ := hs
      exact fun _ _ c hc => h mc (Or.inl phase) c hc
    · cases hs
  | receive =>
    obtain ⟨c, rest, -, rfl⟩ | ⟨c, result, rest, -, ⟨-, rfl⟩ | ⟨-, rfl⟩⟩ := receive_cases hs
    · exact h.of_eq rfl rfl rfl
    · exact finish_looked _ _
    · exact h.of_eq rfl rfl rfl
  | timeout | raise =>
    simp only [MessagePump.step] at hs
    split at hs <;> cases hs <;> exact finish_looked _ _
  | send | sendLost =>
    simp only [MessagePump.step] at hs
    split at hs
    · split at hs <;> cases hs
      intro mc hp
      simp at hp
    · cases hs
  | cancel =>
    simp only [MessagePump.step, Option.ite_none_right_eq_some, Option.some.injEq] at hs
    obtain ⟨-, rfl⟩ := hs
    intro mc hp
    simp at hp
  | arrive | answer | refuse | drop | onMessagesWaiting | connect | lose | close
  | otherAcquires | otherFetches | otherReleases | stop =>
    -- none of them touches the pump or the clients
    simp only [MessagePump.step] at hs
    repeat' split at hs
    all_goals cases hs
    all_goals exact h

end Looked

/-- `get_msg` is sent only while no client is connected. -/
def FetchesAlone (s : State) (a : Action) : Prop := a = .send → s.clients = []

/-- Every client that came while the fetch waited to be sent has left again. -/
def NewcomersLeft (s : State) (a : Action) : Prop :=
  a = .send → ∀ c ∈ s.newcomers, c ∉ s.clients

instance (s : State) (a : Action) : Decidable (FetchesAlone s a) :=
  inferInstanceAs (Decidable (_ → _))

instance (s : State) (a : Action) : Decidable (NewcomersLeft s a) :=
  inferInstanceAs (Decidable (_ → _))

theorem send_holding {P : Settings} {s t : State} (hs : step P s .send = some t) :
    ∃ mc, s.pump = .holding mc := by
  simp only [step] at hs
  split at hs
  · exact ⟨_, ‹_›⟩
  · cases hs

theorem fetchesAlone_iff {P : Settings} {s t : State} {a : Action} (looked : Looked s)
    (hs : step P s a = some t) : FetchesAlone s a ↔ NewcomersLeft s a := by
  refine ⟨fun alone sends c _ hc => ?_, fun left sends => ?_⟩
  · simp [alone sends] at hc
  · subst sends
    obtain ⟨mc, phase⟩ := send_holding hs
    refine List.eq_nil_iff_forall_not_mem.mpr fun c hc => ?_
    exact left rfl c (looked mc (Or.inr phase) c hc) hc

/-- In every run in 'auto' mode every fetch is sent while no client is connected exactly
when at every one of them the clients that came during its wait have left. -/
theorem fetches_alone_iff (P : Settings) (auto : P.messageFetchMode = .auto) (queued : ℕ)
    (acts : List Action) (s : State) (hrun : Runs.run (step P) (init queued) acts = some s) :
    Runs.Along (step P) FetchesAlone (init queued) acts ↔
      Runs.Along (step P) NewcomersLeft (init queued) acts :=
  Runs.along_congr (I := Looked) (fun _ _ _ h hs => h.step auto hs)
    (fun _ _ _ h hs => fetchesAlone_iff h hs) (init_looked queued) hrun

def autoFetch : Settings := ⟨.auto, 8⟩

def passingClient : List Action :=
  [.connect, .otherAcquires, .wake, .join 1, .leave 1, .otherReleases, .acquire, .send,
    .answer, .receive, .resume]

theorem fetches_alone_passingClient :
    ∃ s, Runs.run (step autoFetch) (init 1) passingClient = some s ∧
      Runs.Along (step autoFetch) FetchesAlone (init 1) passingClient := by
  obtain ⟨s, hs⟩ := Option.isSome_iff_exists.mp
    (by decide +kernel : (Runs.run (step autoFetch) (init 1) passingClient).isSome = true)
  exact ⟨s, hs, (fetches_alone_iff autoFetch rfl 1 passingClient s hs).mpr (by decide +kernel)⟩

def stayingClient : List Action :=
  [.connect, .otherAcquires, .wake, .join 1, .otherReleases, .acquire, .send, .answer,
    .receive]

/-- The message goes to the pump while the client is connected. -/
theorem fetches_from_client :
    ¬ ∀ s, Runs.run (step autoFetch) (init 1) stayingClient = some s →
      Runs.Along (step autoFetch) FetchesAlone (init 1) stayingClient := by
  intro supposed
  obtain ⟨s, hs⟩ := Option.isSome_iff_exists.mp
    (by decide +kernel : (Runs.run (step autoFetch) (init 1) stayingClient).isSome = true)
  exact absurd (supposed s hs) (by decide +kernel)

end MeshwardenDaemon.MessagePump
