import MeshwardenDaemon.ResponseCache

/-! `DeviceManager` and `MeshCoreProxy` around the device-wide command slot, as a
state machine. A call is one execution of `_handle_command`, of `raw_command`
under a gRPC handler, or of `command`; its phase is the await it is suspended at,
and an action carries it from one await to the next. Any waiting call may take a
free slot, so FIFO wake-ups are among the schedules and nothing rests on them.
The node appears as the commands under way to it and the responses under way
back. Fields marked ghost are written only, by no function of the source. -/
namespace MeshwardenDaemon.CommandSlot
open Protocol ResponseCache

abbrev CallId := ℕ
abbrev Conn := ℕ

structure Settings where
  codes : CommandCodes
  proxyCacheTtl : ℚ

/-- The library commands the daemon issues through `DeviceManager.command`. -/
inductive LibraryCommand
  | setName | setRadio | setTxPower | setCoords | removeContact | setTime | sendAdvert
  | getContacts | sendMsg | sendChanMsg | getMsg | getChannel | sendDeviceQuery
  | sendAppstart | getBat | getStatsCore | getStatsRadio | getStatsPackets | sendTrace
  deriving DecidableEq

inductive Origin
  | proxy (client : ℕ)
  | raw
  | library (name : LibraryCommand)
  deriving DecidableEq

def Origin.isProxy : Origin → Bool
  | .proxy _ => true
  | _ => false

def Origin.isLibrary : Origin → Bool
  | .library _ => true
  | _ => false

inductive Fault
  | valueError | deviceUnavailable | timeout | clientGone | sendFailed | commandFailed
  | cancelled
  deriving DecidableEq

/-- Where a call stands. `replaying []` is a finished cache hit. -/
inductive Phase
  | idle
  | logging
  | replaying (rest : List Frame)
  | refused
  | waiting (mc : Conn)
  | sending
  | collecting
  | forwarding (resp : Frame)
  | running
  | returned (frames : List Frame)
  | raised (e : Fault)
  deriving DecidableEq

def Phase.inSlot : Phase → Bool
  | .sending | .collecting | .forwarding _ | .running => true
  | _ => false

def Phase.fresh : Phase → Bool
  | .idle | .logging | .waiting _ => true
  | _ => false

def Phase.ended : Phase → Bool
  | .returned _ | .raised _ => true
  | _ => false

def Phase.suspended : Phase → Bool
  | .idle | .replaying [] | .returned _ | .raised _ => false
  | _ => true

/-- The exceptions an await can end in, cancellation at every one of them. -/
def Phase.canRaise : Phase → Fault → Bool
  | .collecting, .timeout => true
  | .forwarding _, .clientGone => true
  | .replaying (_ :: _), .clientGone => true
  | .refused, .clientGone => true
  | .sending, .sendFailed => true
  | .running, .commandFailed => true
  | p, .cancelled => p.suspended
  | _, _ => false

/-- A frame received from the node; `cmd` (ghost) is the call whose command the
node answered with it, `none` for a push. -/
structure Rx where
  frame : Frame
  cmd : Option CallId
  deriving DecidableEq

structure Handover where
  call : CallId
  conn : Conn
  mc : Option Conn
  connected : Bool
  deriving DecidableEq

structure Call where
  origin : Origin := .raw
  frame : Frame := []
  phase : Phase := .idle
  queue : List Rx := []
  frames : List Rx := []
  written : List Frame := []
  sentOn : Option Conn := none
  transmitted : Bool := false
  /-- Ghost: the number of the command slot this call took, 0 before that. -/
  slot : ℕ := 0
  /-- Ghost: the connection losses there had been when `mc` was read. -/
  losses : ℕ := 0

structure State where
  clock : ℚ
  mc : Option Conn
  connected : Bool
  commandLock : Option CallId
  rawQueue : Option CallId
  calls : CallId → Call
  cache : Cache
  commandsProxied : ℕ
  cacheHits : ℕ
  inbox : List (CallId × Frame)
  outbox : List Rx
  connections : ℕ
  /-- Ghost: what the node answered to each call. -/
  reply : CallId → Option (List Frame)
  slots : ℕ
  losses : ℕ
  handovers : List Handover

def init (P : Settings) : State where
  clock := 0
  mc := none
  connected := false
  commandLock := none
  rawQueue := none
  calls _ := {}
  cache := ResponseCache.empty P.proxyCacheTtl
  commandsProxied := 0
  cacheHits := 0
  inbox := []
  outbox := []
  connections := 0
  reply _ := none
  slots := 0
  losses := 0
  handovers := []

inductive Action
  | advance (t : ℚ)
  | connect | lose | close
  | handleCommand (i : CallId) (client : ℕ) (frame : Frame)
  | sendRawCommand (i : CallId) (frame : Frame)
  | command (i : CallId) (name : LibraryCommand)
  | logged (i : CallId)
  | writeCached (i : CallId)
  | writeError (i : CallId)
  | acquire (i : CallId)
  | transmit (i : CallId)
  | sendReturns (i : CallId)
  | receive (i : CallId)
  | forwarded (i : CallId)
  | librarySend (i : CallId) (frame : Frame)
  | libraryReturns (i : CallId)
  | fail (i : CallId) (e : Fault)
  | answer (reply : List Frame)
  | dispatch
  | push (frame : Frame)
  deriving DecidableEq

def State.setCall (s : State) (i : CallId) (c : Call) : State :=
  { s with calls := Function.update s.calls i c }

/-- `raw_command` and `command` up to the wait for the slot: the connection is
read and checked here, and used after the wait. -/
def State.enter (s : State) (c : Call) : Call :=
  match s.mc, s.connected with
  | some mc, true => { c with phase := .waiting mc, losses := s.losses }
  | _, _ =>
    { c with phase := if c.origin.isProxy then .refused else .raised .deviceUnavailable }

/-- `_handle_command` from the cache lookup to its next await. -/
def State.lookup (P : Settings) (s : State) (i : CallId) : State :=
  let c := s.calls i
  if isCacheable P.codes (code c.frame) then
    match s.cache.get c.frame s.clock with
    | (some cached, cache) =>
      { s with cache := cache, cacheHits := s.cacheHits + 1 }.setCall i
        { c with phase := .replaying cached }
    | (none, cache) => { s with cache := cache }.setCall i (s.enter c)
  else s.setCall i (s.enter c)

def State.takeSlot (s : State) (i : CallId) (mc : Conn) : State :=
  let c := s.calls i
  { s with
    commandLock := some i
    rawQueue := if c.origin.isLibrary then s.rawQueue else some i
    slots := s.slots + 1
    handovers := s.handovers ++ [Handover.mk i mc s.mc s.connected] }.setCall i
    { c with
      phase := if c.origin.isLibrary then .running else .sending
      sentOn := some mc
      slot := s.slots + 1 }

/-- The tail of `_handle_command`, which runs with no await after the release. -/
def afterCommand (P : Settings) (s : State) (c : Call) (frames : List Frame) : Cache :=
  if c.origin.isProxy then
    if isMutating P.codes (code c.frame) then s.cache.clear
    else if isCacheable P.codes (code c.frame) && !frames.isEmpty then
      s.cache.set c.frame frames s.clock c.slot
    else s.cache
  else s.cache

def State.finish (P : Settings) (s : State) (i : CallId) (c : Call) : State :=
  let frames := c.frames.map Rx.frame
  { s with
    rawQueue := none
    commandLock := none
    cache := afterCommand P s c frames }.setCall i { c with phase := .returned frames }

def State.consumed (P : Settings) (s : State) (i : CallId) (c : Call) (resp : Frame) : State :=
  if isTerminal P.codes (code c.frame) (code resp) then s.finish P i c
  else s.setCall i { c with phase := .collecting }

/-- An exception leaves the call; in the slot it passes `finally` and the lock. -/
def State.abandon (s : State) (i : CallId) (e : Fault) : State :=
  let c := s.calls i
  { s with
    commandLock := if c.phase.inSlot then none else s.commandLock
    rawQueue := if c.phase.inSlot && !c.origin.isLibrary then none else s.rawQueue }.setCall i
    { c with phase := .raised e }

/-- `DeviceManager._dispatch_frame` on the raw queue. -/
def State.dispatchFrame (s : State) (r : Rx) : State :=
  match s.rawQueue with
  | some q =>
    if isResponse r.frame then
      s.setCall q { s.calls q with queue := (s.calls q).queue ++ [r] }
    else s
  | none => s

/-- No command of call `i`, and no response to one, is still under way. -/
def State.settled (s : State) (i : CallId) : Bool :=
  s.inbox.all (fun m => m.1 != i) && s.outbox.all (fun r => r.cmd != some i)

/-- One action; an action that is not enabled has no successor. -/
def step (P : Settings) (s : State) : Action → Option State
  | .advance t => if s.clock ≤ t then some { s with clock := t } else none
  | .connect =>
    if s.mc = none then
      some { s with
        mc := some s.connections, connected := true, connections := s.connections + 1 }
    else none
  | .lose =>
    if s.connected then some { s with connected := false, losses := s.losses + 1 } else none
  | .close =>
    if s.mc ≠ none ∧ s.connected = false then some { s with mc := none } else none
  | .handleCommand i client frame =>
    if (s.calls i).phase = .idle ∧ frame ≠ [] then
      some ({ s with commandsProxied := s.commandsProxied + 1 }.setCall i
        { s.calls i with origin := .proxy client, frame := frame, phase := .logging })
    else none
  | .sendRawCommand i frame =>
    if (s.calls i).phase = .idle then
      some (s.setCall i (
        if frame = [] then { s.calls i with phase := .raised .valueError }
        else s.enter { s.calls i with origin := .raw, frame := frame }))
    else none
  | .command i name =>
    if (s.calls i).phase = .idle then
      some (s.setCall i (s.enter { s.calls i with origin := .library name }))
    else none
  | .logged i => if (s.calls i).phase = .logging then some (s.lookup P i) else none
  | .writeCached i =>
    match (s.calls i).phase with
    | .replaying (frame :: rest) =>
      some (s.setCall i { s.calls i with
        phase := .replaying rest, written := (s.calls i).written ++ [frame] })
    | _ => none
  | .writeError i =>
    if (s.calls i).phase = .refused then
      some (s.setCall i { s.calls i with
        phase := .raised .deviceUnavailable
        written := (s.calls i).written ++ [[respError]] })
    else none
  | .acquire i =>
    match s.commandLock, (s.calls i).phase with
    | none, .waiting mc => some (s.takeSlot i mc)
    | _, _ => none
  | .transmit i =>
    -- on a connection that is no longer the current one the bytes go nowhere
    if (s.calls i).phase = .sending ∧ (s.calls i).transmitted = false ∧
        s.mc = (s.calls i).sentOn then
      some ({ s with inbox := s.inbox ++ [(i, (s.calls i).frame)] }.setCall i
        { s.calls i with transmitted := true })
    else none
  | .sendReturns i =>
    if (s.calls i).phase = .sending ∧
        ((s.calls i).transmitted = true ∨ s.mc ≠ (s.calls i).sentOn) then
      some (if code (s.calls i).frame = P.codes.value .reboot then s.finish P i (s.calls i)
        else s.setCall i { s.calls i with phase := .collecting })
    else none
  | .receive i =>
    match (s.calls i).phase, (s.calls i).queue with
    | .collecting, r :: rest =>
      let c := { s.calls i with queue := rest, frames := (s.calls i).frames ++ [r] }
      some (if c.origin.isProxy then s.setCall i { c with phase := .forwarding r.frame }
        else s.consumed P i c r.frame)
    | _, _ => none
  | .forwarded i =>
    match (s.calls i).phase with
    | .forwarding resp =>
      some (s.consumed P i
        { s.calls i with written := (s.calls i).written ++ [resp] } resp)
    | _ => none
  | .librarySend i frame =>
    if (s.calls i).phase = .running ∧ s.mc = (s.calls i).sentOn then
      some { s with inbox := s.inbox ++ [(i, frame)] }
    else none
  | .libraryReturns i =>
    if (s.calls i).phase = .running ∧ s.settled i then
      some ({ s with commandLock := none }.setCall i { s.calls i with phase := .returned [] })
    else none
  | .fail i e => if (s.calls i).phase.canRaise e then some (s.abandon i e) else none
  | .answer reply =>
    match s.inbox with
    | (i, frame) :: rest =>
      if Answers P.codes frame reply then
        some { s with
          inbox := rest
          outbox := s.outbox ++ reply.map fun f => ⟨f, some i⟩
          reply := Function.update s.reply i (some reply) }
      else none
    | [] => none
  | .dispatch =>
    match s.outbox with
    | r :: rest => some ({ s with outbox := rest }.dispatchFrame r)
    | [] => none
  | .push frame => if isPush frame then some (s.dispatchFrame ⟨frame, none⟩) else none

/-- A command that times out, raises or is cancelled ends by a `fail`. -/
def Action.isFail : Action → Bool
  | .fail _ _ => true
  | _ => false

end MeshwardenDaemon.CommandSlot
