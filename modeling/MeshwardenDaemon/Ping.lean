import MeshwardenDaemon.FrameParser
import MeshwardenDaemon.Library.Runs
import Mathlib.Data.Rat.Defs
import Mathlib.Algebra.Order.Ring.Unbundled.Rat
import Mathlib.Algebra.GroupWithZero.Nat
import Mathlib.Logic.Function.Basic

/-! Zero-hop pings: `PingManager` and the trace frames it waits for. A call runs from
one await to the next; frames, the clock, cancellations and other calls come in
between. -/
namespace MeshwardenDaemon.Ping
open Protocol Framing Library

abbrev Text := List Char

def hexDigit (c : Char) : Option ℕ :=
  let n := c.toNat
  if 48 ≤ n ∧ n ≤ 57 then some (n - 48)
  else if 65 ≤ n ∧ n ≤ 70 then some (n - 55)
  else if 97 ≤ n ∧ n ≤ 102 then some (n - 87)
  else none

/-- `bytes.fromhex`, which passes over whitespace between bytes. -/
def fromHex : Text → Option (List UInt8)
  | [] => some []
  | c :: rest =>
    if c.toNat ∈ [9, 10, 11, 12, 13, 32] then fromHex rest
    else match rest with
      | [] => none
      | d :: rest => do
        let hi ← hexDigit c
        let lo ← hexDigit d
        let bytes ← fromHex rest
        return UInt8.ofNat (16 * hi + lo) :: bytes

def pingTimeout : ℚ := 5

def traceFlags : ℕ → Option ℕ
  | 1 => some 0
  | 2 => some 1
  | 4 => some 2
  | _ => none

inductive PingError
  | valueError
  | deviceUnavailable
  | timeoutError
  | cancelledError
  /-- Whatever else a library command or the database raises. -/
  | otherError
  deriving DecidableEq

structure Contact where
  publicKey : Text
  type : Option ℕ
  deriving DecidableEq

def traceRoute (contact : Contact) (width : ℕ) : Except PingError (List UInt8) :=
  if (traceFlags width).isNone then .error .valueError
  else if contact.type ≠ some 2 ∧ contact.type ≠ some 3 then .error .valueError
  else match fromHex contact.publicKey with
    | some key => if key.length ≠ 32 then .error .valueError else .ok (key.take width)
    | none => .error .valueError

abbrev Token := UInt32 × UInt32

/-- An `asyncio.Future` for the receive time and the SNRs. -/
inductive Future
  | waiting
  | result (received : ℚ) (snrs : List ℚ)
  | cancelled
  deriving DecidableEq

def Future.done : Future → Bool
  | .waiting => false
  | _ => true

def Future.cancel : Future → Future
  | .waiting => .cancelled
  | f => f

abbrev PingId := ℕ

/-- An entry of `pending`; its future is that of the call `ping`. -/
structure Entry where
  route : List UInt8
  flags : ℕ
  ping : PingId
  deadline : ℚ
  deriving DecidableEq

inductive Phase
  | idle
  /-- In `contacts.list`. -/
  | listing
  /-- In `send_trace`, the token registered. -/
  | command
  /-- At `await future`. -/
  | awaiting
  /-- An exception is on its way to the `finally`. -/
  | unwinding (error : PingError)
  | returned (elapsedMs : ℚ) (snrs : List ℚ)
  | raised (error : PingError)
  deriving DecidableEq

def Phase.registered : Phase → Bool
  | .command | .awaiting | .unwinding _ => true
  | _ => false

structure Call where
  phase : Phase := .idle
  publicKey : Text := []
  width : ℕ := 0
  started : ℚ := 0
  deadline : ℚ := 0
  token : Token := (0, 0)
  route : List UInt8 := []
  flags : ℕ := 0
  future : Future := .waiting
  /-- Ghost: the numbers of the frames that completed the future. -/
  completedBy : List ℕ := []
  deriving DecidableEq

/-- What `_on_frame` could raise. -/
inductive FrameError
  | structError | indexError | invalidStateError
  deriving DecidableEq

structure State where
  clock : ℚ
  pending : Token → Option Entry
  calls : PingId → Call
  /-- Ghost: every frame received, with the time it was received at. -/
  frames : List (Frame × ℚ)
  /-- Ghost: what `_on_frame` raised. -/
  frameErrors : List FrameError

def init : State := ⟨0, fun _ => none, fun _ => {}, [], []⟩

def getByte (frame : Frame) (i : ℕ) : Except FrameError UInt8 :=
  match frame[i]? with
  | some b => .ok b
  | none => .error .indexError

/-- `struct.unpack_from("<II", frame, offset)`. -/
def unpackToken (frame : Frame) (offset : ℕ) : Except FrameError Token :=
  if frame.length < offset + 8 then .error .structError
  else
    let word i := UInt32.ofNat (fromBytesLittle ((frame.drop i).take 4))
    .ok (word offset, word (offset + 4))

/-- A byte in the format `b`. -/
def signedByte (b : UInt8) : ℤ := if b.toNat < 128 then b.toNat else b.toNat - 256

/-- `struct.unpack(f"{n}b", bytes)`. -/
def unpackSigned (n : ℕ) (bytes : List UInt8) : Except FrameError (List ℤ) :=
  if bytes.length = n then .ok (bytes.map signedByte) else .error .structError

/-- Why `_on_frame` lets a frame pass for an entry. -/
def Entry.rejects (e : Entry) (frame : Frame) (pathBytes flags : UInt8) (done : Bool)
    (received : ℚ) : Bool :=
  let count := e.route.length / 2 ^ e.flags
  pathBytes.toNat != e.route.length || flags.toNat != e.flags ||
    frame.length != 13 + e.route.length + count ||
    (frame.drop 12).take e.route.length != e.route || done || e.deadline ≤ received

/-- `_on_frame`: the call whose future it completes, if any, and the result. -/
def State.onFrame (s : State) (frame : Frame) :
    Except FrameError (Option (PingId × List ℚ)) :=
  if frame.length < 13 || frame.headD 0 != 0x89 then .ok none
  else do
    let token ← unpackToken frame 4
    match s.pending token with
    | none => return none
    | some e =>
      let pathBytes ← getByte frame 2
      let flags ← getByte frame 3
      let done := (s.calls e.ping).future.done
      if e.rejects frame pathBytes flags done s.clock then return none
      else
        let count := e.route.length / 2 ^ e.flags
        let values ← unpackSigned (count + 1) (frame.drop (12 + e.route.length))
        -- `set_result` raises on a future that is done
        if done then throw .invalidStateError
        return some (e.ping, values.map fun v : ℤ => (v : ℚ) / 4)

def State.setCall (s : State) (i : PingId) (c : Call) : State :=
  { s with calls := Function.update s.calls i c }

/-- The `finally`: the token is popped and the future cancelled. -/
def State.finish (s : State) (i : PingId) (phase : Phase) : State :=
  let c := s.calls i
  { s.setCall i { c with phase := phase, future := c.future.cancel } with
    pending := Function.update s.pending c.token none }

@[simp] theorem setCall_self (s : State) (i : PingId) (c : Call) : (s.setCall i c).calls i = c :=
  Function.update_self _ _ _

@[simp] theorem setCall_of_ne (s : State) {i j : PingId} (c : Call) (h : j ≠ i) :
    (s.setCall i c).calls j = s.calls j :=
  Function.update_of_ne h _ _

/-- How `send_trace` ends. -/
inductive Outcome
  | msgSent
  | otherEvent
  | raises (error : PingError)
  deriving DecidableEq

inductive Action
  | tick (d : ℚ)
  | frame (frame : Frame)
  | ping (i : PingId) (publicKey : Text) (width : ℕ)
  /-- `contacts.list` gives these rows, and `secrets` these tokens one after another. -/
  | listed (i : PingId) (rows : List Contact) (tokens : List Token)
  | commandReturns (i : PingId) (outcome : Outcome)
  | resume (i : PingId)
  /-- The deadline passes, or the task is cancelled, or `contacts.list` raises. -/
  | interrupt (i : PingId) (error : PingError)
  | unwind (i : PingId)
  deriving DecidableEq

/-- `len(public_key) != 64 or len(bytes.fromhex(public_key)) != 32`, which raises too
where the text is not hexadecimal. -/
def badDestination (publicKey : Text) : Bool :=
  publicKey.length != 64 || (fromHex publicKey).map List.length != some 32

def State.register (s : State) (i : PingId) (rows : List Contact) (tokens : List Token) :
    Option State :=
  let c := s.calls i
  let raise := some (s.setCall i { c with phase := .raised .valueError })
  match rows with
  | [] => raise
  | contact :: _ =>
    if contact.publicKey ≠ c.publicKey then raise
    else match traceRoute contact c.width, traceFlags c.width with
      | .ok route, some flags =>
        match tokens.find? fun token => (s.pending token).isNone with
        | some token =>
          let call := { c with
            phase := .command, token := token, route := route, flags := flags
            future := .waiting, completedBy := [] }
          some { s.setCall i call with
            pending := Function.update s.pending token (some ⟨route, flags, i, c.deadline⟩) }
        | none => none
      | _, _ => raise

def step (s : State) : Action → Option State
  | .tick d => if 0 < d then some { s with clock := s.clock + d } else none
  | .frame frame =>
    let heard := { s with frames := s.frames ++ [(frame, s.clock)] }
    match s.onFrame frame with
    | .ok none => some heard
    | .ok (some (i, snrs)) =>
      let c := s.calls i
      some (heard.setCall i { c with
        future := .result s.clock snrs, completedBy := c.completedBy ++ [s.frames.length] })
    | .error e => some { heard with frameErrors := s.frameErrors ++ [e] }
  | .ping i publicKey width =>
    if (s.calls i).phase = .idle then
      let c : Call := { started := s.clock, deadline := s.clock + pingTimeout, width := width }
      if badDestination publicKey then
        some (s.setCall i { c with phase := .raised .valueError })
      else
        some (s.setCall i { c with phase := .listing, publicKey := publicKey.map Char.toLower })
    else none
  | .listed i rows tokens =>
    if (s.calls i).phase = .listing then s.register i rows tokens else none
  | .commandReturns i outcome =>
    if (s.calls i).phase = .command then
      match outcome with
      | .msgSent => some (s.setCall i { s.calls i with phase := .awaiting })
      | .otherEvent => some (s.finish i (.raised .deviceUnavailable))
      | .raises error => some (s.finish i (.raised error))
    else none
  | .resume i =>
    let c := s.calls i
    match c.phase, c.future with
    | .awaiting, .result received snrs =>
      some (s.finish i (if c.deadline ≤ s.clock then .raised .timeoutError
        else .returned ((received - c.started) * 1000) snrs))
    | _, _ => none
  | .interrupt i error =>
    let c := s.calls i
    if error = .timeoutError ∧ s.clock < c.deadline then none
    else match c.phase with
      | .listing => some (s.setCall i { c with phase := .raised error })
      | .command => some (s.setCall i { c with phase := .unwinding error })
      -- cancelling the task cancels the future it awaits
      | .awaiting => some (s.setCall i
          { c with phase := .unwinding error, future := c.future.cancel })
      | _ => none
  | .unwind i =>
    match (s.calls i).phase with
    | .unwinding error => some (s.finish i (.raised error))
    | _ => none

end MeshwardenDaemon.Ping
