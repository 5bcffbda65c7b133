import MeshwardenDaemon.MessageTable
import MeshwardenDaemon.Library.Runs
import Mathlib.Logic.Function.Basic

/-! `ChannelTracker` next to the node whose channel slots it follows. A tracker job
holds the tracker's lock from its first query to its last statement; every query
and every SQL statement is an action of its own, and SET_CHANNEL commands, message
adds and connection events run in between. A query takes the command slot and the
node answers in order, so it is one action, taken when no command is under way. -/
namespace MeshwardenDaemon.ChannelTracker
open ChannelTable MessageTable Library

inductive Job
  | refresh
  | resync (slot : ℕ)
  deriving DecidableEq

inductive Rest
  | done
  | scan (next maxChannels : ℕ)
  deriving DecidableEq

inductive Progress
  | query
  | read (slot : ℕ) (rest : Rest)
  | upsert (slot : ℕ) (p : SlotInfo) (rest : Rest)
  | vacate (slot : ℕ) (p : SlotInfo) (id : ℕ) (rest : Rest)
  | place (slot : ℕ) (p : SlotInfo) (id : ℕ) (rest : Rest)
  | clear (slot : ℕ) (rest : Rest)
  | clearFrom (maxChannels : ℕ)
  deriving DecidableEq

/-- `refresh` and `_resync_slot` once they have the lock. -/
def Job.start : Job → Progress
  | .refresh => .query
  | .resync slot => .read slot .done

def Rest.next : Rest → Option Progress
  | .done => none
  | .scan next maxChannels =>
    some (if next < maxChannels then .read next (.scan (next + 1) maxChannels)
      else .clearFrom maxChannels)

structure InFlight where
  slot : ℕ
  response : Option Bool
  deriving DecidableEq

structure Pending where
  message : NewMessage
  channelId : Option ℕ
  /-- Ghost: what the tracker had last seen in the message's slot at the look-up. -/
  seen : Option Secret

structure Recorded where
  row : MessageRow
  nodeSecret : Option Secret

structure State where
  node : ℕ → SlotInfo
  maxChannels : ℕ
  connected : Bool
  inFlight : Option InFlight
  inbox : List (ℕ × SlotInfo)
  outbox : List Bool
  waiting : List Job
  running : Option Progress
  channels : Channels
  adds : List Pending
  messages : Messages
  /-- Ghost: the secret a slot had when the tracker last read and recorded it. -/
  seen : ℕ → Option Secret
  recorded : List Recorded

def init (node : ℕ → SlotInfo) (maxChannels : ℕ) (channels : Channels)
    (messages : Messages) : State where
  node := node
  maxChannels := maxChannels
  connected := false
  inFlight := none
  inbox := []
  outbox := []
  waiting := []
  running := none
  channels := channels
  adds := []
  messages := messages
  seen slot := (channels.idAt slot).bind channels.secretOf
  recorded := []

inductive Action
  | connect | lose
  | offline (slot : ℕ) (p : SlotInfo)
  | setChannel (slot : ℕ) (p : SlotInfo)
  | nodeAnswers (accept : Bool)
  | dispatch | returns | abandon
  | listChannels
  | take (k : ℕ)
  | query | read | readError
  | statement (now : ℕ)
  | trackerFails
  | upsertExtra (name : String) (secret : Secret) (now : ℕ)
  | lookupChannel (m : NewMessage)
  | insertMessage (k ts : ℕ)
  | prune (cutoffTs : ℕ)
  deriving DecidableEq

def State.slotFree (s : State) : Bool := s.connected && s.inFlight.isNone && s.inbox.isEmpty

def State.statement (s : State) (now : ℕ) : Option State :=
  match s.running with
  | some (.upsert slot p rest) =>
    let (id, channels) := s.channels.upsert p.channelName p.channelSecret now
    some { s with channels := channels, running := some (.vacate slot p id rest) }
  | some (.vacate slot p id rest) =>
    some { s with
      channels := s.channels.vacateSlot slot id, running := some (.place slot p id rest) }
  | some (.place slot p id rest) =>
    match s.channels.setSlot slot id with
    | some channels => some { s with
        channels := channels, running := rest.next
        seen := Function.update s.seen slot (some p.channelSecret) }
    | none => some { s with running := none }
  | some (.clear slot rest) =>
    some { s with channels := s.channels.clearSlot slot, running := rest.next }
  | some (.clearFrom maxChannels) =>
    some { s with channels := s.channels.clearSlotsFrom maxChannels, running := none }
  | _ => none

def State.returns (s : State) : Option State :=
  match s.inFlight with
  | some ⟨slot, some ok⟩ => some { s with
      inFlight := none
      waiting := if ok then s.waiting ++ [.resync slot] else s.waiting }
  | _ => none

def step (s : State) : Action → Option State
  | .connect =>
    if s.connected then none
    else some { s with connected := true, waiting := s.waiting ++ [.refresh] }
  | .lose =>
    if s.connected then some { s with connected := false, inbox := [], outbox := [] } else none
  | .offline slot p =>
    if s.connected then none else some { s with node := Function.update s.node slot p }
  | .setChannel slot p =>
    if s.connected ∧ s.inFlight = none then
      some { s with inFlight := some ⟨slot, none⟩, inbox := s.inbox ++ [(slot, p)] }
    else none
  | .nodeAnswers accept =>
    match s.inbox with
    | (slot, p) :: rest =>
      if accept = true → slot < s.maxChannels then
        some { s with
          inbox := rest
          outbox := s.outbox ++ [accept]
          node := if accept then Function.update s.node slot p else s.node }
      else none
    | [] => none
  | .dispatch =>
    match s.outbox with
    | ok :: rest => some { s with
        outbox := rest
        inFlight := s.inFlight.map fun f => { f with response := f.response.or (some ok) } }
    | [] => none
  | .returns => s.returns
  | .abandon => if s.inFlight = none then none else some { s with inFlight := none }
  | .listChannels => some { s with waiting := s.waiting ++ [.refresh] }
  | .take k =>
    match s.running, s.waiting[k]? with
    | none, some job => some { s with
        waiting := s.waiting.eraseIdx k, running := some job.start }
    | _, _ => none
  | .query =>
    if s.running = some .query ∧ s.slotFree then
      some { s with running := (Rest.scan 0 s.maxChannels).next }
    else none
  | .read =>
    match s.running with
    | some (.read slot rest) =>
      if s.slotFree then
        some { s with
          running := some (
            if (s.node slot).isEmpty then .clear slot rest
            else .upsert slot (s.node slot) rest) }
      else none
    | _ => none
  | .readError =>
    match s.running with
    | some (.read slot rest) => some { s with running := some (.clear slot rest) }
    | _ => none
  | .statement now => s.statement now
  | .trackerFails => if s.running = none then none else some { s with running := none }
  | .upsertExtra name secret now =>
    some { s with channels := (s.channels.upsert name secret now).2 }
  | .lookupChannel m =>
    some { s with
      adds := s.adds ++ [⟨m, m.lookup s.channels, m.channelIdx.bind s.seen⟩] }
  | .insertMessage k ts =>
    match s.adds[k]? with
    | some a => some { s with
        adds := s.adds.eraseIdx k
        messages := s.messages.insert a.message a.channelId ts s.recorded.length
        recorded := s.recorded ++ [
          ⟨a.message.row a.channelId s.messages.nextId ts s.recorded.length,
            a.message.channelIdx.map fun slot => (s.node slot).channelSecret⟩] }
    | none => none
  | .prune cutoffTs => some { s with messages := s.messages.prune cutoffTs }

end MeshwardenDaemon.ChannelTracker
