import MeshwardenDaemon.ContactHistory
import MeshwardenDaemon.LivePages
import MeshwardenDaemon.ReaderTap

/-! `EventRecorder`: every event of the library starts a task, which makes its calls of the
stores one after the other. The events come from the frames that the tap hands to the
library, whoever made the node send them. -/
namespace MeshwardenDaemon.Recorder
open Protocol Library MessageTable PacketTable ContactTable LivePages

structure MessagePayload where
  pubkeyPrefix : Option String := none
  channelIdx : Option ℕ := none
  txtType : Option ℕ := none
  senderTimestamp : Option ℕ := none
  text : Option String := none
  snr : Option ℚ := none
  pathLen : Option ℤ := none
  deriving DecidableEq

structure RxLogPayload where
  recvTime : Option ℕ := none
  snr : Option ℚ := none
  rssi : Option ℤ := none
  routeType : Option ℤ := none
  payloadType : Option ℤ := none
  pathLen : Option ℤ := none
  /-- As `json.dumps` writes it. -/
  path : Option String := none
  payloadLength : Option ℤ := none
  payload : Option String := none
  deriving DecidableEq

structure RawPayload where
  snr : Option ℚ := none
  rssi : Option ℤ := none
  payload : Option String := none
  deriving DecidableEq

inductive Event
  | rxLogData (p : RxLogPayload)
  | rawData (p : RawPayload)
  | contactMsgRecv (p : MessagePayload)
  | channelMsgRecv (p : MessagePayload)
  | contacts (contacts : List Contact)
  | newContact (contact : Contact)
  | advertisement (publicKey : String)
  | contactDeleted (pubkey : String)
  | ack (code : String)
  | other
  deriving DecidableEq

inductive Call
  | log (p : Packet)
  | add (m : AddArgs)
  | contact (c : ContactHistory.Call)
  | markAcked (code : String)

def hexBytes (payloadHex : Option String) : ℤ := ((payloadHex.map String.length).getD 0 / 2 : ℕ)

/-- A missing time, or 0, is the present. -/
def onRxLog (now : ℕ) (p : RxLogPayload) : Packet where
  ts := (p.recvTime.filter (· ≠ 0)).getD now
  snr := p.snr
  rssi := p.rssi
  routeType := p.routeType
  payloadType := p.payloadType
  pathLen := p.pathLen
  path := p.path
  payloadLen := (p.payloadLength.filter (· ≠ 0)).getD (hexBytes p.payload)
  payloadHex := p.payload

def onRawData (now : ℕ) (p : RawPayload) : Packet where
  ts := now
  kind := .raw
  snr := p.snr
  rssi := p.rssi
  payloadLen := hexBytes p.payload
  payloadHex := p.payload

def onContactMsg (p : MessagePayload) : AddArgs where
  direction := .inbound
  scope := .contact
  peer := p.pubkeyPrefix
  txtType := p.txtType
  senderTimestamp := p.senderTimestamp
  text := p.text.getD ""
  snr := p.snr
  pathLen := p.pathLen
  origin := .device

def onChannelMsg (p : MessagePayload) : AddArgs where
  direction := .inbound
  scope := .channel
  channelIdx := p.channelIdx
  txtType := p.txtType
  senderTimestamp := p.senderTimestamp
  text := p.text.getD ""
  snr := p.snr
  pathLen := p.pathLen
  origin := .device

/-- The calls of the handler of an event, which starts at the time `now`. -/
def calls (now : ℕ) : Event → List Call
  | .rxLogData p => [.log (onRxLog now p)]
  | .rawData p => [.log (onRawData now p)]
  | .contactMsgRecv p => [.add (onContactMsg p)]
  | .channelMsgRecv p => [.add (onChannelMsg p)]
  | .contacts contacts => contacts.map fun contact => .contact (.upsert contact true false)
  | .newContact contact =>
    if contact.publicKey ≠ "" then [.contact (.upsert contact true true)] else []
  | .advertisement publicKey => if publicKey ≠ "" then [.contact (.touch publicKey)] else []
  | .contactDeleted pubkey =>
    if pubkey ≠ "" then [.contact (.markRemovedFromDevice pubkey)] else []
  | .ack code => if code ≠ "" then [.markAcked code] else []
  | .other => []

def Event.message : Event → Option AddArgs
  | .contactMsgRecv p => some (onContactMsg p)
  | .channelMsgRecv p => some (onChannelMsg p)
  | _ => none

def Event.packet (now : ℕ) : Event → Option Packet
  | .rxLogData p => some (onRxLog now p)
  | .rawData p => some (onRawData now p)
  | _ => none

def Call.message : Call → Option AddArgs
  | .add m => some m
  | _ => none

def Call.packet : Call → Option Packet
  | .log p => some p
  | _ => none

def Call.contact? : Call → Option ContactHistory.Call
  | .contact c => some c
  | _ => none

theorem calls_messages (now : ℕ) (e : Event) :
    (calls now e).filterMap Call.message = e.message.toList := by
  cases e with
  | contacts contacts =>
    simp only [calls, List.filterMap_map, Event.message, Option.toList_none]
    exact List.filterMap_eq_nil_iff.mpr fun _ _ => rfl
  | newContact | advertisement | contactDeleted | ack =>
    simp only [calls, Event.message, Option.toList_none]
    split <;> rfl
  | _ => rfl

theorem calls_packets (now : ℕ) (e : Event) :
    (calls now e).filterMap Call.packet = (e.packet now).toList := by
  cases e with
  | contacts contacts =>
    simp only [calls, List.filterMap_map, Event.packet, Option.toList_none]
    exact List.filterMap_eq_nil_iff.mpr fun _ _ => rfl
  | newContact | advertisement | contactDeleted | ack =>
    simp only [calls, Event.packet, Option.toList_none]
    split <;> rfl
  | _ => rfl

end MeshwardenDaemon.Recorder
