import MeshwardenDaemon.Acknowledgements
import MeshwardenDaemon.ContactRemoval
import MeshwardenDaemon.Library.Text
import MeshwardenDaemon.MessageTable
import MeshwardenDaemon.Protocol

/-! Messages that clients send, and their rows. The proxy stores a message before it passes
the frame on to the node; `SendMessage` and `SendChannelMessage` store theirs after the
command, where `_run` has reported no error. Any number of calls is under way at a time. -/
namespace MeshwardenDaemon.OutgoingMessages
open Library Library.Text Protocol MessageTable Framing Acknowledgements ContactRemoval

/-- The arguments of `MessageStore.add` for an outgoing message. -/
structure Outgoing extends NewMessage where
  peer : Option String := none
  txtType : Option ℕ := none
  expectedAck : Option String := none
  origin : Origin
  deriving DecidableEq

/-- What `_log_outgoing_message` stores for a frame. -/
def logOutgoingMessage (codes : CommandCodes) (frame : Frame) : Option Outgoing :=
  if code frame = codes.value .sendTxtMsg ∧ 13 < frame.length then
    some {
      scope := .contact
      peer := some (hex ((frame.drop 7).take 6))
      txtType := frame[1]?.map UInt8.toNat
      senderTimestamp := some (fromBytesLittle ((frame.drop 3).take 4))
      text := String.ofList (decodeIgnore (frame.drop 13))
      origin := .proxy }
  else if code frame = codes.value .sendChannelTxtMsg ∧ 7 < frame.length then
    some {
      scope := .channel
      channelIdx := frame[2]?.map UInt8.toNat
      txtType := frame[1]?.map UInt8.toNat
      senderTimestamp := some (fromBytesLittle ((frame.drop 3).take 4))
      text := String.ofList (decodeIgnore (frame.drop 7))
      origin := .proxy }
  else none

inductive Outcome
  /-- `raw_command` returns the frames. -/
  | answered (frames : List Frame)
  /-- A library command returns an event that is no ERROR. -/
  | event (expectedAck : String)
  /-- A library command returns an ERROR; JSON text is never empty. -/
  | errorEvent (payload : String) (dumped : payload ≠ "")
  | unavailable
  /-- `TimeoutError`, with its text. -/
  | timeout (text : String)
  /-- Another exception, raised before or after the node has accepted the command. -/
  | raised (text : String) (sent : Bool)
  deriving DecidableEq

/-- The node has answered, and not with an ERROR. -/
def Outcome.accepted : Outcome → Bool
  | .answered frames => frames.getLast?.any fun last => code last != respError
  | .event _ => true
  | .raised _ sent => sent
  | _ => false

/-- The error that `_run` returns; an empty one is none. -/
def Outcome.errorText : Outcome → String
  | .answered _ => ""
  | .event _ => ""
  | .errorEvent payload _ => payload
  | .unavailable => "device is not connected"
  | .timeout text => text
  | .raised text _ => text

def Outcome.expectedAck : Outcome → String
  | .event expectedAck => expectedAck
  | _ => ""

inductive Via
  | proxy (frame : Frame)
  | sendMessage (destination text : String)
  | sendChannelMessage (channelIdx : ℕ) (text : String)
  deriving DecidableEq

def Via.row (codes : CommandCodes) (o : Outcome) : Via → Option Outgoing
  | .proxy frame => logOutgoingMessage codes frame
  | .sendMessage destination text =>
    let send : Send := ⟨destination, text, o.expectedAck, none⟩
    some {
      scope := .contact
      text := text
      peer := some send.peer
      expectedAck := send.expectedAck
      origin := .daemon }
  | .sendChannelMessage channelIdx text =>
    some { scope := .channel, text := text, channelIdx := some channelIdx, origin := .daemon }

/-- A client's frame goes through `raw_command`, a request through the library. -/
def Via.gives : Via → Outcome → Bool
  | .proxy _, .event _ => false
  | .proxy _, .errorEvent _ _ => false
  | .proxy _, _ => true
  | _, .answered _ => false
  | _, _ => true

inductive Phase
  | logging
  | commanding
  | storing (o : Outcome)
  | finished (o : Option Outcome)
  deriving DecidableEq

structure Call where
  via : Via
  phase : Phase
  deriving DecidableEq

structure State where
  calls : List Call
  rows : List (Outgoing × ℕ)

def init : State := ⟨[], []⟩

inductive Action
  | receive (via : Via)
  | log (k : ℕ)
  | cached (k : ℕ)
  | finish (k : ℕ) (o : Outcome)
  | store (k : ℕ)
  deriving DecidableEq

def Via.start : Via → Phase
  | .proxy _ => .logging
  | _ => .commanding

def State.goOn (s : State) (k : ℕ) (c : Call) (stored : List Outgoing) : State where
  calls := s.calls.set k c
  rows := s.rows ++ stored.map fun row => (row, k)

def step (codes : CommandCodes) (s : State) : Action → Option State
  | .receive via =>
    if via = .proxy [] then none else some { s with calls := s.calls ++ [⟨via, via.start⟩] }
  | .log k =>
    match s.calls[k]? with
    | some ⟨.proxy frame, .logging⟩ =>
      some (s.goOn k ⟨.proxy frame, .commanding⟩ (logOutgoingMessage codes frame).toList)
    | _ => none
  | .cached k =>
    match s.calls[k]? with
    | some ⟨.proxy frame, .commanding⟩ =>
      if isCacheable codes (code frame) then
        some (s.goOn k ⟨.proxy frame, .finished none⟩ [])
      else none
    | _ => none
  | .finish k o =>
    match s.calls[k]? with
    | some ⟨via, .commanding⟩ =>
      if via.gives o then
        some (s.goOn k
          ⟨via, if via.start = .commanding ∧ o.errorText = "" then .storing o
            else .finished (some o)⟩ [])
      else none
    | _ => none
  | .store k =>
    match s.calls[k]? with
    | some ⟨via, .storing o⟩ =>
      some (s.goOn k ⟨via, .finished (some o)⟩ (via.row codes o).toList)
    | _ => none

variable (codes : CommandCodes)

def State.rowsOf (s : State) (k : ℕ) : List Outgoing :=
  (s.rows.filter fun r => r.2 = k).map Prod.fst

def Call.stored : Call → List Outgoing
  | ⟨.proxy _, .logging⟩ => []
  | ⟨.proxy frame, _⟩ => (logOutgoingMessage codes frame).toList
  | ⟨via, .finished (some o)⟩ => if o.errorText = "" then (via.row codes o).toList else []
  | _ => []

def Call.Valid : Call → Prop
  | ⟨.proxy frame, .finished none⟩ => isCacheable codes (code frame) = true
  | ⟨.proxy _, .storing _⟩ => False
  | ⟨.proxy _, _⟩ => True
  | ⟨_, .storing o⟩ => o.errorText = ""
  | ⟨_, .logging⟩ => False
  | ⟨_, .finished none⟩ => False
  | _ => True

structure Moves (c c' : Call) (rows : List Outgoing) : Prop where
  via : c'.via = c.via
  valid : c'.Valid codes
  stored : c'.stored codes = c.stored codes ++ rows

variable {codes} {s t : State} {a : Action}

theorem step_cases (h : step codes s a = some t)
    (valid : ∀ (k : ℕ) (c : Call), s.calls[k]? = some c → c.Valid codes) :
    (∃ via : Via, t = { s with calls := s.calls ++ [⟨via, via.start⟩] }) ∨
    ∃ (k : ℕ) (c c' : Call) (rows : List Outgoing),
      s.calls[k]? = some c ∧ Moves codes c c' rows ∧ t = s.goOn k c' rows := by
  cases a with
  | receive via =>
    rw [step, Option.ite_none_left_eq_some, Option.some.injEq] at h
    exact Or.inl ⟨via, h.2.symm⟩
  | log k =>
    rw [step] at h
    split at h
    · rename_i frame found
      refine Or.inr ⟨k, _, _, _, found, ?_, (Option.some.inj h).symm⟩
      exact ⟨rfl, trivial, rfl⟩
    · cases h
  | cached k =>
    rw [step] at h
    split at h
    · rename_i frame found
      rw [Option.ite_none_right_eq_some, Option.some.injEq] at h
      refine Or.inr ⟨k, _, _, _, found, ?_, h.2.symm⟩
      exact ⟨rfl, h.1, (List.append_nil _).symm⟩
    · cases h
  | finish k o =>
    rw [step] at h
    split at h
    · rename_i via found
      rw [Option.ite_none_right_eq_some, Option.some.injEq] at h
      refine Or.inr ⟨k, _, _, _, found, ?_, h.2.symm⟩
      cases via with
      | proxy frame => exact ⟨rfl, trivial, (List.append_nil _).symm⟩
      | sendMessage _ _ | sendChannelMessage _ _ =>
        by_cases empty : o.errorText = ""
        · simp only [Via.start, empty, and_self, if_true]
          exact ⟨rfl, empty, rfl⟩
        · simp only [empty, and_false, if_false]
          exact ⟨rfl, trivial, if_neg empty⟩
    · cases h
  | store k =>
    rw [step] at h
    split at h
    · rename_i via o found
      refine Or.inr ⟨k, _, _, _, found, ?_, (Option.some.inj h).symm⟩
      have before := valid k _ found
      cases via with
      | proxy frame => exact before.elim
      | sendMessage _ _ | sendChannelMessage _ _ => exact ⟨rfl, trivial, if_pos before⟩
    · cases h

theorem rowsOf_goOn (k j : ℕ) (c : Call) (rows : List Outgoing) :
    (s.goOn k c rows).rowsOf j = s.rowsOf j ++ if j = k then rows else [] := by
  have tagged : ((rows.map fun row => (row, k)).filter fun r => r.2 = j).map Prod.fst =
      if j = k then rows else [] := by
    induction rows with
    | nil => simp
    | cons row rows ih =>
      by_cases own : k = j
      · subst own
        simpa using ih
      · simp [own, Ne.symm own]
  rw [State.rowsOf, State.goOn, List.filter_append, List.map_append, tagged]
  rfl

variable (codes) in
structure Bookkept (s : State) : Prop where
  valid : ∀ (k : ℕ) (c : Call), s.calls[k]? = some c → c.Valid codes
  rows : ∀ (k : ℕ) (c : Call), s.calls[k]? = some c → s.rowsOf k = c.stored codes
  fresh : ∀ r ∈ s.rows, r.2 < s.calls.length

theorem Bookkept.receive (h : Bookkept codes s) (via : Via) :
    Bookkept codes { s with calls := s.calls ++ [⟨via, via.start⟩] } := by
  have none_yet : s.rowsOf s.calls.length = [] := by
    rw [State.rowsOf, List.map_eq_nil_iff, List.filter_eq_nil_iff]
    intro r hr
    have below := h.fresh r hr
    simpa using Nat.ne_of_lt below
  have cases_of : ∀ (k : ℕ) (c : Call), (s.calls ++ [⟨via, via.start⟩])[k]? = some c →
      s.calls[k]? = some c ∨ k = s.calls.length ∧ c = ⟨via, via.start⟩ := by
    intro k c found
    rcases Nat.lt_trichotomy k s.calls.length with below | rfl | above
    · rw [List.getElem?_append_left below] at found
      exact Or.inl found
    · simp only [List.getElem?_concat_length, Option.some.injEq] at found
      exact Or.inr ⟨rfl, found.symm⟩
    · have none : (s.calls ++ [⟨via, via.start⟩])[k]? = none := by
        rw [List.getElem?_eq_none_iff, List.length_append, List.length_singleton]
        exact above
      rw [none] at found
      cases found
  refine ⟨fun k c found => ?_, fun k c found => ?_, fun r hr => ?_⟩
  · rcases cases_of k c found with old | ⟨-, rfl⟩
    · exact h.valid k c old
    · cases via <;> trivial
  · rcases cases_of k c found with old | ⟨rfl, rfl⟩
    · exact h.rows k c old
    · refine none_yet.trans ?_
      cases via <;> rfl
  · rw [List.length_append]
    exact Nat.lt_add_right _ (h.fresh r hr)

theorem Bookkept.goOn (h : Bookkept codes s) {k : ℕ} {c c' : Call} {rows : List Outgoing}
    (found : s.calls[k]? = some c) (moves : Moves codes c c' rows) :
    Bookkept codes (s.goOn k c' rows) := by
  have inside : k < s.calls.length := (List.getElem?_eq_some_iff.mp found).1
  have length : (s.goOn k c' rows).calls.length = s.calls.length := List.length_set
  have cases_of : ∀ (j : ℕ) (d : Call), (s.goOn k c' rows).calls[j]? = some d →
      (j = k ∧ d = c') ∨ (j ≠ k ∧ s.calls[j]? = some d) := by
    intro j d there
    by_cases same : j = k
    · subst same
      rw [State.goOn, List.getElem?_set_self inside, Option.some.injEq] at there
      exact Or.inl ⟨rfl, there.symm⟩
    · rw [State.goOn, List.getElem?_set_ne (Ne.symm same)] at there
      exact Or.inr ⟨same, there⟩
  refine ⟨fun j d there => ?_, fun j d there => ?_, fun r hr => ?_⟩
  · rcases cases_of j d there with ⟨-, rfl⟩ | ⟨-, old⟩
    · exact moves.valid
    · exact h.valid j d old
  · rw [rowsOf_goOn]
    rcases cases_of j d there with ⟨rfl, rfl⟩ | ⟨other, old⟩
    · rw [if_pos rfl, h.rows j c found, moves.stored]
    · rw [if_neg other, List.append_nil, h.rows j d old]
  · rw [length]
    rcases List.mem_append.mp hr with old | new
    · exact h.fresh r old
    · obtain ⟨row, -, rfl⟩ := List.mem_map.mp new
      exact inside

theorem Bookkept.step (h : Bookkept codes s) (hs : OutgoingMessages.step codes s a = some t) :
    Bookkept codes t := by
  rcases step_cases hs h.valid with ⟨via, rfl⟩ | ⟨k, c, c', rows, found, moves, rfl⟩
  · exact h.receive via
  · exact h.goOn found moves

theorem init_bookkept : Bookkept codes init :=
  ⟨fun _ _ found => by simp [init] at found, fun _ _ found => by simp [init] at found,
    fun _ hr => by simp [init] at hr⟩

theorem isCacheable_of_send {frame : Frame} {row : Outgoing}
    (send : logOutgoingMessage codes frame = some row) :
    isCacheable codes (code frame) = false := by
  have not_listed : ∀ c, c ∉ cacheableCommands → isCacheable codes (codes.value c) = false := by
    intro c absent
    rw [isCacheable, List.contains_eq_mem, decide_eq_false_iff_not,
      List.mem_map_of_injective codes.injective]
    exact absent
  unfold logOutgoingMessage at send
  split at send
  · rename_i direct
    rw [direct.1]
    exact not_listed .sendTxtMsg (by decide)
  · split at send
    · rename_i channel
      rw [channel.1]
      exact not_listed .sendChannelTxtMsg (by decide)
    · cases send

variable (codes) in
def Via.IsSend : Via → Prop
  | .proxy frame => (logOutgoingMessage codes frame).isSome = true
  | _ => True

variable (codes) in
/-- Each call that has ended has stored its row if the node accepted it, and none if not. -/
def Archived (s : State) : Prop :=
  ∀ (k : ℕ) via o, s.calls[k]? = some ⟨via, .finished (some o)⟩ → via.IsSend codes →
    s.rowsOf k = if o.accepted then (via.row codes o).toList else []

/-- A client's message is accepted; a request ends without the text of an error exactly where
its message is. -/
def Harmless : Via → Outcome → Prop
  | .proxy _, o => o.accepted = true
  | _, o => o.accepted = true ↔ o.errorText = ""

theorem Bookkept.harmless_iff (h : Bookkept codes s) :
    Archived codes s ↔ ∀ (k : ℕ) via o, s.calls[k]? = some ⟨via, .finished (some o)⟩ →
      via.IsSend codes → Harmless via o := by
  refine forall_congr' fun k => forall_congr' fun via => forall_congr' fun o =>
    forall_congr' fun found => forall_congr' fun send => ?_
  rw [h.rows k _ found]
  have request : (∃ row, via.row codes o = some row) →
      ((if o.errorText = "" then (via.row codes o).toList else []) =
        (if o.accepted then (via.row codes o).toList else []) ↔
          (o.accepted = true ↔ o.errorText = "")) := by
    rintro ⟨row, stores⟩
    by_cases accepted : o.accepted = true <;> by_cases silent : o.errorText = "" <;>
      simp [accepted, silent, stores]
  cases via with
  | proxy frame =>
    obtain ⟨row, logs⟩ := Option.isSome_iff_exists.mp send
    simp [Call.stored, Via.row, logs, Harmless]
  | sendMessage _ _ | sendChannelMessage _ _ => exact request ⟨_, rfl⟩

def State.attempts (s : State) (frame : Frame) : List ℕ :=
  (List.range s.calls.length).filter fun k =>
    s.calls[k]?.any fun c => c.via = .proxy frame && c.phase ≠ .logging

theorem Bookkept.attempts_rows (h : Bookkept codes s) {frame : Frame} {row : Outgoing}
    (send : logOutgoingMessage codes frame = some row) :
    (s.attempts frame).flatMap s.rowsOf = List.replicate (s.attempts frame).length row := by
  have each : ∀ k ∈ s.attempts frame, s.rowsOf k = [row] := by
    intro k hk
    have attempt := (List.mem_filter.mp hk).2
    rw [Option.any_eq_true] at attempt
    obtain ⟨⟨via, phase⟩, found, this_frame⟩ := attempt
    simp only [Bool.and_eq_true, decide_eq_true_eq, ne_eq] at this_frame
    obtain ⟨rfl, logged⟩ := this_frame
    rw [h.rows k _ found]
    cases phase with
    | logging => exact absurd rfl logged
    | commanding | storing _ | finished _ => simp [Call.stored, send]
  revert each
  induction s.attempts frame with
  | nil => exact fun _ => rfl
  | cons k ks ih =>
    intro each
    rw [List.flatMap_cons, each k List.mem_cons_self,
      ih fun j hj => each j (List.mem_cons_of_mem _ hj)]
    rfl

/-- In every run, the calls that have ended have stored a row exactly where the node has
accepted the message, if and only if each client's message was accepted and the requests that
ended without the text of an error are those whose message was; a message that a client
sends again is stored again. -/
theorem archived_iff (codes : CommandCodes) (acts : List Action) (s : State)
    (hrun : Runs.run (step codes) init acts = some s) :
    (Archived codes s ↔ ∀ (k : ℕ) via o, s.calls[k]? = some ⟨via, .finished (some o)⟩ →
      via.IsSend codes → Harmless via o) ∧
    (∀ frame row, logOutgoingMessage codes frame = some row →
      (s.attempts frame).flatMap s.rowsOf = List.replicate (s.attempts frame).length row) ∧
    (∀ (k : ℕ) frame, s.calls[k]? = some ⟨.proxy frame, .finished none⟩ →
      logOutgoingMessage codes frame = none) := by
  have bookkept : Bookkept codes s :=
    Runs.reachable (fun _ _ _ h hs => h.step hs) init_bookkept hrun
  refine ⟨bookkept.harmless_iff, fun frame row send => bookkept.attempts_rows send, ?_⟩
  intro k frame found
  have cached : isCacheable codes (code frame) = true := bookkept.valid k _ found
  cases send : logOutgoingMessage codes frame with
  | none => rfl
  | some row =>
    rw [isCacheable_of_send send] at cached
    cases cached

def textFrame : Frame := [2, 0, 0, 9, 0, 0, 0, 1, 2, 3, 4, 5, 6, 104]

def acceptedSend : List Action :=
  [.receive (.proxy textFrame), .receive (.sendMessage "ab" "h"), .log 0, .finish 1 .unavailable,
    .finish 0 (.answered [[6]])]

theorem archived_iff_acceptedSend :
    ∃ s, Runs.run (step companionCodes) init acceptedSend = some s ∧
      Archived companionCodes s ∧ s.rows.length = 1 := by
  have got : (Runs.run (step companionCodes) init acceptedSend).map (fun s =>
      (s.calls, s.rows.length)) = some ([⟨.proxy textFrame, .finished (some (.answered [[6]]))⟩,
        ⟨.sendMessage "ab" "h", .finished (some .unavailable)⟩], 1) := by
    decide +kernel
  simp only [Option.map_eq_some_iff, Prod.mk.injEq] at got
  obtain ⟨s, hs, calls, rows⟩ := got
  refine ⟨s, hs, (archived_iff companionCodes acceptedSend s hs).1.mpr ?_, rows⟩
  intro k via o found _
  rw [calls] at found
  match k with
  | 0 =>
    obtain ⟨rfl, rfl⟩ : Via.proxy textFrame = via ∧ Outcome.answered [[6]] = o := by
      simpa using found
    exact (by decide : Outcome.accepted (.answered [[6]]) = true)
  | 1 =>
    obtain ⟨rfl, rfl⟩ : Via.sendMessage "ab" "h" = via ∧ Outcome.unavailable = o := by
      simpa using found
    exact (by decide : Outcome.accepted .unavailable = true ↔ Outcome.errorText .unavailable = "")
  | k + 2 => simp at found

def retriedSend : List Action :=
  [.receive (.proxy textFrame), .log 0, .finish 0 (.timeout "raw command 0x02 timed out"),
    .receive (.proxy textFrame), .log 1, .finish 1 .unavailable,
    .receive (.proxy textFrame), .log 2, .finish 2 (.answered [[6]])]

/-- The message that was accepted once has three rows. -/
theorem retries_archived :
    ∃ s, Runs.run (step companionCodes) init retriedSend = some s ∧
      ¬ Archived companionCodes s ∧ s.rows.length = 3 := by
  have got : (Runs.run (step companionCodes) init retriedSend).map (fun s =>
      (s.calls[0]?, (s.rowsOf 0).length, s.rows.length)) =
        some (some ⟨.proxy textFrame, .finished (some (.timeout "raw command 0x02 timed out"))⟩,
          1, 3) := by
    decide +kernel
  simp only [Option.map_eq_some_iff, Prod.mk.injEq] at got
  obtain ⟨s, hs, call, own, rows⟩ := got
  refine ⟨s, hs, fun archived => ?_, rows⟩
  have none := archived 0 _ _ call (show Option.isSome _ = true by decide)
  rw [none] at own
  exact absurd own (by decide)

end MeshwardenDaemon.OutgoingMessages
