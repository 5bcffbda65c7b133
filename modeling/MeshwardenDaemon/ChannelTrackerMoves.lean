import MeshwardenDaemon.ChannelTracker

/-! What one action of the channel-tracker machine can do, as an inductive relation.
`step` is unfolded in `move_of_step` only. -/
namespace MeshwardenDaemon.ChannelTracker
open ChannelTable MessageTable Library

inductive Move (s : State) : Action → State → Prop
  | connect (down : s.connected = false) :
      Move s .connect { s with connected := true, waiting := s.waiting ++ [.refresh] }
  | lose (up : s.connected = true) :
      Move s .lose { s with connected := false, inbox := [], outbox := [] }
  | offline {slot : ℕ} {p : SlotInfo} (down : s.connected = false) :
      Move s (.offline slot p) { s with node := Function.update s.node slot p }
  | setChannel {slot : ℕ} {p : SlotInfo} (up : s.connected = true)
      (free : s.inFlight = none) :
      Move s (.setChannel slot p)
        { s with inFlight := some ⟨slot, none⟩, inbox := s.inbox ++ [(slot, p)] }
  | accepts {slot : ℕ} {p : SlotInfo} {rest : List (ℕ × SlotInfo)}
      (inbox : s.inbox = (slot, p) :: rest) (lt : slot < s.maxChannels) :
      Move s (.nodeAnswers true) { s with
        inbox := rest, outbox := s.outbox ++ [true]
        node := Function.update s.node slot p }
  | rejects {slot : ℕ} {p : SlotInfo} {rest : List (ℕ × SlotInfo)}
      (inbox : s.inbox = (slot, p) :: rest) :
      Move s (.nodeAnswers false) { s with inbox := rest, outbox := s.outbox ++ [false] }
  | dispatch {ok : Bool} {rest : List Bool} (outbox : s.outbox = ok :: rest) :
      Move s .dispatch { s with
        outbox := rest
        inFlight := s.inFlight.map fun f => { f with response := f.response.or (some ok) } }
  | returns {slot : ℕ} {ok : Bool} (inFlight : s.inFlight = some ⟨slot, some ok⟩) :
      Move s .returns { s with
        inFlight := none
        waiting := if ok then s.waiting ++ [.resync slot] else s.waiting }
  | abandon {f : InFlight} (inFlight : s.inFlight = some f) :
      Move s .abandon { s with inFlight := none }
  | listChannels : Move s .listChannels { s with waiting := s.waiting ++ [.refresh] }
  | take {k : ℕ} {job : Job} (free : s.running = none) (waits : s.waiting[k]? = some job) :
      Move s (.take k) { s with waiting := s.waiting.eraseIdx k, running := some job.start }
  | query (running : s.running = some .query) (free : s.slotFree = true) :
      Move s .query { s with running := (Rest.scan 0 s.maxChannels).next }
  | readEmpty {slot : ℕ} {rest : Rest} (running : s.running = some (.read slot rest))
      (free : s.slotFree = true) (empty : (s.node slot).isEmpty = true) :
      Move s .read { s with running := some (.clear slot rest) }
  | readChannel {slot : ℕ} {rest : Rest} (running : s.running = some (.read slot rest))
      (free : s.slotFree = true) (used : (s.node slot).isEmpty = false) :
      Move s .read { s with running := some (.upsert slot (s.node slot) rest) }
  | readError {slot : ℕ} {rest : Rest} (running : s.running = some (.read slot rest)) :
      Move s .readError { s with running := some (.clear slot rest) }
  | upsert {slot : ℕ} {p : SlotInfo} {rest : Rest} {now id : ℕ} {channels : Channels}
      (running : s.running = some (.upsert slot p rest))
      (upserted : Upserted s.channels channels p.channelName p.channelSecret id) :
      Move s (.statement now)
        { s with channels := channels, running := some (.vacate slot p id rest) }
  | vacate {slot : ℕ} {p : SlotInfo} {id : ℕ} {rest : Rest} {now : ℕ}
      (running : s.running = some (.vacate slot p id rest)) :
      Move s (.statement now) { s with
        channels := s.channels.vacateSlot slot id, running := some (.place slot p id rest) }
  | place {slot : ℕ} {p : SlotInfo} {id : ℕ} {rest : Rest} {now : ℕ} {channels : Channels}
      (running : s.running = some (.place slot p id rest))
      (set : s.channels.setSlot slot id = some channels) :
      Move s (.statement now) { s with
        channels := channels, running := rest.next
        seen := Function.update s.seen slot (some p.channelSecret) }
  | placeFails {slot : ℕ} {p : SlotInfo} {id : ℕ} {rest : Rest} {now : ℕ}
      (running : s.running = some (.place slot p id rest))
      (set : s.channels.setSlot slot id = none) :
      Move s (.statement now) { s with running := none }
  | clear {slot : ℕ} {rest : Rest} {now : ℕ} (running : s.running = some (.clear slot rest)) :
      Move s (.statement now)
        { s with channels := s.channels.clearSlot slot, running := rest.next }
  | clearFrom {maxChannels now : ℕ} (running : s.running = some (.clearFrom maxChannels)) :
      Move s (.statement now)
        { s with channels := s.channels.clearSlotsFrom maxChannels, running := none }
  | trackerFails : Move s .trackerFails { s with running := none }
  | upsertExtra {name : String} {secret : Secret} {now id : ℕ} {channels : Channels}
      (upserted : Upserted s.channels channels name secret id) :
      Move s (.upsertExtra name secret now) { s with channels := channels }
  | lookupChannel {m : NewMessage} :
      Move s (.lookupChannel m) { s with
        adds := s.adds ++ [⟨m, m.lookup s.channels, m.channelIdx.bind s.seen⟩] }
  | insertMessage {k ts : ℕ} {a : Pending} (adds : s.adds[k]? = some a) :
      Move s (.insertMessage k ts) { s with
        adds := s.adds.eraseIdx k
        messages := s.messages.insert a.message a.channelId ts s.recorded.length
        recorded := s.recorded ++ [
          ⟨a.message.row a.channelId s.messages.nextId ts s.recorded.length,
            a.message.channelIdx.map fun slot => (s.node slot).channelSecret⟩] }
  | prune {cutoffTs : ℕ} :
      Move s (.prune cutoffTs) { s with messages := s.messages.prune cutoffTs }

theorem statement_move {s t : State} {now : ℕ} (h : s.statement now = some t) :
    Move s (.statement now) t := by
  unfold State.statement at h
  split at h
  · rename_i slot p rest running
    cases h
    exact Move.upsert running (upsert_upserted rfl)
  · rename_i slot p id rest running
    cases h
    exact Move.vacate running
  · rename_i slot p id rest running
    split at h
    · rename_i channels set
      cases h
      exact Move.place running set
    · rename_i set
      cases h
      exact Move.placeFails running set
  · rename_i slot rest running
    cases h
    exact Move.clear running
  · rename_i maxChannels running
    cases h
    exact Move.clearFrom running
  · cases h

theorem move_of_step {s t : State} {a : Action} (h : step s a = some t) : Move s a t := by
  cases a with
  | connect | offline =>
    simp only [step, Option.ite_none_left_eq_some, Option.some.injEq] at h
    obtain ⟨down, rfl⟩ := h
    constructor
    simpa using down
  | lose =>
    simp only [step, Option.ite_none_right_eq_some, Option.some.injEq] at h
    obtain ⟨up, rfl⟩ := h
    exact Move.lose up
  | setChannel slot p =>
    simp only [step, Option.ite_none_right_eq_some, Option.some.injEq] at h
    obtain ⟨⟨up, free⟩, rfl⟩ := h
    exact Move.setChannel up free
  | nodeAnswers accept =>
    simp only [step] at h
    split at h
    · rename_i slot p rest inbox
      simp only [Option.ite_none_right_eq_some, Option.some.injEq] at h
      obtain ⟨lt, rfl⟩ := h
      cases accept with
      | true => exact Move.accepts inbox (lt rfl)
      | false => exact Move.rejects inbox
    · cases h
  | dispatch =>
    simp only [step] at h
    split at h
    · rename_i ok rest outbox
      cases h
      exact Move.dispatch outbox
    · cases h
  | returns =>
    simp only [step, State.returns] at h
    split at h
    · rename_i slot ok inFlight
      cases h
      exact Move.returns inFlight
    · cases h
  | abandon =>
    simp only [step, Option.ite_none_left_eq_some, Option.some.injEq] at h
    obtain ⟨held, rfl⟩ := h
    obtain ⟨f, inFlight⟩ := Option.ne_none_iff_exists'.mp held
    exact Move.abandon inFlight
  | listChannels =>
    cases h
    exact Move.listChannels
  | take k =>
    simp only [step] at h
    split at h
    · rename_i job free waits
      cases h
      exact Move.take free waits
    · cases h
  | query =>
    simp only [step, Option.ite_none_right_eq_some, Option.some.injEq] at h
    obtain ⟨⟨running, free⟩, rfl⟩ := h
    exact Move.query running free
  | read =>
    simp only [step] at h
    split at h
    · rename_i slot rest running
      simp only [Option.ite_none_right_eq_some, Option.some.injEq] at h
      obtain ⟨free, rfl⟩ := h
      cases empty : (s.node slot).isEmpty with
      | true => simpa [empty] using Move.readEmpty running free empty
      | false => simpa [empty] using Move.readChannel running free empty
    · cases h
  | readError =>
    simp only [step] at h
    split at h
    · rename_i slot rest running
      cases h
      exact Move.readError running
    · cases h
  | statement now => exact statement_move h
  | trackerFails =>
    simp only [step, Option.ite_none_left_eq_some, Option.some.injEq] at h
    obtain ⟨_, rfl⟩ := h
    exact Move.trackerFails
  | upsertExtra name secret now =>
    cases h
    exact Move.upsertExtra (upsert_upserted rfl)
  | lookupChannel m =>
    cases h
    exact Move.lookupChannel
  | insertMessage k ts =>
    simp only [step] at h
    split at h
    · rename_i a adds
      cases h
      exact Move.insertMessage adds
    · cases h
  | prune cutoffTs =>
    cases h
    exact Move.prune

end MeshwardenDaemon.ChannelTracker
