import MeshwardenDaemon.Library.KeyedTable
import MeshwardenDaemon.Library.Runs

/-! Acknowledgements of sent messages. `SendMessage` stores its row only after the node
has reported the message sent; the ACK that the row waits for is handled by a task of
its own, whose UPDATE marks the rows there are. -/
namespace MeshwardenDaemon.Acknowledgements
open Library KeyedTable

inductive Origin
  | device | daemon | proxy
  deriving DecidableEq

structure MessageRow where
  id : ℕ
  ts : ℕ
  peer : String
  text : String
  expectedAck : Option String
  acked : Bool
  origin : Origin
  deriving DecidableEq

structure Messages where
  rows : List MessageRow
  id_unique : Unique (fun r => some r.id) rows

def Messages.empty : Messages := ⟨[], unique_nil _⟩

variable (t : Messages)

def Messages.nextId : ℕ := nextKey MessageRow.id t.rows

/-- The INSERT of `MessageStore.add`; `acked` has the default 0. -/
def Messages.insert (ts : ℕ) (peer text : String) (expectedAck : Option String)
    (origin : Origin) : Messages where
  rows := t.rows ++ [⟨t.nextId, ts, peer, text, expectedAck, false, origin⟩]
  id_unique := t.id_unique.insert fun r hr k hk hid => by
    simp only [Option.some.injEq] at hk hid
    exact key_ne_nextKey hr (hk.trans hid.symm)

/-- The WHERE clause of `mark_acked`. -/
def MessageRow.awaits (code : String) (r : MessageRow) : Bool :=
  r.expectedAck = some code && !r.acked

/-- `mark_acked`; it returns whether a row was marked. -/
def Messages.markAcked (code : String) : Messages × Bool :=
  (⟨updateWhere (MessageRow.awaits code) (fun r => { r with acked := true }) t.rows,
    t.id_unique.updateWhere fun _ _ h => h⟩, t.rows.any (MessageRow.awaits code))

variable {t}

theorem mem_insert {ts : ℕ} {peer text : String} {expectedAck : Option String}
    {origin : Origin} {r : MessageRow} :
    r ∈ (t.insert ts peer text expectedAck origin).rows ↔
      r ∈ t.rows ∨ r = ⟨t.nextId, ts, peer, text, expectedAck, false, origin⟩ := by
  simp only [Messages.insert, List.mem_append, List.mem_singleton]

theorem id_ne_nextId {r : MessageRow} (hr : r ∈ t.rows) : r.id ≠ t.nextId := key_ne_nextKey hr

theorem markAcked_row (code : String) {r : MessageRow} (hr : r ∈ t.rows) :
    ∃ r' ∈ (t.markAcked code).1.rows, r'.id = r.id ∧ r'.expectedAck = r.expectedAck ∧
      (r.acked = true → r'.acked = true) ∧ (r.expectedAck = some code → r'.acked = true) := by
  by_cases awaits : r.awaits code = true
  · exact ⟨{ r with acked := true }, mem_updateWhere.mpr (Or.inr ⟨r, hr, awaits, rfl⟩), rfl, rfl,
      fun _ => rfl, fun _ => rfl⟩
  · refine ⟨r, mem_updateWhere.mpr (Or.inl ⟨hr, by simpa using awaits⟩), rfl, rfl, id, ?_⟩
    intro expected
    simpa [MessageRow.awaits, expected] using awaits

theorem onAck_row (code : String) {r : MessageRow} (hr : r ∈ t.rows) :
    ∃ r' ∈ (if code = "" then t else (t.markAcked code).1).rows, r'.id = r.id ∧
      r'.expectedAck = r.expectedAck ∧ (r.acked = true → r'.acked = true) ∧
      (code ≠ "" → r.expectedAck = some code → r'.acked = true) := by
  split
  · rename_i empty
    exact ⟨r, hr, rfl, rfl, id, fun nonempty => absurd empty nonempty⟩
  · obtain ⟨r', hr', id', expected, still, marked⟩ := markAcked_row code hr
    exact ⟨r', hr', id', expected, still, fun _ => marked⟩

/-- A `SendMessage` whose command the node has answered with MSG_SENT. -/
structure Send where
  destination : String
  text : String
  /-- `expected_ack`, as text. -/
  code : String
  rowId : Option ℕ
  deriving DecidableEq

/-- An ACK event; the node had reported the first `since` sends when it was dispatched. -/
structure Ack where
  code : String
  since : ℕ
  done : Bool
  deriving DecidableEq

structure State where
  messages : Messages
  sends : List Send
  acks : List Ack

def init : State := ⟨.empty, [], []⟩

inductive Action
  /-- The node reports the message sent. -/
  | sent (destination text code : String)
  /-- The INSERT with which `SendMessage` ends. -/
  | store (i ts : ℕ)
  /-- A row of somebody else, which expects no acknowledgement. -/
  | add (ts : ℕ) (peer text : String) (origin : Origin)
  | ack (code : String)
  /-- `_on_ack` runs its UPDATE and ends. -/
  | onAck (k : ℕ)
  deriving DecidableEq

/-- `expected_ack or None`. -/
def Send.expectedAck (send : Send) : Option String :=
  if send.code = "" then none else some send.code

/-- `destination[:12]`. -/
def Send.peer (send : Send) : String := String.ofList (send.destination.toList.take 12)

def step (s : State) : Action → Option State
  | .sent destination text code =>
    some { s with sends := s.sends ++ [⟨destination, text, code, none⟩] }
  | .store i ts =>
    match s.sends[i]? with
    | some send =>
      if send.rowId = none then
        some { s with
          messages := s.messages.insert ts send.peer send.text send.expectedAck .daemon
          sends := s.sends.set i { send with rowId := some s.messages.nextId } }
      else none
    | none => none
  | .add ts peer text origin =>
    some { s with messages := s.messages.insert ts peer text none origin }
  | .ack code => some { s with acks := s.acks ++ [⟨code, s.sends.length, false⟩] }
  | .onAck k =>
    match s.acks[k]? with
    | some ack =>
      if ack.done then none
      else some { s with
        messages := if ack.code = "" then s.messages else (s.messages.markAcked ack.code).1
        acks := s.acks.set k { ack with done := true } }
    | none => none

/-- The ACK carries the code of send `i` and was dispatched after its report. -/
def Ack.Answers (ack : Ack) (i : ℕ) (send : Send) : Prop :=
  send.code ≠ "" ∧ ack.code = send.code ∧ i < ack.since

instance (ack : Ack) (i : ℕ) (send : Send) : Decidable (ack.Answers i send) :=
  inferInstanceAs (Decidable (_ ∧ _ ∧ _))

/-- Once a `SendMessage` and the handler of an ACK with its code have finished, the
stored row is marked. -/
def AckKept (s : State) : Prop :=
  ∀ i send id, s.sends[i]? = some send → send.rowId = some id →
    ∀ ack ∈ s.acks, ack.done = true → ack.Answers i send →
      ∃ r ∈ s.messages.rows, r.id = id ∧ r.acked = true

/-- No handler of an ACK with its code has finished when a `SendMessage` stores its row. -/
def StoredFirst (s : State) : Action → Prop
  | .store i _ => ∀ send ∈ s.sends[i]?, ∀ ack ∈ s.acks, ack.done = true → ¬ ack.Answers i send
  | _ => True

instance (s : State) (a : Action) : Decidable (StoredFirst s a) := by
  unfold StoredFirst
  induction a using Action.casesOn <;> infer_instance

structure Sound (s : State) : Prop where
  stored : ∀ (i : ℕ) (send : Send) (id : ℕ), s.sends[i]? = some send → send.rowId = some id →
    ∃ r ∈ s.messages.rows, r.id = id ∧ r.expectedAck = send.expectedAck
  since_le : ∀ ack ∈ s.acks, ack.since ≤ s.sends.length

theorem init_sound : Sound init := ⟨by simp [init], by simp [init]⟩

section Sound
variable {s u : State} {a : Action}

theorem getElem?_sent {new send : Send} {i id : ℕ} (h : (s.sends ++ [new])[i]? = some send)
    (new_none : new.rowId = none) (stored : send.rowId = some id) : s.sends[i]? = some send := by
  rw [List.getElem?_append] at h
  split at h
  · exact h
  · obtain rfl := List.mem_singleton.mp (List.mem_of_getElem? h)
    rw [new_none] at stored
    cases stored

theorem store_inv {i ts : ℕ} (hs : Acknowledgements.step s (.store i ts) = some u) :
    ∃ send, s.sends[i]? = some send ∧ u = { s with
      messages := s.messages.insert ts send.peer send.text send.expectedAck .daemon
      sends := s.sends.set i { send with rowId := some s.messages.nextId } } := by
  simp only [Acknowledgements.step] at hs
  split at hs
  · rename_i send at_i
    simp only [Option.ite_none_right_eq_some, Option.some.injEq] at hs
    exact ⟨send, at_i, hs.2.symm⟩
  · cases hs

theorem onAck_inv {k : ℕ} (hs : Acknowledgements.step s (.onAck k) = some u) :
    ∃ ack, s.acks[k]? = some ack ∧ u = { s with
      messages := if ack.code = "" then s.messages else (s.messages.markAcked ack.code).1
      acks := s.acks.set k { ack with done := true } } := by
  simp only [Acknowledgements.step] at hs
  split at hs
  · rename_i ack at_k
    simp only [Option.ite_none_left_eq_some, Option.some.injEq] at hs
    exact ⟨ack, at_k, hs.2.symm⟩
  · cases hs

theorem Sound.step (h : Sound s) (hs : Acknowledgements.step s a = some u) : Sound u := by
  cases a with
  | sent destination text code =>
    cases hs
    refine ⟨fun i send id hi hid => h.stored i send id (getElem?_sent hi rfl hid) hid, ?_⟩
    intro ack hack
    have := h.since_le ack hack
    simp only [List.length_append, List.length_singleton]
    omega
  | store i ts =>
    obtain ⟨send, at_i, rfl⟩ := store_inv hs
    refine ⟨fun j other id hj hid => ?_, fun ack hack => ?_⟩
    · rw [List.getElem?_set] at hj
      split at hj
      · rw [Option.ite_none_right_eq_some, Option.some.injEq] at hj
        obtain ⟨-, rfl⟩ := hj
        obtain rfl := Option.some.inj hid
        exact ⟨_, mem_insert.mpr (Or.inr rfl), rfl, rfl⟩
      · obtain ⟨r, hr, rest⟩ := h.stored j other id hj hid
        exact ⟨r, mem_insert.mpr (Or.inl hr), rest⟩
    · rw [List.length_set]
      exact h.since_le ack hack
  | add ts peer text origin =>
    cases hs
    refine ⟨fun i send id hi hid => ?_, h.since_le⟩
    obtain ⟨r, hr, rest⟩ := h.stored i send id hi hid
    exact ⟨r, mem_insert.mpr (Or.inl hr), rest⟩
  | ack code =>
    cases hs
    refine ⟨h.stored, fun ack hack => ?_⟩
    rcases List.mem_append.mp hack with old | new
    · exact h.since_le ack old
    · obtain rfl := List.mem_singleton.mp new
      exact Nat.le_refl _
  | onAck k =>
    obtain ⟨ack, at_k, rfl⟩ := onAck_inv hs
    refine ⟨fun i send id hi hid => ?_, fun x hx => ?_⟩
    · obtain ⟨r, hr, rid, expected⟩ := h.stored i send id hi hid
      obtain ⟨r', hr', id', expected', -⟩ := onAck_row ack.code hr
      exact ⟨r', hr', id'.trans rid, expected'.trans expected⟩
    · rcases List.mem_or_eq_of_mem_set hx with old | rfl
      · exact h.since_le x old
      · exact h.since_le ack (List.mem_of_getElem? at_k)

theorem ackKept_step (h : Sound s) (kept : AckKept s)
    (hs : Acknowledgements.step s a = some u) : AckKept u ↔ StoredFirst s a := by
  cases a with
  | sent destination text code =>
    cases hs
    refine iff_of_true (fun i send id hi hid => ?_) trivial
    exact kept i send id (getElem?_sent hi rfl hid) hid
  | store i ts =>
    obtain ⟨send, at_i, rfl⟩ := store_inv hs
    simp only [StoredFirst, at_i, Option.mem_def, Option.some.injEq, forall_eq']
    have inside : i < s.sends.length := (List.getElem?_eq_some_iff.mp at_i).1
    refine ⟨fun after ack hack done answers => ?_, fun first j other id hj hid => ?_⟩
    · -- the new row is the only one with its id, and it is not marked
      obtain ⟨r, hr, rid, acked⟩ := after i { send with rowId := some s.messages.nextId }
        s.messages.nextId (List.getElem?_set_self inside) rfl ack hack done answers
      rcases mem_insert.mp hr with old | rfl
      · exact id_ne_nextId old rid
      · cases acked
    · intro ack hack done answers
      rw [List.getElem?_set] at hj
      split at hj
      · rename_i same
        subst same
        obtain rfl := Option.some.inj hj
        exact absurd answers (first ack hack done)
      · obtain ⟨r, hr, rest⟩ := kept j other id hj hid ack hack done answers
        exact ⟨r, mem_insert.mpr (Or.inl hr), rest⟩
  | add ts peer text origin =>
    cases hs
    refine iff_of_true (fun i send id hi hid ack hack done answers => ?_) trivial
    obtain ⟨r, hr, rest⟩ := kept i send id hi hid ack hack done answers
    exact ⟨r, mem_insert.mpr (Or.inl hr), rest⟩
  | ack code =>
    cases hs
    refine iff_of_true (fun i send id hi hid ack hack done => ?_) trivial
    rcases List.mem_append.mp hack with old | new
    · exact kept i send id hi hid ack old done
    · obtain rfl := List.mem_singleton.mp new
      cases done
  | onAck k =>
    obtain ⟨ack, at_k, rfl⟩ := onAck_inv hs
    refine iff_of_true (fun i send id hi hid x hx done answers => ?_) trivial
    rcases List.mem_or_eq_of_mem_set hx with old | rfl
    · obtain ⟨r, hr, rid, acked⟩ := kept i send id hi hid x old done answers
      obtain ⟨r', hr', id', -, still, -⟩ := onAck_row ack.code hr
      exact ⟨r', hr', id'.trans rid, still acked⟩
    · -- the row is there, so this UPDATE marks it
      obtain ⟨nonempty, same, -⟩ := answers
      obtain ⟨r, hr, rid, expected⟩ := h.stored i send id hi hid
      have code : ack.code = send.code := same
      obtain ⟨r', hr', id', -, -, marked⟩ := onAck_row ack.code hr
      refine ⟨r', hr', id'.trans rid, marked (code ▸ nonempty) ?_⟩
      rw [expected, Send.expectedAck, if_neg nonempty, code]

end Sound

/-- In every run every acknowledgement is kept in every state exactly when no row is
stored after a handler of its acknowledgement has finished. -/
theorem acknowledgements_kept_iff (acts : List Action) (s : State)
    (hrun : Runs.run step init acts = some s) :
    Runs.Along step (fun s a => ∀ t ∈ step s a, AckKept t) init acts ↔
      Runs.Along step StoredFirst init acts :=
  Runs.along_kept_iff (I := Sound) (fun _ _ _ h hs => h.step hs)
    (fun _ _ _ h kept hs => ackKept_step h kept hs) init_sound (by simp [AckKept, init]) hrun

def twoSends : List Action :=
  [.sent "a1" "hello" "01", .sent "b2" "world" "02", .store 0 10, .store 1 11, .ack "02",
    .ack "01", .onAck 0, .onAck 1]

theorem acknowledgements_kept_twoSends :
    ∃ s, Runs.run step init twoSends = some s ∧
      Runs.Along step (fun s a => ∀ t ∈ step s a, AckKept t) init twoSends := by
  obtain ⟨s, hs⟩ := Option.isSome_iff_exists.mp
    (by decide +kernel : (Runs.run step init twoSends).isSome = true)
  exact ⟨s, hs, (acknowledgements_kept_iff twoSends s hs).mpr (by decide +kernel)⟩

/-- The ACK is handled while `SendMessage` waits for its INSERT. -/
def earlyAck : List Action :=
  [.sent "a1" "hello" "01", .ack "01", .onAck 0, .store 0 10]

theorem early_ack_lost :
    ¬ ∀ s, Runs.run step init earlyAck = some s → AckKept s := by
  intro supposed
  have got : (Runs.run step init earlyAck).map (fun s =>
      (s.sends, s.acks, s.messages.rows.all fun r => !r.acked)) =
        some ([⟨"a1", "hello", "01", some 1⟩], [⟨"01", 1, true⟩], true) := by
    decide +kernel
  simp only [Option.map_eq_some_iff, Prod.mk.injEq, List.all_eq_true, Bool.not_eq_true'] at got
  obtain ⟨s, hs, sends, acks, unmarked⟩ := got
  obtain ⟨r, hr, -, acked⟩ := supposed s hs 0 ⟨"a1", "hello", "01", some 1⟩ 1 (by simp [sends]) rfl
    ⟨"01", 1, true⟩ (by simp [acks]) rfl (by decide)
  exact absurd ((unmarked r hr).symm.trans acked) Bool.false_ne_true

end MeshwardenDaemon.Acknowledgements
