import MeshwardenDaemon.ChannelTable

/-! The `messages` table and the statements of `MessageStore` that read or write a
message's channel. `add` is two statements with an await in between: the look-up of
the channel in the message's slot, and the INSERT. -/
namespace MeshwardenDaemon.MessageTable
open Library.KeyedTable ChannelTable

inductive Scope
  | contact | channel
  deriving DecidableEq

inductive Source
  | slot | decrypted | inferred
  deriving DecidableEq

structure MessageRow where
  id : ℕ
  ts : ℕ
  scope : Scope
  channelIdx : Option ℕ
  channelId : Option ℕ
  channelSource : Option Source
  senderTimestamp : Option ℕ
  text : String
  /-- Ghost: the number of the INSERT that made this row; an id can come back. -/
  born : ℕ
  deriving DecidableEq

/-- The arguments of `MessageStore.add`. -/
structure NewMessage where
  scope : Scope
  text : String
  channelIdx : Option ℕ := none
  senderTimestamp : Option ℕ := none
  deriving DecidableEq

/-- The first statement of `add`; it is only run for a channel message. -/
def NewMessage.lookup (m : NewMessage) (channels : Channels) : Option ℕ :=
  if m.scope = .channel then m.channelIdx.bind channels.idAt else none

/-- The row the INSERT of `add` makes. -/
def NewMessage.row (m : NewMessage) (channelId : Option ℕ) (id ts born : ℕ) : MessageRow where
  id := id
  ts := ts
  scope := m.scope
  channelIdx := m.channelIdx
  channelId := channelId
  channelSource := channelId.map fun _ => .slot
  senderTimestamp := m.senderTimestamp
  text := m.text
  born := born

structure Messages where
  rows : List MessageRow
  id_unique : Unique (fun r => some r.id) rows

def Messages.empty : Messages := ⟨[], unique_nil _⟩

variable (t : Messages)

def Messages.nextId : ℕ := nextKey MessageRow.id t.rows

def Messages.insert (m : NewMessage) (channelId : Option ℕ) (ts born : ℕ) : Messages where
  rows := t.rows ++ [m.row channelId t.nextId ts born]
  id_unique := t.id_unique.insert fun r hr k hk hid => by
    simp only [Option.some.injEq] at hk hid
    exact key_ne_nextKey hr (hk.trans hid.symm)

/-- The WHERE clause of `channel_backfill_candidates`. -/
def MessageRow.isCandidate (includeInferred : Bool) (r : MessageRow) : Bool :=
  r.scope = .channel &&
    (r.channelSource = none || (includeInferred && r.channelSource = some .inferred))

def Messages.channelBackfillCandidates (includeInferred : Bool) : List MessageRow :=
  t.rows.filter (MessageRow.isCandidate includeInferred)

/-- One UPDATE of `set_channels`. -/
def Messages.setChannel (channelId : ℕ) (source : Source) (id : ℕ) : Messages where
  rows := updateWhere (·.id = id)
    (fun r => { r with channelId := some channelId, channelSource := some source }) t.rows
  id_unique := t.id_unique.updateWhere fun _ _ h => h

def Messages.prune (cutoffTs : ℕ) : Messages where
  rows := t.rows.filter fun r => !decide (r.ts < cutoffTs)
  id_unique := t.id_unique.filter _

variable {t}

theorem mem_insert {m : NewMessage} {channelId : Option ℕ} {ts born : ℕ} {r : MessageRow} :
    r ∈ (t.insert m channelId ts born).rows ↔
      r ∈ t.rows ∨ r = m.row channelId t.nextId ts born := by
  simp only [Messages.insert, List.mem_append, List.mem_singleton]

theorem mem_setChannel {channelId id : ℕ} {source : Source} {r : MessageRow} :
    r ∈ (t.setChannel channelId source id).rows ↔ (r ∈ t.rows ∧ r.id ≠ id) ∨
      ∃ x ∈ t.rows, x.id = id ∧
        { x with channelId := some channelId, channelSource := some source } = r := by
  simp only [Messages.setChannel, mem_updateWhere, decide_eq_false_iff_not, decide_eq_true_eq,
    ne_eq]

theorem mem_prune {cutoffTs : ℕ} {r : MessageRow} :
    r ∈ (t.prune cutoffTs).rows ↔ r ∈ t.rows ∧ cutoffTs ≤ r.ts := by
  simp [Messages.prune]

theorem eq_of_id {r r' : MessageRow} (hr : r ∈ t.rows) (hr' : r' ∈ t.rows)
    (hid : r.id = r'.id) : r = r' :=
  t.id_unique.eq_of_mem hr hr' rfl (congrArg some hid.symm)

theorem id_ne_nextId {r : MessageRow} (hr : r ∈ t.rows) : r.id ≠ t.nextId := key_ne_nextKey hr

theorem row_unset_iff (m : NewMessage) (channelId : Option ℕ) (id ts born : ℕ) :
    (m.row channelId id ts born).channelId = none ↔
      (m.row channelId id ts born).channelSource = none := by
  simp [NewMessage.row]

theorem lookup_contact {m : NewMessage} (channels : Channels) (h : m.scope = .contact) :
    m.lookup channels = none := by
  simp [NewMessage.lookup, h]

end MeshwardenDaemon.MessageTable
