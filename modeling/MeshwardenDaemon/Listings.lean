import MeshwardenDaemon.Acknowledgements
import MeshwardenDaemon.ContactTable
import MeshwardenDaemon.Library.Paging
import MeshwardenDaemon.Library.Patterns
import MeshwardenDaemon.MessageTable
import MeshwardenDaemon.PacketTable

/-! The listings of the three stores. Each is two statements: a count of the rows that the
filter selects, and one page of them. What the ORDER BY leaves open, the database decides. -/
namespace MeshwardenDaemon.Listings
open Library KeyedTable Paging Patterns ChannelTable ContactTable MessageTable PacketTable

/-- `min(max(limit, 1), 1000)`. -/
def pageSize (limit : ℤ) : ℕ := (min (max limit 1) 1000).toNat

theorem pageSize_pos (limit : ℤ) : 1 ≤ pageSize limit := by
  unfold pageSize
  omega

/-- LIKE does not tell an ASCII letter in upper case from the one in lower case. -/
def foldCase (s : String) : List Char := s.toList.map Char.toLower

def likeToken (c : Char) : Token Char :=
  if c = '%' then .run else if c = '_' then .one else .lit c.toLower

/-- `subject LIKE pattern`, neither of them NULL. -/
def like (pattern subject : String) : Bool :=
  accepts (pattern.toList.map likeToken) (foldCase subject)

structure ContactFilter where
  query : String := ""
  deviceOnly : Bool := false

/-- The WHERE clause of `ContactStore.list`; a NULL is like nothing. -/
def ContactFilter.selects (f : ContactFilter) (r : ContactRow) : Bool :=
  (f.query = "" || r.advName.any (like ("%" ++ f.query ++ "%")) ||
    like (f.query ++ "%") r.publicKey) && (!f.deviceOnly || r.onDevice)

/-- `ORDER BY last_seen DESC`. -/
def lastSeenFirst (a b : ContactRow) : Bool := b.lastSeen ≤ a.lastSeen

def ContactStore.list (t : Contacts) (f : ContactFilter) (limit : ℤ) (offset : ℕ)
    (sorted : Arrangement lastSeenFirst (t.rows.filter f.selects)) : List ContactRow × ℕ :=
  (sorted.page (pageSize limit) offset, (t.rows.filter f.selects).length)

inductive Direction
  | inbound | outbound
  deriving DecidableEq

def Direction.text : Direction → String
  | .inbound => "in"
  | .outbound => "out"

/-- A message with the columns that its channel does not depend on. -/
structure MessageRecord extends MessageRow where
  direction : Direction
  peer : Option String
  txtType : Option ℕ
  snr : Option ℚ
  pathLen : Option ℤ
  expectedAck : Option String
  acked : Bool
  origin : Acknowledgements.Origin
  deriving DecidableEq

structure History where
  rows : List MessageRecord
  id_unique : Unique (fun m => some m.id) rows

structure MessageFilter where
  peer : String := ""
  channelIdx : Option ℤ := none
  channelId : Option ℤ := none
  direction : String := ""
  afterTs : ℤ := 0
  beforeTs : ℤ := 0

/-- The WHERE clause of `MessageStore.list`. -/
def MessageFilter.selects (f : MessageFilter) (m : MessageRecord) : Bool :=
  (f.peer = "" || m.peer.any (like (f.peer ++ "%"))) &&
    f.channelIdx.all (fun idx => m.channelIdx.any fun i => (i : ℤ) = idx) &&
    f.channelId.all (fun id => m.channelId.any fun i => (i : ℤ) = id) &&
    (f.direction = "" || m.direction.text = f.direction) && inWindow f.afterTs f.beforeTs m.ts

/-- A row of `MessageStore.list`. -/
structure ListedMessage extends MessageRecord where
  channelName : Option String
  deriving DecidableEq

/-- `messages m LEFT JOIN channels ch ON ch.id = m.channel_id`. -/
def History.joined (t : History) (channels : Channels) : List ListedMessage :=
  (leftJoin (fun m : MessageRecord => m.channelId) ChannelRow.id t.rows channels.rows).map
    fun m => ⟨m.1, m.2.map ChannelRow.name⟩

/-- `ORDER BY m.ts DESC, m.id DESC`. -/
def latestFirst (a b : ListedMessage) : Bool := b.ts < a.ts || (b.ts = a.ts && b.id ≤ a.id)

def History.selected (t : History) (channels : Channels) (f : MessageFilter) :
    List ListedMessage :=
  (t.joined channels).filter fun m => f.selects m.toMessageRecord

/-- The page and the total; the count leaves the channels out. -/
def MessageStore.list (t : History) (channels : Channels) (f : MessageFilter) (limit : ℤ)
    (offset : ℕ) (sorted : Arrangement latestFirst (t.selected channels f)) :
    List ListedMessage × ℕ :=
  (sorted.page (pageSize limit) offset, (t.rows.filter f.selects).length)

/-- The page and the total; `Packets.query` sorts in one way. -/
def PacketStore.query (t : Packets) (q : PacketQuery)
    (sorted : Arrangement newestFirst (t.rows.filter q.selects)) : List PacketRow × ℕ :=
  (sorted.page (pageSize q.limit) q.offset, (t.rows.filter q.selects).length)

def MessageRecord.listed (channels : Channels) (m : MessageRecord) : ListedMessage :=
  ⟨m, (channels.rows.find? fun ch => some ch.id = m.channelId).map ChannelRow.name⟩

theorem joined_eq (t : History) (channels : Channels) :
    t.joined channels = t.rows.map (MessageRecord.listed channels) := by
  rw [History.joined, channels.id_unique.leftJoin_eq_map, List.map_map]
  rfl

theorem selected_eq (t : History) (channels : Channels) (f : MessageFilter) :
    t.selected channels f = (t.rows.filter f.selects).map (MessageRecord.listed channels) := by
  rw [History.selected, joined_eq, List.filter_map]
  rfl

theorem selected_unique (t : History) (channels : Channels) (f : MessageFilter) :
    Unique (fun m => some m.id) (t.selected channels f) := by
  rw [selected_eq]
  exact List.pairwise_map.mpr (t.id_unique.filter _)

theorem length_selected (t : History) (channels : Channels) (f : MessageFilter) :
    (t.selected channels f).length = (t.rows.filter f.selects).length := by
  rw [selected_eq, List.length_map]

theorem newestFirst_antisymm {t : Packets} {a b : PacketRow} (ha : a ∈ t.rows) (hb : b ∈ t.rows)
    (ab : newestFirst a b = true) (ba : newestFirst b a = true) : a = b := by
  have same : a.id = b.id := by
    simp only [newestFirst, Bool.or_eq_true, Bool.and_eq_true, decide_eq_true_eq] at ab ba
    omega
  exact t.id_unique.eq_of_mem ha hb rfl (congrArg some same.symm)

theorem latestFirst_antisymm {rows : List ListedMessage} (unique : Unique (fun m => some m.id) rows)
    {a b : ListedMessage} (ha : a ∈ rows) (hb : b ∈ rows) (ab : latestFirst a b = true)
    (ba : latestFirst b a = true) : a = b := by
  have same : a.id = b.id := by
    simp only [latestFirst, Bool.or_eq_true, Bool.and_eq_true, decide_eq_true_eq] at ab ba
    omega
  exact unique.eq_of_mem ha hb rfl (congrArg some same.symm)

theorem lastSeenFirst_preorders : Preorders lastSeenFirst where
  trans a b c ab bc := by
    simp only [lastSeenFirst, decide_eq_true_eq] at ab bc ⊢
    omega
  total a b := by
    simp only [lastSeenFirst, Bool.or_eq_true, decide_eq_true_eq]
    omega

theorem newestFirst_preorders : Preorders newestFirst where
  trans a b c ab bc := by
    simp only [newestFirst, Bool.or_eq_true, Bool.and_eq_true, decide_eq_true_eq] at ab bc ⊢
    omega
  total a b := by
    simp only [newestFirst, Bool.or_eq_true, Bool.and_eq_true, decide_eq_true_eq]
    omega

theorem latestFirst_preorders : Preorders latestFirst where
  trans a b c ab bc := by
    simp only [latestFirst, Bool.or_eq_true, Bool.and_eq_true, decide_eq_true_eq] at ab bc ⊢
    omega
  total a b := by
    simp only [latestFirst, Bool.or_eq_true, Bool.and_eq_true, decide_eq_true_eq]
    omega

/-- The order of `query` leaves the database nothing to decide. -/
theorem query_eq (t : Packets) (q : PacketQuery)
    (sorted : Arrangement newestFirst (t.rows.filter q.selects)) :
    PacketStore.query t q sorted = t.query q := by
  have one := sorted.eq (newestFirst_preorders.arrangement _) fun a ha b hb =>
    newestFirst_antisymm (List.mem_of_mem_filter ha) (List.mem_of_mem_filter hb)
  simp only [PacketStore.query, Packets.query, Arrangement.page, one]
  rfl

end MeshwardenDaemon.Listings
