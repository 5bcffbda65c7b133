import MeshwardenDaemon.Library.LivePaging
import MeshwardenDaemon.Listings
import MeshwardenDaemon.PacketStats

/-! Walks over the pages of `ListMessages` and `QueryPackets` while the daemon goes on
writing: messages come in, are acknowledged, attributed and pruned, and packets are logged
and deleted batch by batch, between any two queries of a client. -/
namespace MeshwardenDaemon.LivePages
open Library KeyedTable Paging LivePaging ChannelTable MessageTable PacketTable Listings

structure AddArgs extends NewMessage where
  direction : Direction
  peer : Option String := none
  txtType : Option ℕ := none
  snr : Option ℚ := none
  pathLen : Option ℤ := none
  expectedAck : Option String := none
  origin : Acknowledgements.Origin := .device

def AddArgs.record (m : AddArgs) (channelId : Option ℕ) (id ts born : ℕ) : MessageRecord where
  toMessageRow := m.toNewMessage.row channelId id ts born
  direction := m.direction
  peer := m.peer
  txtType := m.txtType
  snr := m.snr
  pathLen := m.pathLen
  expectedAck := m.expectedAck
  acked := false
  origin := m.origin

section statements
variable (t : History)

def History.nextId : ℕ := nextKey (fun m : MessageRecord => m.id) t.rows

def History.insert (m : AddArgs) (channelId : Option ℕ) (ts born : ℕ) : History where
  rows := t.rows ++ [m.record channelId (nextId t) ts born]
  id_unique := t.id_unique.insert fun r hr k hk hid => by
    simp only [Option.some.injEq] at hk hid
    exact @key_ne_nextKey _ (fun m : MessageRecord => m.id) _ _ hr (hk.trans hid.symm)

/-- One UPDATE of `set_channels`. -/
def History.setChannel (channelId : ℕ) (source : Source) (id : ℕ) : History where
  rows := updateWhere (·.id = id)
    (fun m => { m with channelId := some channelId, channelSource := some source }) t.rows
  id_unique := t.id_unique.updateWhere fun _ _ h => h

def History.markAcked (code : String) : History where
  rows := updateWhere (fun m => m.expectedAck = some code && !m.acked)
    (fun m => { m with acked := true }) t.rows
  id_unique := t.id_unique.updateWhere fun _ _ h => h

def History.prune (cutoffTs : ℤ) : History where
  rows := t.rows.filter fun m => !decide ((m.ts : ℤ) < cutoffTs)
  id_unique := t.id_unique.filter _

end statements

structure Tables where
  history : History
  channels : Channels

inductive Statement
  | insert (m : AddArgs) (channelId : Option ℕ) (ts born : ℕ)
  | setChannel (channelId : ℕ) (source : Source) (id : ℕ)
  | markAcked (code : String)
  | prune (cutoffTs : ℤ)
  /-- Any statement on the channels, with what it leaves. -/
  | channels (channels : Channels)

def Statement.adds : Statement → Bool
  | .insert .. => true
  | _ => false

def Tables.statement (t : Tables) : Statement → Option Tables
  | .insert m channelId ts born =>
    some { t with history := History.insert t.history m channelId ts born }
  | .setChannel channelId source id =>
    some { t with history := History.setChannel t.history channelId source id }
  | .markAcked code => some { t with history := History.markAcked t.history code }
  | .prune cutoffTs => some { t with history := History.prune t.history cutoffTs }
  | .channels channels => some { t with channels := channels }

/-- What no statement changes of a message. -/
def fixed (m : MessageRecord) : MessageRecord :=
  { m with channelId := none, channelSource := none, acked := false }

/-- The listing of `ListMessages`, sorted by its order. -/
def messages (f : MessageFilter) : Listing Tables ℤ ListedMessage MessageRecord where
  le := latestFirst
  key m := fixed m.toMessageRecord
  rows t := t.history.selected t.channels f
  size := pageSize
  count t := (MessageStore.list t.history t.channels f 1 0 (insertion latestFirst_preorders _)).2
  fetch t limit offset :=
    (MessageStore.list t.history t.channels f limit offset (insertion latestFirst_preorders _)).1
  order := latestFirst_preorders
  antisymm t _ ha _ hb := latestFirst_antisymm (selected_unique t.history t.channels f) ha hb
  nodup t := (selected_unique t.history t.channels f).nodup_map.of_map
  count_eq t := (length_selected t.history t.channels f).symm
  fetch_eq _ _ _ := ⟨insertion latestFirst_preorders _, rfl⟩

def packets (q : PacketQuery) : Listing PacketStats.State ℤ PacketRow PacketRow where
  le := newestFirst
  key r := r
  rows s := s.packets.rows.filter q.selects
  size := pageSize
  count s := (s.packets.query q).2
  fetch s limit offset := (s.packets.query { q with limit := limit, offset := offset }).1
  order := newestFirst_preorders
  antisymm _ _ ha _ hb :=
    newestFirst_antisymm (List.mem_of_mem_filter ha) (List.mem_of_mem_filter hb)
  nodup s := (s.packets.id_unique.filter _).nodup_map.of_map
  count_eq _ := rfl
  fetch_eq s limit offset := ⟨insertion newestFirst_preorders _, congrArg Prod.fst
    (query_eq s.packets { q with limit := limit, offset := offset } _).symm⟩

/-- The message is too young for a prune. -/
def SparesMessage (ts : ℕ) : Statement → Prop
  | .prune cutoffTs => cutoffTs ≤ ts
  | _ => True

/-- The packet is too young for the prune that deletes a batch. -/
def SparesPacket (ts : ℕ) (s : PacketStats.State) : PacketStats.Action → Prop
  | .deleteBatch k _ => ∀ c ∈ s.prunes[k]?, c.cutoffTs ≤ ts
  | _ => True

instance (ts : ℕ) (s : PacketStats.State) (a : PacketStats.Action) :
    Decidable (SparesPacket ts s a) := by
  unfold SparesPacket
  induction a using PacketStats.Action.casesOn <;> infer_instance

def sooner (m y : MessageRecord) : Bool := m.ts < y.ts || (m.ts = y.ts && m.id < y.id)

section messages
variable {f : MessageFilter} {t u : Tables} {k : MessageRecord} {n : ℕ}

theorem not_latestFirst (a b : ListedMessage) :
    (!latestFirst a b) = (a.ts < b.ts || (a.ts = b.ts && a.id < b.id)) := by
  rw [Bool.eq_iff_iff]
  simp only [latestFirst, Bool.not_eq_true', Bool.or_eq_false_iff, Bool.and_eq_false_iff,
    decide_eq_false_iff_not, Bool.or_eq_true, Bool.and_eq_true, decide_eq_true_eq]
  omega

theorem latestFirst_listed (channels : Channels) (m y : MessageRecord) :
    (!latestFirst (m.listed channels) (y.listed channels)) = sooner m y :=
  not_latestFirst _ _

theorem behind_iff : Behind (messages f) t k n ↔ ∃ m ∈ t.history.rows, f.selects m = true ∧
    fixed m = k ∧ n ≤ t.history.rows.countP fun y => sooner m y && f.selects y := by
  have count : ∀ m : MessageRecord, ahead latestFirst
      ((t.history.rows.filter f.selects).map (MessageRecord.listed t.channels))
        (m.listed t.channels) = t.history.rows.countP fun y => sooner m y && f.selects y := by
    intro m
    rw [ahead, List.countP_map, List.countP_filter]
    simp only [Function.comp_apply, latestFirst_listed]
  simp only [Behind, messages, selected_eq, List.mem_map, List.mem_filter]
  refine ⟨?_, ?_⟩
  · rintro ⟨x, ⟨m, ⟨hm, wanted⟩, rfl⟩, same, far⟩
    exact ⟨m, hm, wanted, same, count m ▸ far⟩
  · rintro ⟨m, hm, wanted, same, far⟩
    exact ⟨_, ⟨m, ⟨hm, wanted⟩, rfl⟩, same, (count m).symm ▸ far⟩

theorem selects_fixed (open_ : f.channelId = none) (m : MessageRecord) :
    f.selects (fixed m) = f.selects m := by
  simp only [MessageFilter.selects, open_]
  rfl

theorem sooner_fixed (m y : MessageRecord) : sooner (fixed m) (fixed y) = sooner m y := rfl

theorem fixed_update {p : MessageRecord → Bool} {g : MessageRecord → MessageRecord}
    (same : ∀ m, fixed (g m) = fixed m) (m : MessageRecord) :
    fixed (if p m then g m else m) = fixed m := by
  split
  · exact same m
  · rfl

theorem selects_update (open_ : f.channelId = none) {p : MessageRecord → Bool}
    {g : MessageRecord → MessageRecord} (same : ∀ m, fixed (g m) = fixed m) (m : MessageRecord) :
    f.selects (if p m then g m else m) = f.selects m := by
  rw [← selects_fixed open_, fixed_update same, selects_fixed open_]

theorem behind_update (open_ : f.channelId = none) {p : MessageRecord → Bool}
    {g : MessageRecord → MessageRecord} (rows : u.history.rows = updateWhere p g t.history.rows)
    (same : ∀ m, fixed (g m) = fixed m) (behind : Behind (messages f) t k n) :
    Behind (messages f) u k n := by
  have order : ∀ m y, sooner (if p m then g m else m) (if p y then g y else y) = sooner m y := by
    intro m y
    rw [← sooner_fixed, fixed_update same, fixed_update same, sooner_fixed]
  obtain ⟨m, hm, wanted, key, far⟩ := behind_iff.mp behind
  refine behind_iff.mpr ⟨if p m then g m else m, ?_, ?_, ?_, ?_⟩
  · rw [rows]
    exact List.mem_map_of_mem hm
  · rw [selects_update open_ same, wanted]
  · rw [fixed_update same, key]
  · rw [rows, updateWhere, List.countP_map]
    simpa only [Function.comp_def, selects_update open_ same, order] using far

theorem keeps_message (open_ : f.channelId = none) {a : Statement}
    (spares : SparesMessage k.ts a) : Keeps (messages f) Tables.statement k t a := by
  intro u hu n behind
  cases a with
  | insert m channelId ts born =>
    cases hu
    obtain ⟨m, hm, wanted, key, far⟩ := behind_iff.mp behind
    refine behind_iff.mpr ⟨m, List.mem_append_left _ hm, wanted, key, far.trans ?_⟩
    exact (List.sublist_append_left _ _).countP_le
  | setChannel channelId source id =>
    cases hu
    exact behind_update open_ rfl (fun _ => rfl) behind
  | markAcked code =>
    cases hu
    exact behind_update open_ rfl (fun _ => rfl) behind
  | prune cutoffTs =>
    cases hu
    obtain ⟨m, hm, wanted, rfl, far⟩ := behind_iff.mp behind
    have young : ∀ y, (m.ts : ℤ) ≤ y → ¬ y < cutoffTs := fun y le => not_lt.mpr (spares.trans le)
    refine behind_iff.mpr ⟨m, ?_, wanted, rfl, far.trans_eq ?_⟩
    · exact List.mem_filter.mpr ⟨hm, by simpa using young m.ts le_rfl⟩
    · refine (countP_kept fun y _ counts => ?_).symm
      simp only [sooner, Bool.and_eq_true, Bool.or_eq_true, decide_eq_true_eq] at counts
      simpa using young y.ts (by omega)
  | channels channels =>
    cases hu
    obtain ⟨m, hm, wanted, key, far⟩ := behind_iff.mp behind
    exact behind_iff.mpr ⟨m, hm, wanted, key, far⟩

theorem length_update (open_ : f.channelId = none) {p : MessageRecord → Bool}
    {g : MessageRecord → MessageRecord} {rows : List MessageRecord}
    (updated : rows = updateWhere p g t.history.rows) (same : ∀ m, fixed (g m) = fixed m) :
    (rows.filter f.selects).length = (t.history.rows.filter f.selects).length := by
  have wants : (f.selects ∘ fun m => if p m then g m else m) = f.selects := by
    funext m
    exact selects_update open_ same m
  rw [updated, updateWhere, List.filter_map, List.length_map, wants]

theorem addsNone_message (open_ : f.channelId = none) {a : Statement} (other : a.adds = false) :
    AddsNone (messages f) Tables.statement t a := by
  intro u hu
  simp only [messages, length_selected]
  cases a with
  | insert => cases other
  | setChannel channelId source id =>
    cases hu
    exact le_of_eq (length_update open_ rfl fun _ => rfl)
  | markAcked code =>
    cases hu
    exact le_of_eq (length_update open_ rfl fun _ => rfl)
  | prune cutoffTs =>
    cases hu
    exact (List.filter_sublist.filter _).length_le
  | channels channels =>
    cases hu
    exact le_rfl

/-- A client that walks through the messages gets every one that is too young for the
prunes of the time, whatever comes in, is acknowledged or attributed meanwhile. -/
theorem message_walk_misses_none (open_ : f.channelId = none) {m : MessageRecord}
    {as : List (LivePaging.Action Statement ℤ)} {s : LivePaging.State Tables ListedMessage}
    (stored : m ∈ t.history.rows) (wanted : f.selects m = true)
    (spared : ∀ a, .statement a ∈ as → SparesMessage m.ts a)
    (hr : Runs.run (LivePaging.step (messages f) Tables.statement Statement.adds) (.start t) as =
      some s) :
    ((∃ p ∈ s.pages, p.rows.length < p.size) ∨
      (∃ p ∈ s.pages, p.overtaken = false ∧ p.total ≤ p.offset + p.rows.length)) →
      ∃ p ∈ s.pages, ∃ x ∈ p.rows, fixed x.toMessageRecord = fixed m := by
  have present : Behind (messages f) t (fixed m) 0 :=
    behind_iff.mpr ⟨m, stored, wanted, rfl, Nat.zero_le _⟩
  have keeps : Runs.Along (LivePaging.step (messages f) Tables.statement Statement.adds)
      (Stating fun s => Keeps (messages f) Tables.statement (fixed m) s.table) (.start t) as := by
    refine along_stating _ _ _ (fun a ha s => ?_) _
    exact keeps_message open_ (spared a ha)
  rintro (short | reached)
  · exact short_page_seen present keeps hr short
  · exact total_reached_seen present keeps (fun _ _ other => addsNone_message open_ other)
      hr reached

def hello : MessageRecord :=
  AddArgs.record { scope := .channel, text := "hello", channelIdx := some 0, direction := .inbound }
    none 1 10 0

def oneMessage : Tables := ⟨⟨[hello], List.pairwise_singleton _ _⟩, .empty⟩

def busyWalk : List (LivePaging.Action Statement ℤ) :=
  [.statement (.insert { scope := .contact, text := "a", direction := .outbound } none 20 1),
    .count, .page 1, .statement (.prune 5), .statement (.setChannel 7 .decrypted 1),
    .statement (.insert { scope := .contact, text := "b", direction := .outbound } none 30 2),
    .count, .page 1, .count, .page 100]

theorem message_walk_misses_none_busyWalk : ∃ s,
    Runs.run (LivePaging.step (messages {}) Tables.statement Statement.adds) (.start oneMessage)
        busyWalk = some s ∧
      (∃ p ∈ s.pages, p.rows.length < p.size) ∧
      ∃ p ∈ s.pages, ∃ x ∈ p.rows, fixed x.toMessageRecord = fixed hello := by
  have got : (Runs.run (LivePaging.step (messages {}) Tables.statement Statement.adds)
      (.start oneMessage) busyWalk).map (fun s => s.pages.any fun p => p.rows.length < p.size) =
        some true := by
    decide +kernel
  obtain ⟨s, hs, short⟩ := Option.map_eq_some_iff.mp got
  have short : ∃ p ∈ s.pages, p.rows.length < p.size := by simpa using short
  refine ⟨s, hs, short, message_walk_misses_none rfl (List.mem_singleton_self _) ?_ ?_ hs
    (Or.inl short)⟩
  · decide +kernel
  · simp [busyWalk, SparesMessage, hello, AddArgs.record, NewMessage.row]

end messages

section packets
variable {q : PacketQuery} {storePayloads : Bool} {s : PacketStats.State} {r : PacketRow}

theorem younger_of_first {a b : PacketRow} (first : (!newestFirst a b) = true) : a.ts ≤ b.ts := by
  simp only [newestFirst, Bool.not_eq_true', Bool.or_eq_false_iff, decide_eq_false_iff_not] at first
  omega

theorem keeps_packet {a : PacketStats.Action} (spares : SparesPacket r.ts s a) :
    Keeps (packets q) (PacketStats.step storePayloads) r s a := by
  rintro t ht n ⟨x, hx, rfl, far⟩
  obtain ⟨stored, wanted⟩ := List.mem_filter.mp hx
  cases a with
  | insertPacket p =>
    cases ht
    have grows : (s.packets.rows.filter q.selects).Sublist
        ((s.packets.insert storePayloads p).rows.filter q.selects) :=
      (List.sublist_append_left _ _).filter _
    exact ⟨x, grows.subset hx, rfl, far.trans grows.countP_le⟩
  | upsertHourly k =>
    simp only [PacketStats.step] at ht
    split at ht
    · cases ht
      exact ⟨x, hx, rfl, far⟩
    · cases ht
  | prune cutoffTs batch =>
    simp only [PacketStats.step, Option.ite_none_right_eq_some, Option.some.injEq] at ht
    obtain ⟨_, rfl⟩ := ht
    exact ⟨x, hx, rfl, far⟩
  | deleteBatch k ids =>
    simp only [PacketStats.step] at ht
    split at ht
    · rename_i c under
      rw [Option.ite_none_right_eq_some] at ht
      obtain ⟨⟨_, old, _⟩, ht⟩ := ht
      cases ht
      -- a row as young as the packet is not among those that the prune selects
      have kept : ∀ y ∈ s.packets.rows, x.ts ≤ y.ts → y.id ∉ ids := by
        intro y hy younger chosen
        obtain ⟨z, hz, same, expired⟩ := old y.id chosen
        obtain rfl := s.packets.id_unique.eq_of_mem hz hy rfl (congrArg some same.symm)
        have young : c.cutoffTs ≤ x.ts := spares c under
        omega
      refine ⟨x, List.mem_filter.mpr ⟨?_, wanted⟩, rfl, far.trans_eq ?_⟩
      · exact List.mem_filter.mpr ⟨stored, by simpa using kept x stored le_rfl⟩
      · have apart : (s.packets.delete ids).rows.filter q.selects =
            (s.packets.rows.filter q.selects).filter fun y => y.id ∉ ids := List.filter_comm _ _ _
        change ahead newestFirst (s.packets.rows.filter q.selects) x =
          ahead newestFirst ((s.packets.delete ids).rows.filter q.selects) x
        rw [apart]
        refine (countP_kept fun y hy first => ?_).symm
        simpa using kept y (List.mem_of_mem_filter hy) (younger_of_first first)
    · cases ht

def logs : PacketStats.Action → Bool
  | .insertPacket _ => true
  | _ => false

theorem addsNone_packet {a : PacketStats.Action} (other : logs a = false) :
    AddsNone (packets q) (PacketStats.step storePayloads) s a := by
  intro t ht
  cases a with
  | insertPacket p => cases other
  | upsertHourly k =>
    simp only [PacketStats.step] at ht
    split at ht
    · cases ht
      exact le_rfl
    · cases ht
  | prune cutoffTs batch =>
    simp only [PacketStats.step, Option.ite_none_right_eq_some, Option.some.injEq] at ht
    obtain ⟨_, rfl⟩ := ht
    exact le_rfl
  | deleteBatch k ids =>
    simp only [PacketStats.step] at ht
    split at ht
    · rw [Option.ite_none_right_eq_some] at ht
      obtain ⟨_, ht⟩ := ht
      cases ht
      exact (List.filter_sublist.filter _).length_le
    · cases ht

/-- A client that walks through the packets gets every one that is too young for the prunes
of the time, whatever is logged meanwhile. -/
theorem packet_walk_misses_none {as : List (LivePaging.Action PacketStats.Action ℤ)}
    {t : LivePaging.State PacketStats.State PacketRow} (stored : r ∈ s.packets.rows)
    (wanted : q.selects r = true)
    (spared : Runs.Along (LivePaging.step (packets q) (PacketStats.step storePayloads) logs)
      (Stating fun s a => SparesPacket r.ts s.table a) (.start s) as)
    (hr : Runs.run (LivePaging.step (packets q) (PacketStats.step storePayloads) logs) (.start s)
      as = some t) :
    ((∃ p ∈ t.pages, p.rows.length < p.size) ∨
      (∃ p ∈ t.pages, p.overtaken = false ∧ p.total ≤ p.offset + p.rows.length)) →
      ∃ p ∈ t.pages, r ∈ p.rows := by
  have present : Behind (packets q) s r 0 :=
    ⟨r, List.mem_filter.mpr ⟨stored, wanted⟩, rfl, Nat.zero_le _⟩
  have keeps : Runs.Along (LivePaging.step (packets q) (PacketStats.step storePayloads) logs)
      (Stating fun s => Keeps (packets q) (PacketStats.step storePayloads) r s.table)
      (.start s) as :=
    Runs.along_mono (stating_mono fun _ _ spares => keeps_packet spares) spared
  have onPage : Seen (packets q) t.pages r → ∃ p ∈ t.pages, r ∈ p.rows := by
    rintro ⟨p, hp, x, hx, rfl⟩
    exact ⟨p, hp, hx⟩
  rintro (short | reached)
  · exact onPage (short_page_seen present keeps hr short)
  · exact onPage (total_reached_seen present keeps (fun _ _ other => addsNone_packet other) hr
      reached)

def pruning : PacketStats.State :=
  { PacketStats.init with
    packets := ⟨[⟨{ ts := 3 }, 1⟩, ⟨{ ts := 9 }, 2⟩], by simp [KeyedTable.Unique]⟩
    prunes := [⟨5, 1, 0⟩] }

def loggedWalk : List (LivePaging.Action PacketStats.Action ℤ) :=
  [.statement (.insertPacket { ts := 12 }), .count, .page 1, .statement (.deleteBatch 0 [1]),
    .statement (.insertPacket { ts := 2 }), .count, .page 1, .count, .page 2]

theorem packet_walk_misses_none_loggedWalk : ∃ s,
    Runs.run (LivePaging.step (packets {}) (PacketStats.step true) logs) (.start pruning)
        loggedWalk = some s ∧ (∃ p ∈ s.pages, p.rows.length < p.size) ∧
        ∃ p ∈ s.pages, ⟨{ ts := 9 }, 2⟩ ∈ p.rows := by
  have inserted : packets {} = { packets {} with
      fetch := fun s limit offset => (PacketStore.query s.packets
        { limit := limit, offset := offset } (insertion newestFirst_preorders _)).1
      fetch_eq := fun _ _ _ => ⟨insertion newestFirst_preorders _, rfl⟩ } := by
    unfold packets
    congr
    funext s limit offset
    exact congrArg Prod.fst (query_eq s.packets { limit := limit, offset := offset } _).symm
  have got : (Runs.run (LivePaging.step (packets {}) (PacketStats.step true) logs) (.start pruning)
      loggedWalk).map (fun s => s.pages.any fun p => p.rows.length < p.size) = some true := by
    rw [inserted]
    decide +kernel
  obtain ⟨s, hs, short⟩ := Option.map_eq_some_iff.mp got
  have short : ∃ p ∈ s.pages, p.rows.length < p.size := by simpa using short
  refine ⟨s, hs, short, packet_walk_misses_none ?_ ?_ ?_ hs (Or.inl short)⟩
  · decide
  · decide
  · decide +kernel

end packets

end MeshwardenDaemon.LivePages
