import MeshwardenDaemon.Listings

/-! Walks over the pages of a listing: the offset moves on by the rows of each page, until a
page is empty. Every page is a query of its own, which sorts the table anew. -/
namespace MeshwardenDaemon.PageWalk
open Library KeyedTable Paging ChannelTable ContactTable MessageTable PacketTable Listings

/-- The pages together hold every row once, and as many rows as each query reports. -/
def VisitsOnce {ρ : Type} (P : Pager ρ) (rows : List ρ) : Prop :=
  (P.visit 0 0).flatten.Perm rows ∧ (P.visit 0 0).flatten.length = P.total

def packetPager (t : Packets) (q : PacketQuery)
    (arrange : ℕ → Arrangement newestFirst (t.rows.filter q.selects)) : Pager PacketRow where
  fetch n offset := (PacketStore.query t { q with offset := offset } (arrange n)).1
  total := (PacketStore.query t q (arrange 0)).2
  within := (Pager.sorted (pageSize q.limit) arrange).within

def messagePager (t : History) (channels : Channels) (f : MessageFilter) (limit : ℤ)
    (arrange : ℕ → Arrangement latestFirst (t.selected channels f)) : Pager ListedMessage where
  fetch n offset := (MessageStore.list t channels f limit offset (arrange n)).1
  total := (MessageStore.list t channels f limit 0 (arrange 0)).2
  within n offset := by
    have inside := (Pager.sorted (pageSize limit) arrange).within n offset
    simpa only [Pager.sorted, MessageStore.list, length_selected] using inside

def contactPager (t : Contacts) (f : ContactFilter) (limit : ℤ)
    (arrange : ℕ → Arrangement lastSeenFirst (t.rows.filter f.selects)) : Pager ContactRow where
  fetch n offset := (ContactStore.list t f limit offset (arrange n)).1
  total := (ContactStore.list t f limit 0 (arrange 0)).2
  within := (Pager.sorted (pageSize limit) arrange).within

/-- A page of this size ends between contacts that were last seen when `r` was. -/
def PartsTie (rows : List ContactRow) (size : ℕ) (r : ContactRow) : Prop :=
  ∃ k, rows.countP (fun x => r.lastSeen < x.lastSeen) < k * size ∧
    k * size < rows.countP fun x => r.lastSeen ≤ x.lastSeen

section walks
variable {ρ : Type} {le : ρ → ρ → Bool} {rows : List ρ} {limit : ℕ}

/-- The count is no condition of its own. -/
theorem visitsOnce_iff (arrange : ℕ → Arrangement le rows) :
    VisitsOnce (Pager.sorted limit arrange) rows ↔ (visited limit arrange 0).Perm rows := by
  have start : visited limit arrange 0 = ((Pager.sorted limit arrange).visit 0 0).flatten := by
    simp [visited]
  rw [start]
  exact and_iff_left_of_imp List.Perm.length_eq

theorem visitsOnce_of_antisymm (positive : 1 ≤ limit)
    (antisymm : ∀ a ∈ rows, ∀ b ∈ rows, le a b = true → le b a = true → a = b)
    (arrange : ℕ → Arrangement le rows) : VisitsOnce (Pager.sorted limit arrange) rows := by
  rw [visitsOnce_iff, visited_of_antisymm positive antisymm]
  exact (arrange 0).perm

end walks

theorem parts_iff (rows : List ContactRow) (size : ℕ) (r : ContactRow) :
    PartsTie rows size r ↔ ∃ k, Straddles lastSeenFirst rows (k * size) r := by
  simp only [PartsTie, Straddles, ahead, upTo, lastSeenFirst, ← decide_not, not_le]

theorem packets_visited (t : Packets) (q : PacketQuery)
    (arrange : ℕ → Arrangement newestFirst (t.rows.filter q.selects)) :
    VisitsOnce (packetPager t q arrange) (t.rows.filter q.selects) := by
  refine visitsOnce_of_antisymm (pageSize_pos q.limit) ?_ arrange
  intro a ha b hb
  exact newestFirst_antisymm (List.mem_of_mem_filter ha) (List.mem_of_mem_filter hb)

theorem messages_visited (t : History) (channels : Channels) (f : MessageFilter) (limit : ℤ)
    (arrange : ℕ → Arrangement latestFirst (t.selected channels f)) :
    VisitsOnce (messagePager t channels f limit arrange)
      ((t.rows.filter f.selects).map (MessageRecord.listed channels)) := by
  have count : messagePager t channels f limit arrange = Pager.sorted (pageSize limit) arrange := by
    simp only [messagePager, Pager.sorted, MessageStore.list, length_selected]
  rw [← selected_eq, count]
  refine visitsOnce_of_antisymm (pageSize_pos limit) ?_ arrange
  intro a ha b hb
  exact latestFirst_antisymm (selected_unique t channels f) ha hb

theorem contacts_visited_iff (t : Contacts) (f : ContactFilter) (limit : ℤ) :
    (∀ arrange, VisitsOnce (contactPager t f limit arrange) (t.rows.filter f.selects)) ↔
      ∀ r ∈ t.rows.filter f.selects,
        ¬ PartsTie (t.rows.filter f.selects) (pageSize limit) r := by
  have keys : Unique (fun r : ContactRow => some r.publicKey) (t.rows.filter f.selects) :=
    t.key_unique.filter _
  have nodup : (t.rows.filter f.selects).Nodup := keys.nodup_map.of_map
  have walks := visits_iff_straddles lastSeenFirst_preorders nodup (pageSize_pos limit)
  simp only [parts_iff, not_exists]
  rw [← walks]
  exact forall_congr' visitsOnce_iff

/-- Walks over packets and over messages visit every row once. Walks over contacts do for
every order of contacts that were last seen at the same time exactly when no page ends
between such contacts. -/
theorem walks_visit_once_iff (packets : Packets) (q : PacketQuery) (history : History)
    (channels : Channels) (m : MessageFilter) (contacts : Contacts) (f : ContactFilter)
    (limit : ℤ) :
    (∀ arrange, VisitsOnce (packetPager packets q arrange) (packets.rows.filter q.selects)) ∧
    (∀ arrange, VisitsOnce (messagePager history channels m limit arrange)
      ((history.rows.filter m.selects).map (MessageRecord.listed channels))) ∧
    ((∀ arrange, VisitsOnce (contactPager contacts f limit arrange)
        (contacts.rows.filter f.selects)) ↔
      ∀ r ∈ contacts.rows.filter f.selects,
        ¬ PartsTie (contacts.rows.filter f.selects) (pageSize limit) r) :=
  ⟨packets_visited packets q, messages_visited history channels m limit,
    contacts_visited_iff contacts f limit⟩

section tie

def unheard (publicKey : String) : ContactRow := ⟨{ publicKey := publicKey }, 9, 0, true⟩

def unheardPair : Contacts where
  rows := [unheard "a", unheard "b"]
  key_unique := by simp [KeyedTable.Unique, unheard]

def turned (n : ℕ) :
    Arrangement lastSeenFirst (unheardPair.rows.filter (ContactFilter.selects {})) :=
  if n = 0 then ⟨[unheard "a", unheard "b"], by decide, by decide⟩
  else ⟨[unheard "b", unheard "a"], by decide, by decide⟩

/-- A client that asks for one contact at a time is shown one of them twice. -/
theorem turned_not_visited : ¬ VisitsOnce (contactPager unheardPair {} 1 turned)
    (unheardPair.rows.filter (ContactFilter.selects {})) := by
  have first : (contactPager unheardPair {} 1 turned).fetch 0 0 = [unheard "a"] := rfl
  have second : (contactPager unheardPair {} 1 turned).fetch 1 1 = [unheard "a"] := rfl
  have third : (contactPager unheardPair {} 1 turned).fetch 2 2 = [] := rfl
  have pages : (contactPager unheardPair {} 1 turned).visit 0 0 =
      [[unheard "a"], [unheard "a"]] := by
    rw [Pager.visit, Pager.visit, Pager.visit]
    simp [first, second, third]
  rintro ⟨all, -⟩
  rw [pages] at all
  exact absurd (all.mem_iff (a := unheard "b")) (by decide)

end tie

end MeshwardenDaemon.PageWalk
