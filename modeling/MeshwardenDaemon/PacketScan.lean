import MeshwardenDaemon.ChannelBackfill
import MeshwardenDaemon.GroupText
import MeshwardenDaemon.PacketTable
import MeshwardenDaemon.Ping

/-! The scan of a backfill: the stored GRP_TXT packets of a time window, page by page,
and the index of what they decrypt to. -/
namespace MeshwardenDaemon.PacketScan
open ChannelTable ChannelBackfill GroupText Library.KeyedTable PacketTable

structure PacketParser where
  /-- `PAYLOAD_TYPENAMES.index("GRP_TXT")`. -/
  grpTxt : ℤ
  /-- The `pkt_payload` of `parsePacketPayload`, nothing where it raises. -/
  pktPayload : List UInt8 → Option (List UInt8)

/-- The arguments of `iter_payloads`. -/
structure Window where
  payloadType : ℤ
  afterTs : ℤ
  beforeTs : ℤ
  deriving DecidableEq

/-- The WHERE clause of `iter_payloads`, but for the id. -/
def Window.Selects (w : Window) (r : PacketRow) : Prop :=
  r.payloadType = some w.payloadType ∧ r.payloadHex.isSome = true ∧ w.afterTs ≤ r.ts ∧
    r.ts < w.beforeTs

instance (w : Window) (r : PacketRow) : Decidable (w.Selects r) :=
  inferInstanceAs (Decidable (_ ∧ _ ∧ _ ∧ _))

theorem mergeSort_id_ordered (rows : List PacketRow) :
    (rows.mergeSort fun a b => a.id ≤ b.id).Pairwise fun a b => a.id ≤ b.id := by
  refine (List.pairwise_mergeSort ?_ ?_ _).imp fun h => of_decide_eq_true h
  · intro a b c hab hbc
    simp only [decide_eq_true_eq] at hab hbc ⊢
    omega
  · intro a b
    simp only [Bool.or_eq_true, decide_eq_true_eq]
    omega

/-- One SELECT of `iter_payloads`. -/
def page (rows : List PacketRow) (w : Window) (batch lastId : ℕ) : List PacketRow :=
  ((rows.filter fun r => w.Selects r ∧ lastId < r.id).mergeSort fun a b => a.id ≤ b.id).take batch

theorem mem_of_mem_page {rows : List PacketRow} {w : Window} {batch lastId : ℕ} {r : PacketRow}
    (h : r ∈ page rows w batch lastId) : r ∈ rows ∧ w.Selects r ∧ lastId < r.id := by
  have selected := (List.mem_mergeSort.mp (List.mem_of_mem_take h))
  simpa only [List.mem_filter, decide_eq_true_eq] using selected

/-- The loop of `iter_payloads`; the first SELECT has `lastId = 0`. -/
def iterPayloads (rows : List PacketRow) (w : Window) (batch lastId : ℕ) : List PacketRow :=
  let found := page rows w batch lastId
  match _last : found.getLast? with
  | none => found
  | some last =>
    if found.length < batch then found else found ++ iterPayloads rows w batch last.id
termination_by (rows.filter fun r => lastId < r.id).length
decreasing_by
  have new := mem_of_mem_page (List.mem_of_getLast? _last)
  have fewer : rows.filter (fun r => last.id < r.id) =
      (rows.filter fun r => lastId < r.id).filter fun r => last.id < r.id := by
    rw [List.filter_filter]
    apply List.filter_congr
    intro r _
    have := new.2.2
    simp only [Bool.eq_self_and, decide_eq_true_eq]
    omega
  rw [fewer]
  apply List.length_filter_lt_length_iff_exists.mpr
  exact ⟨last, List.mem_filter.mpr ⟨new.1, by simpa using new.2.2⟩, by simp⟩

/-- A selected row is left for the next page only if this one is full and before it. -/
theorem page_complete {rows : List PacketRow} {w : Window} {batch lastId : ℕ} {r : PacketRow}
    (hr : r ∈ rows) (selects : w.Selects r) (new : lastId < r.id) :
    r ∈ page rows w batch lastId ∨
      (page rows w batch lastId).length = batch ∧ ∀ x ∈ page rows w batch lastId, x.id ≤ r.id := by
  have sorted := mergeSort_id_ordered (rows.filter fun r => w.Selects r ∧ lastId < r.id)
  have selected : r ∈ (rows.filter fun r => w.Selects r ∧ lastId < r.id).mergeSort
      fun a b => a.id ≤ b.id := by
    rw [List.mem_mergeSort, List.mem_filter, decide_eq_true_eq]
    exact ⟨hr, selects, new⟩
  rw [← List.take_append_drop batch (List.mergeSort _ _), List.mem_append] at selected
  rw [← List.take_append_drop batch (List.mergeSort _ _), List.pairwise_append] at sorted
  rcases selected with here | later
  · exact Or.inl here
  · refine Or.inr ⟨?_, fun x hx => sorted.2.2 x hx r later⟩
    have more := List.length_pos_of_mem later
    rw [List.length_drop] at more
    simp only [page, List.length_take]
    omega

theorem page_ahead {packets : Packets} {w : Window} {batch lastId : ℕ} {r : PacketRow}
    (hr : r ∈ packets.rows) (selects : w.Selects r) (new : lastId < r.id) :
    r ∈ page packets.rows w batch lastId ∨
      (page packets.rows w batch lastId).length = batch ∧
        ∀ x ∈ page packets.rows w batch lastId, x.id < r.id := by
  by_cases here : r ∈ page packets.rows w batch lastId
  · exact Or.inl here
  · obtain ⟨full, before⟩ := (page_complete hr selects new).resolve_left here
    refine Or.inr ⟨full, fun x hx => lt_of_le_of_ne (before x hx) fun same => here ?_⟩
    -- the id is that of one row only
    have row := packets.id_unique.eq_of_mem hr (mem_of_mem_page hx).1 rfl (congrArg some same)
    exact row ▸ hx

theorem mem_iterPayloads {packets : Packets} {w : Window} {batch : ℕ} (some_batch : 1 ≤ batch)
    {lastId : ℕ} {r : PacketRow} :
    r ∈ iterPayloads packets.rows w batch lastId ↔
      r ∈ packets.rows ∧ w.Selects r ∧ lastId < r.id := by
  refine ⟨?_, ?_⟩
  · fun_induction iterPayloads packets.rows w batch lastId with
    | case1 lastId found none => exact mem_of_mem_page
    | case2 lastId found last at_end short => exact mem_of_mem_page
    | case3 lastId found last at_end full ih =>
      intro h
      rcases List.mem_append.mp h with here | later
      · exact mem_of_mem_page here
      · obtain ⟨hr, selects, new⟩ := ih later
        have old := (mem_of_mem_page (List.mem_of_getLast? at_end)).2.2
        exact ⟨hr, selects, old.trans new⟩
  · rintro ⟨hr, selects, new⟩
    fun_induction iterPayloads packets.rows w batch lastId with
    | case1 lastId found none =>
      refine (page_complete hr selects new).resolve_right fun full => ?_
      have nothing : page packets.rows w batch lastId = [] := List.getLast?_eq_none_iff.mp none
      rw [nothing, List.length_nil] at full
      omega
    | case2 lastId found last at_end short =>
      exact (page_complete hr selects new).resolve_right fun full => short.ne full.1
    | case3 lastId found last at_end full ih =>
      rw [List.mem_append]
      rcases page_ahead hr selects new with here | ⟨-, before⟩
      · exact Or.inl here
      · exact Or.inr (ih (before last (List.mem_of_getLast? at_end)))

/-- What comes after the first `sep`, the last part of `str.partition(sep)` where it is
found. -/
def afterFirst (sep : List Char) : List Char → Option (List Char)
  | [] => none
  | c :: rest =>
    if sep.isPrefixOf (c :: rest) then some ((c :: rest).drop sep.length)
    else afterFirst sep rest

theorem afterFirst_eq_some {sep : List Char} (nonempty : sep ≠ []) {text body : List Char} :
    afterFirst sep text = some body ↔ ∃ front, text = front ++ sep ++ body ∧
      ∀ front' body', text = front' ++ sep ++ body' → front.length ≤ front'.length := by
  induction text with
  | nil =>
    refine ⟨nofun, ?_⟩
    rintro ⟨front, none, -⟩
    simp [nonempty] at none
  | cons c rest ih =>
    simp only [afterFirst]
    split
    · rename_i here
      obtain ⟨after, cut⟩ := List.isPrefixOf_iff_prefix.mp here
      rw [← cut, List.drop_left, Option.some.injEq]
      refine ⟨?_, ?_⟩
      · rintro rfl
        exact ⟨[], rfl, fun _ _ _ => Nat.zero_le _⟩
      · rintro ⟨front, same, first⟩
        have short := first [] after rfl
        rw [List.length_nil, Nat.le_zero, List.length_eq_zero_iff] at short
        subst short
        exact List.append_cancel_left same
    · rename_i elsewhere
      have moved : ∀ front' body', c :: rest = front' ++ sep ++ body' →
          ∃ front'', front' = c :: front'' ∧ rest = front'' ++ sep ++ body' := by
        intro front' body' cut
        cases front' with
        | nil => exact absurd (List.isPrefixOf_iff_prefix.mpr ⟨body', cut.symm⟩) elsewhere
        | cons d front'' =>
          simp only [List.cons_append, List.cons.injEq] at cut
          exact ⟨front'', by rw [cut.1], cut.2⟩
      rw [ih]
      refine ⟨?_, ?_⟩
      · rintro ⟨front, cut, first⟩
        refine ⟨c :: front, by rw [cut]; rfl, fun front' body' cut' => ?_⟩
        obtain ⟨front'', rfl, tail⟩ := moved front' body' cut'
        exact Nat.succ_le_succ (first front'' body' tail)
      · rintro ⟨front, cut, first⟩
        obtain ⟨front'', rfl, tail⟩ := moved front body cut
        refine ⟨front'', tail, fun front' body' cut' => ?_⟩
        have later := first (c :: front') body' (by rw [cut']; rfl)
        simpa only [List.length_cons, Nat.add_le_add_iff_right] using later

/-- The message that a plaintext `<sender>: <text>` carries. -/
def bodyOf (text : String) : Option String :=
  (afterFirst [':', ' '] text.toList).map String.ofList

def entriesOf (text : String) (entry : Decrypted) : Index :=
  (text, entry) :: ((bodyOf text).map fun body => (body, entry)).toList

variable (P : Primitives) (parser : PacketParser)

def payloadOf (r : PacketRow) : Option (List UInt8) :=
  (Ping.fromHex (r.payloadHex.getD "").toList).bind parser.pktPayload

/-- The second loop of `_decrypt_packets`. -/
def decryptPackets (secrets : Secrets) : List PacketRow → Option Index
  | [] => some []
  | r :: rest => do
    let payload ← payloadOf parser r
    let later ← decryptPackets secrets rest
    match decryptGroupText P payload secrets with
    | none => return later
    | some (channelId, senderTimestamp, text) =>
      return entriesOf text ⟨channelId, r.ts, senderTimestamp⟩ ++ later

variable {parser} {P}

theorem decryptPackets_channel {channels : List ChannelRow} {rows : List PacketRow}
    {index : Index} (scanned : decryptPackets P parser (secretsOf P channels) rows = some index) :
    ∀ p ∈ index, ∃ c ∈ channels, c.id = p.2.channelId := by
  induction rows generalizing index with
  | nil =>
    cases scanned
    exact fun _ hp => absurd hp List.not_mem_nil
  | cons r rest ih =>
    simp only [decryptPackets, Option.bind_eq_bind, Option.bind_eq_some_iff] at scanned
    obtain ⟨payload, -, later, scanned, found⟩ := scanned
    split at found
    · cases found
      exact ih scanned
    · rename_i channelId senderTimestamp text decrypted
      cases found
      intro p hp
      rcases List.mem_append.mp hp with own | old
      · obtain ⟨-, -, c, hc, same, -⟩ := decryptGroupText_sound decrypted
        refine ⟨c, hc, ?_⟩
        simp only [entriesOf, List.mem_cons, Option.mem_toList, Option.map_eq_some_iff] at own
        obtain rfl | ⟨_, _, rfl⟩ := own <;> exact same
      · exact ih scanned p old

variable (P)

theorem decryptPackets_index (secrets : Secrets) {rows : List PacketRow}
    (readable : ∀ r ∈ rows, (payloadOf parser r).isSome = true) :
    ∃ index, decryptPackets P parser secrets rows = some index ∧
      ∀ key entry, (key, entry) ∈ index ↔ ∃ r ∈ rows, ∃ payload text,
        payloadOf parser r = some payload ∧ entry.ts = r.ts ∧
          decryptGroupText P payload secrets =
            some (entry.channelId, entry.senderTimestamp, text) ∧
          (key = text ∨ bodyOf text = some key) := by
  induction rows with
  | nil => exact ⟨[], rfl, by simp⟩
  | cons r rest ih =>
    obtain ⟨later, scanned, mem_later⟩ := ih fun x hx => readable x (List.mem_cons_of_mem r hx)
    obtain ⟨payload, read⟩ := Option.isSome_iff_exists.mp (readable r List.mem_cons_self)
    cases found : decryptGroupText P payload secrets with
    | none =>
      refine ⟨later, by simp [decryptPackets, read, scanned, found], fun key entry => ?_⟩
      rw [mem_later]
      simp [read, found]
    | some result =>
      obtain ⟨channelId, senderTimestamp, text⟩ := result
      refine ⟨entriesOf text ⟨channelId, r.ts, senderTimestamp⟩ ++ later,
        by simp [decryptPackets, read, scanned, found], fun key entry => ?_⟩
      rw [List.mem_append, mem_later, List.exists_mem_cons_iff]
      refine or_congr_left ?_
      simp only [entriesOf, List.mem_cons, Prod.mk.injEq, Option.mem_toList,
        Option.map_eq_some_iff, read, Option.some.injEq]
      refine ⟨?_, ?_⟩
      · rintro (⟨rfl, rfl⟩ | ⟨body, hbody, rfl, rfl⟩)
        · exact ⟨payload, key, rfl, rfl, found, Or.inl rfl⟩
        · exact ⟨payload, text, rfl, rfl, found, Or.inr hbody⟩
      · rintro ⟨_, text', rfl, time, decrypted, keys⟩
        rw [found] at decrypted
        obtain ⟨rfl, rfl, rfl⟩ : channelId = entry.channelId ∧
            senderTimestamp = entry.senderTimestamp ∧ text = text' := by simpa using decrypted
        rw [← time]
        rcases keys with rfl | hbody
        · exact Or.inl ⟨rfl, rfl⟩
        · exact Or.inr ⟨key, hbody, rfl, rfl⟩

end MeshwardenDaemon.PacketScan
