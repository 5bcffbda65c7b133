import MeshwardenDaemon.PacketScan
import Mathlib.Data.Set.Insert

/-! A whole backfill run on tables that nobody else writes to: what `ChannelBackfill._run`
makes of them, and what it should make of each candidate. -/
namespace MeshwardenDaemon.BackfillRun
open ChannelTable MessageTable ChannelBackfill GroupText PacketTable PacketScan Library

structure BackfillResult where
  decrypted : ℕ := 0
  inferred : ℕ := 0
  unresolved : ℕ := 0
  deriving DecidableEq

def BackfillResult.count (result : BackfillResult) : Option (ℕ × Source) → BackfillResult
  | some (_, .decrypted) => { result with decrypted := result.decrypted + 1 }
  | some _ => { result with inferred := result.inferred + 1 }
  | none => { result with unresolved := result.unresolved + 1 }

def scanBefore : ℤ := 86400
def scanAfter : ℤ := 3600

def scanWindow (parser : PacketParser) (targets : List MessageRow) : Window where
  payloadType := parser.grpTxt
  afterTs := (targets.map MessageRow.ts).min?.getD 0 - scanBefore
  beforeTs := (targets.map MessageRow.ts).max?.getD 0 + scanAfter

variable (P : Primitives) (parser : PacketParser) (channels : Channels) (packets : Packets)

/-- `_decrypt_packets`; it raises if a payload is none. -/
def scan (targets : List MessageRow) : Option Index :=
  decryptPackets P parser (secretsOf P (channels.list false))
    (iterPayloads packets.rows (scanWindow parser targets) 5000 0)

/-- What the loop of `_run` does with one candidate. -/
def decision (index : Index) (m : MessageRow) : Option (ℕ × Source) :=
  attribution (m.channelIdx.bind channels.idAt) (matched index m)

def setChannels (messages : Messages) (updates : List Update) : Messages :=
  updates.foldl (fun t u => t.setChannel u.channelId u.source u.messageId) messages

/-- `_run`, nothing where it raises. -/
def backfill (includeInferred : Bool) (messages : Messages) :
    Option (BackfillResult × Messages) :=
  let targets := messages.channelBackfillCandidates includeInferred
  if targets = [] then some ({}, messages)
  else do
    let index ← scan P parser channels packets targets
    let result := targets.foldl (fun result m => result.count (decision channels index m)) {}
    return (result, setChannels messages (updatesFor channels index targets))

/-! What a run should decide, said for one message at a time. -/

/-- A message stored as `key` may have the plaintext `text`: as a whole, or as what comes
after its first ": ". -/
def StoredAs (text key : List Char) : Prop :=
  key = text ∨ ∃ sender, text = sender ++ [':', ' '] ++ key ∧
    ∀ sender' key', text = sender' ++ [':', ' '] ++ key' → sender.length ≤ sender'.length

/-- The sender timestamps agree; a message without one was stored within a minute. -/
def SameTime (m : MessageRow) (ts senderTimestamp : ℕ) : Prop :=
  if m.senderTimestamp = none ∨ m.senderTimestamp = some 0 then
    ((m.ts : ℤ) - ts).natAbs ≤ 60
  else m.senderTimestamp = some senderTimestamp

instance (m : MessageRow) (ts senderTimestamp : ℕ) : Decidable (SameTime m ts senderTimestamp) := by
  unfold SameTime
  infer_instance

/-- The packet decrypts, under channel `c`, to what was stored as the message. -/
def Matches (r : PacketRow) (m : MessageRow) (c : ℕ) : Prop :=
  ∃ payload senderTimestamp text, payloadOf parser r = some payload ∧
    decryptGroupText P payload (secretsOf P (channels.list false)) =
      some (c, senderTimestamp, text) ∧
    StoredAs text.toList (stripNul m.text) ∧ SameTime m r.ts senderTimestamp

/-- The channels that packets of the window speak for. -/
def matchSet (w : Window) (m : MessageRow) : Set ℕ :=
  {c | ∃ r ∈ packets.rows, w.Selects r ∧ Matches P parser channels r m c}

inductive Decides (slotChannel : Option ℕ) (found : Set ℕ) : Option (ℕ × Source) → Prop
  | slot {c : ℕ} (occupied : slotChannel = some c) (mem : c ∈ found) :
      Decides slotChannel found (some (c, .decrypted))
  | single {c : ℕ} (other : ∀ s ∈ slotChannel, s ∉ found) (only : found = {c}) :
      Decides slotChannel found (some (c, .decrypted))
  | inferred {c : ℕ} (occupied : slotChannel = some c) (none : found = ∅) :
      Decides slotChannel found (some (c, .inferred))
  | unresolved (other : ∀ s ∈ slotChannel, s ∉ found) (several : ∀ c, found ≠ {c})
      (vacant : found = ∅ → slotChannel = none) : Decides slotChannel found none

/-- The scanned packets are packets that the parser reads. -/
def Readable (w : Window) : Prop :=
  ∀ r ∈ packets.rows, w.Selects r → (payloadOf parser r).isSome = true

def attributed (m : MessageRow) : Option (ℕ × Source) → MessageRow
  | some (channelId, source) =>
    { m with channelId := some channelId, channelSource := some source }
  | none => m

section attributed
variable (m : MessageRow) (a : Option (ℕ × Source))

@[simp] theorem attributed_id : (attributed m a).id = m.id := by cases a <;> rfl

@[simp] theorem attributed_ts : (attributed m a).ts = m.ts := by cases a <;> rfl

@[simp] theorem attributed_channelIdx : (attributed m a).channelIdx = m.channelIdx := by
  cases a <;> rfl

theorem attributed_twice : attributed (attributed m a) a = attributed m a := by cases a <;> rfl

end attributed

theorem Decides.unique {slotChannel : Option ℕ} {found : Set ℕ} {a b : Option (ℕ × Source)}
    (ha : Decides slotChannel found a) (hb : Decides slotChannel found b) : a = b := by
  cases ha with
  | slot occupied mem =>
    cases hb with
    | slot occupied' _ => rw [Option.some.inj (occupied.symm.trans occupied')]
    | single other _ => exact absurd mem (other _ occupied)
    | inferred _ none => exact absurd (none ▸ mem) (Set.notMem_empty _)
    | unresolved other _ _ => exact absurd mem (other _ occupied)
  | single other only =>
    cases hb with
    | slot occupied mem => exact absurd mem (other _ occupied)
    | single _ only' => rw [Set.singleton_injective (only.symm.trans only')]
    | inferred _ none => exact absurd (only.symm.trans none) (Set.singleton_ne_empty _)
    | unresolved _ several _ => exact absurd only (several _)
  | inferred occupied none =>
    cases hb with
    | slot _ mem => exact absurd (none ▸ mem) (Set.notMem_empty _)
    | single _ only => exact absurd (only.symm.trans none) (Set.singleton_ne_empty _)
    | inferred occupied' _ => rw [Option.some.inj (occupied.symm.trans occupied')]
    | unresolved _ _ vacant => exact absurd (occupied.symm.trans (vacant none)) (by simp)
  | unresolved other several vacant =>
    cases hb with
    | slot occupied mem => exact absurd mem (other _ occupied)
    | single _ only => exact absurd only (several _)
    | inferred occupied none => exact absurd (occupied.symm.trans (vacant none)) (by simp)
    | unresolved _ _ _ => rfl

theorem attribution_decides (slotChannel : Option ℕ) {found : List ℕ} (nodup : found.Nodup) :
    Decides slotChannel {c | c ∈ found} (attribution slotChannel found) := by
  unfold attribution
  by_cases own : ∃ s ∈ slotChannel, s ∈ found
  · obtain ⟨s, rfl, mem⟩ := own
    have kept : (some s).filter (found.contains ·) = some s := by simp [mem]
    rw [kept]
    exact Decides.slot rfl mem
  · have none_kept : slotChannel.filter (found.contains ·) = none := by
      cases slotChannel with
      | none => rfl
      | some s => simpa using own
    simp only [not_exists, not_and] at own
    rw [none_kept]
    match found, own with
    | [], own =>
      cases slotChannel with
      | none => exact Decides.unresolved own (by simp [Set.ext_iff]) fun _ => rfl
      | some s => exact Decides.inferred rfl (by simp)
    | [c], own => exact Decides.single own (by simp)
    | c :: d :: rest, own =>
      refine Decides.unresolved own (fun x only => ?_) fun none => ?_
      · have first : c = x := (Set.ext_iff.mp only c).mp (by simp)
        have second : d = x := (Set.ext_iff.mp only d).mp (by simp)
        simp [first, second] at nodup
      · exact absurd ((Set.ext_iff.mp none c).mp (by simp)) (Set.notMem_empty c)

theorem sameSend_iff (m : MessageRow) (packet : Decrypted) :
    sameSend m packet = true ↔ SameTime m packet.ts packet.senderTimestamp := by
  unfold sameSend SameTime
  split
  · rename_i t stamp
    simp [stamp]
  · rename_i other
    have none_stamp : m.senderTimestamp = none ∨ m.senderTimestamp = some 0 := by
      match stamp : m.senderTimestamp with
      | none => exact Or.inl rfl
      | some 0 => exact Or.inr rfl
      | some (t + 1) => exact absurd stamp (other t)
    rw [if_pos none_stamp, decide_eq_true_eq]
    rfl

theorem storedAs_iff (text key : String) :
    (key = text ∨ bodyOf text = some key) ↔ StoredAs text.toList key.toList := by
  unfold StoredAs bodyOf
  refine or_congr String.toList_inj.symm ?_
  rw [← afterFirst_eq_some (by simp), Option.map_eq_some_iff]
  refine ⟨?_, fun h => ⟨key.toList, h, String.ofList_toList⟩⟩
  rintro ⟨body, found, rfl⟩
  rwa [String.toList_ofList]

section run
variable {P parser channels packets}

variable (P channels) in
theorem scan_matched {targets : List MessageRow} (stored : ∀ r ∈ packets.rows, 0 < r.id)
    (readable : Readable parser packets (scanWindow parser targets)) :
    ∃ index, scan P parser channels packets targets = some index ∧ ∀ m,
      {c | c ∈ matched index m} =
        matchSet P parser channels packets (scanWindow parser targets) m := by
  have scanned : ∀ r, r ∈ iterPayloads packets.rows (scanWindow parser targets) 5000 0 ↔
      r ∈ packets.rows ∧ (scanWindow parser targets).Selects r := by
    intro r
    rw [mem_iterPayloads (by decide)]
    exact ⟨fun h => ⟨h.1, h.2.1⟩, fun h => ⟨h.1, h.2, stored r h.1⟩⟩
  obtain ⟨index, found, mem_index⟩ := decryptPackets_index P (secretsOf P (channels.list false))
    fun r hr => readable r ((scanned r).mp hr).1 ((scanned r).mp hr).2
  refine ⟨index, found, fun m => ?_⟩
  ext c
  simp only [matched, Set.mem_ofPred_eq, List.mem_dedup, List.mem_map, List.mem_filter,
    Bool.and_eq_true, beq_iff_eq, Prod.exists, mem_index, sameSend_iff, scanned, matchSet, Matches]
  refine ⟨?_, ?_⟩
  · rintro ⟨key, entry, ⟨⟨r, ⟨hr, selects⟩, payload, text, read, time, decrypted, keys⟩, same,
      send⟩, rfl⟩
    refine ⟨r, hr, selects, payload, entry.senderTimestamp, text, read, decrypted, ?_, ?_⟩
    · rw [← same]
      exact (storedAs_iff text key).mp keys
    · rwa [← time]
  · rintro ⟨r, hr, selects, payload, senderTimestamp, text, read, decrypted, spoken, send⟩
    refine ⟨String.ofList (stripNul m.text), ⟨c, r.ts, senderTimestamp⟩,
      ⟨⟨r, ⟨hr, selects⟩, payload, text, read, rfl, decrypted, ?_⟩, ?_, send⟩, rfl⟩
    · rw [storedAs_iff, String.toList_ofList]
      exact spoken
    · rw [String.toList_ofList]

/-- One row under the UPDATEs of `set_channels`. -/
def updateOne (r : MessageRow) (u : Update) : MessageRow :=
  if r.id = u.messageId then
    { r with channelId := some u.channelId, channelSource := some u.source }
  else r

theorem setChannels_rows (messages : Messages) (updates : List Update) :
    (setChannels messages updates).rows = messages.rows.map fun r => updates.foldl updateOne r := by
  unfold setChannels
  induction updates generalizing messages with
  | nil => simp
  | cons u updates ih =>
    rw [List.foldl_cons, ih]
    simp only [Messages.setChannel, KeyedTable.updateWhere, List.map_map, List.foldl_cons]
    apply List.map_congr_left
    intro r _
    simp only [Function.comp_apply, decide_eq_true_eq, updateOne]

theorem updateOne_other {r : MessageRow} {updates : List Update}
    (other : ∀ u ∈ updates, u.messageId ≠ r.id) : updates.foldl updateOne r = r := by
  induction updates with
  | nil => rfl
  | cons u updates ih =>
    have apart := other u List.mem_cons_self
    rw [List.foldl_cons, updateOne, if_neg (Ne.symm apart)]
    exact ih fun v hv => other v (List.mem_cons_of_mem u hv)

theorem updatesFor_cons (index : Index) (m : MessageRow) (targets : List MessageRow) :
    updatesFor channels index (m :: targets) =
      ((decision channels index m).map fun a => (⟨a.1, a.2, m.id, m.born⟩ : Update)).toList ++
        updatesFor channels index targets := by
  unfold updatesFor decision
  rw [List.filterMap_cons]
  split
  · rename_i none
    rw [none]
    rfl
  · rename_i u some
    rw [some]
    rfl

theorem updatesFor_row {index : Index} {targets : List MessageRow} {r : MessageRow}
    (nodup : (targets.map MessageRow.id).Nodup) (row : ∀ m ∈ targets, m.id = r.id → m = r) :
    (updatesFor channels index targets).foldl updateOne r =
      if r ∈ targets then attributed r (decision channels index r) else r := by
  induction targets with
  | nil => rfl
  | cons m targets ih =>
    rw [List.map_cons, List.nodup_cons] at nodup
    rw [updatesFor_cons, List.foldl_append]
    by_cases own : m = r
    · subst own
      have rest : ∀ r' : MessageRow, r'.id = m.id →
          (updatesFor channels index targets).foldl updateOne r' = r' := by
        intro r' same
        apply updateOne_other
        intro u hu used
        obtain ⟨x, hx, from_x⟩ := List.mem_filterMap.mp hu
        obtain ⟨a, -, rfl⟩ := Option.map_eq_some_iff.mp from_x
        exact nodup.1 (List.mem_map.mpr ⟨x, hx, used.trans same⟩)
      rw [if_pos List.mem_cons_self]
      cases decision channels index m with
      | none => exact rest m rfl
      | some a =>
        simp only [Option.map_some, Option.toList_some, List.foldl_cons, List.foldl_nil, updateOne,
          if_true]
        exact rest _ rfl
    · have apart : ¬ r.id = m.id := fun same => own (row m List.mem_cons_self same.symm)
      have mem : r ∈ m :: targets ↔ r ∈ targets := by simp [Ne.symm own]
      simp only [mem, ← ih nodup.2 fun x hx => row x (List.mem_cons_of_mem m hx)]
      cases decision channels index m with
      | none => rfl
      | some a =>
        simp only [Option.map_some, Option.toList_some, List.foldl_cons, List.foldl_nil, updateOne,
          if_neg apart]

theorem foldl_count (targets : List MessageRow) (outcome : MessageRow → Option (ℕ × Source))
    (result : BackfillResult) :
    targets.foldl (fun result m => result.count (outcome m)) result =
      ⟨result.decrypted + targets.countP fun m => (outcome m).any (·.2 == .decrypted),
        result.inferred + targets.countP fun m => (outcome m).any (·.2 != .decrypted),
        result.unresolved + targets.countP fun m => (outcome m).isNone⟩ := by
  induction targets generalizing result with
  | nil => rfl
  | cons m targets ih =>
    rw [List.foldl_cons, ih]
    simp only [List.countP_cons]
    match outcome m with
    | none => simp [BackfillResult.count]; omega
    | some (c, .decrypted) => simp [BackfillResult.count]; omega
    | some (c, .slot) => simp [BackfillResult.count]; omega
    | some (c, .inferred) => simp [BackfillResult.count]; omega

variable (P channels) in
theorem backfill_decides {includeInferred : Bool} {messages : Messages}
    (stored : ∀ r ∈ packets.rows, 0 < r.id)
    (readable : Readable parser packets
      (scanWindow parser (messages.channelBackfillCandidates includeInferred))) :
    ∃ (outcome : MessageRow → Option (ℕ × Source)) (after : Messages),
      backfill P parser channels packets includeInferred messages = some
        ((messages.channelBackfillCandidates includeInferred).foldl
          (fun result m => result.count (outcome m)) {}, after) ∧
      (∀ m ∈ messages.channelBackfillCandidates includeInferred,
        Decides (m.channelIdx.bind channels.idAt) (matchSet P parser channels packets
          (scanWindow parser (messages.channelBackfillCandidates includeInferred)) m)
          (outcome m)) ∧
      after.rows = messages.rows.map fun m =>
        if m.isCandidate includeInferred then attributed m (outcome m) else m := by
  obtain ⟨index, scanned, joined⟩ := scan_matched P channels stored readable
  have nodup : (messages.rows.map MessageRow.id).Nodup := messages.id_unique.nodup_map
  by_cases none : messages.channelBackfillCandidates includeInferred = []
  · refine ⟨fun _ => .none, messages, by simp [backfill, none], by simp [none], ?_⟩
    refine (List.map_id'' (fun m => ?_) _).symm
    split <;> rfl
  · refine ⟨decision channels index, setChannels messages (updatesFor channels index
      (messages.channelBackfillCandidates includeInferred)), ?_, fun m hm => ?_, ?_⟩
    · simp [backfill, none, scanned]
    · rw [← joined m]
      exact attribution_decides _ (List.nodup_dedup _)
    · rw [setChannels_rows]
      refine List.map_congr_left fun r hr => ?_
      rw [updatesFor_row]
      · simp [Messages.channelBackfillCandidates, hr]
      · exact (List.filter_sublist.map _).nodup nodup
      · exact fun m hm same => eq_of_id (List.mem_of_mem_filter hm) hr same

theorem run_writes (s : State) (updates : List Update) :
    Runs.run step { s with run := some (.writing updates) }
        (List.replicate (updates.length + 1) .backfillWrite) =
      some { s with run := none, messages := setChannels s.messages updates } := by
  induction updates generalizing s with
  | nil => rfl
  | cons u updates ih =>
    have write : step { s with run := some (.writing (u :: updates)) } .backfillWrite =
        some { s with
          messages := s.messages.setChannel u.channelId u.source u.messageId
          run := some (.writing updates) } := rfl
    rw [List.length_cons, List.replicate_succ, Runs.run, write, Option.bind_some]
    exact ih { s with messages := s.messages.setChannel u.channelId u.source u.messageId }

theorem backfill_is_run {includeInferred : Bool} {s : State} {result : BackfillResult}
    {after : Messages} (idle : s.run = none)
    (returns : backfill P parser s.channels packets includeInferred s.messages =
      some (result, after)) :
    ∃ acts, Runs.run step s acts = some { s with messages := after } := by
  have select : step s (.backfillSelect includeInferred) = some { s with
      run := if s.messages.channelBackfillCandidates includeInferred = [] then none
        else some (.selected (s.messages.channelBackfillCandidates includeInferred)) } := by
    simp only [step, idle]
  by_cases none : s.messages.channelBackfillCandidates includeInferred = []
  · simp only [backfill, none, if_true, Option.some.injEq, Prod.mk.injEq] at returns
    rw [← returns.2]
    exact ⟨[], rfl⟩
  · simp only [backfill, none, if_false, Option.bind_eq_bind, Option.bind_eq_some_iff,
      Option.pure_def, Option.some.injEq, Prod.mk.injEq] at returns
    obtain ⟨index, -, -, rfl⟩ := returns
    rw [if_neg none] at select
    refine ⟨.backfillSelect includeInferred :: .backfillList :: .backfillScan index ::
      List.replicate ((updatesFor s.channels index
        (s.messages.channelBackfillCandidates includeInferred)).length + 1) .backfillWrite, ?_⟩
    rw [Runs.run, select, Option.bind_some, Runs.run]
    simp only [step, Option.bind_some]
    rw [Runs.run]
    simp only [step, Option.bind_some]
    rw [run_writes s]
    simp only [idle]

end run

end MeshwardenDaemon.BackfillRun
