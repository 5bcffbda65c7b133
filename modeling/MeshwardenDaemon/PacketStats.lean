import MeshwardenDaemon.PacketTable
import MeshwardenDaemon.Library.Runs

/-! `PacketStore` as its callers run it: any number of `log` and `prune` calls, each
statement by statement between the others'. The hourly table is the roll-up of all
packets ever logged, whatever was pruned. -/
namespace MeshwardenDaemon.PacketStats
open Library Grouping PacketTable

/-- A `prune` call and what it has deleted so far. -/
structure Prune where
  cutoffTs : ℤ
  batch : ℕ
  total : ℕ
  deriving DecidableEq

structure State where
  packets : Packets
  hourly : List HourlyRow
  /-- The `log` calls between their two statements. -/
  logs : List Packet
  prunes : List Prune
  /-- Ghost: all packets ever logged. -/
  logged : List Packet
  /-- Ghost: the packets that the hourly table has taken in, in that order. -/
  counted : List Packet
  /-- Ghost: the rows that were deleted. -/
  pruned : List PacketRow

def init : State := ⟨.empty, [], [], [], [], [], []⟩

inductive Action
  | insertPacket (p : Packet)
  | upsertHourly (k : ℕ)
  | prune (cutoffTs : ℤ) (batch : ℕ)
  /-- The k-th `prune` deletes the rows that its sub-select finds. -/
  | deleteBatch (k : ℕ) (ids : List ℕ)
  deriving DecidableEq

/-- The sub-select of `prune` may take any `batch` of the old rows, or all if there are
fewer. -/
def Prune.Selects (c : Prune) (rows : List PacketRow) (ids : List ℕ) : Prop :=
  ids.Nodup ∧ (∀ id ∈ ids, ∃ r ∈ rows, r.id = id ∧ (r.ts : ℤ) < c.cutoffTs) ∧
    ids.length = min c.batch (rows.filter fun r => (r.ts : ℤ) < c.cutoffTs).length

instance (c : Prune) (rows : List PacketRow) (ids : List ℕ) : Decidable (c.Selects rows ids) :=
  inferInstanceAs (Decidable (_ ∧ _ ∧ _))

def step (storePayloads : Bool) (s : State) : Action → Option State
  | .insertPacket p => some { s with
      packets := s.packets.insert storePayloads p
      logs := s.logs ++ [p]
      logged := s.logged ++ [p] }
  | .upsertHourly k =>
    match s.logs[k]? with
    | some p => some { s with
        hourly := PacketTable.upsertHourly s.hourly p
        logs := s.logs.eraseIdx k
        counted := s.counted ++ [p] }
    | none => none
  | .prune cutoffTs batch =>
    if 1 ≤ batch then some { s with prunes := s.prunes ++ [⟨cutoffTs, batch, 0⟩] } else none
  | .deleteBatch k ids =>
    match s.prunes[k]? with
    | some c =>
      if c.Selects s.packets.rows ids then
        some { s with
          packets := s.packets.delete ids
          prunes := if ids.length < c.batch then s.prunes.eraseIdx k
            else s.prunes.set k { c with total := c.total + ids.length }
          pruned := s.pruned ++ s.packets.rows.filter fun r => r.id ∈ ids }
      else none
    | none => none

structure Accounted (storePayloads : Bool) (s : State) : Prop where
  /-- A logged packet has its row, or the row was deleted. -/
  rows : ((s.packets.rows ++ s.pruned).map PacketRow.toPacket).Perm
    (s.logged.map (Packet.stored storePayloads))
  /-- A logged packet was taken in by the hourly table, or its call is under way. -/
  counts : (s.counted ++ s.logs).Perm s.logged
  hourly : IsRollup HourlyRow.toHourlyKey HourlyRow.doUpdate s.hourly
    (s.counted.map Packet.hourlyValues)

section Accounted
variable {storePayloads : Bool} {s t : State} {a : Action}

theorem init_accounted : Accounted storePayloads init where
  rows := List.Perm.refl _
  counts := List.Perm.refl _
  hourly := isRollup_nil _ _

theorem Accounted.insertPacket (h : Accounted storePayloads s) (p : Packet) :
    Accounted storePayloads { s with
      packets := s.packets.insert storePayloads p
      logs := s.logs ++ [p]
      logged := s.logged ++ [p] } where
  rows := by
    simp only [Packets.insert, List.map_append, List.map_singleton]
    rw [List.append_assoc]
    refine List.Perm.trans ?_ (h.rows.append_right _)
    rw [List.map_append, List.append_assoc]
    exact List.perm_append_comm.append_left _
  counts := by
    rw [← List.append_assoc]
    exact h.counts.append_right [p]
  hourly := h.hourly

theorem Accounted.upsertHourly (h : Accounted storePayloads s) {k : ℕ} {p : Packet}
    (waits : s.logs[k]? = some p) :
    Accounted storePayloads { s with
      hourly := PacketTable.upsertHourly s.hourly p
      logs := s.logs.eraseIdx k
      counted := s.counted ++ [p] } where
  rows := h.rows
  counts := by
    refine List.Perm.trans ?_ h.counts
    rw [List.append_assoc]
    refine List.Perm.append_left _ ?_
    obtain ⟨inside, rfl⟩ := List.getElem?_eq_some_iff.mp waits
    exact List.getElem_cons_eraseIdx_perm inside
  hourly := by
    rw [List.map_append, List.map_singleton]
    exact h.hourly.upsert (fun a b _ => doUpdate_key a b) p.hourlyValues

theorem Accounted.deleteBatch (h : Accounted storePayloads s) (ids : List ℕ)
    (prunes : List Prune) :
    Accounted storePayloads { s with
      packets := s.packets.delete ids
      prunes := prunes
      pruned := s.pruned ++ s.packets.rows.filter fun r => r.id ∈ ids } where
  rows := by
    refine List.Perm.trans (List.Perm.map _ ?_) h.rows
    have parts := List.filter_append_perm (fun r => decide (r.id ∉ ids)) s.packets.rows
    simp only [decide_not, Bool.not_not] at parts
    refine List.Perm.trans ?_ (parts.append_right s.pruned)
    simp only [Packets.delete, decide_not, List.append_assoc]
    exact List.perm_append_comm.append_left _
  counts := h.counts
  hourly := h.hourly

theorem Accounted.step (h : Accounted storePayloads s)
    (hs : PacketStats.step storePayloads s a = some t) : Accounted storePayloads t := by
  cases a with
  | insertPacket p =>
    cases hs
    exact h.insertPacket p
  | upsertHourly k =>
    simp only [PacketStats.step] at hs
    split at hs
    · rename_i p waits
      cases hs
      exact h.upsertHourly waits
    · cases hs
  | prune cutoffTs batch =>
    simp only [PacketStats.step, Option.ite_none_right_eq_some, Option.some.injEq] at hs
    obtain ⟨-, rfl⟩ := hs
    exact ⟨h.rows, h.counts, h.hourly⟩
  | deleteBatch k ids =>
    simp only [PacketStats.step] at hs
    split at hs
    · rw [Option.ite_none_right_eq_some, Option.some.injEq] at hs
      obtain ⟨-, rfl⟩ := hs
      exact h.deleteBatch ids _
    · cases hs

def State.members (s : State) (after before : ℤ) (g : Granularity) (k : HourlyKey) :
    List Packet :=
  s.logged.filter fun p => inWindow after before (truncate 3600 p.ts) &&
    g.groupKey p.hourlyValues.toHourlyKey = k

theorem Accounted.sum_hourly (h : Accounted storePayloads s) (idle : s.logs = []) {M : Type}
    [AddCommMonoid M] {f : HourlyRow → M}
    (hf : ∀ a (p : Packet), f (a.doUpdate p.hourlyValues) = f a + f p.hourlyValues)
    (P : HourlyKey → Bool) :
    ((s.hourly.filter fun r => P r.toHourlyKey).map f).sum =
      ((s.logged.filter fun p => P p.hourlyValues.toHourlyKey).map fun p =>
        f p.hourlyValues).sum := by
  have counts := h.counts
  rw [idle, List.append_nil] at counts
  have taken : ∀ a, ∀ b ∈ s.counted.map Packet.hourlyValues, f (a.doUpdate b) = f a + f b := by
    intro a b hb
    obtain ⟨p, _, rfl⟩ := List.mem_map.mp hb
    exact hf a p
  rw [h.hourly.sum taken P, List.filter_map, List.map_map]
  exact ((counts.filter _).map _).sum_eq

theorem sum_count (items : List Packet) :
    (items.map fun p => p.hourlyValues.count).sum = items.length := by
  simp [Packet.hourlyValues]

theorem Accounted.stats_row (h : Accounted storePayloads s) (idle : s.logs = [])
    {after before : ℤ} {g : Granularity} {r : StatsRow}
    (hr : r ∈ stats s.hourly after before g) :
    r.count = (s.members after before g r.key).length ∧
      r.totalBytes = ((s.members after before g r.key).map Packet.payloadLen).sum := by
  obtain ⟨count, totalBytes⟩ := stats_sums hr
  have counted := h.sum_hourly idle (f := HourlyRow.count) (fun _ _ => rfl)
    fun k => inWindow after before k.bucket && g.groupKey k = r.key
  have bytes := h.sum_hourly idle (f := HourlyRow.totalBytes) (fun _ _ => rfl)
    fun k => inWindow after before k.bucket && g.groupKey k = r.key
  rw [sum_count] at counted
  exact ⟨count.trans counted, totalBytes.trans bytes⟩

theorem Accounted.mem_stats_keys (h : Accounted storePayloads s) (idle : s.logs = [])
    {after before : ℤ} {g : Granularity} {k : HourlyKey} :
    k ∈ (stats s.hourly after before g).map StatsRow.key ↔
      ∃ p, p ∈ s.members after before g k := by
  have counts := h.counts
  rw [idle, List.append_nil] at counts
  simp only [PacketTable.mem_stats_keys, State.members, List.mem_filter, Bool.and_eq_true,
    decide_eq_true_eq]
  refine ⟨?_, ?_⟩
  · rintro ⟨r, hr, window, group⟩
    obtain ⟨i, hi, same⟩ := h.hourly.exists_item hr
    obtain ⟨p, hp, rfl⟩ := List.mem_map.mp hi
    rw [← same] at group
    have bucket : truncate 3600 p.ts = r.bucket := congrArg HourlyKey.bucket same
    exact ⟨p, counts.mem_iff.mp hp, by rwa [bucket], group⟩
  · rintro ⟨p, hp, window, group⟩
    have covered := h.hourly.covers p.hourlyValues
      (List.mem_map_of_mem (counts.mem_iff.mpr hp))
    obtain ⟨r, hr, same⟩ := List.mem_map.mp covered
    have bucket : r.bucket = truncate 3600 p.ts := congrArg HourlyKey.bucket same
    exact ⟨r, hr, by rwa [bucket], by rwa [same]⟩

theorem Accounted.query_total (h : Accounted storePayloads s) {after before : ℤ}
    (unpruned : ∀ r ∈ s.pruned, inWindow after before r.ts = false) :
    (s.packets.query { afterTs := after, beforeTs := before }).2 =
      (s.logged.filter fun p => inWindow after before p.ts).length := by
  have rows := (h.rows.filter fun p => inWindow after before p.ts).length_eq
  have gone : s.pruned.filter (fun r => inWindow after before r.ts) = [] :=
    List.filter_eq_nil_iff.mpr fun r hr => by simp [unpruned r hr]
  simp only [List.filter_map, List.length_map, List.filter_append, Function.comp_def,
    Packet.stored, gone, List.append_nil] at rows
  have selects : PacketQuery.selects { afterTs := after, beforeTs := before } =
      fun r => inWindow after before r.ts := by
    funext r
    simp [PacketQuery.selects]
  rw [← rows, ← selects]
  rfl

end Accounted

/-- In every state with no `log` under way `stats` has one group for each bucket, type
and route with a logged packet in the window, with the number and the bytes of all such
packets ever logged; a day adds up its hours; and what was not pruned adds up to the
total of `query`. -/
theorem stats_are_history (storePayloads : Bool) (acts : List Action) (s : State)
    (hrun : Runs.run (step storePayloads) init acts = some s) (idle : s.logs = [])
    (after before : ℤ) (g : Granularity) :
    ((stats s.hourly after before g).map StatsRow.key).Nodup ∧
      (∀ k, k ∈ (stats s.hourly after before g).map StatsRow.key ↔
        ∃ p, p ∈ s.members after before g k) ∧
      (∀ r ∈ stats s.hourly after before g,
        r.count = (s.members after before g r.key).length ∧
          r.totalBytes = ((s.members after before g r.key).map Packet.payloadLen).sum) ∧
      (∀ d ∈ stats s.hourly after before .day,
        let hours := (stats s.hourly after before .hour).filter fun h =>
          Granularity.day.groupKey h.key = d.key
        d.count = (hours.map StatsRow.count).sum ∧
          d.totalBytes = (hours.map StatsRow.totalBytes).sum) ∧
      (after % 3600 = 0 ∧ before % 3600 = 0 →
        (∀ r ∈ s.pruned, inWindow after before r.ts = false) →
          ((stats s.hourly after before g).map StatsRow.count).sum =
            (s.packets.query { afterTs := after, beforeTs := before }).2) := by
  have accounted : Accounted storePayloads s :=
    Runs.reachable (fun _ _ _ h hs => h.step hs) init_accounted hrun
  refine ⟨stats_keys_nodup, fun k => accounted.mem_stats_keys idle,
    fun r hr => accounted.stats_row idle hr, fun d hd => ?_, fun aligned unpruned => ?_⟩
  · obtain ⟨count, totalBytes⟩ := stats_sums hd
    refine ⟨count.trans ?_, totalBytes.trans ?_⟩
    · exact (stats_hours_sum HourlyRow.count StatsRow.count (fun _ _ => rfl)
        fun k => Granularity.day.groupKey k = d.key).symm
    · exact (stats_hours_sum HourlyRow.totalBytes StatsRow.totalBytes (fun _ _ => rfl)
        fun k => Granularity.day.groupKey k = d.key).symm
  · have counted := accounted.sum_hourly idle (f := HourlyRow.count) (fun _ _ => rfl)
      fun k => inWindow after before k.bucket
    rw [sum_count] at counted
    have hours : ∀ p : Packet, inWindow after before p.hourlyValues.bucket =
        inWindow after before p.ts := fun p => inWindow_truncate aligned p.ts
    simp only [hours] at counted
    rw [stats_total, accounted.query_total unpruned]
    exact counted

def twoHours : List Action :=
  [.insertPacket { ts := 100, payloadType := some 5, payloadLen := 7 },
    .insertPacket { ts := 3700, snr := some (3 / 4), payloadLen := 9 }, .upsertHourly 1,
    .upsertHourly 0, .prune 3600 1,
    .insertPacket { ts := 3800, rssi := some (-90), payloadLen := 4 }, .deleteBatch 0 [1],
    .upsertHourly 0, .deleteBatch 0 []]

theorem stats_are_history_twoHours :
    ∃ s, Runs.run (step true) init twoHours = some s ∧ s.packets.rows.length = 2 ∧
      ((stats s.hourly 0 7200 .day).map StatsRow.key).Nodup ∧
      ((stats s.hourly 3600 7200 .hour).map StatsRow.count).sum =
        (s.packets.query { afterTs := 3600, beforeTs := 7200 }).2 := by
  have got : (Runs.run (step true) init twoHours).map (fun s =>
      (s.packets.rows.length, s.logs, s.pruned.all fun r => !inWindow 3600 7200 r.ts)) =
        some (2, [], true) := by
    decide +kernel
  simp only [Option.map_eq_some_iff, Prod.mk.injEq, List.all_eq_true, Bool.not_eq_true'] at got
  obtain ⟨s, hs, rows, idle, unpruned⟩ := got
  exact ⟨s, hs, rows, (stats_are_history true twoHours s hs idle 0 7200 .day).1,
    (stats_are_history true twoHours s hs idle 3600 7200 .hour).2.2.2.2 (by decide) unpruned⟩

end MeshwardenDaemon.PacketStats
