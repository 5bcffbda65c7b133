import MeshwardenDaemon.Library.Grouping
import Mathlib.Data.Rat.Defs
import Mathlib.Algebra.Order.Ring.Unbundled.Rat
import Mathlib.Algebra.Ring.Rat
import Mathlib.Algebra.GroupWithZero.Nat

/-! The tables `packets` and `packet_stats_hourly` and the statements of `PacketStore`.
Readings are exact rationals: the node reports quarter decibels. -/
namespace MeshwardenDaemon.PacketTable
open Library KeyedTable Grouping

inductive Kind
  | rxLog | raw
  deriving DecidableEq

/-- The arguments of `PacketStore.log`. -/
structure Packet where
  ts : ℕ
  kind : Kind := .rxLog
  snr : Option ℚ := none
  rssi : Option ℤ := none
  routeType : Option ℤ := none
  payloadType : Option ℤ := none
  pathLen : Option ℤ := none
  /-- As `json.dumps` writes it. -/
  path : Option String := none
  payloadLen : ℤ := 0
  payloadHex : Option String := none
  deriving DecidableEq

structure PacketRow extends Packet where
  id : ℕ
  deriving DecidableEq

structure Packets where
  rows : List PacketRow
  id_unique : Unique (fun r => some r.id) rows

def Packets.empty : Packets := ⟨[], unique_nil _⟩

def Packets.nextId (t : Packets) : ℕ := nextKey PacketRow.id t.rows

/-- What the INSERT of `log` keeps of its arguments. -/
def Packet.stored (storePayloads : Bool) (p : Packet) : Packet :=
  { p with payloadHex := if storePayloads then p.payloadHex else none }

/-- The first statement of `log`. -/
def Packets.insert (t : Packets) (storePayloads : Bool) (p : Packet) : Packets where
  rows := t.rows ++ [⟨p.stored storePayloads, t.nextId⟩]
  id_unique := t.id_unique.insert fun r hr k hk hid => by
    simp only [Option.some.injEq] at hk hid
    exact key_ne_nextKey hr (hk.trans hid.symm)

def Packets.delete (t : Packets) (ids : List ℕ) : Packets where
  rows := t.rows.filter fun r => r.id ∉ ids
  id_unique := t.id_unique.filter _

/-- `ts - ts % width`. -/
def truncate (width ts : ℕ) : ℕ := ts - ts % width

structure HourlyKey where
  bucket : ℕ
  payloadType : ℤ
  routeType : ℤ
  deriving DecidableEq

structure HourlyRow extends HourlyKey where
  count : ℕ
  totalBytes : ℤ
  sumSnr : ℚ
  sumRssi : ℚ
  minSnr : Option ℚ
  maxSnr : Option ℚ
  deriving DecidableEq

/-- The VALUES of the second statement of `log`. -/
def Packet.hourlyValues (p : Packet) : HourlyRow where
  bucket := truncate 3600 p.ts
  payloadType := p.payloadType.getD (-1)
  routeType := p.routeType.getD (-1)
  count := 1
  totalBytes := p.payloadLen
  sumSnr := p.snr.getD 0
  sumRssi := (p.rssi.map fun rssi => (rssi : ℚ)).getD 0
  minSnr := p.snr
  maxSnr := p.snr

/-- SQLite's MIN and MAX of two arguments: NULL as soon as one of them is. -/
def scalarMin (a b : Option ℚ) : Option ℚ := a.bind fun x => b.map fun y => min x y
def scalarMax (a b : Option ℚ) : Option ℚ := a.bind fun x => b.map fun y => max x y

/-- The DO UPDATE of the second statement of `log`. -/
def HourlyRow.doUpdate (row excluded : HourlyRow) : HourlyRow :=
  { row with
    count := row.count + 1
    totalBytes := row.totalBytes + excluded.totalBytes
    sumSnr := row.sumSnr + excluded.sumSnr
    sumRssi := row.sumRssi + excluded.sumRssi
    minSnr := scalarMin (row.minSnr.or excluded.minSnr) excluded.minSnr
    maxSnr := scalarMax (row.maxSnr.or excluded.maxSnr) excluded.maxSnr }

/-- The second statement of `log`. -/
def upsertHourly (hourly : List HourlyRow) (p : Packet) : List HourlyRow :=
  upsert HourlyRow.toHourlyKey HourlyRow.doUpdate hourly p.hourlyValues

/-- `after <= ts < before`; a bound of 0 is no bound. -/
def inWindow (after before : ℤ) (ts : ℕ) : Bool :=
  (after = 0 || after ≤ ts) && (before = 0 || ts < before)

structure PacketQuery where
  afterTs : ℤ := 0
  beforeTs : ℤ := 0
  payloadType : Option ℤ := none
  routeType : Option ℤ := none
  limit : ℤ := 100
  offset : ℕ := 0

/-- The WHERE clause of `_filters`. -/
def PacketQuery.selects (q : PacketQuery) (r : PacketRow) : Bool :=
  inWindow q.afterTs q.beforeTs r.ts &&
    (q.payloadType = none || r.payloadType = q.payloadType) &&
    (q.routeType = none || r.routeType = q.routeType)

/-- `ORDER BY ts DESC, id DESC`. -/
def newestFirst (a b : PacketRow) : Bool := b.ts < a.ts || (b.ts = a.ts && b.id ≤ a.id)

/-- The page and the total of `query`. -/
def Packets.query (t : Packets) (q : PacketQuery) : List PacketRow × ℕ :=
  let selected := t.rows.filter q.selects
  (((selected.mergeSort newestFirst).drop q.offset).take (min (max q.limit 1) 1000).toNat,
    selected.length)

inductive Granularity
  | hour | day
  deriving DecidableEq

/-- `group_expr`. -/
def Granularity.bucketTs : Granularity → ℕ → ℕ
  | .hour, bucket => bucket
  | .day, bucket => truncate 86400 bucket

/-- A row of `stats`. -/
structure StatsRow where
  bucketTs : ℕ
  payloadType : ℤ
  routeType : ℤ
  count : ℕ
  totalBytes : ℤ
  avgSnr : ℚ
  avgRssi : ℚ
  minSnr : Option ℚ
  maxSnr : Option ℚ
  deriving DecidableEq

def Granularity.groupKey (g : Granularity) (k : HourlyKey) : HourlyKey :=
  { k with bucket := g.bucketTs k.bucket }

/-- The SELECT list of `stats` for one group; the aggregates MIN and MAX pass NULLs over. -/
def statsRow (k : HourlyKey) (rows : List HourlyRow) : StatsRow where
  bucketTs := k.bucket
  payloadType := k.payloadType
  routeType := k.routeType
  count := (rows.map HourlyRow.count).sum
  totalBytes := (rows.map HourlyRow.totalBytes).sum
  avgSnr := (rows.map HourlyRow.sumSnr).sum / ((rows.map HourlyRow.count).sum : ℚ)
  avgRssi := (rows.map HourlyRow.sumRssi).sum / ((rows.map HourlyRow.count).sum : ℚ)
  minSnr := (rows.filterMap HourlyRow.minSnr).min?
  maxSnr := (rows.filterMap HourlyRow.maxSnr).max?

def stats (hourly : List HourlyRow) (afterTs beforeTs : ℤ) (g : Granularity) : List StatsRow :=
  let selected := hourly.filter fun r => inWindow afterTs beforeTs r.bucket
  let groups := groupBy (fun r => g.groupKey r.toHourlyKey) selected
  (groups.map fun k => statsRow k.1 k.2).mergeSort fun a b => a.bucketTs ≤ b.bucketTs

def StatsRow.key (r : StatsRow) : HourlyKey := ⟨r.bucketTs, r.payloadType, r.routeType⟩

theorem doUpdate_key (a b : HourlyRow) : (a.doUpdate b).toHourlyKey = a.toHourlyKey := rfl

@[simp] theorem statsRow_key (k : HourlyKey) (rows : List HourlyRow) :
    (statsRow k rows).key = k := rfl

/-- An hour-aligned bound cuts between hours. -/
theorem inWindow_truncate {after before : ℤ} (aligned : after % 3600 = 0 ∧ before % 3600 = 0)
    (ts : ℕ) : inWindow after before (truncate 3600 ts) = inWindow after before ts := by
  obtain ⟨ha, hb⟩ := aligned
  have lower : (after ≤ ((truncate 3600 ts : ℕ) : ℤ)) ↔ after ≤ ts := by
    unfold truncate
    omega
  have upper : (((truncate 3600 ts : ℕ) : ℤ) < before) ↔ (ts : ℤ) < before := by
    unfold truncate
    omega
  simp only [inWindow, lower, upper]

section stats
variable {hourly : List HourlyRow} {after before : ℤ} {g : Granularity}

theorem stats_perm :
    (stats hourly after before g).Perm
      ((groupBy (fun r => g.groupKey r.toHourlyKey)
        (hourly.filter fun r => inWindow after before r.bucket)).map fun k => statsRow k.1 k.2) :=
  List.mergeSort_perm _ _

theorem stats_keys_nodup : ((stats hourly after before g).map StatsRow.key).Nodup := by
  refine (stats_perm.map StatsRow.key).nodup_iff.mpr ?_
  have keys := groupBy_keys (fun r : HourlyRow => g.groupKey r.toHourlyKey)
    (hourly.filter fun r => inWindow after before r.bucket)
  simp only [List.map_map, Function.comp_def, statsRow_key]
  rw [keys]
  exact List.nodup_dedup _

theorem mem_stats {r : StatsRow} :
    r ∈ stats hourly after before g ↔
      (∃ h ∈ hourly, inWindow after before h.bucket = true ∧ g.groupKey h.toHourlyKey = r.key) ∧
        r = statsRow r.key ((hourly.filter fun h => inWindow after before h.bucket).filter
          fun h => g.groupKey h.toHourlyKey = r.key) := by
  rw [stats_perm.mem_iff, List.mem_map]
  refine ⟨?_, ?_⟩
  · rintro ⟨k, hk, rfl⟩
    obtain ⟨⟨h, hh, same⟩, rows⟩ := mem_groupBy.mp hk
    obtain ⟨hh, window⟩ := List.mem_filter.mp hh
    exact ⟨⟨h, hh, window, same⟩, by rw [statsRow_key, ← rows]⟩
  · rintro ⟨⟨h, hh, window, same⟩, row⟩
    exact ⟨⟨r.key, _⟩, mem_groupBy.mpr ⟨⟨h, List.mem_filter.mpr ⟨hh, window⟩, same⟩, rfl⟩,
      row.symm⟩

theorem stats_sums {r : StatsRow} (hr : r ∈ stats hourly after before g) :
    r.count = ((hourly.filter fun h => inWindow after before h.bucket &&
        g.groupKey h.toHourlyKey = r.key).map HourlyRow.count).sum ∧
      r.totalBytes = ((hourly.filter fun h => inWindow after before h.bucket &&
        g.groupKey h.toHourlyKey = r.key).map HourlyRow.totalBytes).sum := by
  have row := (mem_stats.mp hr).2
  rw [List.filter_filter] at row
  have swap : (fun h : HourlyRow => decide (g.groupKey h.toHourlyKey = r.key) &&
      inWindow after before h.bucket) = fun h => inWindow after before h.bucket &&
        decide (g.groupKey h.toHourlyKey = r.key) := by
    funext h
    rw [Bool.and_comm]
  rw [swap] at row
  exact ⟨congrArg StatsRow.count row, congrArg StatsRow.totalBytes row⟩

theorem mem_stats_keys {k : HourlyKey} :
    k ∈ (stats hourly after before g).map StatsRow.key ↔
      ∃ h ∈ hourly, inWindow after before h.bucket = true ∧ g.groupKey h.toHourlyKey = k := by
  rw [(stats_perm.map StatsRow.key).mem_iff, List.map_map]
  have keys := groupBy_keys (fun r : HourlyRow => g.groupKey r.toHourlyKey)
    (hourly.filter fun r => inWindow after before r.bucket)
  simp only [Function.comp_def, statsRow_key]
  rw [keys, List.mem_dedup, List.mem_map]
  simp only [List.mem_filter, and_assoc]

theorem stats_hours_sum {M : Type*} [AddCommMonoid M] (f : HourlyRow → M) (total : StatsRow → M)
    (adds : ∀ k rows, total (statsRow k rows) = (rows.map f).sum) (P : HourlyKey → Bool) :
    (((stats hourly after before .hour).filter fun r => P r.key).map total).sum =
      ((hourly.filter fun h => inWindow after before h.bucket && P h.toHourlyKey).map f).sum := by
  have regroup := sum_regroup
    (List.nodup_dedup ((hourly.filter fun h => inWindow after before h.bucket).map
      HourlyRow.toHourlyKey))
    HourlyRow.toHourlyKey f P (hourly.filter fun h => inWindow after before h.bucket)
    fun h hh => List.mem_dedup.mpr (List.mem_map_of_mem hh)
  rw [List.filter_filter] at regroup
  rw [((stats_perm.filter _).map total).sum_eq]
  simp only [groupBy, List.map_map, List.filter_map, Function.comp_def, statsRow_key, adds]
  refine Eq.trans regroup ?_
  simp only [Bool.and_comm]

theorem stats_total :
    ((stats hourly after before g).map StatsRow.count).sum =
      ((hourly.filter fun h => inWindow after before h.bucket).map HourlyRow.count).sum := by
  rw [(stats_perm.map StatsRow.count).sum_eq, List.map_map]
  exact sum_groupBy _ HourlyRow.count _

end stats

end MeshwardenDaemon.PacketTable
