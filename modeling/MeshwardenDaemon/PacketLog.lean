import MeshwardenDaemon.PacketStats
import Mathlib.Data.List.Induction

/-! Whole calls of `PacketStore.log`, one after the other. -/
namespace MeshwardenDaemon.PacketLog
open Library Grouping PacketTable PacketStats

structure Tables where
  packets : Packets
  hourly : List HourlyRow

def Tables.empty : Tables := ⟨.empty, []⟩

/-- `log` with no other statement in between. -/
def Tables.log (storePayloads : Bool) (t : Tables) (p : Packet) : Tables where
  packets := t.packets.insert storePayloads p
  hourly := upsertHourly t.hourly p

def logAll (storePayloads : Bool) (calls : List Packet) : Tables :=
  calls.foldl (Tables.log storePayloads) .empty

def ofKey (calls : List Packet) (k : HourlyKey) : List Packet :=
  calls.filter fun p => p.hourlyValues.toHourlyKey = k

/-- The packets that one group of `stats` stands for. -/
def groupOf (calls : List Packet) (after before : ℤ) (g : Granularity) (k : HourlyKey) :
    List Packet :=
  calls.filter fun p => inWindow after before (truncate 3600 p.ts) &&
    g.groupKey p.hourlyValues.toHourlyKey = k

def afterCalls (storePayloads : Bool) (calls : List Packet) : State :=
  { init with
    packets := (logAll storePayloads calls).packets
    hourly := (logAll storePayloads calls).hourly
    logged := calls
    counted := calls }

section calls
variable {storePayloads : Bool} {calls : List Packet}

theorem logAll_concat (p : Packet) :
    logAll storePayloads (calls ++ [p]) = (logAll storePayloads calls).log storePayloads p := by
  simp [logAll, List.foldl_append]

theorem run_calls : Runs.run (step storePayloads) init
    (calls.flatMap fun p => [.insertPacket p, .upsertHourly 0]) =
      some (afterCalls storePayloads calls) := by
  induction calls using List.reverseRecOn with
  | nil => rfl
  | append_singleton calls p ih =>
    rw [List.flatMap_append]
    refine Runs.run_append.mpr ⟨_, ih, ?_⟩
    simp [Runs.run, step, afterCalls, logAll_concat, Tables.log, init]

variable (storePayloads calls) in
theorem accounted_calls : Accounted storePayloads (afterCalls storePayloads calls) :=
  Runs.reachable (fun _ _ _ h hs => h.step hs) init_accounted run_calls

theorem hourly_row {r : HourlyRow} (hr : r ∈ (logAll storePayloads calls).hourly) :
    rollup HourlyRow.doUpdate ((ofKey calls r.toHourlyKey).map Packet.hourlyValues) = some r := by
  have row := (accounted_calls storePayloads calls).hourly.row
    r.toHourlyKey r hr rfl
  rwa [List.filter_map] at row

variable (storePayloads) in
theorem mem_hourly_keys {k : HourlyKey} :
    k ∈ (logAll storePayloads calls).hourly.map HourlyRow.toHourlyKey ↔
      ∃ p ∈ calls, p.hourlyValues.toHourlyKey = k := by
  have table := (accounted_calls storePayloads calls).hourly
  refine ⟨?_, ?_⟩
  · intro hk
    obtain ⟨r, hr, rfl⟩ := List.mem_map.mp hk
    obtain ⟨i, hi, same⟩ := table.exists_item hr
    obtain ⟨p, hp, rfl⟩ := List.mem_map.mp hi
    exact ⟨p, hp, same⟩
  · rintro ⟨p, hp, rfl⟩
    exact table.covers _ (List.mem_map_of_mem hp)

theorem stats_group {after before : ℤ} {g : Granularity} {r : StatsRow}
    (hr : r ∈ stats (logAll storePayloads calls).hourly after before g) :
    r = statsRow r.key ((logAll storePayloads calls).hourly.filter fun h =>
      inWindow after before h.bucket && g.groupKey h.toHourlyKey = r.key) := by
  have row := (mem_stats.mp hr).2
  rw [List.filter_filter] at row
  simpa only [Bool.and_comm] using row

end calls

end MeshwardenDaemon.PacketLog
