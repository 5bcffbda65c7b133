import MeshwardenDaemon.PacketLog
import MeshwardenDaemon.Library.Extremes

/-! The SNR extremes of the hourly table. MIN and MAX of two arguments are NULL as soon as
one of them is, so a packet without an SNR makes its hour forget the extremes of before. -/
namespace MeshwardenDaemon.SignalExtremes
open Library Grouping Extremes PacketTable PacketLog

def ExtremesOf (minSnr maxSnr : Option ℚ) (packets : List Packet) : Prop :=
  minSnr = (packets.filterMap Packet.snr).min? ∧ maxSnr = (packets.filterMap Packet.snr).max?

structure TrueExtremes (storePayloads : Bool) (calls : List Packet) : Prop where
  rows : ∀ r ∈ (logAll storePayloads calls).hourly,
    ExtremesOf r.minSnr r.maxSnr (ofKey calls r.toHourlyKey)
  groups : ∀ after before g, ∀ r ∈ stats (logAll storePayloads calls).hourly after before g,
    ExtremesOf r.minSnr r.maxSnr (groupOf calls after before g r.key)

/-- The extremes that `stats` shows are the same, however the calls are ordered. -/
def SameInAnyOrder (storePayloads : Bool) (calls : List Packet) : Prop :=
  ∀ calls' : List Packet, calls'.Perm calls → ∀ after before g,
    ∀ r ∈ stats (logAll storePayloads calls).hourly after before g,
    ∀ r' ∈ stats (logAll storePayloads calls').hourly after before g,
      r'.key = r.key → r'.minSnr = r.minSnr ∧ r'.maxSnr = r.maxSnr

theorem doUpdate_extremes {row : HourlyRow} {items : List Packet}
    (least : row.minSnr = (lastRun (items.map Packet.snr)).min?)
    (greatest : row.maxSnr = (lastRun (items.map Packet.snr)).max?) (p : Packet) :
    (row.doUpdate p.hourlyValues).minSnr = (lastRun ((items ++ [p]).map Packet.snr)).min? ∧
      (row.doUpdate p.hourlyValues).maxSnr =
        (lastRun ((items ++ [p]).map Packet.snr)).max? := by
  rw [List.map_append, List.map_singleton]
  cases snr : p.snr with
  | none => simp [HourlyRow.doUpdate, Packet.hourlyValues, snr, scalarMin, scalarMax]
  | some v =>
    rw [lastRun_concat_some, min?_concat, max?_concat]
    simp only [HourlyRow.doUpdate, Packet.hourlyValues, snr, least, greatest]
    refine ⟨?_, ?_⟩
    · cases (lastRun (items.map Packet.snr)).min? <;> simp [scalarMin]
    · cases (lastRun (items.map Packet.snr)).max? <;> simp [scalarMax]

theorem rollup_extremes {items : List Packet} {row : HourlyRow}
    (h : rollup HourlyRow.doUpdate (items.map Packet.hourlyValues) = some row) :
    row.minSnr = (lastRun (items.map Packet.snr)).min? ∧
      row.maxSnr = (lastRun (items.map Packet.snr)).max? := by
  induction items using List.reverseRecOn generalizing row with
  | nil => cases h
  | append_singleton items p ih =>
    rw [List.map_append, List.map_singleton, rollup_concat, Option.some.injEq] at h
    subst h
    cases before : rollup HourlyRow.doUpdate (items.map Packet.hourlyValues) with
    | some row =>
      obtain ⟨least, greatest⟩ := ih before
      exact doUpdate_extremes least greatest p
    | none =>
      have first : items = [] := by
        cases items with
        | nil => rfl
        | cons i items => cases before
      subst first
      cases snr : p.snr <;> simp [Packet.hourlyValues, snr, lastRun]

section calls
variable {storePayloads : Bool} {calls : List Packet}

def readings (calls : List Packet) (k : HourlyKey) : List (Option ℚ) :=
  (ofKey calls k).map Packet.snr

theorem row_extremes {r : HourlyRow} (hr : r ∈ (logAll storePayloads calls).hourly) :
    r.minSnr = (lastRun (readings calls r.toHourlyKey)).min? ∧
      r.maxSnr = (lastRun (readings calls r.toHourlyKey)).max? :=
  rollup_extremes (hourly_row hr)

theorem extremesOf_row_iff {r : HourlyRow} (hr : r ∈ (logAll storePayloads calls).hourly) :
    ExtremesOf r.minSnr r.maxSnr (ofKey calls r.toHourlyKey) ↔
      Recovered (readings calls r.toHourlyKey) := by
  obtain ⟨least, greatest⟩ := row_extremes hr
  have known : (ofKey calls r.toHourlyKey).filterMap Packet.snr =
      (readings calls r.toHourlyKey).reduceOption := by
    rw [readings, List.reduceOption, List.filterMap_map]
    rfl
  rw [← lastRun_extremes_iff, ExtremesOf, known, least, greatest]

theorem mem_group_snr {after before : ℤ} {g : Granularity} {k : HourlyKey} {v : ℚ} :
    v ∈ (groupOf calls after before g k).filterMap Packet.snr ↔
      ∃ r ∈ (logAll storePayloads calls).hourly.filter (fun h =>
        inWindow after before h.bucket && g.groupKey h.toHourlyKey = k),
        v ∈ (ofKey calls r.toHourlyKey).filterMap Packet.snr := by
  simp only [List.mem_filterMap, groupOf, ofKey, List.mem_filter, Bool.and_eq_true,
    decide_eq_true_eq]
  refine ⟨?_, ?_⟩
  · rintro ⟨p, ⟨hp, window, group⟩, snr⟩
    obtain ⟨r, hr, same⟩ := List.mem_map.mp
      ((mem_hourly_keys storePayloads).mpr ⟨p, hp, rfl⟩)
    have bucket : r.bucket = truncate 3600 p.ts := congrArg HourlyKey.bucket same
    exact ⟨r, ⟨hr, by rwa [bucket], by rwa [same]⟩, p, ⟨hp, same.symm⟩, snr⟩
  · rintro ⟨r, ⟨-, window, group⟩, p, ⟨hp, same⟩, snr⟩
    have bucket : truncate 3600 p.ts = r.bucket := congrArg HourlyKey.bucket same
    exact ⟨p, ⟨hp, by rwa [bucket], by rwa [same]⟩, snr⟩

theorem extremesOf_group (rows : ∀ r ∈ (logAll storePayloads calls).hourly,
      ExtremesOf r.minSnr r.maxSnr (ofKey calls r.toHourlyKey))
    {after before : ℤ} {g : Granularity} {r : StatsRow}
    (hr : r ∈ stats (logAll storePayloads calls).hourly after before g) :
    ExtremesOf r.minSnr r.maxSnr (groupOf calls after before g r.key) := by
  have row := stats_group hr
  have least := congrArg StatsRow.minSnr row
  have greatest := congrArg StatsRow.maxSnr row
  refine ⟨least.trans ?_, greatest.trans ?_⟩
  · exact min?_filterMap (fun h hh => (rows h (List.mem_of_mem_filter hh)).1) fun v => mem_group_snr
  · exact max?_filterMap (fun h hh => (rows h (List.mem_of_mem_filter hh)).2) fun v => mem_group_snr

theorem trueExtremes_iff :
    TrueExtremes storePayloads calls ↔ ∀ k, Recovered (readings calls k) := by
  refine ⟨fun h k => ?_, fun recovered => ?_⟩
  · by_cases found : k ∈ (logAll storePayloads calls).hourly.map HourlyRow.toHourlyKey
    · obtain ⟨r, hr, rfl⟩ := List.mem_map.mp found
      exact (extremesOf_row_iff hr).mp (h.rows r hr)
    · apply recovered_of_all
      right
      intro x hx
      obtain ⟨p, hp, -⟩ := List.mem_map.mp hx
      obtain ⟨hp, key⟩ := List.mem_filter.mp hp
      exact absurd ((mem_hourly_keys storePayloads).mpr ⟨p, hp, of_decide_eq_true key⟩) found
  · have rows : ∀ r ∈ (logAll storePayloads calls).hourly,
        ExtremesOf r.minSnr r.maxSnr (ofKey calls r.toHourlyKey) := fun r hr =>
      (extremesOf_row_iff hr).mpr (recovered r.toHourlyKey)
    exact ⟨rows, fun after before g r hr => extremesOf_group rows hr⟩

theorem hour_extremes {r : StatsRow}
    (hr : r ∈ stats (logAll storePayloads calls).hourly 0 0 .hour) :
    r.minSnr = (lastRun (readings calls r.key)).min? := by
  have least := congrArg StatsRow.minSnr (stats_group hr)
  have own : ∀ h ∈ (logAll storePayloads calls).hourly.filter (fun h =>
      inWindow 0 0 h.bucket && Granularity.hour.groupKey h.toHourlyKey = r.key),
      h.minSnr = (lastRun (readings calls r.key)).min? := by
    intro h hh
    obtain ⟨hh, selected⟩ := List.mem_filter.mp hh
    simp only [Bool.and_eq_true, decide_eq_true_eq] at selected
    have key : h.toHourlyKey = r.key := selected.2
    rw [(row_extremes hh).1, key]
  refine least.trans (min?_filterMap own fun v => ?_)
  obtain ⟨h, hh, window, group⟩ := (mem_stats.mp hr).1
  refine ⟨fun hv => ⟨h, ?_, hv⟩, fun ⟨_, _, hv⟩ => hv⟩
  simpa [window] using ⟨hh, group⟩

variable (storePayloads) in
theorem exists_hour {p : Packet} (hp : p ∈ calls) :
    ∃ r ∈ stats (logAll storePayloads calls).hourly 0 0 .hour,
      r.key = p.hourlyValues.toHourlyKey := by
  obtain ⟨h, hh, same⟩ := List.mem_map.mp
    ((mem_hourly_keys storePayloads).mpr ⟨p, hp, rfl⟩)
  have key : p.hourlyValues.toHourlyKey ∈
      (stats (logAll storePayloads calls).hourly 0 0 .hour).map StatsRow.key :=
    mem_stats_keys.mpr ⟨h, hh, by simp [inWindow], same⟩
  obtain ⟨r, hr, same⟩ := List.mem_map.mp key
  exact ⟨r, hr, same⟩

variable (storePayloads) in
theorem hour_of_last {p : Packet} (hp : p ∈ calls) :
    ∃ calls' : List Packet, calls'.Perm calls ∧
      ∃ r ∈ stats (logAll storePayloads calls').hourly 0 0 .hour,
        r.key = p.hourlyValues.toHourlyKey ∧
        ∃ before, r.minSnr = (lastRun (before ++ [p.snr])).min? := by
  have last : (calls.erase p ++ [p]).Perm calls :=
    (List.perm_append_singleton p _).trans (List.perm_cons_erase hp).symm
  have mem : p ∈ calls.erase p ++ [p] := by simp
  obtain ⟨r, hr, key⟩ := exists_hour storePayloads mem
  refine ⟨calls.erase p ++ [p], last, r, hr, key, readings (calls.erase p) r.key, ?_⟩
  rw [hour_extremes hr, readings, ofKey, List.filter_append, List.map_append, key]
  simp [readings, ofKey]

/-- An order for which the extremes are gone, and one for which they are not. -/
theorem sameInAnyOrder_pure (h : SameInAnyOrder storePayloads calls) (k : HourlyKey) :
    (∀ p ∈ ofKey calls k, p.snr ≠ none) ∨ ∀ p ∈ ofKey calls k, p.snr = none := by
  by_contra mixed
  simp only [not_or, not_forall, not_not, exists_prop] at mixed
  obtain ⟨⟨p, hp, missing⟩, q, hq, reading⟩ := mixed
  obtain ⟨hp, p_key⟩ := List.mem_filter.mp hp
  obtain ⟨hq, q_key⟩ := List.mem_filter.mp hq
  simp only [decide_eq_true_eq] at p_key q_key
  obtain ⟨v, snr⟩ := Option.ne_none_iff_exists'.mp reading
  obtain ⟨r, hr, key⟩ := exists_hour storePayloads hp
  obtain ⟨calls₁, perm₁, r₁, hr₁, key₁, before₁, least₁⟩ :=
    hour_of_last storePayloads hp
  obtain ⟨calls₂, perm₂, r₂, hr₂, key₂, before₂, least₂⟩ :=
    hour_of_last storePayloads hq
  have gone := (h calls₁ perm₁ 0 0 .hour r hr r₁ hr₁ (key₁.trans key.symm)).1
  have there := (h calls₂ perm₂ 0 0 .hour r hr r₂ hr₂
    (by rw [key₂, q_key, key, p_key])).1
  rw [least₁, missing, lastRun_concat_none] at gone
  rw [least₂, snr, lastRun_concat_some, min?_concat, ← gone] at there
  cases there

theorem extremesOf_perm {packets packets' : List Packet} (perm : packets'.Perm packets)
    {least greatest least' greatest' : Option ℚ} (h : ExtremesOf least greatest packets)
    (h' : ExtremesOf least' greatest' packets') : least' = least ∧ greatest' = greatest := by
  have same : ∀ v, v ∈ packets'.filterMap Packet.snr ↔ v ∈ packets.filterMap Packet.snr :=
    fun v => (perm.filterMap _).mem_iff
  rw [h.1, h.2, h'.1, h'.2, min?_eq_min?_iff, max?_eq_max?_iff]
  refine ⟨⟨fun v hv => ⟨v, (same v).mp hv, le_rfl⟩, fun v hv => ⟨v, (same v).mpr hv, le_rfl⟩⟩,
    fun v hv => ⟨v, (same v).mp hv, le_rfl⟩, fun v hv => ⟨v, (same v).mpr hv, le_rfl⟩⟩

theorem sameInAnyOrder_iff : SameInAnyOrder storePayloads calls ↔
    ∀ k, (∀ p ∈ ofKey calls k, p.snr ≠ none) ∨ ∀ p ∈ ofKey calls k, p.snr = none := by
  refine ⟨sameInAnyOrder_pure, fun pure calls' perm after before g r hr r' hr' key => ?_⟩
  have true_of_perm : ∀ calls' : List Packet, calls'.Perm calls →
      TrueExtremes storePayloads calls' := by
    intro calls' perm
    refine trueExtremes_iff.mpr fun k => recovered_of_all ?_
    simp only [readings, List.forall_mem_map, ofKey, (perm.filter _).mem_iff]
    exact pure k
  have here := (true_of_perm calls (List.Perm.refl _)).groups after before g r hr
  have there := (true_of_perm calls' perm).groups after before g r' hr'
  rw [key] at there
  exact extremesOf_perm (perm.filter _) here there

end calls

/-- The extremes in the tables are the true ones exactly if, in each hour and kind of
packets, both come again after the last packet without an SNR; they do not depend on the
order exactly if no hour and kind has packets with and without an SNR. -/
theorem extremes_true_iff (storePayloads : Bool) (calls : List Packet) :
    (TrueExtremes storePayloads calls ↔ ∀ k, Recovered (readings calls k)) ∧
    (SameInAnyOrder storePayloads calls ↔
      ∀ k, (∀ p ∈ ofKey calls k, p.snr ≠ none) ∨ ∀ p ∈ ofKey calls k, p.snr = none) :=
  ⟨trueExtremes_iff, sameInAnyOrder_iff⟩

def silentLast : List Packet := [{ ts := 10, snr := some 3 }, { ts := 20 }]

/-- The 3 dB are forgotten; in the other order they are not. -/
theorem extremes_forgotten :
    ¬ TrueExtremes true silentLast ∧ ¬ SameInAnyOrder true silentLast := by
  refine ⟨fun h => ?_, fun h => ?_⟩
  · have row := h.rows ⟨⟨0, -1, -1⟩, 2, 0, 3, 0, none, none⟩ (by decide +kernel)
    exact absurd row.1 (by decide +kernel)
  · have row := h silentLast.reverse (List.reverse_perm _) 0 0 .hour
      ⟨0, -1, -1, 2, 0, 3 / 2, 0, none, none⟩ (by decide +kernel)
      ⟨0, -1, -1, 2, 0, 3 / 2, 0, some 3, some 3⟩ (by decide +kernel) rfl
    cases row.1

end MeshwardenDaemon.SignalExtremes
