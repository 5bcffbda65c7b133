import MeshwardenDaemon.SignalExtremes
import Mathlib.Algebra.Field.Rat

/-! The signal averages of `stats`. The readings of a group are added up, and the sum is
divided by the number of all its packets, with and without a reading. -/
namespace MeshwardenDaemon.SignalAverages
open Library Grouping PacketTable PacketStats PacketLog

/-- What a packet may report, and where the tables have it. -/
inductive Signal
  | snr | rssi
  deriving DecidableEq

def Signal.reading : Signal → Packet → Option ℚ
  | .snr, p => p.snr
  | .rssi, p => p.rssi.map fun rssi => (rssi : ℚ)

def Signal.sum : Signal → HourlyRow → ℚ
  | .snr, h => h.sumSnr
  | .rssi, h => h.sumRssi

def Signal.average : Signal → StatsRow → ℚ
  | .snr, r => r.avgSnr
  | .rssi, r => r.avgRssi

/-- The mean of the readings; of none any number is. -/
def IsMean (average : ℚ) (readings : List ℚ) : Prop :=
  average * readings.length = readings.sum

/-- A sum over `n` items is the mean of its readings exactly if each item has one, or the
readings cancel out. -/
theorem isMean_iff {readings : List ℚ} {n : ℕ} (positive : n ≠ 0) :
    IsMean (readings.sum / n) readings ↔ readings.length = n ∨ readings.sum = 0 := by
  have nonzero : (n : ℚ) ≠ 0 := Nat.cast_ne_zero.mpr positive
  rw [IsMean, div_mul_eq_mul_div, div_eq_iff nonzero]
  refine ⟨fun same => ?_, ?_⟩
  · by_cases zero : readings.sum = 0
    · exact Or.inr zero
    · exact Or.inl (Nat.cast_injective (mul_left_cancel₀ zero same))
  · rintro (every | zero)
    · rw [every]
    · rw [zero, zero_mul, zero_mul]

theorem div_succ_eq_iff {sum : ℚ} {n : ℕ} (positive : n ≠ 0) :
    sum / ((n + 1 : ℕ) : ℚ) = sum / n ↔ sum = 0 := by
  have nonzero : (n : ℚ) ≠ 0 := Nat.cast_ne_zero.mpr positive
  have succ : ((n + 1 : ℕ) : ℚ) ≠ 0 := Nat.cast_ne_zero.mpr (Nat.succ_ne_zero n)
  rw [div_eq_div_iff succ nonzero]
  refine ⟨fun same => ?_, fun zero => by rw [zero, zero_mul, zero_mul]⟩
  by_contra other
  have counts := Nat.cast_injective (mul_left_cancel₀ other same)
  omega

theorem average_statsRow (signal : Signal) (k : HourlyKey) (rows : List HourlyRow) :
    signal.average (statsRow k rows) =
      (rows.map signal.sum).sum / ((statsRow k rows).count : ℚ) := by
  cases signal with
  | snr => rfl
  | rssi => rfl

section calls
variable {storePayloads : Bool} {calls : List Packet} {signal : Signal} {after before : ℤ}
  {g : Granularity} {r : StatsRow}

theorem sum_readings (packets : List Packet) :
    (packets.map fun p => signal.sum p.hourlyValues).sum =
      (packets.filterMap signal.reading).sum := by
  induction packets with
  | nil => rfl
  | cons p packets ih =>
    rw [List.map_cons, List.sum_cons, ih]
    cases signal with
    | snr => cases snr : p.snr <;> simp [Signal.sum, Signal.reading, Packet.hourlyValues, snr]
    | rssi => cases rssi : p.rssi <;> simp [Signal.sum, Signal.reading, Packet.hourlyValues, rssi]

variable (signal) in
theorem stats_average (hr : r ∈ stats (logAll storePayloads calls).hourly after before g) :
    signal.average r = ((groupOf calls after before g r.key).filterMap signal.reading).sum /
      ((groupOf calls after before g r.key).length : ℚ) := by
  have accounted := accounted_calls storePayloads calls
  have sum := accounted.sum_hourly rfl (f := signal.sum)
    (fun a p => by cases signal <;> rfl)
    fun k => inWindow after before k.bucket && g.groupKey k = r.key
  have count := (accounted.stats_row rfl hr).1
  rw [sum_readings] at sum
  have average := congrArg signal.average (stats_group hr)
  have counts : r.count = (groupOf calls after before g r.key).length := count
  rw [average_statsRow, ← stats_group hr, counts] at average
  rw [average]
  exact congrArg (· / _) sum

theorem groupOf_length_ne_zero
    (hr : r ∈ stats (logAll storePayloads calls).hourly after before g) :
    (groupOf calls after before g r.key).length ≠ 0 := by
  have accounted := accounted_calls storePayloads calls
  obtain ⟨p, hp⟩ := (accounted.mem_stats_keys rfl).mp (List.mem_map_of_mem hr)
  exact Nat.ne_of_gt (List.length_pos_of_mem hp)

theorem groupOf_concat (calls : List Packet) (p : Packet) (k : HourlyKey) :
    groupOf (calls ++ [p]) after before g k =
      groupOf calls after before g k ++ groupOf [p] after before g k :=
  List.filter_append ..

theorem average_concat (hr : r ∈ stats (logAll storePayloads calls).hourly after before g)
    {p : Packet} (silent : signal.reading p = none) {r' : StatsRow}
    (hr' : r' ∈ stats (logAll storePayloads (calls ++ [p])).hourly after before g)
    (key : r'.key = r.key) :
    signal.average r' = signal.average r ↔
      (p ∈ groupOf [p] after before g r.key →
        ((groupOf calls after before g r.key).filterMap signal.reading).sum = 0) := by
  rw [stats_average signal hr, stats_average signal hr', key, groupOf_concat]
  have positive := groupOf_length_ne_zero hr
  by_cases member : p ∈ groupOf [p] after before g r.key
  · have one : groupOf [p] after before g r.key = [p] := by
      apply List.filter_eq_self.mpr
      intro q hq
      obtain rfl := List.mem_singleton.mp hq
      exact (List.mem_filter.mp member).2
    rw [one, List.filterMap_append, List.filterMap_cons_none silent, List.filterMap_nil,
      List.append_nil, List.length_append, List.length_singleton, div_succ_eq_iff positive]
    exact ⟨fun zero _ => zero, fun zero => zero (List.mem_singleton_self p)⟩
  · have none : groupOf [p] after before g r.key = [] := by
      apply List.eq_nil_iff_forall_not_mem.mpr
      intro q hq
      obtain rfl := List.mem_singleton.mp (List.mem_of_mem_filter hq)
      exact member hq
    rw [none, List.append_nil]
    exact ⟨fun _ inside => absurd inside List.not_mem_nil, fun _ => rfl⟩

end calls

/-- An average in `stats` is the mean of the group's readings exactly if each packet of the
group has a reading or the readings cancel out; a packet of the group without a reading
leaves it alone only if they cancel out. -/
theorem average_is_mean_iff (storePayloads : Bool) (calls : List Packet) (signal : Signal)
    (after before : ℤ) (g : Granularity) (r : StatsRow)
    (hr : r ∈ stats (logAll storePayloads calls).hourly after before g) :
    let group := groupOf calls after before g r.key
    let readings := group.filterMap signal.reading
    (IsMean (signal.average r) readings ↔
      (∀ p ∈ group, (signal.reading p).isSome = true) ∨ readings.sum = 0) ∧
    (readings = [] → signal.average r = 0) ∧
    (∀ p, signal.reading p = none →
      ∀ r' ∈ stats (logAll storePayloads (calls ++ [p])).hourly after before g,
        r'.key = r.key → (signal.average r' = signal.average r ↔
          (p ∈ groupOf [p] after before g r.key → readings.sum = 0))) := by
  intro group readings
  have average := stats_average signal hr
  refine ⟨?_, ?_, fun p silent r' hr' key => average_concat hr silent hr' key⟩
  · rw [average, isMean_iff (groupOf_length_ne_zero hr), List.filterMap_length_eq_length]
  · intro empty
    rw [average]
    change readings.sum / _ = 0
    rw [empty, List.sum_nil, zero_div]

def bothHeard : List Packet := [{ ts := 10, snr := some 3 }, { ts := 20, snr := some 1 }]

theorem average_is_mean_iff_bothHeard : IsMean 2 [3, 1] ∧
    ∀ r' ∈ stats (logAll true (bothHeard ++ [{ ts := 30 }])).hourly 0 0 .hour,
      r'.key = ⟨0, -1, -1⟩ → r'.avgSnr ≠ 2 := by
  have exact_average := average_is_mean_iff true bothHeard .snr 0 0 .hour
    ⟨0, -1, -1, 2, 0, 2, 0, some 1, some 3⟩ (by decide +kernel)
  refine ⟨exact_average.1.mpr (Or.inl (by decide +kernel)), fun r' hr' key same => ?_⟩
  have unchanged := (exact_average.2.2 { ts := 30 } rfl r' hr' key).mp same (by decide +kernel)
  exact absurd unchanged (by decide +kernel)

open SignalExtremes in
/-- A packet of 3 dB and one without an SNR: the average is half of that. -/
theorem average_halved :
    ¬ ∀ r ∈ stats (logAll true silentLast).hourly 0 0 .hour,
      IsMean r.avgSnr ((groupOf silentLast 0 0 .hour r.key).filterMap Packet.snr) := by
  intro supposed
  have mean := supposed ⟨0, -1, -1, 2, 0, 3 / 2, 0, none, none⟩ (by decide +kernel)
  unfold IsMean at mean
  exact absurd mean (by decide +kernel)

end MeshwardenDaemon.SignalAverages
