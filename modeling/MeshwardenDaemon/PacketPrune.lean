import MeshwardenDaemon.PacketStats

/-! A `PacketStore.prune` call that no other statement comes between: batch after batch it
deletes the old rows, until one is not full. -/
namespace MeshwardenDaemon.PacketStats
open Library PacketTable

theorem old_of_selected {c : Prune} {rows : Packets} {ids : List ℕ}
    (selects : c.Selects rows.rows ids) {r : PacketRow} (hr : r ∈ rows.rows)
    (named : r.id ∈ ids) : (r.ts : ℤ) < c.cutoffTs := by
  obtain ⟨r', hr', same, old⟩ := selects.2.1 r.id named
  obtain rfl : r' = r := rows.id_unique.eq_of_mem hr' hr rfl (congrArg some same.symm)
  exact old

theorem all_selected {c : Prune} {rows : Packets} {ids : List ℕ}
    (selects : c.Selects rows.rows ids) (short : ids.length < c.batch) {r : PacketRow}
    (hr : r ∈ rows.rows) (old : (r.ts : ℤ) < c.cutoffTs) : r.id ∈ ids := by
  obtain ⟨nodup, found, length⟩ := selects
  have within : ids ⊆ (rows.rows.filter fun r => (r.ts : ℤ) < c.cutoffTs).map PacketRow.id := by
    intro id mem
    obtain ⟨r', hr', same, old'⟩ := found id mem
    exact List.mem_map.mpr ⟨r', List.mem_filter.mpr ⟨hr', by simpa using old'⟩, same⟩
  have whole := (List.subperm_of_subset nodup within).perm_of_length_le (by
    rw [List.length_map]
    omega)
  exact whole.mem_iff.mpr (List.mem_map.mpr
    ⟨r, List.mem_filter.mpr ⟨hr, by simpa using old⟩, rfl⟩)

theorem selected_length {c : Prune} {rows : Packets} {ids : List ℕ}
    (selects : c.Selects rows.rows ids) :
    ((rows.delete ids).rows.filter fun r => (r.ts : ℤ) < c.cutoffTs).length + ids.length =
      (rows.rows.filter fun r => (r.ts : ℤ) < c.cutoffTs).length := by
  have taken : ((rows.rows.filter fun r => r.id ∈ ids).map PacketRow.id).Perm ids := by
    refine (List.perm_ext_iff_of_nodup ?_ selects.1).mpr fun id => ?_
    · exact rows.id_unique.nodup_map.sublist (List.filter_sublist.map _)
    · simp only [List.mem_map, List.mem_filter, decide_eq_true_eq]
      refine ⟨?_, fun named => ?_⟩
      · rintro ⟨r, ⟨-, named⟩, rfl⟩
        exact named
      · obtain ⟨r, hr, same, -⟩ := selects.2.1 id named
        exact ⟨r, ⟨hr, same ▸ named⟩, same⟩
  have old : (rows.rows.filter fun r => decide ((r.ts : ℤ) < c.cutoffTs)).filter
      (fun r => decide (r.id ∈ ids)) = rows.rows.filter fun r => r.id ∈ ids := by
    rw [List.filter_filter]
    refine List.filter_congr fun r hr => ?_
    by_cases named : r.id ∈ ids
    · simp [named, old_of_selected selects hr named]
    · simp [named]
  have parts := (List.filter_append_perm (fun r => decide (r.id ∉ ids))
    (rows.rows.filter fun r => decide ((r.ts : ℤ) < c.cutoffTs))).length_eq
  simp only [decide_not, Bool.not_not, List.length_append] at parts
  have length := taken.length_eq
  rw [List.length_map] at length
  rw [old, length] at parts
  rw [← parts, Packets.delete, List.filter_filter, List.filter_filter]
  simp [Bool.and_comm]

theorem exists_selected (c : Prune) (rows : Packets) : ∃ ids, c.Selects rows.rows ids := by
  let old := rows.rows.filter fun r => (r.ts : ℤ) < c.cutoffTs
  refine ⟨(old.take c.batch).map PacketRow.id, ?_, fun id hid => ?_, ?_⟩
  · have some_rows : ((old.take c.batch).map PacketRow.id).Sublist
        (rows.rows.map PacketRow.id) :=
      ((List.take_sublist _ _).trans List.filter_sublist).map _
    exact some_rows.nodup rows.id_unique.nodup_map
  · obtain ⟨r, hr, rfl⟩ := List.mem_map.mp hid
    obtain ⟨mem, early⟩ := List.mem_filter.mp (List.mem_of_mem_take hr)
    exact ⟨r, mem, rfl, by simpa using early⟩
  · rw [List.length_map, List.length_take]

section prune
variable {storePayloads : Bool} {s t : State} {c : Prune}

theorem deleteBatch_cases {ids : List ℕ} (alone : s.prunes = [c])
    (hs : step storePayloads s (.deleteBatch 0 ids) = some t) :
    c.Selects s.packets.rows ids ∧ t.packets = s.packets.delete ids ∧
      (ids.length < c.batch ∧ t.prunes = [] ∨
        ids.length = c.batch ∧ t.prunes = [{ c with total := c.total + ids.length }]) := by
  simp only [step, alone, List.getElem?_cons_zero, Option.ite_none_right_eq_some,
    Option.some.injEq] at hs
  obtain ⟨selects, rfl⟩ := hs
  refine ⟨selects, rfl, ?_⟩
  by_cases short : ids.length < c.batch
  · exact Or.inl ⟨short, by simp [short]⟩
  · have bound := selects.2.2
    exact Or.inr ⟨by omega, by simp [short]⟩

theorem goes_on_of_prunes (alone : s.prunes = [c]) :
    ∃ ids u, step storePayloads s (.deleteBatch 0 ids) = some u := by
  obtain ⟨ids, selects⟩ := exists_selected c s.packets
  refine ⟨ids, Option.isSome_iff_exists.mp ?_⟩
  simp [step, alone, selects]

theorem prune_batches {batches : List (List ℕ)} (positive : 1 ≤ c.batch)
    (alone : s.prunes = [c])
    (ht : Runs.run (step storePayloads) s (batches.map (.deleteBatch 0)) = some t) :
    t.prunes = [] ∧
        t.packets.rows = s.packets.rows.filter (fun r => c.cutoffTs ≤ (r.ts : ℤ)) ∧
        batches.length =
          (s.packets.rows.filter fun r => (r.ts : ℤ) < c.cutoffTs).length / c.batch + 1 ∨
      (∃ total, t.prunes = [{ c with total := total }]) ∧
        batches.length ≤
          (s.packets.rows.filter fun r => (r.ts : ℤ) < c.cutoffTs).length / c.batch := by
  induction batches generalizing s c with
  | nil =>
    rw [List.map_nil, Runs.run_nil, Option.some.injEq] at ht
    exact Or.inr ⟨⟨c.total, ht ▸ alone⟩, Nat.zero_le _⟩
  | cons ids rest ih =>
    obtain ⟨u, hu, ht⟩ := Runs.run_cons.mp ht
    obtain ⟨selects, packets, last⟩ := deleteBatch_cases alone hu
    have counted := selected_length selects
    have bound := selects.2.2
    have kept : ∀ r ∈ s.packets.rows, c.cutoffTs ≤ (r.ts : ℤ) → r.id ∉ ids :=
      fun r hr young named => absurd (old_of_selected selects hr named) (not_lt.mpr young)
    rcases last with ⟨short, ended⟩ | ⟨full, goes_on⟩
    · -- the call is over, and no batch comes after it
      cases rest with
      | nil =>
        rw [List.map_nil, Runs.run_nil, Option.some.injEq] at ht
        subst ht
        refine Or.inl ⟨ended, ?_, ?_⟩
        · rw [packets]
          refine List.filter_congr fun r hr => ?_
          rw [decide_eq_decide]
          refine ⟨fun unnamed => ?_, kept r hr⟩
          by_contra early
          exact unnamed (all_selected selects short hr (not_le.mp early))
        · rw [Nat.div_eq_of_lt (by omega)]
          rfl
      | cons ids' rest =>
        obtain ⟨v, hv, -⟩ := Runs.run_cons.mp ht
        simp [step, ended] at hv
    · have fewer : (s.packets.rows.filter fun r => (r.ts : ℤ) < c.cutoffTs).length / c.batch =
          (u.packets.rows.filter fun r => (r.ts : ℤ) < c.cutoffTs).length / c.batch + 1 := by
        rw [packets, ← counted, full, Nat.add_div_right _ positive]
      rcases ih (c := { c with total := c.total + ids.length }) positive goes_on ht with
        ⟨ended, rows, length⟩ | ⟨under_way, length⟩
      · refine Or.inl ⟨ended, ?_, ?_⟩
        · rw [rows, packets, Packets.delete, List.filter_filter]
          refine List.filter_congr fun r hr => ?_
          by_cases young : c.cutoffTs ≤ (r.ts : ℤ)
          · simp [young, kept r hr young]
          · simp [young]
        · rw [List.length_cons, length, fewer]
      · refine Or.inr ⟨under_way, ?_⟩
        rw [List.length_cons, fewer]
        exact Nat.succ_le_succ length

end prune

/-- A prune that nothing comes between ends after one batch more than there are full ones,
and has deleted the old rows and no others; before that it can always go on. -/
theorem undisturbed_prune (storePayloads : Bool) (s : State) (alone : s.prunes = [])
    (cutoffTs : ℤ) (batch : ℕ) (positive : 1 ≤ batch) (batches : List (List ℕ)) (t : State)
    (ht : Runs.run (step storePayloads) s
      (.prune cutoffTs batch :: batches.map (.deleteBatch 0)) = some t) :
    let full := (s.packets.rows.filter fun r => (r.ts : ℤ) < cutoffTs).length / batch
    batches.length ≤ full + 1 ∧
      (t.prunes = [] ↔ batches.length = full + 1) ∧
      (t.prunes ≠ [] → ∃ ids u, step storePayloads t (.deleteBatch 0 ids) = some u) ∧
      (t.prunes = [] →
        t.packets.rows = s.packets.rows.filter fun r => cutoffTs ≤ (r.ts : ℤ)) := by
  intro full
  obtain ⟨u, hu, ht⟩ := Runs.run_cons.mp ht
  simp only [step, if_pos positive, alone, List.nil_append, Option.some.injEq] at hu
  subst hu
  rcases prune_batches (c := ⟨cutoffTs, batch, 0⟩) positive rfl ht with
    ⟨ended, rows, length⟩ | ⟨⟨total, under_way⟩, length⟩
  · exact ⟨length.le, iff_of_true ended length, fun goes_on => absurd ended goes_on,
      fun _ => rows⟩
  · have open_still : t.prunes ≠ [] := by simp [under_way]
    have short : batches.length ≤ full := length
    refine ⟨by omega, iff_of_false open_still (by omega), fun _ => ?_,
      fun ended => absurd ended open_still⟩
    exact goes_on_of_prunes under_way

theorem undisturbed_prune_pairs :
    ∃ t, Runs.run (step true) { init with
        packets := ((Packets.empty.insert true { ts := 10 }).insert true
          { ts := 90000 }).insert true { ts := 20 } }
        (.prune 13600 2 :: [[1, 3], []].map (.deleteBatch 0)) = some t ∧
      t.prunes = [] ∧ t.packets.rows.map PacketRow.id = [2] := by
  have got : (Runs.run (step true) { init with
      packets := ((Packets.empty.insert true { ts := 10 }).insert true
        { ts := 90000 }).insert true { ts := 20 } }
      (.prune 13600 2 :: [[1, 3], []].map (.deleteBatch 0))).isSome = true := by
    decide +kernel
  obtain ⟨t, ht⟩ := Option.isSome_iff_exists.mp got
  obtain ⟨-, ends, -, rows⟩ := undisturbed_prune true _ rfl 13600 2 (by decide) _ t ht
  have ended := ends.mpr (by decide +kernel)
  refine ⟨t, ht, ended, ?_⟩
  rw [rows ended]
  decide +kernel

end MeshwardenDaemon.PacketStats
