import MeshwardenDaemon.PacketLog
import MeshwardenDaemon.SlotRefresh
import MeshwardenDaemon.Library.Statements

/-! `PacketStore.log` and `ChannelStore.assign_slot`, stopped at one of their awaits. The
connection is in autocommit mode, so the statements before it stay. -/
namespace MeshwardenDaemon.Interruption
open Library.Statements Library.KeyedTable PacketTable PacketLog ChannelTable SlotRefresh

/-- The statements of `log`. -/
def logStatements (storePayloads : Bool) (p : Packet) : List (Tables → Option Tables) :=
  [fun t => some { t with packets := t.packets.insert storePayloads p },
    fun t => some { t with hourly := upsertHourly t.hourly p }]

def assignStatements (slot : ℕ) (name : String) (secret : Secret) (now : ℕ) :
    List (Channels × ℕ → Option (Channels × ℕ)) :=
  [fun s => some ((s.1.upsert name secret now).2, (s.1.upsert name secret now).1),
    fun s => some (s.1.vacateSlot slot s.2, s.2),
    fun s => (s.1.setSlot slot s.2).map fun t => (t, s.2)]

section log
variable {storePayloads : Bool} {t : Tables} {p : Packet}

theorem complete_log : complete (logStatements storePayloads p) t = some (t.log storePayloads p) :=
  rfl

/-- Between the statements of `log` the packet is stored and not counted. -/
def storedOnly (storePayloads : Bool) (t : Tables) (p : Packet) : Tables :=
  { t with packets := t.packets.insert storePayloads p }

theorem leaves_log {u : Tables} : Leaves (logStatements storePayloads p) t u ↔
    u = t ∨ u = storedOnly storePayloads t p ∨ u = t.log storePayloads p := by
  simp [logStatements, storedOnly, Tables.log]

theorem upsertHourly_ne (hourly : List HourlyRow) (p : Packet) :
    upsertHourly hourly p ≠ hourly := by
  unfold upsertHourly Library.Grouping.upsert
  intro same
  split at same
  · rename_i found
    simp only [List.any_eq_true, decide_eq_true_eq] at found
    obtain ⟨r, hr, key⟩ := found
    have kept := List.map_inj_left.mp (same.trans (List.map_id hourly).symm) r hr
    have count := congrArg HourlyRow.count kept
    simp [key, HourlyRow.doUpdate] at count
  · simp at same

theorem storedOnly_ne (storePayloads : Bool) (t : Tables) (p : Packet) :
    storedOnly storePayloads t p ≠ t ∧
      storedOnly storePayloads t p ≠ t.log storePayloads p := by
  refine ⟨fun same => ?_, fun same => ?_⟩
  · have rows := congrArg (fun u : Tables => u.packets.rows.length) same
    simp [storedOnly, Packets.insert] at rows
  · have hourly := congrArg Tables.hourly same
    exact upsertHourly_ne t.hourly p hourly.symm

end log

section assign
variable {t u : Channels} {slot id now : ℕ} {name : String} {secret : Secret}

theorem Channels.ext_rows (h : t.rows = u.rows) : t = u := by
  cases t
  cases u
  cases h
  rfl

theorem complete_assign (local_id : ℕ) :
    complete (assignStatements slot name secret now) (t, local_id) =
      (t.assignSlot slot name secret now).map Prod.swap := by
  simp only [assignStatements, complete, Option.bind_some, Channels.assignSlot, Option.map_map]
  cases ((t.upsert name secret now).2.vacateSlot slot (t.upsert name secret now).1).setSlot slot
    (t.upsert name secret now).1 <;> rfl

theorem upsert_row (t : Channels) (name : String) (secret : Secret) (now : ℕ) :
    ∃ r ∈ (t.upsert name secret now).2.rows, r.id = (t.upsert name secret now).1 ∧
      r.secret = secret ∧ r.name = name ∧ r.lastSeen = now := by
  unfold Channels.upsert
  split
  · rename_i r found
    have hr := List.mem_of_find?_eq_some found
    have own : r.secret = secret := by simpa using List.find?_some found
    exact ⟨{ r with name := name, lastSeen := now },
      mem_updateWhere.mpr (Or.inr ⟨r, hr, by simpa using own, rfl⟩), rfl, own, rfl, rfl⟩
  · exact ⟨_, List.mem_append_right _ (List.mem_singleton_self _), rfl, rfl, rfl, rfl⟩

def HoldsSlot (t : Channels) (slot : ℕ) (secret : Secret) : Prop :=
  ∃ r ∈ t.rows, r.secret = secret ∧ r.slot = some slot

def Known (t : Channels) (name : String) (secret : Secret) (now : ℕ) : Prop :=
  ∃ r ∈ t.rows, r.secret = secret ∧ r.name = name ∧ r.lastSeen = now

theorem upsert_known (h : Known t name secret now) : (t.upsert name secret now).2 = t := by
  obtain ⟨r, hr, own, named, seen⟩ := h
  apply Channels.ext_rows
  unfold Channels.upsert
  split
  · rename_i found
    simp only [updateWhere]
    refine (List.map_congr_left fun x hx => ?_).trans (List.map_id _)
    by_cases same : x.secret = secret
    · obtain rfl := t.secret_unique.eq_of_mem hx hr (congrArg some same) (congrArg some own)
      subst named seen
      exact if_pos (decide_eq_true same)
    · exact if_neg (by simpa using same)
  · rename_i absent
    exact absurd own (by simpa using List.find?_eq_none.mp absent r hr)

theorem unassign_none {p : ChannelRow → Bool} (none : ∀ r ∈ t.rows, p r = false) :
    t.unassign p = t := by
  apply Channels.ext_rows
  refine (List.map_congr_left fun r hr => ?_).trans (List.map_id _)
  simp [none r hr]

def vacated (t : Channels) (slot : ℕ) (name : String) (secret : Secret) (now : ℕ) : Channels :=
  (t.upsert name secret now).2.vacateSlot slot (t.upsert name secret now).1

theorem leaves_assign {local_id : ℕ} {s : Channels × ℕ} :
    Leaves (assignStatements slot name secret now) (t, local_id) s ↔
      s = (t, local_id) ∨
      s = ((t.upsert name secret now).2, (t.upsert name secret now).1) ∨
      s = (vacated t slot name secret now, (t.upsert name secret now).1) ∨
      some s = (t.assignSlot slot name secret now).map Prod.swap := by
  have done : ∀ u, ((t.upsert name secret now).2.vacateSlot slot
      (t.upsert name secret now).1).setSlot slot (t.upsert name secret now).1 = some u →
      t.assignSlot slot name secret now = some ((t.upsert name secret now).1, u) := by
    intro u set
    simp only [Channels.assignSlot, set, Option.map_some]
  obtain ⟨u, set⟩ := Option.isSome_iff_exists.mp
    (setSlot_isSome (vacateSlot_free (t := (t.upsert name secret now).2) slot
      (t.upsert name secret now).1))
  rw [done u set]
  simp [assignStatements, vacated, set, @eq_comm _ s]

theorem eq_of_upsert_id {r : ChannelRow} (hr : r ∈ (t.upsert name secret now).2.rows)
    (id : r.id = (t.upsert name secret now).1) : r.secret = secret := by
  obtain ⟨row, hrow, row_id, own, -⟩ := upsert_row t name secret now
  have same := Channels.id_unique _ |>.eq_of_mem hr hrow (congrArg some id) (congrArg some row_id)
  rw [same, own]

theorem vacateSlot_self {r : ChannelRow} (hr : r ∈ t.rows) (placed : r.slot = some slot) :
    t.vacateSlot slot r.id = t := by
  apply unassign_none
  intro x hx
  simp only [Bool.and_eq_false_iff, decide_eq_false_iff_not, bne_eq_false_iff_eq]
  by_cases here : x.slot = some slot
  · right
    rw [t.slot_unique.eq_of_mem hx hr here placed]
  · exact Or.inl here

theorem setSlot_self {r : ChannelRow} (hr : r ∈ t.rows) (placed : r.slot = some slot) :
    t.setSlot slot r.id = some t := by
  have free : ∀ x ∈ t.rows, x.slot = some slot → x.id = r.id := by
    intro x hx here
    rw [t.slot_unique.eq_of_mem hx hr here placed]
  rw [Channels.setSlot, dif_pos free, Option.some.injEq]
  apply Channels.ext_rows
  refine (List.map_congr_left fun x hx => ?_).trans (List.map_id _)
  by_cases own : x.id = r.id
  · obtain rfl := t.id_unique.eq_of_mem hx hr (congrArg some own) rfl
    rw [if_pos (decide_eq_true rfl), ← placed]
    rfl
  · exact if_neg (by simpa using own)

variable (name now) in
theorem vacated_of_holds (h : HoldsSlot t slot secret) :
    vacated t slot name secret now = (t.upsert name secret now).2 ∧
      ∃ id, t.assignSlot slot name secret now = some (id, (t.upsert name secret now).2) := by
  obtain ⟨r, hr, own, placed⟩ := h
  have upserted : Upserted t (t.upsert name secret now).2 name secret
    (t.upsert name secret now).1 := upsert_upserted rfl
  obtain ⟨r', hr', -, same, slot'⟩ := upserted.to_new r hr
  obtain ⟨row, hrow, id, row_own, -⟩ := upsert_row t name secret now
  obtain rfl : r' = row := Channels.secret_unique _ |>.eq_of_mem hr' hrow
    (congrArg some (same.trans own)) (congrArg some row_own)
  have kept := vacateSlot_self hr' (slot'.trans placed)
  have set := setSlot_self hr' (slot'.trans placed)
  rw [id] at kept set
  refine ⟨kept, (t.upsert name secret now).1, ?_⟩
  simp only [Channels.assignSlot, kept, set, Option.map_some]

/-- A half assignment is a whole one only if the channel had the slot. -/
theorem holds_of_vacated {u : Channels}
    (assigned : t.assignSlot slot name secret now = some (id, u))
    (same : vacated t slot name secret now = u) : HoldsSlot t slot secret := by
  obtain ⟨r, hr, own, placed, -⟩ := (assignSlot_assigned assigned).row
  rw [← same] at hr
  have before := (mem_unassign_slot hr placed).1
  have upserted : Upserted t (t.upsert name secret now).2 name secret
    (t.upsert name secret now).1 := upsert_upserted rfl
  rcases upserted.from_old r before with old | ⟨-, -, new⟩
  · exact ⟨r, old, own, placed⟩
  · obtain ⟨x, hx, placed, -, own⟩ := new slot placed
    exact ⟨x, hx, own, placed⟩

theorem known_of_vacated (same : vacated t slot name secret now = t) :
    Known t name secret now ∧ ∀ r ∈ t.rows, r.slot = some slot → r.secret = secret := by
  refine ⟨?_, fun r hr placed => ?_⟩
  · obtain ⟨r, hr, id, own, named, seen⟩ := upsert_row t name secret now
    refine ⟨r, ?_, own, named, seen⟩
    rw [← same]
    exact mem_unassign.mpr (Or.inl ⟨hr, by simp [id]⟩)
  · rw [← same] at hr
    have id := vacateSlot_free slot (t.upsert name secret now).1 r hr placed
    exact eq_of_upsert_id (mem_unassign_slot hr placed).1 id

theorem assign_allOrNothing_iff {local_id : ℕ} :
    AllOrNothing Prod.fst (assignStatements slot name secret now) (t, local_id) ↔
      HoldsSlot t slot secret ∨
        Known t name secret now ∧ ∀ r ∈ t.rows, r.slot ≠ some slot := by
  obtain ⟨⟨id, u⟩, assigned⟩ := Option.isSome_iff_exists.mp
    (assignSlot_isSome (t := t) slot name secret now)
  refine ⟨fun atomic => ?_, ?_⟩
  · rcases atomic (vacated t slot name secret now, (t.upsert name secret now).1)
      (leaves_assign.mpr (Or.inr (Or.inr (Or.inl rfl)))) with before | ⟨s, done, after⟩
    · obtain ⟨known, own⟩ := known_of_vacated before
      by_cases holds : HoldsSlot t slot secret
      · exact Or.inl holds
      · exact Or.inr ⟨known, fun r hr placed => holds ⟨r, hr, own r hr placed, placed⟩⟩
    · rw [complete_assign, assigned, Option.map_some, Option.mem_some_iff] at done
      subst done
      exact Or.inl (holds_of_vacated assigned after)
  · intro harmless s left
    rcases leaves_assign.mp left with rfl | rfl | rfl | done
    · exact Or.inl rfl
    · rcases harmless with holds | ⟨known, -⟩
      · obtain ⟨-, id, assigned⟩ := vacated_of_holds now name holds
        exact Or.inr ⟨((t.upsert name secret now).2, id),
          by rw [complete_assign, assigned]; rfl, rfl⟩
      · exact Or.inl (upsert_known known)
    · rcases harmless with holds | ⟨known, free⟩
      · obtain ⟨none, id, assigned⟩ := vacated_of_holds now name holds
        exact Or.inr ⟨((t.upsert name secret now).2, id),
          by rw [complete_assign, assigned]; rfl, none⟩
      · left
        change (t.upsert name secret now).2.vacateSlot _ _ = t
        rw [upsert_known known]
        apply unassign_none
        intro r hr
        simp [free r hr]
    · exact Or.inr ⟨s, by rw [complete_assign]; exact done.symm, rfl⟩

theorem leaves_assign_kept {local_id : ℕ} {s : Channels × ℕ}
    (left : Leaves (assignStatements slot name secret now) (t, local_id) s) {r : ChannelRow}
    (hr : r ∈ t.rows) (other : r.secret ≠ secret) (elsewhere : r.slot ≠ some slot) :
    r ∈ s.1.rows := by
  rcases leaves_assign.mp left with rfl | rfl | rfl | done
  · exact hr
  · exact mem_upsert_of_ne name now hr other
  · exact mem_unassign.mpr (Or.inl ⟨mem_upsert_of_ne name now hr other, by simp [elsewhere]⟩)
  · obtain ⟨⟨id, u⟩, assigned, rfl⟩ := Option.map_eq_some_iff.mp done.symm
    exact (assignSlot_assigned assigned).kept r hr other elsewhere

theorem leaves_assign_slot {local_id : ℕ} {s : Channels × ℕ}
    (left : Leaves (assignStatements slot name secret now) (t, local_id) s) {r : ChannelRow}
    (hr : r ∈ s.1.rows) {k : ℕ} (placed : r.slot = some k) :
    (k = slot ∧ r.secret = secret) ∨ ∃ x ∈ t.rows, x.secret = r.secret ∧ x.slot = some k := by
  have upserted : Upserted t (t.upsert name secret now).2 name secret
    (t.upsert name secret now).1 := upsert_upserted rfl
  have recorded : r ∈ (t.upsert name secret now).2.rows →
      ∃ x ∈ t.rows, x.secret = r.secret ∧ x.slot = some k := by
    intro mem
    rcases upserted.from_old r mem with old | ⟨-, own, new⟩
    · exact ⟨r, old, rfl, placed⟩
    · obtain ⟨x, hx, there, -, same⟩ := new k placed
      exact ⟨x, hx, same.trans own.symm, there⟩
  rcases leaves_assign.mp left with rfl | rfl | rfl | done
  · exact Or.inr ⟨r, hr, rfl, placed⟩
  · exact Or.inr (recorded hr)
  · exact Or.inr (recorded (mem_unassign_slot hr placed).1)
  · obtain ⟨⟨id, u⟩, assigned, rfl⟩ := Option.map_eq_some_iff.mp done.symm
    have whole := assignSlot_assigned assigned
    by_cases here : k = slot
    · subst here
      obtain ⟨x, hx, own, there, -⟩ := whole.row
      obtain rfl := u.slot_unique.eq_of_mem hr hx placed there
      exact Or.inl ⟨rfl, own⟩
    · exact Or.inr ⟨r, (whole.from_old r hr k placed here).1, rfl, placed⟩

end assign

/-- `log` leaves a packet uncounted when it is stopped between its statements; `assign_slot`
is all or nothing at every await exactly if the channel has the slot already, or is known as
it is and the slot is free, and touches nothing else. -/
theorem interruption_leaves :
    (∀ (storePayloads : Bool) (t : Tables) (p : Packet),
      (∀ u, Leaves (logStatements storePayloads p) t u ↔
        u = t ∨ u = storedOnly storePayloads t p ∨ u = t.log storePayloads p) ∧
      storedOnly storePayloads t p ≠ t ∧
      storedOnly storePayloads t p ≠ t.log storePayloads p) ∧
    ∀ (t : Channels) (slot : ℕ) (name : String) (secret : Secret) (now local_id : ℕ),
      (AllOrNothing Prod.fst (assignStatements slot name secret now) (t, local_id) ↔
        HoldsSlot t slot secret ∨
          Known t name secret now ∧ ∀ r ∈ t.rows, r.slot ≠ some slot) ∧
      ∀ s, Leaves (assignStatements slot name secret now) (t, local_id) s →
        (∀ r ∈ t.rows, r.secret ≠ secret → r.slot ≠ some slot → r ∈ s.1.rows) ∧
        (∀ r ∈ s.1.rows, ∀ k, r.slot = some k → (k = slot ∧ r.secret = secret) ∨
          ∃ x ∈ t.rows, x.secret = r.secret ∧ x.slot = some k) := by
  refine ⟨fun storePayloads t p => ⟨fun u => leaves_log, storedOnly_ne storePayloads t p⟩,
    fun t slot name secret now local_id => ⟨assign_allOrNothing_iff, fun s left => ⟨?_, ?_⟩⟩⟩
  · exact fun r hr other elsewhere => leaves_assign_kept left hr other elsewhere
  · exact fun r hr k placed => leaves_assign_slot left hr placed

def takenSlot : Channels := ((Channels.empty.assignSlot 0 "a" [1] 0).map Prod.snd).getD .empty

/-- Stopped calls that leave a packet uncounted and a slot empty. -/
theorem half_calls :
    ¬ AllOrNothing id (logStatements true { ts := 10 }) .empty ∧
    ¬ AllOrNothing Prod.fst (assignStatements 0 "b" [2] 9) (takenSlot, 0) := by
  refine ⟨?_, ?_⟩
  · have differs := storedOnly_ne true .empty { ts := 10 }
    refine not_allOrNothing (leaves_log.mpr (Or.inr (Or.inl rfl))) differs.1 fun t done => ?_
    obtain rfl := Option.some.inj done
    exact differs.2
  · rw [assign_allOrNothing_iff]
    unfold HoldsSlot Known
    decide +kernel

end MeshwardenDaemon.Interruption
