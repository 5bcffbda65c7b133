import MeshwardenDaemon.ChannelTracker

/-! `ChannelTracker.refresh` as one function, over a node that answers every query for a
slot the same during it. The slots are read one after the other; where a later slot has
the secret of an earlier one, its assignment takes the row from that slot. -/
namespace MeshwardenDaemon.SlotRefresh
open Library Library.KeyedTable ChannelTable ChannelTracker

/-- `_read_slot`; the node answers with an ERROR where there is no slot. -/
def readSlot (node : ℕ → Option SlotInfo) (now : ℕ → ℕ) (t : Channels) (slot : ℕ) :
    Option Channels :=
  match node slot with
  | none => some (t.clearSlot slot)
  | some p =>
    if p.isEmpty then some (t.clearSlot slot)
    else (t.assignSlot slot p.channelName p.channelSecret (now slot)).map Prod.snd

/-- The body of `refresh` after the device query; nothing where a constraint fails. -/
def refresh (node : ℕ → Option SlotInfo) (now : ℕ → ℕ) (maxChannels : ℕ) (t : Channels) :
    Option (List ChannelRow × Channels) := do
  let t ← (List.range maxChannels).foldlM (readSlot node now) t
  let t := t.clearSlotsFrom maxChannels
  return (t.list true, t)

def identities (t : Channels) : List (ℕ × Secret × ℕ) :=
  t.rows.map fun r => (r.id, r.secret, r.firstSeen)

def Holds (node : ℕ → Option SlotInfo) (n slot : ℕ) (p : SlotInfo) : Prop :=
  slot < n ∧ node slot = some p ∧ p.isEmpty = false

/-- The last of the first `n` slots with a channel of this secret. -/
def Highest (node : ℕ → Option SlotInfo) (n slot : ℕ) (p : SlotInfo) : Prop :=
  Holds node n slot p ∧
    ∀ s q, Holds node n s q → q.channelSecret = p.channelSecret → s ≤ slot

section assigned
variable {t u : Channels} {slot id : ℕ} {name : String} {secret : Secret}

theorem identities_unassign (p : ChannelRow → Bool) : identities (t.unassign p) = identities t :=
  map_updateWhere _ fun _ => rfl

theorem identities_setSlot (h : t.setSlot slot id = some u) : identities u = identities t := by
  unfold Channels.setSlot at h
  split at h
  · obtain rfl := Option.some.inj h
    exact map_updateWhere _ fun _ => rfl
  · cases h

theorem identities_upsert (name : String) (secret : Secret) (now : ℕ) :
    identities t <+: identities (t.upsert name secret now).2 := by
  unfold Channels.upsert
  split
  · refine ⟨[], ?_⟩
    rw [List.append_nil]
    symm
    unfold identities
    apply map_updateWhere
    intro r
    rfl
  · simp only [identities, List.map_append]
    exact List.prefix_append _ _

theorem mem_upsert_of_ne {r : ChannelRow} (name : String) (now : ℕ) (hr : r ∈ t.rows)
    (other : r.secret ≠ secret) : r ∈ (t.upsert name secret now).2.rows := by
  unfold Channels.upsert
  split
  · exact mem_updateWhere.mpr (Or.inl ⟨hr, by simpa using other⟩)
  · exact List.mem_append_left _ hr

structure Assigned (t u : Channels) (slot : ℕ) (name : String) (secret : Secret) : Prop where
  identities : identities t <+: identities u
  row : ∃ r ∈ u.rows, r.secret = secret ∧ r.slot = some slot ∧ r.name = name
  kept : ∀ r ∈ t.rows, r.secret ≠ secret → r.slot ≠ some slot → r ∈ u.rows
  from_old : ∀ r ∈ u.rows, ∀ s, r.slot = some s → s ≠ slot → r ∈ t.rows ∧ r.secret ≠ secret

theorem assignSlot_assigned {now : ℕ} (h : t.assignSlot slot name secret now = some (id, u)) :
    Assigned t u slot name secret := by
  simp only [Channels.assignSlot, Option.map_eq_some_iff, Prod.mk.injEq] at h
  obtain ⟨u, set, rfl, rfl⟩ := h
  have upserted : Upserted t (t.upsert name secret now).2 name secret
    (t.upsert name secret now).1 := upsert_upserted rfl
  obtain ⟨row, hrow, row_id, row_secret, row_name⟩ := upserted.row
  have only : ∀ x ∈ (t.upsert name secret now).2.rows,
      x.id = (t.upsert name secret now).1 → x = row := fun x hx same =>
    Channels.id_unique _ |>.eq_of_mem hx hrow (congrArg some same) (congrArg some row_id)
  refine ⟨?_, ?_, ?_, ?_⟩
  · rw [identities_setSlot set, Channels.vacateSlot, identities_unassign]
    exact identities_upsert name secret now
  · refine ⟨{ row with slot := some slot }, (mem_setSlot set _).mpr (Or.inr ⟨row, ?_, row_id, rfl⟩),
      row_secret, rfl, row_name⟩
    exact mem_unassign.mpr (Or.inl ⟨hrow, by simp [row_id]⟩)
  · intro r hr other elsewhere
    have mem := mem_upsert_of_ne name now hr other
    have id : r.id ≠ (t.upsert name secret now).1 := by
      intro same
      rw [only r mem same] at other
      exact other row_secret
    refine (mem_setSlot set _).mpr (Or.inl ⟨mem_unassign.mpr (Or.inl ⟨mem, ?_⟩), id⟩)
    simp [elsewhere]
  · intro r hr s hs elsewhere
    rcases (mem_setSlot set r).mp hr with ⟨mem, id⟩ | ⟨x, _, _, rfl⟩
    · have before := (mem_unassign_slot mem hs).1
      have other : r.secret ≠ secret := by
        intro same
        have : r = row := Channels.secret_unique _ |>.eq_of_mem before hrow (congrArg some same)
          (congrArg some row_secret)
        rw [this] at id
        exact id row_id
      exact ⟨(upserted.from_old r before).resolve_right fun new => other new.2.1, other⟩
    · exact absurd (Option.some.inj hs).symm elsewhere

end assigned

theorem list_increasing (t : Channels) :
    (t.list true).Pairwise fun a b => ∃ x ∈ a.slot, ∃ y ∈ b.slot, x < y := by
  have unique : Unique ChannelRow.slot (t.list true) :=
    (t.slot_unique.filter _).perm (List.mergeSort_perm _ _).symm
  refine ((list_ordered true).and unique).imp_of_mem ?_
  rintro a b ha hb ⟨order, differ⟩
  obtain ⟨x, hx⟩ := Option.isSome_iff_exists.mp ((mem_list.mp ha).2 rfl)
  obtain ⟨y, hy⟩ := Option.isSome_iff_exists.mp ((mem_list.mp hb).2 rfl)
  refine ⟨x, hx, y, hy, ?_⟩
  have ne : x ≠ y := by
    rintro rfl
    exact differ x hx hy
  simp only [slotOrder, hx, hy, Bool.or_eq_true, decide_eq_true_eq, Bool.and_eq_true,
    beq_iff_eq] at order
  omega

section synced
variable {node : ℕ → Option SlotInfo} {n slot : ℕ} {p : SlotInfo} {t u v : Channels}

theorem Holds.lift (h : Holds node n slot p) : Holds node (n + 1) slot p :=
  ⟨Nat.lt_succ_of_lt h.1, h.2⟩

theorem Holds.lower (h : Holds node (n + 1) slot p) (ne : slot ≠ n) : Holds node n slot p :=
  ⟨Nat.lt_of_le_of_ne (Nat.lt_succ_iff.mp h.1) ne, h.2⟩

theorem Highest.lower (h : Highest node (n + 1) slot p) (ne : slot ≠ n) : Highest node n slot p :=
  ⟨h.1.lower ne, fun s q holds => h.2 s q holds.lift⟩

theorem Highest.lift (h : Highest node n slot p)
    (other : ∀ q, Holds node (n + 1) n q → q.channelSecret ≠ p.channelSecret) :
    Highest node (n + 1) slot p := by
  refine ⟨h.1.lift, fun s q holds same => ?_⟩
  by_cases new : s = n
  · subst new
    exact absurd same (other q holds)
  · exact h.2 s q (holds.lower new) same

theorem exists_highest (holds : Holds node n slot p) :
    ∃ top q, Highest node n top q ∧ q.channelSecret = p.channelSecret := by
  induction n with
  | zero => exact absurd holds.1 (Nat.not_lt_zero _)
  | succ n ih =>
    by_cases last : ∃ q, Holds node (n + 1) n q ∧ q.channelSecret = p.channelSecret
    · obtain ⟨q, hq, same⟩ := last
      exact ⟨n, q, ⟨hq, fun s _ hs _ => Nat.lt_succ_iff.mp hs.1⟩, same⟩
    · have ne : slot ≠ n := by
        rintro rfl
        exact last ⟨p, holds, rfl⟩
      obtain ⟨top, q, highest, same⟩ := ih (holds.lower ne)
      refine ⟨top, q, highest.lift fun x hx eq => last ⟨x, hx, eq.trans same⟩, same⟩

structure Synced (node : ℕ → Option SlotInfo) (n : ℕ) (t u : Channels) : Prop where
  identities : identities t <+: identities u
  placed : ∀ slot p, Highest node n slot p →
    ∃ r ∈ u.rows, r.secret = p.channelSecret ∧ r.slot = some slot ∧ r.name = p.channelName
  slots : ∀ r ∈ u.rows, ∀ slot < n, r.slot = some slot →
    ∃ p, Highest node n slot p ∧ p.channelSecret = r.secret

theorem Synced.clear (h : Synced node n t u) (empty : ∀ p, ¬ Holds node (n + 1) n p) :
    Synced node (n + 1) t (u.clearSlot n) := by
  refine ⟨?_, ?_, ?_⟩
  · rw [Channels.clearSlot, identities_unassign]
    exact h.identities
  · intro slot p highest
    have ne : slot ≠ n := by
      rintro rfl
      exact empty p highest.1
    obtain ⟨r, hr, secret, placed, name⟩ := h.placed slot p (highest.lower ne)
    exact ⟨r, mem_unassign.mpr (Or.inl ⟨hr, by simpa [placed] using ne⟩), secret, placed, name⟩
  · intro r hr slot below placed
    obtain ⟨old, kept⟩ := mem_unassign_slot hr placed
    have ne : slot ≠ n := by simpa [placed] using kept
    obtain ⟨p, highest, secret⟩ := h.slots r old slot (by omega) placed
    exact ⟨p, highest.lift fun q hq => absurd hq (empty q), secret⟩

theorem Synced.assign (h : Synced node n t u) (holds : Holds node (n + 1) n p)
    (assigned : Assigned u v n p.channelName p.channelSecret) : Synced node (n + 1) t v := by
  have own : ∀ q, Holds node (n + 1) n q → q = p := fun q hq =>
    Option.some.inj (hq.2.1.symm.trans holds.2.1)
  have top : Highest node (n + 1) n p := ⟨holds, fun s _ hs _ => Nat.lt_succ_iff.mp hs.1⟩
  refine ⟨h.identities.trans assigned.identities, ?_, ?_⟩
  · intro slot q highest
    by_cases new : slot = n
    · subst new
      obtain rfl := own q highest.1
      exact assigned.row
    · obtain ⟨r, hr, secret, placed, name⟩ := h.placed slot q (highest.lower new)
      have other : r.secret ≠ p.channelSecret := by
        intro same
        have above := highest.2 n p holds (same.symm.trans secret)
        have below := highest.1.1
        omega
      have elsewhere : r.slot ≠ some n := by simpa [placed] using new
      exact ⟨r, assigned.kept r hr other elsewhere, secret, placed, name⟩
  · intro r hr slot below placed
    by_cases new : slot = n
    · subst new
      obtain ⟨x, hx, secret, same, -⟩ := assigned.row
      obtain rfl := v.slot_unique.eq_of_mem hr hx placed same
      exact ⟨p, top, secret.symm⟩
    · obtain ⟨old, other⟩ := assigned.from_old r hr slot placed new
      obtain ⟨q, highest, secret⟩ := h.slots r old slot (by omega) placed
      refine ⟨q, highest.lift fun x hx same => other ?_, secret⟩
      rw [own x hx] at same
      rw [same, secret]

theorem Synced.readSlot (h : Synced node n t u) (now : ℕ → ℕ) :
    ∃ v, readSlot node now u n = some v ∧ Synced node (n + 1) t v := by
  cases answer : node n with
  | none =>
    refine ⟨u.clearSlot n, by simp only [SlotRefresh.readSlot, answer], h.clear fun p hp => ?_⟩
    have none := answer.symm.trans hp.2.1
    cases none
  | some p =>
    by_cases empty : p.isEmpty = true
    · refine ⟨u.clearSlot n, by simp only [SlotRefresh.readSlot, answer, if_pos empty],
        h.clear fun q hq => ?_⟩
      obtain rfl : q = p := Option.some.inj (hq.2.1.symm.trans answer)
      rw [hq.2.2] at empty
      cases empty
    · have done := assignSlot_isSome (t := u) n p.channelName p.channelSecret (now n)
      obtain ⟨⟨id, v⟩, assigned⟩ := Option.isSome_iff_exists.mp done
      refine ⟨v,
        by simp only [SlotRefresh.readSlot, answer, if_neg empty, assigned, Option.map_some],
        h.assign ⟨Nat.lt_succ_self n, answer, by simpa using empty⟩ (assignSlot_assigned assigned)⟩

theorem readSlots_synced (node : ℕ → Option SlotInfo) (now : ℕ → ℕ) (t : Channels) (n : ℕ) :
    ∃ u, (List.range n).foldlM (readSlot node now) t = some u ∧ Synced node n t u := by
  induction n with
  | zero =>
    refine ⟨t, rfl, List.prefix_rfl, ?_, ?_⟩
    · intro slot p highest
      exact absurd highest.1.1 (Nat.not_lt_zero _)
    · intro r _ slot below
      exact absurd below (Nat.not_lt_zero _)
  | succ n ih =>
    obtain ⟨u, read, synced⟩ := ih
    obtain ⟨v, last, synced⟩ := synced.readSlot now
    refine ⟨v, ?_, synced⟩
    rw [List.range_succ, List.foldlM_append, read]
    simpa using last

theorem Synced.clearFrom (h : Synced node n t u) : Synced node n t (u.clearSlotsFrom n) ∧
    ∀ r ∈ (u.clearSlotsFrom n).rows, ∀ slot, r.slot = some slot → slot < n := by
  refine ⟨⟨?_, ?_, ?_⟩, ?_⟩
  · rw [Channels.clearSlotsFrom, identities_unassign]
    exact h.identities
  · intro slot p highest
    have below := highest.1.1
    obtain ⟨r, hr, secret, placed, name⟩ := h.placed slot p highest
    exact ⟨r, mem_unassign.mpr (Or.inl ⟨hr, by simpa [placed] using below⟩), secret, placed, name⟩
  · intro r hr slot below placed
    exact h.slots r (mem_unassign_slot hr placed).1 slot below placed
  · intro r hr slot placed
    simpa [placed] using (mem_unassign_slot hr placed).2

end synced

section run
variable {node : ℕ → Option SlotInfo} {s : State} {t u : Channels}

theorem readSlot_is_run (free : s.slotFree = true)
    (answers : ∀ slot p, node slot = some p → s.node slot = p) {now : ℕ → ℕ} {slot : ℕ}
    (read : readSlot node now t slot = some u) (rest : Rest) (seen : ℕ → Option Secret) :
    ∃ acts seen',
      Runs.run step { s with running := some (.read slot rest), channels := t, seen := seen } acts =
        some { s with running := rest.next, channels := u, seen := seen' } := by
  unfold readSlot at read
  cases answer : node slot with
  | none =>
    simp only [answer, Option.some.injEq] at read
    subst read
    exact ⟨[.readError, .statement 0], seen, rfl⟩
  | some p =>
    have held := answers slot p answer
    simp only [answer] at read
    have query : step { s with running := some (.read slot rest), channels := t, seen := seen }
        .read = some { s with
          running := some (if p.isEmpty then .clear slot rest else .upsert slot p rest)
          channels := t
          seen := seen } := by
      have free' : State.slotFree { s with
        running := some (.read slot rest), channels := t, seen := seen } = true := free
      simp only [step, if_pos free', held]
    by_cases empty : p.isEmpty = true
    · rw [if_pos empty, Option.some.injEq] at read
      subst read
      rw [if_pos empty] at query
      refine ⟨[.read, .statement 0], seen, ?_⟩
      rw [Runs.run, query]
      rfl
    · rw [if_neg empty] at read query
      simp only [Channels.assignSlot, Option.map_eq_some_iff, Prod.exists,
        exists_eq_right] at read
      obtain ⟨id, v, set, assigned⟩ := read
      obtain ⟨rfl, rfl⟩ := Prod.mk.inj assigned
      refine ⟨[.read, .statement (now slot), .statement 0, .statement 0],
        Function.update seen slot (some p.channelSecret), ?_⟩
      rw [Runs.run, query]
      simp only [Option.bind_some, Runs.run, step, State.statement, set]

theorem readSlots_are_run (free : s.slotFree = true)
    (answers : ∀ slot p, node slot = some p → s.node slot = p) {now : ℕ → ℕ}
    {n maxChannels : ℕ} (bound : n ≤ maxChannels)
    (read : (List.range n).foldlM (readSlot node now) s.channels = some u) :
    ∃ acts seen, Runs.run step { s with running := (Rest.scan 0 maxChannels).next } acts =
      some { s with running := (Rest.scan n maxChannels).next, channels := u, seen := seen } := by
  induction n generalizing u with
  | zero =>
    obtain rfl := Option.some.inj read
    exact ⟨[], s.seen, rfl⟩
  | succ n ih =>
    rw [List.range_succ, List.foldlM_append] at read
    obtain ⟨v, before, last⟩ := Option.bind_eq_some_iff.mp read
    obtain ⟨acts, seen, earlier⟩ := ih (Nat.le_of_succ_le bound) before
    have last : readSlot node now v n = some u := by simpa using last
    obtain ⟨acts', seen', here⟩ :=
      readSlot_is_run free answers last (.scan (n + 1) maxChannels) seen
    refine ⟨acts ++ acts', seen', Runs.run_append.mpr ⟨_, earlier, ?_⟩⟩
    have next : (Rest.scan n maxChannels).next = some (.read n (.scan (n + 1) maxChannels)) := by
      simp only [Rest.next, if_pos (Nat.lt_of_succ_le bound)]
    rw [next]
    exact here

theorem refresh_is_run (free : s.slotFree = true) (running : s.running = some .query)
    (answers : ∀ slot p, node slot = some p → s.node slot = p) {now : ℕ → ℕ}
    {listed : List ChannelRow} (returns : refresh node now s.maxChannels s.channels =
      some (listed, u)) :
    ∃ acts seen, Runs.run step s acts =
      some { s with running := none, channels := u, seen := seen } := by
  obtain ⟨v, read, rest⟩ := Option.bind_eq_some_iff.mp returns
  obtain ⟨-, rfl⟩ := Prod.mk.inj (Option.some.inj rest)
  obtain ⟨acts, seen, slots⟩ := readSlots_are_run free answers (Nat.le_refl _) read
  have query : step s .query = some { s with running := (Rest.scan 0 s.maxChannels).next } := by
    simp only [step, if_pos (And.intro running free)]
  have last : (Rest.scan s.maxChannels s.maxChannels).next = some (.clearFrom s.maxChannels) := by
    simp only [Rest.next, if_neg (Nat.lt_irrefl _)]
  refine ⟨.query :: (acts ++ [.statement 0]), seen, ?_⟩
  rw [Runs.run, query, Option.bind_some]
  refine Runs.run_append.mpr ⟨_, slots, ?_⟩
  rw [last]
  rfl

end run

/-- A refresh breaks no constraint; each secret in a slot has one row then, at the highest
slot with it and under its name, the other rows have no slot, and no row is lost. -/
theorem refresh_exact (node : ℕ → Option SlotInfo) (now : ℕ → ℕ) (maxChannels : ℕ)
    (t : Channels) :
    ∃ u, refresh node now maxChannels t = some (u.list true, u) ∧
      (∀ slot p, Holds node maxChannels slot p →
        ∃ top q r, Highest node maxChannels top q ∧ q.channelSecret = p.channelSecret ∧
          u.rows.filter (fun x => x.secret = p.channelSecret) = [r] ∧
          r.slot = some top ∧ r.name = q.channelName) ∧
      (∀ r ∈ u.rows, (∀ slot p, Holds node maxChannels slot p → p.channelSecret ≠ r.secret) →
        r.slot = none) ∧
      identities t <+: identities u ∧
      (∀ r, r ∈ u.list true ↔ r ∈ u.rows ∧ r.slot.isSome = true) ∧
      (u.list true).Pairwise fun a b => ∃ x ∈ a.slot, ∃ y ∈ b.slot, x < y := by
  obtain ⟨u, read, synced⟩ := readSlots_synced node now t maxChannels
  obtain ⟨synced, below⟩ := synced.clearFrom
  refine ⟨u.clearSlotsFrom maxChannels, ?_, ?_, ?_, synced.identities, ?_, ?_⟩
  · simp [refresh, read]
  · intro slot p holds
    obtain ⟨top, q, highest, same⟩ := exists_highest holds
    obtain ⟨r, hr, secret, placed, name⟩ := synced.placed top q highest
    refine ⟨top, q, r, highest, same, ?_, placed, name⟩
    exact (Channels.secret_unique _).filter_eq_singleton hr (congrArg some (secret.trans same))
  · intro r hr absent
    cases placed : r.slot with
    | none => rfl
    | some slot =>
      obtain ⟨p, highest, secret⟩ := synced.slots r hr slot (below r hr slot placed) placed
      exact absurd secret (absent slot p highest.1)
  · intro r
    simp [mem_list]
  · exact list_increasing _

end MeshwardenDaemon.SlotRefresh
