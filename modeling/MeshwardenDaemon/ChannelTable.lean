import MeshwardenDaemon.Library.KeyedTable

/-! The `channels` table and the statements of `ChannelStore`. A channel is known
by its secret; its row carries the one device slot it occupies. The constraints of
the schema are fields of `Channels`, so every statement keeps them. -/
namespace MeshwardenDaemon.ChannelTable
open Library.KeyedTable

abbrev Secret := List UInt8

/-- The payload of a `get_channel` answer: what a slot of the node holds. -/
structure SlotInfo where
  channelName : String
  channelSecret : Secret
  deriving DecidableEq

def SlotInfo.isEmpty (p : SlotInfo) : Bool :=
  p.channelName == "" && !p.channelSecret.any (· != 0)

structure ChannelRow where
  id : ℕ
  secret : Secret
  name : String
  slot : Option ℕ
  firstSeen : ℕ
  lastSeen : ℕ
  deriving DecidableEq

structure Channels where
  rows : List ChannelRow
  id_unique : Unique (fun r => some r.id) rows
  secret_unique : Unique (fun r => some r.secret) rows
  slot_unique : Unique ChannelRow.slot rows

def Channels.empty : Channels := ⟨[], unique_nil _, unique_nil _, unique_nil _⟩

variable (t : Channels)

/-- `INSERT … ON CONFLICT(secret) DO UPDATE … RETURNING id`. -/
def Channels.upsert (name : String) (secret : Secret) (now : ℕ) : ℕ × Channels :=
  match h : t.rows.find? (·.secret = secret) with
  | some r =>
    (r.id, {
      rows := updateWhere (·.secret = secret) (fun r => { r with name := name, lastSeen := now })
        t.rows
      id_unique := t.id_unique.updateWhere fun _ _ h => h
      secret_unique := t.secret_unique.updateWhere fun _ _ h => h
      slot_unique := t.slot_unique.updateWhere fun _ _ h => h })
  | none =>
    let id := nextKey ChannelRow.id t.rows
    (id, {
      rows := t.rows ++ [⟨id, secret, name, none, now, now⟩]
      id_unique := t.id_unique.insert fun r hr k hk hid => by
        simp only [Option.some.injEq] at hk hid
        exact key_ne_nextKey hr (hk.trans hid.symm)
      secret_unique := t.secret_unique.insert fun r hr k hk hs => by
        simp only [Option.some.injEq] at hk hs
        have := List.find?_eq_none.mp h r hr
        exact this (by simp [hk, hs])
      slot_unique := t.slot_unique.insert fun _ _ _ _ => nofun })

/-- `UPDATE channels SET slot = NULL WHERE …`. -/
def Channels.unassign (p : ChannelRow → Bool) : Channels where
  rows := updateWhere p (fun r => { r with slot := none }) t.rows
  id_unique := t.id_unique.updateWhere fun _ _ h => h
  secret_unique := t.secret_unique.updateWhere fun _ _ h => h
  slot_unique := t.slot_unique.updateWhere fun _ _ => nofun

/-- The second statement of `assign_slot`. -/
def Channels.vacateSlot (slot id : ℕ) : Channels :=
  t.unassign fun r => r.slot = some slot && r.id != id

def Channels.clearSlot (slot : ℕ) : Channels := t.unassign fun r => r.slot = some slot

def Channels.clearSlotsFrom (firstSlot : ℕ) : Channels :=
  t.unassign fun r => r.slot.any (firstSlot ≤ ·)

def Channels.setSlot (slot id : ℕ) : Option Channels :=
  if free : ∀ r ∈ t.rows, r.slot = some slot → r.id = id then
    some {
      rows := updateWhere (·.id = id) (fun r => { r with slot := some slot }) t.rows
      id_unique := t.id_unique.updateWhere fun _ _ h => h
      secret_unique := t.secret_unique.updateWhere fun _ _ h => h
      slot_unique := t.slot_unique.assign t.id_unique (fun _ => rfl) free }
  else none

/-- `assign_slot` with no other statement in between. -/
def Channels.assignSlot (slot : ℕ) (name : String) (secret : Secret) (now : ℕ) :
    Option (ℕ × Channels) :=
  let (id, t) := t.upsert name secret now
  ((t.vacateSlot slot id).setSlot slot id).map fun t => (id, t)

/-- `SELECT id FROM channels WHERE slot = ?`. -/
def Channels.idAt (slot : ℕ) : Option ℕ :=
  (t.rows.find? fun r => r.slot = some slot).map ChannelRow.id

def Channels.secretOf (id : ℕ) : Option Secret :=
  (t.rows.find? fun r => r.id = id).map ChannelRow.secret

/-- `ORDER BY slot, id`; NULLs come first. -/
def slotOrder (a b : ChannelRow) : Bool :=
  match a.slot, b.slot with
  | none, none => a.id ≤ b.id
  | none, some _ => true
  | some _, none => false
  | some x, some y => x < y || (x == y && a.id ≤ b.id)

def Channels.list (onDevice : Bool) : List ChannelRow :=
  (t.rows.filter fun r => !onDevice || r.slot.isSome).mergeSort slotOrder

variable {t} {u : Channels}

theorem mem_list {onDevice : Bool} {r : ChannelRow} :
    r ∈ t.list onDevice ↔ r ∈ t.rows ∧ (onDevice = true → r.slot.isSome = true) := by
  cases onDevice <;> simp [Channels.list]

theorem list_ordered (onDevice : Bool) :
    (t.list onDevice).Pairwise fun a b => slotOrder a b = true := by
  apply List.pairwise_mergeSort
  · intro a b c
    simp only [slotOrder]
    cases a.slot <;> cases b.slot <;> cases c.slot <;>
      simp only [decide_eq_true_eq, Bool.or_eq_true, Bool.and_eq_true, beq_iff_eq] <;>
      first | omega | simp
  · intro a b
    simp only [slotOrder]
    cases a.slot <;> cases b.slot <;>
      simp only [Bool.or_eq_true, decide_eq_true_eq, Bool.and_eq_true, beq_iff_eq] <;>
      first | omega | simp

theorem secretOf_eq_some {id : ℕ} {secret : Secret} :
    t.secretOf id = some secret ↔ ∃ r ∈ t.rows, r.id = id ∧ r.secret = secret := by
  have found : ∀ r, t.rows.find? (fun r => r.id = id) = some r ↔ r ∈ t.rows ∧ r.id = id :=
    fun r => by simpa using t.id_unique.find?_eq_some (r := r) (k := id)
  simp only [Channels.secretOf, Option.map_eq_some_iff, found, and_assoc]

theorem idAt_eq_some {slot id : ℕ} :
    t.idAt slot = some id ↔ ∃ r ∈ t.rows, r.slot = some slot ∧ r.id = id := by
  unfold Channels.idAt
  rw [Option.map_eq_some_iff]
  simp only [t.slot_unique.find?_eq_some, and_assoc]

def Extends (t u : Channels) : Prop :=
  ∀ r ∈ t.rows, ∃ r' ∈ u.rows, r'.id = r.id ∧ r'.secret = r.secret

theorem Extends.refl (t : Channels) : Extends t t := fun r hr => ⟨r, hr, rfl, rfl⟩

theorem Extends.trans {v : Channels} (h : Extends t u) (h' : Extends u v) : Extends t v := by
  intro r hr
  obtain ⟨r', hr', id', secret'⟩ := h r hr
  obtain ⟨r'', hr'', id'', secret''⟩ := h' r' hr'
  exact ⟨r'', hr'', id''.trans id', secret''.trans secret'⟩

theorem Extends.secretOf {id : ℕ} {secret : Secret} (h : Extends t u)
    (hid : t.secretOf id = some secret) : u.secretOf id = some secret := by
  obtain ⟨r, hr, rfl, rfl⟩ := secretOf_eq_some.mp hid
  exact secretOf_eq_some.mpr (h r hr)

theorem extends_updateWhere (p : ChannelRow → Bool) (f : ChannelRow → ChannelRow)
    (hid : ∀ r, (f r).id = r.id) (hsecret : ∀ r, (f r).secret = r.secret)
    (hu : u.rows = updateWhere p f t.rows) : Extends t u := by
  intro r hr
  rw [hu]
  by_cases hp : p r = true
  · exact ⟨f r, mem_updateWhere.mpr (Or.inr ⟨r, hr, hp, rfl⟩), hid r, hsecret r⟩
  · exact ⟨r, mem_updateWhere.mpr (Or.inl ⟨hr, by simpa using hp⟩), rfl, rfl⟩

theorem mem_unassign {p : ChannelRow → Bool} {r : ChannelRow} :
    r ∈ (t.unassign p).rows ↔ (r ∈ t.rows ∧ p r = false) ∨
      ∃ x ∈ t.rows, p x = true ∧ { x with slot := none } = r :=
  mem_updateWhere

theorem extends_unassign (p : ChannelRow → Bool) : Extends t (t.unassign p) :=
  extends_updateWhere p (fun r => { r with slot := none }) (fun _ => rfl) (fun _ => rfl) rfl

theorem mem_unassign_slot {p : ChannelRow → Bool} {r : ChannelRow} {slot : ℕ}
    (hr : r ∈ (t.unassign p).rows) (hslot : r.slot = some slot) : r ∈ t.rows ∧ p r = false := by
  rcases mem_unassign.mp hr with kept | ⟨x, _, _, rfl⟩
  · exact kept
  · cases hslot

structure Upserted (t u : Channels) (name : String) (secret : Secret) (id : ℕ) : Prop where
  row : ∃ r ∈ u.rows, r.id = id ∧ r.secret = secret ∧ r.name = name
  from_old : ∀ r ∈ u.rows, r ∈ t.rows ∨ (r.id = id ∧ r.secret = secret ∧
    ∀ slot, r.slot = some slot → ∃ x ∈ t.rows, x.slot = some slot ∧ x.id = id ∧ x.secret = secret)
  to_new : ∀ r ∈ t.rows, ∃ r' ∈ u.rows, r'.id = r.id ∧ r'.secret = r.secret ∧ r'.slot = r.slot

theorem upsert_upserted {name : String} {secret : Secret} {now id : ℕ}
    (h : t.upsert name secret now = (id, u)) : Upserted t u name secret id := by
  unfold Channels.upsert at h
  split at h
  · rename_i r hfind
    obtain ⟨rfl, rfl⟩ := Prod.mk.injEq _ _ _ _ ▸ h
    have hr := List.mem_of_find?_eq_some hfind
    have hs : r.secret = secret := by simpa using List.find?_some hfind
    have only : ∀ x ∈ t.rows, x.secret = secret → x = r := fun x hx hxs =>
      t.secret_unique.eq_of_mem hx hr (congrArg some hxs) (congrArg some hs)
    refine ⟨?_, fun x hx => ?_, fun x hx => ?_⟩
    · exact ⟨_, mem_updateWhere.mpr (Or.inr ⟨r, hr, by simp [hs], rfl⟩), rfl, hs, rfl⟩
    · rcases mem_updateWhere.mp hx with ⟨old, _⟩ | ⟨y, hy, hp, rfl⟩
      · exact Or.inl old
      · obtain rfl := only y hy (by simpa using hp)
        exact Or.inr ⟨rfl, hs, fun slot hslot => ⟨y, hy, hslot, rfl, hs⟩⟩
    · by_cases hp : x.secret = secret
      · exact ⟨_, mem_updateWhere.mpr (Or.inr ⟨x, hx, by simp [hp], rfl⟩), rfl, rfl, rfl⟩
      · exact ⟨x, mem_updateWhere.mpr (Or.inl ⟨hx, by simp [hp]⟩), rfl, rfl, rfl⟩
  · obtain ⟨rfl, rfl⟩ := Prod.mk.injEq _ _ _ _ ▸ h
    refine ⟨?_, fun x hx => ?_, fun x hx => ?_⟩
    · exact ⟨_, List.mem_append_right _ (List.mem_singleton_self _), rfl, rfl, rfl⟩
    · rcases List.mem_append.mp hx with old | new
      · exact Or.inl old
      · obtain rfl := List.mem_singleton.mp new
        exact Or.inr ⟨rfl, rfl, nofun⟩
    · exact ⟨x, List.mem_append_left _ hx, rfl, rfl, rfl⟩

theorem Upserted.extends {name : String} {secret : Secret} {id : ℕ}
    (h : Upserted t u name secret id) : Extends t u := by
  intro r hr
  obtain ⟨r', hr', hid, hsecret, _⟩ := h.to_new r hr
  exact ⟨r', hr', hid, hsecret⟩

theorem mem_setSlot {slot id : ℕ} (h : t.setSlot slot id = some u) (r : ChannelRow) :
    r ∈ u.rows ↔ (r ∈ t.rows ∧ r.id ≠ id) ∨
      ∃ x ∈ t.rows, x.id = id ∧ { x with slot := some slot } = r := by
  unfold Channels.setSlot at h
  split at h
  · obtain rfl := Option.some.inj h
    simp only [mem_updateWhere, decide_eq_false_iff_not, decide_eq_true_eq, ne_eq]
  · cases h

theorem setSlot_free {slot id : ℕ} (h : t.setSlot slot id = some u) :
    ∀ r ∈ t.rows, r.slot = some slot → r.id = id := by
  unfold Channels.setSlot at h
  split at h
  · assumption
  · cases h

theorem extends_setSlot {slot id : ℕ} (h : t.setSlot slot id = some u) : Extends t u := by
  intro r hr
  by_cases hid : r.id = id
  · exact ⟨{ r with slot := some slot }, (mem_setSlot h _).mpr (Or.inr ⟨r, hr, hid, rfl⟩),
      rfl, rfl⟩
  · exact ⟨r, (mem_setSlot h _).mpr (Or.inl ⟨hr, hid⟩), rfl, rfl⟩

theorem setSlot_isSome {slot id : ℕ} (free : ∀ r ∈ t.rows, r.slot = some slot → r.id = id) :
    (t.setSlot slot id).isSome = true := by
  simp only [Channels.setSlot, dif_pos free, Option.isSome_some]

theorem vacateSlot_free (slot id : ℕ) :
    ∀ r ∈ (t.vacateSlot slot id).rows, r.slot = some slot → r.id = id := by
  intro r hr hslot
  have kept := (mem_unassign_slot hr hslot).2
  simpa [hslot] using kept

/-- The three statements of `assign_slot` together never break a constraint. -/
theorem assignSlot_isSome (slot : ℕ) (name : String) (secret : Secret) (now : ℕ) :
    (t.assignSlot slot name secret now).isSome = true := by
  simp only [Channels.assignSlot, Option.isSome_map]
  exact setSlot_isSome (vacateSlot_free slot _)

end MeshwardenDaemon.ChannelTable
