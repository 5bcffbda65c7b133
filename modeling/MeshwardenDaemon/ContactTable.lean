import MeshwardenDaemon.Library.Extremes
import MeshwardenDaemon.Library.Grouping
import Mathlib.Data.Rat.Defs

/-! The `contacts` table and the statements of `ContactStore` that write it. -/
namespace MeshwardenDaemon.ContactTable
open Library KeyedTable Grouping

structure Contact where
  publicKey : String
  advName : Option String := none
  type : Option ℕ := none
  flags : Option ℤ := none
  outPath : Option String := none
  outPathLen : Option ℤ := none
  advLat : Option ℚ := none
  advLon : Option ℚ := none
  lastAdvert : Option ℕ := none
  lastmod : Option ℕ := none
  /-- `json.dumps` of the whole payload. -/
  rawJson : Option String := none
  deriving DecidableEq

structure ContactRow extends Contact where
  firstSeen : ℕ
  lastSeen : ℕ
  onDevice : Bool
  deriving DecidableEq

/-- The latest of the reported times that is set and not in the future. -/
def reportedLastHeard (contact : Contact) (now : ℕ) : ℕ :=
  ([contact.lastAdvert, contact.lastmod].reduceOption.filter
    fun t => t ≠ 0 && t ≤ now).foldr max 0

theorem isGreatest_reported (contact : Contact) (now : ℕ) :
    IsGreatest (insert 0 {t | (contact.lastAdvert = some t ∨ contact.lastmod = some t) ∧ t ≤ now})
      (reportedLastHeard contact now) := by
  have same : insert 0 {t | (contact.lastAdvert = some t ∨ contact.lastmod = some t) ∧ t ≤ now} =
      insert 0 {t | t ∈ [contact.lastAdvert, contact.lastmod].reduceOption.filter
        fun t => t ≠ 0 && t ≤ now} := by
    apply Set.ext
    intro t
    by_cases zero : t = 0
    · simp [zero]
    · simp [zero, List.reduceOption_mem_iff, @eq_comm _ (some t)]
  rw [same]
  exact Extremes.isGreatest_foldr_max _ 0

structure Contacts where
  rows : List ContactRow
  key_unique : Unique (fun r => some r.publicKey) rows

def Contacts.empty : Contacts := ⟨[], unique_nil _⟩

variable (t : Contacts)

/-- The DO UPDATE of `upsert`. -/
def ContactRow.doUpdate (row excluded : ContactRow) : ContactRow :=
  { row with
    advName := excluded.advName, type := excluded.type, flags := excluded.flags
    outPath := excluded.outPath, outPathLen := excluded.outPathLen
    advLat := excluded.advLat, advLon := excluded.advLon
    lastAdvert := excluded.lastAdvert, lastmod := excluded.lastmod
    lastSeen := max row.lastSeen excluded.lastSeen
    onDevice := excluded.onDevice, rawJson := excluded.rawJson }

/-- The VALUES of `upsert`. -/
def Contact.row (contact : Contact) (onDevice heard : Bool) (now : ℕ) : ContactRow where
  toContact := contact
  firstSeen := now
  lastSeen := if heard then now else reportedLastHeard contact now
  onDevice := onDevice

def Contacts.upsert (contact : Contact) (onDevice heard : Bool) (now : ℕ) : Contacts where
  rows := Grouping.upsert (fun r => r.publicKey) ContactRow.doUpdate t.rows
    (contact.row onDevice heard now)
  key_unique := by
    refine unique_upsert t.key_unique ?_ _
    exact fun _ _ => rfl

def Contacts.touch (publicKey : String) (now : ℕ) : Contacts where
  rows := updateWhere (·.publicKey = publicKey) (fun r => { r with lastSeen := now }) t.rows
  key_unique := t.key_unique.updateWhere fun _ _ h => h

def Contacts.markRemovedFromDevice (publicKey : String) : Contacts where
  rows := updateWhere (·.publicKey = publicKey) (fun r => { r with onDevice := false }) t.rows
  key_unique := t.key_unique.updateWhere fun _ _ h => h

def Contacts.deviceOnly : List ContactRow := t.rows.filter (·.onDevice)

def Contacts.Off (publicKey : String) : Prop :=
  ∀ r ∈ t.rows, r.publicKey = publicKey → r.onDevice = false

instance (publicKey : String) : Decidable (t.Off publicKey) :=
  inferInstanceAs (Decidable (∀ r ∈ t.rows, r.publicKey = publicKey → r.onDevice = false))

variable {t} {publicKey : String}

theorem off_deviceOnly : t.Off publicKey ↔ ∀ r ∈ t.deviceOnly, r.publicKey ≠ publicKey := by
  simp only [Contacts.Off, Contacts.deviceOnly, List.mem_filter]
  refine ⟨fun off r hr same => ?_, fun none r hr same => ?_⟩
  · exact absurd hr.2 (by simp [off r hr.1 same])
  · by_contra on
    exact none r ⟨hr, by simpa using on⟩ same

theorem off_upsert {contact : Contact} {onDevice heard : Bool} {now : ℕ} :
    (t.upsert contact onDevice heard now).Off publicKey ↔
      if contact.publicKey = publicKey then onDevice = false else t.Off publicKey := by
  simp only [Contacts.Off, Contacts.upsert, mem_upsert]
  split
  · rename_i same
    subst same
    refine ⟨fun off => ?_, ?_⟩
    · by_cases known : ∃ x ∈ t.rows, x.publicKey = contact.publicKey
      · obtain ⟨x, hx, key⟩ := known
        exact off _ (Or.inr (Or.inl ⟨x, hx, key, rfl⟩)) key
      · refine off _ (Or.inr (Or.inr ⟨fun x hx key => known ⟨x, hx, key⟩, rfl⟩)) rfl
    · rintro off r (⟨-, other⟩ | ⟨x, -, -, rfl⟩ | ⟨-, rfl⟩) key
      · exact absurd key other
      · exact off
      · exact off
  · rename_i other
    refine ⟨fun off r hr key => ?_, ?_⟩
    · exact off r (Or.inl ⟨hr, fun same => other (same.symm.trans key)⟩) key
    · rintro off r (⟨hr, -⟩ | ⟨x, -, same, rfl⟩ | ⟨-, rfl⟩) key
      · exact off r hr key
      · exact absurd (same.symm.trans key) other
      · exact absurd key other

theorem off_touch {key : String} {now : ℕ} : (t.touch key now).Off publicKey ↔ t.Off publicKey := by
  simp only [Contacts.Off, Contacts.touch, mem_updateWhere, decide_eq_false_iff_not,
    decide_eq_true_eq]
  refine ⟨fun off r hr same => ?_, ?_⟩
  · by_cases touched : r.publicKey = key
    · exact off { r with lastSeen := now } (Or.inr ⟨r, hr, touched, rfl⟩) same
    · exact off r (Or.inl ⟨hr, touched⟩) same
  · rintro off r (⟨hr, -⟩ | ⟨x, hx, -, rfl⟩) same
    · exact off r hr same
    · exact off x hx same

theorem off_markRemoved {key : String} :
    (t.markRemovedFromDevice key).Off publicKey ↔ publicKey = key ∨ t.Off publicKey := by
  simp only [Contacts.Off, Contacts.markRemovedFromDevice, mem_updateWhere,
    decide_eq_false_iff_not, decide_eq_true_eq]
  refine ⟨fun off => or_iff_not_imp_left.mpr fun other r hr same => ?_, ?_⟩
  · exact off r (Or.inl ⟨hr, fun hit => other (same.symm.trans hit)⟩) same
  · rintro off r (⟨hr, other⟩ | ⟨x, -, -, rfl⟩) same
    · rcases off with rfl | off
      · exact absurd same other
      · exact off r hr same
    · rfl

end MeshwardenDaemon.ContactTable
