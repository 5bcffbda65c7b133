import MeshwardenDaemon.Protocol
import Mathlib.Algebra.Order.Ring.Rat
import Mathlib.Tactic.Linarith
import Mathlib.Data.List.AList

/-! The proxy's `ResponseCache`. Times are exact rationals. An entry carries one
field the source does not store, the number of the command slot in which its
frames were collected; no operation reads it. -/
namespace MeshwardenDaemon.ResponseCache
open Protocol

structure Entry where
  storedAt : ℚ
  frames : List Frame
  slot : ℕ
  deriving DecidableEq

structure Cache where
  ttl : ℚ
  entries : AList fun _ : Frame => Entry

def empty (ttl : ℚ) : Cache := ⟨ttl, ∅⟩

def Cache.get (c : Cache) (key : Frame) (now : ℚ) : Option (List Frame) × Cache :=
  match c.entries.lookup key with
  | none => (none, c)
  | some e =>
    if now - e.storedAt > c.ttl then (none, { c with entries := c.entries.erase key })
    else (some e.frames, c)

def Cache.set (c : Cache) (key : Frame) (frames : List Frame) (now : ℚ) (slot : ℕ) : Cache :=
  if c.ttl > 0 then { c with entries := c.entries.insert key ⟨now, frames, slot⟩ } else c

def Cache.clear (c : Cache) : Cache := { c with entries := ∅ }

/-- The entry a `get` at time `now` would answer from. -/
def Cache.Live (c : Cache) (key : Frame) (now : ℚ) (e : Entry) : Prop :=
  c.entries.lookup key = some e ∧ now - e.storedAt ≤ c.ttl

def Cache.Expired (c : Cache) (now : ℚ) : Prop :=
  ∀ p ∈ c.entries.entries, c.ttl < now - p.2.storedAt

instance (c : Cache) (now : ℚ) : Decidable (c.Expired now) :=
  inferInstanceAs (Decidable (∀ p ∈ c.entries.entries, _))

theorem get_eq_some_iff (c : Cache) (key : Frame) (now : ℚ) (frames : List Frame) :
    (c.get key now).1 = some frames ↔ ∃ e, c.Live key now e ∧ e.frames = frames := by
  unfold Cache.get Cache.Live
  cases hk : c.entries.lookup key with
  | none => simp
  | some e =>
    simp only [Option.some.injEq, exists_eq_left', and_assoc]
    by_cases old : now - e.storedAt > c.ttl
    · rw [if_pos old]
      have dead : ¬ now - e.storedAt ≤ c.ttl := not_le.mpr old
      simp only [reduceCtorEq, dead, false_and]
    · rw [if_neg old]
      simp only [Option.some.injEq, not_lt.mp old, true_and]

theorem get_lookup {c : Cache} {key k : Frame} {now : ℚ} {e : Entry}
    (h : (c.get key now).2.entries.lookup k = some e) : c.entries.lookup k = some e := by
  unfold Cache.get at h
  split at h
  · exact h
  · split at h
    · rcases eq_or_ne k key with rfl | hne
      · simp at h
      · rwa [AList.lookup_erase_ne hne] at h
    · exact h

@[simp] theorem get_ttl (c : Cache) (key : Frame) (now : ℚ) :
    (c.get key now).2.ttl = c.ttl := by
  unfold Cache.get
  split
  · rfl
  · split <;> rfl

@[simp] theorem set_ttl (c : Cache) (key : Frame) (frames : List Frame) (now : ℚ) (slot : ℕ) :
    (c.set key frames now slot).ttl = c.ttl := by
  unfold Cache.set
  split <;> rfl

@[simp] theorem clear_lookup (c : Cache) (k : Frame) : c.clear.entries.lookup k = none := rfl

theorem set_lookup {c : Cache} {key k : Frame} {frames : List Frame} {now : ℚ} {slot : ℕ}
    {e : Entry} (h : (c.set key frames now slot).entries.lookup k = some e) :
    c.entries.lookup k = some e ∨ (k = key ∧ e = ⟨now, frames, slot⟩) := by
  unfold Cache.set at h
  split at h
  · rcases eq_or_ne k key with rfl | hne
    · exact Or.inr ⟨rfl, by simpa using h.symm⟩
    · exact Or.inl (by rwa [AList.lookup_insert_ne hne] at h)
  · exact Or.inl h

theorem expired_not_live {c : Cache} {now : ℚ} (h : c.Expired now) (key : Frame) (e : Entry) :
    ¬ c.Live key now e := by
  rintro ⟨hk, live⟩
  have := h ⟨key, e⟩ (AList.mem_lookup_iff.mp hk)
  exact absurd live (not_le.mpr this)

/-- An entry that is live later was live before: the clock never goes back. -/
theorem live_mono {c : Cache} {key : Frame} {now later : ℚ} {e : Entry}
    (hle : now ≤ later) (h : c.Live key later e) : c.Live key now e :=
  ⟨h.1, by linarith [h.2]⟩

theorem lookup_none_iff (c : Cache) :
    (∀ k, c.entries.lookup k = none) ↔ c.entries.entries = [] := by
  refine ⟨?_, ?_⟩
  · intro h
    rw [List.eq_nil_iff_forall_not_mem]
    rintro ⟨k, e⟩ hmem
    have found : c.entries.lookup k = some e := AList.mem_lookup_iff.mpr hmem
    simp [h k] at found
  · intro h k
    rw [AList.lookup, h]
    rfl

end MeshwardenDaemon.ResponseCache
