import MeshwardenDaemon.ResponseCache
import MeshwardenDaemon.Library.Runs

/-! The calls of a `ResponseCache` one after the other, under a clock that does not go back.
A `get` also deletes an entry that has outlived the TTL; as the clock goes on, nobody can tell
the cache from one that never forgets but by `set` and `clear`. -/
namespace MeshwardenDaemon.CacheHistory
open Protocol ResponseCache Library

inductive Op
  | get (key : Frame) (now : ℚ)
  | set (key : Frame) (frames : List Frame) (now : ℚ) (slot : ℕ)
  | clear
  deriving DecidableEq

def Op.apply (c : Cache) : Op → Cache
  | .get key now => (c.get key now).2
  | .set key frames now slot => c.set key frames now slot
  | .clear => c.clear

/-- The time a call reads; `clear` reads none. -/
def Op.time? : Op → Option ℚ
  | .get _ now => some now
  | .set _ _ now _ => some now
  | .clear => none

structure State where
  cache : Cache
  /-- The time that was read last. -/
  clock : ℚ

def step (s : State) (op : Op) : Option State :=
  if s.clock ≤ op.time?.getD s.clock then some ⟨op.apply s.cache, op.time?.getD s.clock⟩ else none

def Op.overwrites (key : Frame) : Op → Bool
  | .get _ _ => false
  | .set k _ _ _ => k = key
  | .clear => true

/-- What was set last for a key, and when, since the last `clear`. -/
def Latest (ops : List Op) (key : Frame) (storedAt : ℚ) (frames : List Frame) : Prop :=
  ∃ before slot after, ops = before ++ .set key frames storedAt slot :: after ∧
    ∀ op ∈ after, op.overwrites key = false

section history
variable {ops : List Op} {op : Op} {key : Frame} {storedAt now : ℚ} {frames : List Frame}
  {slot : ℕ} {s t : State}

theorem latest_set : Latest (ops ++ [.set key frames now slot]) key now frames :=
  ⟨ops, slot, [], rfl, by simp⟩

theorem Latest.append (h : Latest ops key storedAt frames) (silent : op.overwrites key = false) :
    Latest (ops ++ [op]) key storedAt frames := by
  obtain ⟨before, slot, after, rfl, quiet⟩ := h
  refine ⟨before, slot, after ++ [op], by simp, ?_⟩
  simpa [or_imp, forall_and] using ⟨quiet, silent⟩

theorem latest_concat (h : Latest (ops ++ [op]) key storedAt frames) :
    (∃ slot, op = .set key frames storedAt slot) ∨
      op.overwrites key = false ∧ Latest ops key storedAt frames := by
  obtain ⟨before, slot, after, split, quiet⟩ := h
  rcases List.eq_nil_or_concat after with rfl | ⟨after, last, rfl⟩
  · obtain ⟨-, same⟩ := List.append_inj' split rfl
    exact Or.inl ⟨slot, List.singleton_inj.mp same⟩
  · rw [List.concat_eq_append, ← List.cons_append, ← List.append_assoc] at split
    obtain ⟨rfl, same⟩ := List.append_inj' split rfl
    obtain rfl := List.singleton_inj.mp same
    refine Or.inr ⟨quiet _ (by simp), before, slot, after, rfl, fun x hx => quiet x (by simp [hx])⟩

structure Remembers (ttl : ℚ) (ops : List Op) (s : State) : Prop where
  period : s.cache.ttl = ttl
  kept : ∀ key e, s.cache.entries.lookup key = some e →
    0 < ttl ∧ Latest ops key e.storedAt e.frames
  /-- What is no longer there has outlived the TTL. -/
  forgotten : ∀ key storedAt frames, Latest ops key storedAt frames → 0 < ttl →
    ttl < s.clock - storedAt ∨
      ∃ e, s.cache.entries.lookup key = some e ∧ e.storedAt = storedAt ∧ e.frames = frames

theorem init_remembers (ttl : ℚ) : Remembers ttl [] ⟨empty ttl, 0⟩ := by
  refine ⟨rfl, fun key e he => ?_, ?_⟩
  · simp [empty] at he
  · rintro key storedAt frames ⟨before, slot, after, split, -⟩
    simp at split

theorem get_lookup_other {c : Cache} {k : Frame} (other : k ≠ key) :
    (c.get key now).2.entries.lookup k = c.entries.lookup k := by
  unfold Cache.get
  split
  · rfl
  · split
    · exact AList.lookup_erase_ne other
    · rfl

theorem get_lookup_live {c : Cache} {e : Entry} (found : c.entries.lookup key = some e)
    (live : ¬ c.ttl < now - e.storedAt) : (c.get key now).2 = c := by
  unfold Cache.get
  rw [found]
  exact congrArg Prod.snd (if_neg live)

theorem Remembers.step {ttl : ℚ} (h : Remembers ttl ops s)
    (hs : CacheHistory.step s op = some t) : Remembers ttl (ops ++ [op]) t := by
  simp only [CacheHistory.step, Option.ite_none_right_eq_some, Option.some.injEq] at hs
  obtain ⟨later, rfl⟩ := hs
  cases op with
  | get key now =>
    refine ⟨(get_ttl _ _ _).trans h.period, fun k e he => ?_,
      fun k storedAt frames latest pos => ?_⟩
    · obtain ⟨pos, latest⟩ := h.kept k e (get_lookup he)
      exact ⟨pos, latest.append rfl⟩
    · simp only [Op.time?, Option.getD_some] at later ⊢
      obtain ⟨-, latest⟩ := (latest_concat latest).resolve_left (by simp)
      rcases h.forgotten k storedAt frames latest pos with old | ⟨e, found, rfl, rfl⟩
      · exact Or.inl (by linarith)
      · by_cases own : k = key
        · subst own
          by_cases dead : s.cache.ttl < now - e.storedAt
          · exact Or.inl (h.period ▸ dead)
          · refine Or.inr ⟨e, ?_, rfl, rfl⟩
            simp only [Op.apply]
            rw [get_lookup_live found dead, found]
        · exact Or.inr ⟨e, (get_lookup_other own).trans found, rfl, rfl⟩
  | set key frames now slot =>
    refine ⟨(set_ttl _ _ _ _ _).trans h.period, fun k e he => ?_,
      fun k storedAt fs latest pos => ?_⟩
    · by_cases pos : s.cache.ttl > 0
      · have inserted : (s.cache.set key frames now slot).entries =
            s.cache.entries.insert key ⟨now, frames, slot⟩ := by
          simp [Cache.set, pos]
        refine ⟨h.period ▸ pos, ?_⟩
        simp only [Op.apply] at he
        rw [inserted] at he
        by_cases own : k = key
        · subst own
          rw [AList.lookup_insert, Option.some.injEq] at he
          subst he
          exact latest_set
        · rw [AList.lookup_insert_ne own] at he
          exact (h.kept k e he).2.append (by simpa [Op.overwrites] using Ne.symm own)
      · have same : s.cache.set key frames now slot = s.cache := if_neg pos
        simp only [Op.apply] at he
        rw [same] at he
        exact absurd (h.kept k e he).1 (h.period ▸ pos)
    · have inserted : (s.cache.set key frames now slot).entries =
          s.cache.entries.insert key ⟨now, frames, slot⟩ := by
        simp [Cache.set, h.period, pos]
      simp only [Op.apply, Op.time?, Option.getD_some, inserted] at later ⊢
      rcases latest_concat latest with ⟨slot', same⟩ | ⟨silent, latest⟩
      · simp only [Op.set.injEq] at same
        obtain ⟨rfl, rfl, rfl, rfl⟩ := same
        exact Or.inr ⟨⟨now, frames, slot⟩, AList.lookup_insert _, rfl, rfl⟩
      · have other : k ≠ key := by
          simp only [Op.overwrites, decide_eq_false_iff_not] at silent
          exact Ne.symm silent
        rcases h.forgotten k storedAt fs latest pos with old | ⟨e, found, rfl, rfl⟩
        · exact Or.inl (by linarith)
        · exact Or.inr ⟨e, (AList.lookup_insert_ne other).trans found, rfl, rfl⟩
  | clear =>
    refine ⟨h.period, fun k e he => ?_, fun k storedAt frames latest _ => ?_⟩
    · simp [Op.apply] at he
    · rcases latest_concat latest with ⟨slot, same⟩ | ⟨silent, -⟩
      · cases same
      · cases silent

/-- A `get` answers with what was set last for its key since the last `clear`, if that is not
older than the TTL, and with nothing else. -/
theorem Remembers.get_iff {ttl : ℚ} (h : Remembers ttl ops s) (later : s.clock ≤ now) :
    (s.cache.get key now).1 = some frames ↔
      0 < ttl ∧ ∃ storedAt, Latest ops key storedAt frames ∧ now - storedAt ≤ ttl := by
  rw [get_eq_some_iff]
  refine ⟨?_, ?_⟩
  · rintro ⟨e, ⟨found, live⟩, rfl⟩
    obtain ⟨pos, latest⟩ := h.kept key e found
    exact ⟨pos, e.storedAt, latest, h.period ▸ live⟩
  · rintro ⟨pos, storedAt, latest, young⟩
    rcases h.forgotten key storedAt frames latest pos with old | ⟨e, found, rfl, rfl⟩
    · exact absurd young (by linarith)
    · exact ⟨e, ⟨found, h.period.symm ▸ young⟩, rfl⟩

end history

end MeshwardenDaemon.CacheHistory
