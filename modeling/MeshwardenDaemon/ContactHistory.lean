import MeshwardenDaemon.ContactTable
import MeshwardenDaemon.Library.Runs
import Mathlib.Order.Bounds.Basic

/-! The writing calls of `ContactStore` one after the other, and what they say of the time
a contact was last there. `touch` overwrites `last_seen` and `upsert` raises it; the clock
does not go back. -/
namespace MeshwardenDaemon.ContactHistory
open Library KeyedTable Grouping ContactTable

inductive Call
  | upsert (contact : Contact) (onDevice heard : Bool)
  | touch (publicKey : String)
  | markRemovedFromDevice (publicKey : String)
  deriving DecidableEq

def Call.run (now : ℕ) (t : Contacts) : Call → Contacts
  | .upsert contact onDevice heard => t.upsert contact onDevice heard now
  | .touch publicKey => t.touch publicKey now
  | .markRemovedFromDevice publicKey => t.markRemovedFromDevice publicKey

def Call.upserts (publicKey : String) : Call → Bool
  | .upsert contact _ _ => contact.publicKey = publicKey
  | _ => false

structure Action where
  call : Call
  now : ℕ
  deriving DecidableEq

structure State where
  contacts : Contacts
  /-- The time of the latest call. -/
  clock : ℕ

def init : State := ⟨.empty, 0⟩

def step (s : State) (a : Action) : Option State :=
  if s.clock ≤ a.now then some ⟨a.call.run a.now s.contacts, a.now⟩ else none

/-- The call credibly says that the contact was there at the time `t`: it observes the
contact now, or passes on a time of the node that is not in the future. `stored` tells
whether the contact had a row before the call. -/
def Action.Observes (a : Action) (publicKey : String) (stored : Bool) (t : ℕ) : Prop :=
  match a.call with
  | .upsert contact _ heard => contact.publicKey = publicKey ∧ (heard = true ∧ t = a.now ∨
      (contact.lastAdvert = some t ∨ contact.lastmod = some t) ∧ t ≤ a.now)
  | .touch key => key = publicKey ∧ stored = true ∧ t = a.now
  | .markRemovedFromDevice _ => False

def known (publicKey : String) (acts : List Action) : Bool :=
  acts.any fun a => a.call.upserts publicKey

/-- All credible observations of a contact in a history. -/
def observations (publicKey : String) (acts : List Action) : Set ℕ :=
  {t | ∃ before a after, acts = before ++ a :: after ∧
    a.Observes publicKey (known publicKey before) t}

def firstUpsert (publicKey : String) (acts : List Action) : Option ℕ :=
  (acts.find? fun a => a.call.upserts publicKey).map Action.now

section observations
variable {publicKey : String} {acts : List Action} {a : Action} {stored : Bool} {t : ℕ}

theorem observations_concat : observations publicKey (acts ++ [a]) =
    observations publicKey acts ∪ {t | a.Observes publicKey (known publicKey acts) t} := by
  apply Set.ext
  intro t
  refine ⟨?_, ?_⟩
  · rintro ⟨before, x, after, split, seen⟩
    rcases List.eq_nil_or_concat after with rfl | ⟨after, y, rfl⟩
    · obtain ⟨rfl, last⟩ := List.append_inj' split rfl
      obtain rfl := List.singleton_inj.mp last
      exact Or.inr seen
    · rw [List.concat_eq_append, ← List.cons_append, ← List.append_assoc] at split
      exact Or.inl ⟨before, x, after, (List.append_inj' split rfl).1, seen⟩
  · rintro (⟨before, x, after, rfl, seen⟩ | seen)
    · exact ⟨before, x, after ++ [a], by simp, seen⟩
    · exact ⟨acts, a, [], rfl, seen⟩

theorem observations_mono (more : List Action) :
    observations publicKey acts ⊆ observations publicKey (acts ++ more) := by
  rintro t ⟨before, a, after, rfl, seen⟩
  exact ⟨before, a, after ++ more, by simp, seen⟩

theorem firstUpsert_append {more : List Action} {first : ℕ}
    (h : firstUpsert publicKey acts = some first) :
    firstUpsert publicKey (acts ++ more) = some first := by
  obtain ⟨a, found, now⟩ := Option.map_eq_some_iff.mp h
  rw [firstUpsert, List.find?_append, found]
  exact congrArg some now

theorem Action.Observes.upserts (h : a.Observes publicKey false t) :
    a.call.upserts publicKey = true := by
  unfold Action.Observes at h
  split at h
  · rename_i call
    rw [call]
    exact decide_eq_true h.1
  · cases h.2.1
  · cases h

theorem Action.Observes.le_now (h : a.Observes publicKey stored t) : t ≤ a.now := by
  unfold Action.Observes at h
  split at h
  · rcases h.2 with ⟨-, rfl⟩ | ⟨-, past⟩
    · exact le_rfl
    · exact past
  · exact h.2.2.le
  · cases h

theorem observations_unknown (h : known publicKey acts = false) :
    observations publicKey acts = ∅ := by
  refine Set.eq_empty_of_forall_notMem ?_
  rintro t ⟨before, a, after, rfl, seen⟩
  simp only [known, List.any_append, List.any_cons, Bool.or_eq_false_iff] at h
  rw [show known publicKey before = false from h.1] at seen
  exact absurd seen.upserts (by simp [h.2.1])

theorem known_concat :
    known publicKey (acts ++ [a]) = (known publicKey acts || a.call.upserts publicKey) := by
  simp [known]

theorem firstUpsert_unknown (h : known publicKey acts = false) :
    firstUpsert publicKey acts = none := by
  rw [firstUpsert, Option.map_eq_none_iff, List.find?_eq_none]
  simpa [known] using h

theorem firstUpsert_concat : firstUpsert publicKey (acts ++ [a]) =
    (firstUpsert publicKey acts).or
      (if a.call.upserts publicKey then some a.now else none) := by
  simp only [firstUpsert, List.find?_append, List.find?_singleton]
  cases acts.find? fun a => a.call.upserts publicKey with
  | some first => rfl
  | none => split <;> rfl

theorem latest_le_now (h : IsGreatest (insert 0 {t | a.Observes publicKey stored t}) t) :
    t ≤ a.now := by
  rcases h.1 with rfl | seen
  · exact Nat.zero_le _
  · exact Action.Observes.le_now seen

theorem isGreatest_row (contact : Contact) (onDevice heard : Bool) (now : ℕ) (stored : Bool) :
    IsGreatest (insert 0 {t | Action.Observes ⟨.upsert contact onDevice heard, now⟩
        contact.publicKey stored t}) (contact.row onDevice heard now).lastSeen := by
  cases heard with
  | true =>
    refine ⟨Or.inr ⟨rfl, Or.inl ⟨rfl, rfl⟩⟩, ?_⟩
    rintro t (rfl | ⟨-, ⟨-, rfl⟩ | ⟨-, past⟩⟩)
    · exact Nat.zero_le _
    · exact le_rfl
    · exact past
  | false =>
    have same : {t | Action.Observes ⟨.upsert contact onDevice false, now⟩
        contact.publicKey stored t} =
          {t | (contact.lastAdvert = some t ∨ contact.lastmod = some t) ∧ t ≤ now} := by
      simp [Action.Observes]
    rw [same]
    exact isGreatest_reported contact now

end observations

section rows
variable {t : Contacts} {a : Action} {r : ContactRow}

theorem known_run {publicKey : String} :
    (∃ r ∈ (a.call.run a.now t).rows, r.publicKey = publicKey) ↔
      (∃ r ∈ t.rows, r.publicKey = publicKey) ∨ a.call.upserts publicKey = true := by
  obtain ⟨call, now⟩ := a
  cases call with
  | upsert contact onDevice heard =>
    simp only [Call.run, Contacts.upsert, Call.upserts, decide_eq_true_eq]
    refine exists_key_upsert ?_
    exact fun _ _ => rfl
  | touch key =>
    simp only [Call.run, Contacts.touch, Call.upserts, ← List.mem_map]
    rw [map_updateWhere fun r : ContactRow => r.publicKey]
    · simp
    · exact fun _ => rfl
  | markRemovedFromDevice key =>
    simp only [Call.run, Contacts.markRemovedFromDevice, Call.upserts, ← List.mem_map]
    rw [map_updateWhere fun r : ContactRow => r.publicKey]
    · simp
    · exact fun _ => rfl

theorem isGreatest_none {publicKey : String} (h : ∀ t, ¬ a.Observes publicKey true t) :
    IsGreatest (insert 0 {t | a.Observes publicKey true t}) 0 := by
  refine ⟨Or.inl rfl, ?_⟩
  rintro t (rfl | seen)
  · exact le_rfl
  · exact absurd seen (h t)

theorem row_run (past : ∀ r ∈ t.rows, r.lastSeen ≤ a.now)
    (hr : r ∈ (a.call.run a.now t).rows) :
    (∃ x ∈ t.rows, x.publicKey = r.publicKey ∧ r.firstSeen = x.firstSeen ∧
      ∃ seen, IsGreatest (insert 0 {t | a.Observes r.publicKey true t}) seen ∧
        r.lastSeen = max x.lastSeen seen) ∨
    (∀ x ∈ t.rows, x.publicKey ≠ r.publicKey) ∧ a.call.upserts r.publicKey = true ∧
      r.firstSeen = a.now ∧
      IsGreatest (insert 0 {t | a.Observes r.publicKey false t}) r.lastSeen := by
  obtain ⟨call, now⟩ := a
  cases call with
  | upsert contact onDevice heard =>
    simp only [Call.run, Contacts.upsert, mem_upsert] at hr
    rcases hr with ⟨old, other⟩ | ⟨x, hx, same, rfl⟩ | ⟨new, rfl⟩
    · refine Or.inl ⟨r, old, rfl, rfl, 0, isGreatest_none ?_, (Nat.max_zero _).symm⟩
      rintro t ⟨own, -⟩
      exact other own.symm
    · have seen := isGreatest_row contact onDevice heard now true
      rw [← show x.publicKey = contact.publicKey from same] at seen
      exact Or.inl ⟨x, hx, rfl, rfl, _, seen, rfl⟩
    · exact Or.inr ⟨new, decide_eq_true rfl, rfl, isGreatest_row contact onDevice heard now false⟩
  | touch key =>
    simp only [Call.run, Contacts.touch, mem_updateWhere, decide_eq_false_iff_not,
      decide_eq_true_eq] at hr
    rcases hr with ⟨old, other⟩ | ⟨x, hx, same, rfl⟩
    · refine Or.inl ⟨r, old, rfl, rfl, 0, isGreatest_none ?_, (Nat.max_zero _).symm⟩
      rintro t ⟨own, -⟩
      exact other own.symm
    · refine Or.inl ⟨x, hx, rfl, rfl, now, ⟨Or.inr ⟨same.symm, rfl, rfl⟩, ?_⟩,
        (Nat.max_eq_right (past x hx)).symm⟩
      rintro t (rfl | ⟨-, -, rfl⟩)
      · exact Nat.zero_le _
      · exact le_rfl
  | markRemovedFromDevice key =>
    simp only [Call.run, Contacts.markRemovedFromDevice, mem_updateWhere] at hr
    rcases hr with ⟨old, -⟩ | ⟨x, hx, -, rfl⟩
    · exact Or.inl ⟨r, old, rfl, rfl, 0, isGreatest_none fun _ => id, (Nat.max_zero _).symm⟩
    · exact Or.inl ⟨x, hx, rfl, rfl, 0, isGreatest_none fun _ => id, (Nat.max_zero _).symm⟩

end rows

structure Recorded (acts : List Action) (s : State) : Prop where
  known : ∀ key, (∃ r ∈ s.contacts.rows, r.publicKey = key) ↔ known key acts = true
  past : ∀ r ∈ s.contacts.rows, r.lastSeen ≤ s.clock
  latest : ∀ r ∈ s.contacts.rows,
    IsGreatest (insert 0 (observations r.publicKey acts)) r.lastSeen
  first : ∀ r ∈ s.contacts.rows, firstUpsert r.publicKey acts = some r.firstSeen

section Recorded
variable {acts : List Action} {s t : State} {a : Action}

theorem init_recorded : Recorded [] init := by
  constructor <;> simp [init, Contacts.empty, ContactHistory.known]

theorem Recorded.unknown (h : Recorded acts s) {key : String}
    (new : ∀ x ∈ s.contacts.rows, x.publicKey ≠ key) : ContactHistory.known key acts = false := by
  rw [← Bool.not_eq_true, ← h.known]
  rintro ⟨x, hx, same⟩
  exact new x hx same

theorem Recorded.step (h : Recorded acts s) (hs : ContactHistory.step s a = some t) :
    Recorded (acts ++ [a]) t := by
  simp only [ContactHistory.step, Option.ite_none_right_eq_some, Option.some.injEq] at hs
  obtain ⟨later, rfl⟩ := hs
  have before : ∀ x ∈ s.contacts.rows, x.lastSeen ≤ a.now := fun x hx => (h.past x hx).trans later
  have rows := fun r (hr : r ∈ (a.call.run a.now s.contacts).rows) => row_run before hr
  constructor
  case known =>
    intro key
    rw [known_run, known_concat, h.known, Bool.or_eq_true]
  case past =>
    intro r hr
    rcases rows r hr with ⟨x, hx, -, -, seen, greatest, same⟩ | ⟨-, -, -, greatest⟩
    · rw [same]
      exact max_le (before x hx) (latest_le_now greatest)
    · exact latest_le_now greatest
  case latest =>
    intro r hr
    rw [observations_concat, Set.insert_union_distrib]
    rcases rows r hr with ⟨x, hx, key, -, seen, greatest, same⟩ | ⟨new, -, -, greatest⟩
    · rw [(h.known r.publicKey).mp ⟨x, hx, key⟩, same]
      have latest := h.latest x hx
      rw [key] at latest
      exact latest.union greatest
    · have unknown := h.unknown new
      rw [unknown, observations_unknown unknown]
      have nothing : IsGreatest (insert 0 (∅ : Set ℕ)) 0 := by simp
      simpa using nothing.union greatest
  case first =>
    intro r hr
    rw [firstUpsert_concat]
    rcases rows r hr with ⟨x, hx, key, first, -⟩ | ⟨new, upserts, first, -⟩
    · rw [← key, h.first x hx, first]
      rfl
    · have unknown := h.unknown new
      rw [firstUpsert_unknown unknown, if_pos upserts, first]
      rfl

end Recorded

/-- With a clock that does not go back, `last_seen` is the latest credible observation of
the contact, or 0: it is not in the future, it never decreases, and `first_seen` stays the
time of the first upsert. -/
theorem last_seen_is_latest (acts : List Action) (s : State)
    (hrun : Runs.run step init acts = some s) : ∀ r ∈ s.contacts.rows,
      IsGreatest (insert 0 (observations r.publicKey acts)) r.lastSeen ∧
      r.lastSeen ≤ s.clock ∧ firstUpsert r.publicKey acts = some r.firstSeen ∧
      ∀ more t, Runs.run step s more = some t → ∃ r' ∈ t.contacts.rows,
        r'.publicKey = r.publicKey ∧ r.lastSeen ≤ r'.lastSeen ∧ r'.firstSeen = r.firstSeen := by
  have recorded : ∀ acts s, Runs.run step init acts = some s → Recorded acts s := fun _ _ hr =>
    Runs.history (fun _ _ _ _ h hs => h.step hs) init_recorded hr
  have now := recorded acts s hrun
  intro r hr
  refine ⟨now.latest r hr, now.past r hr, now.first r hr, fun more t hmore => ?_⟩
  have later := recorded (acts ++ more) t (Runs.run_append.mpr ⟨s, hrun, hmore⟩)
  have kept : known r.publicKey (acts ++ more) = true := by
    rw [known, List.any_append, Bool.or_eq_true]
    exact Or.inl ((now.known r.publicKey).mp ⟨r, hr, rfl⟩)
  obtain ⟨r', hr', key⟩ := (later.known r.publicKey).mpr kept
  have latest := later.latest r' hr'
  have first := later.first r' hr'
  rw [key] at latest first
  refine ⟨r', hr', key, latest.2 ?_, ?_⟩
  · exact Set.insert_subset_insert (observations_mono more) (now.latest r hr).1
  · rw [firstUpsert_append (now.first r hr), Option.some.injEq] at first
    exact first.symm

def syncedAndHeard : List Action :=
  [⟨.touch "ab", 5⟩,
    ⟨.upsert { publicKey := "ab", lastAdvert := some 900, lastmod := some 7 } true false, 10⟩,
    ⟨.touch "ab", 20⟩, ⟨.upsert { publicKey := "ab", lastAdvert := some 12 } true false, 30⟩,
    ⟨.markRemovedFromDevice "ab", 40⟩]

theorem last_seen_is_latest_synced :
    ∃ s r, Runs.run step init syncedAndHeard = some s ∧ r ∈ s.contacts.rows ∧
      r.lastSeen = 20 ∧ IsGreatest (insert 0 (observations "ab" syncedAndHeard)) 20 := by
  have got : (Runs.run step init syncedAndHeard).map (fun s => s.contacts.rows) =
      some [⟨{ publicKey := "ab", lastAdvert := some 12 }, 10, 20, false⟩] := by
    decide +kernel
  obtain ⟨s, hs, rows⟩ := Option.map_eq_some_iff.mp got
  have hr : ⟨{ publicKey := "ab", lastAdvert := some 12 }, 10, 20, false⟩ ∈ s.contacts.rows := by
    rw [rows]
    exact List.mem_cons_self
  exact ⟨s, _, hs, hr, rfl, (last_seen_is_latest syncedAndHeard s hs _ hr).1⟩

end MeshwardenDaemon.ContactHistory
