import MeshwardenDaemon.ContactTable
import MeshwardenDaemon.Migration
import Mathlib.Data.Rat.Defs

/-! The v3 migration in SQL against `reported_last_heard`, which the sources ask to keep in
sync. In SQL a comparison with NULL is NULL, CASE takes the ELSE unless the condition is
true, and MAX of two arguments is NULL as soon as one of them is. -/
namespace MeshwardenDaemon.LastSeenRepair
open Library Migration ContactTable

/-- The rows of the file; those of the other tables may be of any kind. -/
structure Rows (τ : Type*) where
  contacts : List ContactRow
  others : τ
  deriving DecidableEq

def sqlLe (a b : Option ℕ) : Option Bool := a.bind fun x => b.map fun y => decide (x ≤ y)

def caseWhen (condition : Option Bool) (a b : Option ℕ) : Option ℕ :=
  if condition = some true then a else b

def sqlMax (a b : Option ℕ) : Option ℕ := a.bind fun x => b.map fun y => max x y

/-- What v3 sets `last_seen` to. -/
def repaired (r : ContactRow) (now : ℕ) : Option ℕ :=
  sqlMax (caseWhen (sqlLe r.lastAdvert (some now)) r.lastAdvert (some 0))
    (caseWhen (sqlLe r.lastmod (some now)) r.lastmod (some 0))

/-- The UPDATE of v3; it fails where it would set the NOT NULL column to NULL. -/
def updateLastSeen (now : ℕ) (contacts : List ContactRow) : Option (List ContactRow) :=
  contacts.mapM fun r => (repaired r now).map fun lastSeen =>
    { r with lastSeen := lastSeen }

variable {τ : Type*}

def repairScript (now : ℕ) : Script (Rows τ) := fun c =>
  (updateLastSeen now c.rows.contacts).map fun contacts =>
    { c with rows := { c.rows with contacts := contacts } }

def scripts (now : ℕ) : List (Script (Rows τ)) := (migrations id).take 1 ++ [repairScript now]

def Rows.reported (now : ℕ) (rows : Rows τ) : Rows τ :=
  { rows with contacts := rows.contacts.map fun r =>
      { r with lastSeen := reportedLastHeard r.toContact now } }

theorem caseWhen_sqlLe (a : Option ℕ) (now : ℕ) :
    ∃ t, caseWhen (sqlLe a (some now)) a (some 0) = some t ∧
      IsGreatest (insert 0 {t | a = some t ∧ t ≤ now}) t := by
  cases a with
  | none => exact ⟨0, rfl, by simp⟩
  | some x =>
    by_cases past : x ≤ now
    · refine ⟨x, by simp [caseWhen, sqlLe, past], Or.inr ⟨rfl, past⟩, ?_⟩
      rintro t (rfl | ⟨same, -⟩)
      · exact Nat.zero_le _
      · exact (Option.some.inj same).ge
    · refine ⟨0, by simp [caseWhen, sqlLe, past], Or.inl rfl, ?_⟩
      rintro t (rfl | ⟨same, later⟩)
      · exact le_rfl
      · exact absurd (Option.some.inj same ▸ later) past

/-- The two languages agree. -/
theorem repaired_eq (r : ContactRow) (now : ℕ) :
    repaired r now = some (reportedLastHeard r.toContact now) := by
  obtain ⟨advert, advert_eq, advert_greatest⟩ := caseWhen_sqlLe r.lastAdvert now
  obtain ⟨lastmod, lastmod_eq, lastmod_greatest⟩ := caseWhen_sqlLe r.lastmod now
  rw [repaired, advert_eq, lastmod_eq]
  refine congrArg some (IsGreatest.unique ?_ (isGreatest_reported r.toContact now))
  have both := advert_greatest.union lastmod_greatest
  rw [← Set.insert_union_distrib] at both
  have same : {t | (r.lastAdvert = some t ∨ r.lastmod = some t) ∧ t ≤ now} =
      {t | r.lastAdvert = some t ∧ t ≤ now} ∪ {t | r.lastmod = some t ∧ t ≤ now} := by
    apply Set.ext
    intro t
    exact or_and_right
  rw [same]
  exact both

theorem updateLastSeen_eq (now : ℕ) (rows : Rows τ) :
    updateLastSeen now rows.contacts = some (rows.reported now).contacts := by
  simp only [updateLastSeen, repaired_eq, Option.map_some, Rows.reported]
  exact List.mapM_pure

theorem repairScript_eq (now : ℕ) (c : Content (Rows τ)) :
    repairScript now c = some { c with rows := c.rows.reported now } := by
  rw [repairScript, updateLastSeen_eq]
  rfl

theorem scripts_eq (now : ℕ) : scripts (τ := τ) now = migrations (Rows.reported now) := by
  have repair : repairScript (τ := τ) now = fun c => some { c with rows := c.rows.reported now } :=
    funext (repairScript_eq now)
  rw [scripts, repair]
  rfl

/-- An open of a version 2 file that completes has run v3 once, on the rows it found. -/
theorem opened_reported {now : ℕ} {rows : Rows τ} {db : Database (Rows τ)} {acts : List Action}
    {s : State (Rows τ)} (version : db.version = 2) (migrated : Migrated (scripts now) rows db)
    (hrun : Runs.run (step (scripts now)) ⟨db, none⟩ acts = some s)
    (opened : s.session = some .opened) :
    s.db.version = 3 ∧ s.db.content = { db.content with rows := db.content.rows.reported now } := by
  have keeps : KeepsSchema (scripts now) rows := by
    rw [scripts_eq]
    exact migrations_keepSchema _ _
  have start : Sound (scripts now) rows ⟨db, none⟩ :=
    ⟨migrated, by rw [version]; decide, by rw [version]; exact Nat.le_succ 2, trivial⟩
  have sound := Runs.reachable (fun _ _ _ h hs => Sound.step keeps h hs) start hrun
  have full : s.db.version = 3 := by
    have fits := sound.fits
    rwa [opened] at fits
  have before : upTo (scripts now) rows 1 = some db.content := by
    rw [Migrated, version] at migrated
    exact migrated
  have after : upTo (scripts now) rows 2 = some s.db.content := by
    have migrated := sound.migrated
    rw [Migrated, full] at migrated
    exact migrated
  have last : upTo (scripts now) rows 2 = repairScript now db.content := upTo_succ before rfl
  rw [after, repairScript_eq, Option.some.injEq] at last
  exact ⟨full, last⟩

/-- Migrating to version 3 gives each contact the `last_seen` that `reported_last_heard`
gives it at that time, which a first upsert that is not heard would store too, and changes
nothing else. -/
theorem repair_is_reported_last_heard (now : ℕ) :
    (∀ c : Content (Rows τ), repairScript now c = some { c with rows := c.rows.reported now }) ∧
    (∀ (rows : Rows τ) (db : Database (Rows τ)) (acts : List Action) (s : State (Rows τ)),
      db.version = 2 → Migrated (scripts now) rows db →
      Runs.run (step (scripts now)) ⟨db, none⟩ acts = some s → s.session = some .opened →
      s.db.version = 3 ∧
        s.db.content = { db.content with rows := db.content.rows.reported now }) ∧
    ∀ (t : Contacts) (contact : Contact) (onDevice : Bool),
      (∀ r ∈ t.rows, r.publicKey ≠ contact.publicKey) →
      (t.upsert contact onDevice false now).rows.filter (·.publicKey = contact.publicKey) =
        [⟨contact, now, reportedLastHeard contact now, onDevice⟩] := by
  refine ⟨repairScript_eq now, fun _ _ _ _ => opened_reported, fun t contact onDevice new => ?_⟩
  have absent : t.rows.any (fun r => r.publicKey = contact.publicKey) = false := by
    simpa using new
  have old : t.rows.filter (·.publicKey = contact.publicKey) = [] := by
    simpa [List.filter_eq_nil_iff] using new
  have rows : (t.upsert contact onDevice false now).rows =
      t.rows ++ [⟨contact, now, reportedLastHeard contact now, onDevice⟩] :=
    if_neg (by rw [Bool.not_eq_true]; exact absent)
  rw [rows, List.filter_append, old]
  simp

def synced : ContactRow :=
  { publicKey := "ab", advName := some "x", type := some 1, lastAdvert := some 900
    lastmod := some 7, firstSeen := 50, lastSeen := 50, onDevice := true }

def version2 : Database (Rows Unit) where
  content := ((upTo (scripts 60) ⟨[synced], ()⟩ 1).getD ⟨[], ⟨[], ()⟩⟩)
  schemaVersion := some 2

theorem repair_is_reported_last_heard_synced :
    ∃ s, Runs.run (step (scripts 60)) ⟨version2, none⟩ (.open :: List.replicate 14 .statement) =
        some s ∧ s.db.content.rows.contacts.map (fun r => r.lastSeen) = [7] ∧
      ((Contacts.empty.upsert synced.toContact true false 60).rows.filter
        (·.publicKey = "ab")).map (fun r => r.lastSeen) = [7] := by
  obtain ⟨s, hs, at_end⟩ : ∃ s, Runs.run (step (scripts 60)) ⟨version2, none⟩
      (.open :: List.replicate 14 .statement) = some s ∧ s.session = some .opened :=
    ⟨_, rfl, rfl⟩
  have synced_reported : reportedLastHeard synced.toContact 60 = 7 := by decide
  have agree := repair_is_reported_last_heard (τ := Unit) 60
  refine ⟨s, hs, ?_, ?_⟩
  · have made := (agree.2.1 ⟨[synced], ()⟩ version2 _ s rfl rfl hs at_end).2
    have found : version2.content.rows = ⟨[synced], ()⟩ := rfl
    rw [made, found]
    simp [Rows.reported, synced_reported]
  · have inserted := agree.2.2 .empty synced.toContact true (by simp [Contacts.empty])
    rw [show synced.toContact.publicKey = "ab" from rfl] at inserted
    rw [inserted, synced_reported]
    rfl

end MeshwardenDaemon.LastSeenRepair
