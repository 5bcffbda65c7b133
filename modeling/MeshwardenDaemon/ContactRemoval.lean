import MeshwardenDaemon.ContactTable
import MeshwardenDaemon.Ping

/-! Removals of contacts from the node and `on_device` in the database. The recorder's
handlers are tasks of their own: each runs its statements one by one, on contacts that
were read earlier. -/
namespace MeshwardenDaemon.ContactRemoval
open Library ContactTable

structure Upserts where
  rest : List Contact
  heard : Bool
  deriving DecidableEq

structure State where
  /-- The keys of the contacts of the node, as the library writes them. -/
  node : List String
  contacts : Contacts
  /-- The contacts of a contact list that is being read. -/
  reading : List Contact
  upserts : List Upserts
  /-- The keys for which `mark_removed_from_device` has still to run. -/
  marks : List String
  /-- Ghost: the contacts removed and not added again. -/
  removed : List String

def init (node : List String) (contacts : Contacts) : State where
  node := node
  contacts := contacts
  reading := []
  upserts := []
  marks := []
  removed := []

def hexChar (digit : ℕ) : Char :=
  Char.ofNat (if digit < 10 then 48 + digit else 87 + digit)

/-- `bytes.hex`. -/
def hex (bytes : List UInt8) : String :=
  String.ofList (bytes.flatMap fun b => [hexChar (b.toNat / 16), hexChar (b.toNat % 16)])

inductive Action
  | add (publicKey : String)
  /-- The node streams a contact to whoever has asked for the list. -/
  | readContact (contact : Contact)
  /-- The list is complete, and `_on_contacts` starts. -/
  | onContacts
  | onNewContact (contact : Contact)
  | upsert (k now : ℕ)
  | onAdvert (publicKey : String) (now : ℕ)
  /-- The node accepts the command of a `RemoveContact`. -/
  | removeContact (publicKey : String)
  /-- The node removes the contact of a `RemoveContact` that ends without `result.ok`. -/
  | removeUnanswered (publicKey : String)
  /-- The node accepts a REMOVE_CONTACT frame of a client or of `SendRawCommand`. -/
  | rawCommand (publicKey : String)
  /-- The node evicts a contact, and CONTACT_DELETED is on its way. -/
  | evict (publicKey : String)
  | markRemoved (k : ℕ)
  deriving DecidableEq

def State.remove (s : State) (publicKey : String) : State :=
  { s with node := s.node.filter (· ≠ publicKey), removed := publicKey :: s.removed }

/-- `resolve` is the contact that a text given to the library's `remove_contact` names. -/
def step (resolve : String → Option String) (s : State) : Action → Option State
  | .add publicKey =>
    some { s with
      node := publicKey :: s.node, removed := s.removed.filter (· ≠ publicKey) }
  | .readContact contact =>
    if contact.publicKey ∈ s.node then some { s with reading := s.reading ++ [contact] }
    else none
  | .onContacts =>
    some { s with upserts := s.upserts ++ [⟨s.reading, false⟩], reading := [] }
  | .onNewContact contact =>
    if contact.publicKey = "" then none
    else some { s with upserts := s.upserts ++ [⟨[contact], true⟩] }
  | .upsert k now =>
    match s.upserts[k]? with
    | some ⟨contact :: rest, heard⟩ =>
      some { s with
        contacts := s.contacts.upsert contact true heard now
        upserts := s.upserts.set k ⟨rest, heard⟩ }
    | _ => none
  | .onAdvert publicKey now => some { s with contacts := s.contacts.touch publicKey now }
  | .removeContact publicKey =>
    match resolve publicKey with
    | some named =>
      if named ∈ s.node then
        -- the row is looked for under the text of the request
        some { s.remove named with marks := s.marks ++ [publicKey] }
      else none
    | none => none
  | .removeUnanswered publicKey =>
    match resolve publicKey with
    | some named => if named ∈ s.node then some (s.remove named) else none
    | none => none
  | .rawCommand publicKey =>
    if publicKey ∈ s.node then some (s.remove publicKey) else none
  | .evict publicKey =>
    -- `_on_contact_deleted` does nothing for an empty key, and no contact has one
    if publicKey ∈ s.node ∧ publicKey ≠ "" then
      some { s.remove publicKey with marks := s.marks ++ [publicKey] }
    else none
  | .markRemoved k =>
    match s.marks[k]? with
    | some publicKey =>
      some { s with
        contacts := s.contacts.markRemovedFromDevice publicKey
        marks := s.marks.eraseIdx k }
    | none => none

def State.Quiet (s : State) : Prop := (∀ u ∈ s.upserts, u.rest = []) ∧ s.marks = []

/-- `on_device` of every contact that was removed and not added again is 0. -/
def State.FollowsRemovals (s : State) : Prop := ∀ key ∈ s.removed, s.contacts.Off key

def State.Accounted (s : State) (publicKey : String) : Prop :=
  s.contacts.Off publicKey ∨ publicKey ∈ s.marks

instance (s : State) : Decidable s.FollowsRemovals :=
  inferInstanceAs (Decidable (∀ key ∈ s.removed, s.contacts.Off key))

instance (s : State) (publicKey : String) : Decidable (s.Accounted publicKey) :=
  inferInstanceAs (Decidable (_ ∨ _))

/-- A removal that marks no row, or another row, meets a contact that is accounted for
already; an upsert of a removed contact comes before a mark of it. -/
def Marks (resolve : String → Option String) (s : State) : Action → Prop
  | .removeContact publicKey =>
    ∀ named ∈ resolve publicKey, publicKey = named ∨ s.Accounted named
  | .removeUnanswered publicKey => ∀ named ∈ resolve publicKey, s.Accounted named
  | .rawCommand publicKey => s.Accounted publicKey
  | .upsert k _ => ∀ u ∈ s.upserts[k]?, ∀ contact ∈ u.rest.head?,
      contact.publicKey ∈ s.removed → contact.publicKey ∈ s.marks
  | _ => True

instance (resolve : String → Option String) (s : State) (a : Action) :
    Decidable (Marks resolve s a) := by
  unfold Marks
  induction a using Action.casesOn <;> infer_instance

def Tracked (s : State) : Prop := ∀ key ∈ s.removed, s.Accounted key

section Tracked
variable {resolve : String → Option String} {s t : State} {a : Action} {key : String}

theorem Tracked.remove (h : Tracked s) {marks : List String} (sub : s.marks ⊆ marks)
    (accounted : s.Accounted key ∨ key ∈ marks) :
    Tracked { s.remove key with marks := marks } := by
  intro k hk
  rcases List.mem_cons.mp hk with rfl | hk
  · exact accounted.elim (Or.imp_right fun coming => sub coming) Or.inr
  · exact (h k hk).imp_right fun coming => sub coming

theorem Tracked.step (h : Tracked s) (marks : Marks resolve s a)
    (hs : ContactRemoval.step resolve s a = some t) : Tracked t := by
  cases a with
  | add publicKey =>
    cases hs
    exact fun k hk => h k (List.mem_filter.mp hk).1
  | readContact contact =>
    simp only [ContactRemoval.step, Option.ite_none_right_eq_some, Option.some.injEq] at hs
    obtain ⟨-, rfl⟩ := hs
    exact h
  | onContacts =>
    cases hs
    exact h
  | onNewContact contact =>
    simp only [ContactRemoval.step, Option.ite_none_left_eq_some, Option.some.injEq] at hs
    obtain ⟨-, rfl⟩ := hs
    exact h
  | upsert k now =>
    simp only [ContactRemoval.step] at hs
    split at hs
    · rename_i contact rest heard at_k
      cases hs
      intro key hkey
      by_cases own : contact.publicKey = key
      · subst own
        exact Or.inr (marks _ at_k contact rfl hkey)
      · exact (h key hkey).imp_left fun off => off_upsert.mpr (by rwa [if_neg own])
    · cases hs
  | onAdvert publicKey now =>
    cases hs
    exact fun key hkey => (h key hkey).imp_left off_touch.mpr
  | removeContact publicKey =>
    simp only [ContactRemoval.step] at hs
    split at hs
    · rename_i named resolved
      simp only [Option.ite_none_right_eq_some, Option.some.injEq] at hs
      obtain ⟨-, rfl⟩ := hs
      refine h.remove (List.subset_append_left _ _) ?_
      exact (marks named resolved).symm.imp_right fun same => by simp [same]
    · cases hs
  | removeUnanswered publicKey =>
    simp only [ContactRemoval.step] at hs
    split at hs
    · rename_i named resolved
      simp only [Option.ite_none_right_eq_some, Option.some.injEq] at hs
      obtain ⟨-, rfl⟩ := hs
      exact h.remove (List.Subset.refl s.marks) (Or.inl (marks named resolved))
    · cases hs
  | rawCommand publicKey =>
    simp only [ContactRemoval.step, Option.ite_none_right_eq_some, Option.some.injEq] at hs
    obtain ⟨-, rfl⟩ := hs
    exact h.remove (List.Subset.refl s.marks) (Or.inl marks)
  | evict publicKey =>
    simp only [ContactRemoval.step, Option.ite_none_right_eq_some, Option.some.injEq] at hs
    obtain ⟨-, rfl⟩ := hs
    exact h.remove (List.subset_append_left _ _) (Or.inr (by simp))
  | markRemoved k =>
    simp only [ContactRemoval.step] at hs
    split at hs
    · rename_i publicKey at_k
      cases hs
      intro key hkey
      by_cases own : key = publicKey
      · exact Or.inl (off_markRemoved.mpr (Or.inl own))
      · refine (h key hkey).imp (fun off => off_markRemoved.mpr (Or.inr off)) fun coming => ?_
        obtain ⟨i, at_i⟩ := List.mem_iff_getElem?.mp coming
        refine List.mem_eraseIdx_iff_getElem?.mpr ⟨i, ?_, at_i⟩
        rintro rfl
        exact own (Option.some.inj (at_i.symm.trans at_k))
    · cases hs

end Tracked

/-- In every run in which each removal and each upsert leaves the removed contacts
accounted for, `on_device` follows the removals once all handlers have finished. -/
theorem on_device_follows_removals (resolve : String → Option String) (node : List String)
    (contacts : Contacts) (acts : List Action) (s : State)
    (hrun : Runs.run (step resolve) (init node contacts) acts = some s)
    (marks : Runs.Along (step resolve) (Marks resolve) (init node contacts) acts)
    (quiet : s.Quiet) :
    s.FollowsRemovals ∧ ∀ key ∈ s.removed, ∀ r ∈ s.contacts.deviceOnly, r.publicKey ≠ key := by
  have tracked : Tracked s :=
    Runs.invariant (fun _ _ _ h marks hs => h.step marks hs) (by simp [Tracked, init]) marks hrun
  have off : s.FollowsRemovals := by
    intro key hkey
    refine (tracked key hkey).resolve_right ?_
    rw [quiet.2]
    exact List.not_mem_nil
  exact ⟨off, fun key hkey => off_deviceOnly.mp (off key hkey)⟩

def removeContactKey (text : String) : Option String :=
  (Ping.fromHex text.toList).map fun key => hex (key.take 32)

def contact (publicKey : String) : Contact := { publicKey := publicKey }

def removals : List Action :=
  [.readContact (contact "ab"), .readContact (contact "cd"), .onContacts, .removeContact "ab",
    .upsert 0 10, .upsert 0 10, .markRemoved 0, .evict "cd", .markRemoved 0]

theorem on_device_follows_removals_twice :
    ∃ s, Runs.run (step removeContactKey) (init ["ab", "cd"] .empty) removals = some s ∧
      s.FollowsRemovals := by
  have got : (Runs.run (step removeContactKey) (init ["ab", "cd"] .empty) removals).map
      (fun s => (s.upserts, s.marks)) = some ([⟨[], false⟩], []) := by
    decide +kernel
  simp only [Option.map_eq_some_iff, Prod.mk.injEq] at got
  obtain ⟨s, hs, upserts, marks⟩ := got
  exact ⟨s, hs, (on_device_follows_removals removeContactKey ["ab", "cd"] .empty removals s hs
    (by decide +kernel) ⟨by simp [upserts], marks⟩).1⟩

def proxyRemoval : List Action :=
  [.readContact (contact "ab"), .onContacts, .upsert 0 10, .rawCommand "ab"]

theorem proxy_removal_unmarked :
    ¬ ∀ s, Runs.run (step removeContactKey) (init ["ab"] .empty) proxyRemoval = some s →
      s.Quiet → s.FollowsRemovals := by
  intro supposed
  have got : (Runs.run (step removeContactKey) (init ["ab"] .empty) proxyRemoval).map
      (fun s => (s.upserts, s.marks, decide s.FollowsRemovals)) =
        some ([⟨[], false⟩], [], false) := by
    decide +kernel
  simp only [Option.map_eq_some_iff, Prod.mk.injEq, decide_eq_false_iff_not] at got
  obtain ⟨s, hs, upserts, marks, stale⟩ := got
  exact stale (supposed s hs ⟨by simp [upserts], marks⟩)

/-- A `RemoveContact` in upper case removes the contact and marks no row. -/
example : (Runs.run (step removeContactKey) (init ["ab"] .empty)
    [.readContact (contact "ab"), .onContacts, .upsert 0 10, .removeContact "AB",
      .markRemoved 0]).map (fun s => decide s.FollowsRemovals) = some false := by
  decide +kernel

/-- An upsert of a list read before the removal comes after the mark. -/
example : (Runs.run (step removeContactKey) (init ["ab"] .empty)
    [.readContact (contact "ab"), .onContacts, .removeContact "ab", .markRemoved 0,
      .upsert 0 10]).map (fun s => decide s.FollowsRemovals) = some false := by
  decide +kernel

end MeshwardenDaemon.ContactRemoval
