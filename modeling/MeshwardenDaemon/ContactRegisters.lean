import MeshwardenDaemon.ContactHistory
import MeshwardenDaemon.Library.Registers

/-! The contacts as a map. Every writing call of `ContactStore` names one public key and works
on the row of that key; the table is a family of rows of which each has its own history, and a
row says what the latest upsert of its contact said. -/
namespace MeshwardenDaemon.ContactRegisters
open Library Registers KeyedTable Grouping ContactTable ContactHistory

def row (t : Contacts) (publicKey : String) : Option ContactRow :=
  t.rows.find? fun r => r.publicKey = publicKey

def key : Call → String
  | .upsert contact _ _ => contact.publicKey
  | .touch publicKey => publicKey
  | .markRemovedFromDevice publicKey => publicKey

def act (r : Option ContactRow) (a : Action) : Option ContactRow :=
  match a.call with
  | .upsert contact onDevice heard =>
    let excluded := contact.row onDevice heard a.now
    some ((r.map fun r => r.doUpdate excluded).getD excluded)
  | .touch _ => r.map fun r => { r with lastSeen := a.now }
  | .markRemovedFromDevice _ => r.map fun r => { r with onDevice := false }

/-- The row says of its contact what the latest upsert of it said; it is marked as on the
device if that upsert said so and no removal came after it. -/
structure Says (acts : List Action) (publicKey : String) (r : ContactRow) : Prop where
  latest : ∃ before onDevice heard now after,
    acts = before ++ ⟨.upsert r.toContact onDevice heard, now⟩ :: after ∧
    known publicKey after = false ∧
    r.onDevice =
      (onDevice && !after.any fun a => a.call = .markRemovedFromDevice publicKey)
  own : r.publicKey = publicKey

section registers
variable {acts : List Action} {a : Action} {s t : State} {publicKey : String}

theorem row_call (now : ℕ) (t : Contacts) (call : Call) (publicKey : String) :
    row (call.run now t) publicKey =
      if publicKey = key call then act (row t publicKey) ⟨call, now⟩ else row t publicKey := by
  cases call with
  | upsert contact onDevice heard =>
    refine find?_upsert ?_ (contact.row onDevice heard now) publicKey
    exact fun _ _ => rfl
  | touch other =>
    refine find?_updateWhere ?_ publicKey other
    exact fun _ => rfl
  | markRemovedFromDevice other =>
    refine find?_updateWhere ?_ publicKey other
    exact fun _ => rfl

theorem contact_registers : Family ContactHistory.step (fun s => row s.contacts)
    (fun publicKey a => publicKey = key a.call) act where
  own := by
    intro s t a publicKey hs touched
    simp only [ContactHistory.step, Option.ite_none_right_eq_some, Option.some.injEq] at hs
    obtain ⟨-, rfl⟩ := hs
    exact (row_call _ _ _ _).trans (if_pos (by simpa using touched))
  other := by
    intro s t a publicKey hs apart
    simp only [ContactHistory.step, Option.ite_none_right_eq_some, Option.some.injEq] at hs
    obtain ⟨-, rfl⟩ := hs
    exact (row_call _ _ _ _).trans (if_neg (by simpa using apart))

theorem Says.later {r : ContactRow} (h : Says acts publicKey r) {onDevice : Bool} {lastSeen : ℕ}
    (silent : a.call.upserts publicKey = false)
    (mark : onDevice =
      (r.onDevice && !decide (a.call = .markRemovedFromDevice publicKey))) :
    Says (acts ++ [a]) publicKey { r with lastSeen := lastSeen, onDevice := onDevice } := by
  obtain ⟨before, said, heard, now, after, rfl, unknown, marked⟩ := h.latest
  refine ⟨⟨before, said, heard, now, after ++ [a], by simp, ?_, ?_⟩, h.own⟩
  · rw [known_concat, unknown, silent]
    rfl
  · simp only [mark, marked, List.any_append, List.any_cons, List.any_nil, Bool.or_false,
      Bool.not_or, Bool.and_assoc]

theorem says_upserted {x : Option ContactRow} {contact : Contact} {onDevice heard : Bool}
    {now : ℕ} (own : ∀ r ∈ x, r.publicKey = contact.publicKey) :
    Says (acts ++ [⟨.upsert contact onDevice heard, now⟩]) contact.publicKey
      ((x.map fun r => r.doUpdate (contact.row onDevice heard now)).getD
        (contact.row onDevice heard now)) := by
  have latest : ∀ r : ContactRow, r.toContact = contact → r.onDevice = onDevice →
      Says (acts ++ [⟨.upsert contact onDevice heard, now⟩]) contact.publicKey r := by
    rintro r rfl rfl
    exact ⟨⟨acts, _, heard, now, [], rfl, rfl, by simp⟩, rfl⟩
  cases x with
  | none => exact latest _ rfl rfl
  | some r =>
    have same : r.publicKey = contact.publicKey := own r rfl
    refine latest (r.doUpdate (contact.row onDevice heard now)) ?_ rfl
    simp only [ContactRow.doUpdate, Contact.row, same]

theorem says_step (h : ∀ r ∈ row s.contacts publicKey, Says acts publicKey r)
    (hs : ContactHistory.step s a = some t) :
    ∀ r ∈ row t.contacts publicKey, Says (acts ++ [a]) publicKey r := by
  intro r hr
  by_cases touched : publicKey = key a.call
  · rw [contact_registers.own hs (by simpa using touched)] at hr
    obtain ⟨call, now⟩ := a
    cases call with
    | upsert contact onDevice heard =>
      subst touched
      obtain rfl := Option.some.inj hr
      exact says_upserted fun r hr => (h r hr).own
    | touch other =>
      obtain ⟨x, hx, rfl⟩ := Option.map_eq_some_iff.mp hr
      exact (h x hx).later rfl (by simp)
    | markRemovedFromDevice other =>
      obtain ⟨x, hx, rfl⟩ := Option.map_eq_some_iff.mp hr
      exact (h x hx).later rfl (by simp [show publicKey = other from touched])
  · rw [contact_registers.other hs (by simpa using touched)] at hr
    obtain ⟨call, now⟩ := a
    refine (h r hr).later ?_ ?_
    · cases call with
      | upsert contact onDevice heard =>
        have other : contact.publicKey ≠ publicKey := Ne.symm touched
        simpa [Call.upserts] using other
      | touch | markRemovedFromDevice => rfl
    · cases call with
      | markRemovedFromDevice removed =>
        have other : removed ≠ publicKey := Ne.symm touched
        simp [other]
      | upsert | touch => simp

end registers

/-- Whatever else is called on other contacts, and in whatever order: the row of a contact is
what its own calls make of it, one after the other. It is there once there was an upsert of the
contact; its columns are those of the latest one, and it is marked as on the device if that one
said so and no removal of the contact came after it. -/
theorem contacts_are_registers (acts : List Action) (s : State)
    (hrun : Runs.run step init acts = some s) (publicKey : String) :
    row s.contacts publicKey =
      (acts.filter fun a => publicKey = key a.call).foldl act none ∧
    (row s.contacts publicKey).isSome = known publicKey acts ∧
    ∀ r ∈ row s.contacts publicKey, Says acts publicKey r := by
  refine ⟨contact_registers.run publicKey hrun, ?_, ?_⟩
  · have recorded : Recorded acts s :=
      Runs.history (fun _ _ _ _ h hs => h.step hs) init_recorded hrun
    rw [Bool.eq_iff_iff, ← recorded.known publicKey, row, List.find?_isSome]
    simp
  · exact Runs.history (H := fun acts s => ∀ r ∈ row s.contacts publicKey, Says acts publicKey r)
      (fun _ _ _ _ h hs => says_step h hs) (by simp [init, row, Contacts.empty]) hrun

/-- The row of "ab" does not know that "cd" was heard meanwhile, and then removed. -/
theorem contacts_are_registers_synced :
    ∃ s, Runs.run step init (⟨.upsert { publicKey := "cd" } true true, 1⟩ ::
        syncedAndHeard ++ [⟨.markRemovedFromDevice "cd", 50⟩]) = some s ∧
      row s.contacts "ab" = some ⟨{ publicKey := "ab", lastAdvert := some 12 }, 10, 20, false⟩ := by
  have ran : (Runs.run step init (⟨.upsert { publicKey := "cd" } true true, 1⟩ ::
      syncedAndHeard ++ [⟨.markRemovedFromDevice "cd", 50⟩])).isSome = true := by
    decide +kernel
  obtain ⟨s, hs⟩ := Option.isSome_iff_exists.mp ran
  exact ⟨s, hs, (contacts_are_registers _ s hs "ab").1.trans (by decide +kernel)⟩

end MeshwardenDaemon.ContactRegisters
