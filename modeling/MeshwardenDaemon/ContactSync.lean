import MeshwardenDaemon.Library.Runs
import Mathlib.Data.List.AList
import Mathlib.Order.Nat

/-! The cursor of the contact sync. `_lastmod` is the largest lastmod of any CONTACTS
event, whoever asked for it; the daemon asks only for contacts above it. The node's
clock stamps every change of a contact and never goes back. -/
namespace MeshwardenDaemon.ContactSync
open Library

abbrev PublicKey := String

abbrev Contact := (_ : PublicKey) × ℕ

inductive Requester
  | contactSync
  | syncContacts
  | client (client : ℕ)
  deriving DecidableEq

def Requester.isClient : Requester → Bool
  | .client _ => true
  | _ => false

structure Request where
  requester : Requester
  since : ℕ
  deriving DecidableEq

/-- A CONTACTS event that `_on_contacts_event` has not handled yet. -/
structure ContactsEvent where
  contacts : List Contact
  lastmod : ℕ
  deriving DecidableEq

structure State where
  node : AList fun _ : PublicKey => ℕ
  clock : ℕ
  lastmod : ℕ
  requests : List Request
  events : List ContactsEvent
  /-- Ghost: the contacts of all events since the daemon started. -/
  delivered : List Contact
  /-- Ghost: the largest lastmod of all events since the daemon started. -/
  reported : ℕ

def init (node : AList fun _ : PublicKey => ℕ) (clock : ℕ) : State where
  node := node
  clock := clock
  lastmod := 0
  requests := []
  events := []
  delivered := []
  reported := 0

inductive Action
  | modify (key : PublicKey) (lastmod : ℕ)
  | remove (key : PublicKey)
  | contactSync
  | syncContacts
  | getContacts (client since : ℕ)
  | serve (k : ℕ)
  | drop (k : ℕ)
  | onContactsEvent (k : ℕ)
  deriving DecidableEq

def State.stream (s : State) (since : ℕ) : List Contact :=
  s.node.entries.filter fun c => since < c.2

def top (contacts : List Contact) : ℕ := (contacts.map Sigma.snd).foldr max 0

def step (s : State) : Action → Option State
  | .modify key lastmod =>
    if s.clock ≤ lastmod then
      some { s with clock := lastmod, node := s.node.insert key lastmod }
    else none
  | .remove key => some { s with node := s.node.erase key }
  | .contactSync => some { s with requests := s.requests ++ [⟨.contactSync, s.lastmod⟩] }
  | .syncContacts => some { s with requests := s.requests ++ [⟨.syncContacts, 0⟩] }
  | .getContacts client since =>
    some { s with requests := s.requests ++ [⟨.client client, since⟩] }
  | .serve k =>
    match s.requests[k]? with
    | some r =>
      let contacts := s.stream r.since
      some { s with
        requests := s.requests.eraseIdx k
        events := s.events ++ [⟨contacts, top contacts⟩]
        delivered := s.delivered ++ contacts
        reported := max s.reported (top contacts) }
    | none => none
  | .drop k => some { s with requests := s.requests.eraseIdx k }
  | .onContactsEvent k =>
    match s.events[k]? with
    | some e => some { s with
        events := s.events.eraseIdx k
        lastmod := if e.lastmod = 0 then s.lastmod else max s.lastmod e.lastmod }
    | none => none

theorem top_le {contacts : List Contact} {bound : ℕ} (h : ∀ c ∈ contacts, c.2 ≤ bound) :
    top contacts ≤ bound := by
  induction contacts with
  | nil => exact Nat.zero_le _
  | cons x xs ih =>
    simp only [top, List.map_cons, List.foldr_cons] at ih ⊢
    exact max_le (h x List.mem_cons_self) (ih fun c hc => h c (List.mem_cons_of_mem x hc))

theorem mem_insert_entries {node : AList fun _ : PublicKey => ℕ} {key : PublicKey}
    {lastmod : ℕ} {c : Contact} (h : c ∈ (node.insert key lastmod).entries) :
    c = ⟨key, lastmod⟩ ∨ c ∈ node.entries := by
  rw [AList.entries_insert, List.mem_cons] at h
  exact h.imp_right fun h => (List.kerase_sublist _ _).subset h

structure Synced (s : State) : Prop where
  delivered : ∀ c ∈ s.node.entries, c.2 ≤ s.reported → ∃ d ∈ s.delivered, d.1 = c.1 ∧ c.2 ≤ d.2
  lastmod_le : s.lastmod ≤ s.reported
  events_le : ∀ e ∈ s.events, e.lastmod ≤ s.reported
  reported_le : s.reported ≤ s.clock
  clock : ∀ c ∈ s.node.entries, c.2 ≤ s.clock
  /-- The daemon's own requests start from what has been reported. -/
  own : ∀ r ∈ s.requests, r.requester.isClient = false → r.since ≤ s.reported

theorem init_synced {node : AList fun _ : PublicKey => ℕ} {clock : ℕ}
    (stamped : ∀ c ∈ node.entries, 0 < c.2 ∧ c.2 ≤ clock) : Synced (init node clock) where
  delivered c hc hle := absurd hle (Nat.not_le.mpr (stamped c hc).1)
  lastmod_le := le_rfl
  events_le := by simp [init]
  reported_le := Nat.zero_le _
  clock c hc := (stamped c hc).2
  own := by simp [init]

/-- A client's GET_CONTACTS that streams anything passes over no contact newer than
all that was reported, and no contact changes in the second of the newest one that
was reported. -/
def NothingPassed (s : State) : Action → Prop
  | .serve k => ∀ r ∈ s.requests[k]?, r.requester.isClient = true →
      s.stream r.since = [] ∨ ∀ c ∈ s.node.entries, c.2 ≤ r.since → c.2 ≤ s.reported
  | .modify _ lastmod => lastmod ≠ s.reported
  | _ => True

instance (s : State) (a : Action) : Decidable (NothingPassed s a) := by
  unfold NothingPassed
  induction a using Action.casesOn <;> infer_instance

section Synced
variable {s t : State} {a : Action}

theorem Synced.modify {key : PublicKey} {lastmod : ℕ} (h : Synced s) (later : s.clock ≤ lastmod)
    (other : lastmod ≠ s.reported) :
    Synced { s with clock := lastmod, node := s.node.insert key lastmod } where
  delivered c hc hle := by
    rcases mem_insert_entries hc with rfl | old
    · have := h.reported_le
      exact absurd hle (by simp only; omega)
    · exact h.delivered c old hle
  lastmod_le := h.lastmod_le
  events_le := h.events_le
  reported_le := h.reported_le.trans later
  clock c hc := by
    rcases mem_insert_entries hc with rfl | old
    · exact le_rfl
    · exact (h.clock c old).trans later
  own := h.own

theorem Synced.remove {key : PublicKey} (h : Synced s) :
    Synced { s with node := s.node.erase key } where
  delivered c hc := h.delivered c ((List.kerase_sublist _ _).subset hc)
  lastmod_le := h.lastmod_le
  events_le := h.events_le
  reported_le := h.reported_le
  clock c hc := h.clock c ((List.kerase_sublist _ _).subset hc)
  own := h.own

theorem Synced.request {r : Request} (h : Synced s)
    (own : r.requester.isClient = false → r.since ≤ s.reported) :
    Synced { s with requests := s.requests ++ [r] } :=
  { h with
    own := fun x hx => by
      rcases List.mem_append.mp hx with old | new
      · exact h.own x old
      · obtain rfl := List.mem_singleton.mp new
        exact own }

/-- Whatever the stream leaves out at or below its own top was reported before. -/
theorem Synced.serve {k : ℕ} {r : Request} (h : Synced s) (waits : s.requests[k]? = some r)
    (passed : r.requester.isClient = true →
      s.stream r.since = [] ∨ ∀ c ∈ s.node.entries, c.2 ≤ r.since → c.2 ≤ s.reported) :
    Synced { s with
      requests := s.requests.eraseIdx k
      events := s.events ++ [⟨s.stream r.since, top (s.stream r.since)⟩]
      delivered := s.delivered ++ s.stream r.since
      reported := max s.reported (top (s.stream r.since)) } where
  delivered c hc hle := by
    by_cases before : c.2 ≤ s.reported
    · obtain ⟨d, hd, key, later⟩ := h.delivered c hc before
      exact ⟨d, List.mem_append_left _ hd, key, later⟩
    by_cases streamed : r.since < c.2
    · exact ⟨c, List.mem_append_right _ (List.mem_filter.mpr ⟨hc, by simpa using streamed⟩),
        rfl, le_rfl⟩
    · exfalso
      have below : c.2 ≤ r.since := Nat.le_of_not_lt streamed
      cases client : r.requester.isClient with
      | true =>
        rcases passed client with nothing | covered
        · have empty : top (s.stream r.since) = 0 := by rw [nothing]; rfl
          simp only [empty, Nat.max_zero] at hle
          exact before hle
        · exact before (covered c hc below)
      | false =>
        have since := h.own r (List.mem_of_getElem? waits) client
        exact before (below.trans since)
  lastmod_le := h.lastmod_le.trans (le_max_left _ _)
  events_le e he := by
    rcases List.mem_append.mp he with old | new
    · exact (h.events_le e old).trans (le_max_left _ _)
    · obtain rfl := List.mem_singleton.mp new
      exact le_max_right _ _
  reported_le := max_le h.reported_le
    (top_le fun c hc => h.clock c (List.mem_of_mem_filter hc))
  clock := h.clock
  own x hx notClient :=
    (h.own x (List.mem_of_mem_eraseIdx hx) notClient).trans (le_max_left _ _)

theorem Synced.handle {k : ℕ} {e : ContactsEvent} (h : Synced s) (waits : s.events[k]? = some e) :
    Synced { s with
      events := s.events.eraseIdx k
      lastmod := if e.lastmod = 0 then s.lastmod else max s.lastmod e.lastmod } :=
  { h with
    lastmod_le := by
      simp only
      split
      · exact h.lastmod_le
      · exact max_le h.lastmod_le (h.events_le e (List.mem_of_getElem? waits))
    events_le := fun x hx => h.events_le x (List.mem_of_mem_eraseIdx hx) }

theorem Synced.step (h : Synced s) (passed : NothingPassed s a)
    (hs : ContactSync.step s a = some t) : Synced t := by
  cases a with
  | modify key lastmod =>
    simp only [ContactSync.step, Option.ite_none_right_eq_some, Option.some.injEq] at hs
    obtain ⟨later, rfl⟩ := hs
    exact h.modify later passed
  | remove key =>
    cases hs
    exact h.remove
  | contactSync =>
    cases hs
    exact h.request fun _ => h.lastmod_le
  | syncContacts =>
    cases hs
    exact h.request fun _ => Nat.zero_le _
  | getContacts client since =>
    cases hs
    exact h.request nofun
  | serve k =>
    simp only [ContactSync.step] at hs
    split at hs
    · rename_i r waits
      cases hs
      exact h.serve waits (passed r waits)
    · cases hs
  | drop k =>
    cases hs
    exact { h with own := fun r hr => h.own r (List.mem_of_mem_eraseIdx hr) }
  | onContactsEvent k =>
    simp only [ContactSync.step] at hs
    split at hs
    · rename_i e waits
      cases hs
      exact h.handle waits
    · cases hs

end Synced

/-- Along every run in which no client's request passes over an unreported contact
and no contact changes in the second of the newest reported one, all contacts up to
the cursor have been delivered with their lastmod or a later one. -/
theorem cursor_skips_nothing (node : AList fun _ : PublicKey => ℕ) (clock : ℕ)
    (stamped : ∀ c ∈ node.entries, 0 < c.2 ∧ c.2 ≤ clock) (acts : List Action) (s : State)
    (passed : Runs.Along step NothingPassed (init node clock) acts)
    (hrun : Runs.run step (init node clock) acts = some s) :
    ∀ c ∈ s.node.entries, c.2 ≤ s.lastmod → ∃ d ∈ s.delivered, d.1 = c.1 ∧ c.2 ≤ d.2 := by
  have synced := Runs.invariant (I := Synced) (fun _ _ _ h hC hs => h.step hC hs)
    (init_synced stamped) passed hrun
  exact fun c hc hle => synced.delivered c hc (hle.trans synced.lastmod_le)

def twoContacts : AList fun _ : PublicKey => ℕ := (AList.singleton "a" 5).insert "b" 9

def deltaRun : List Action :=
  [.contactSync, .serve 0, .onContactsEvent 0, .modify "a" 12, .getContacts 0 9, .serve 0,
    .onContactsEvent 0]

theorem cursor_skips_nothing_delta :
    ∃ s, Runs.run step (init twoContacts 9) deltaRun = some s ∧ s.lastmod = 12 ∧
      ∀ c ∈ s.node.entries, c.2 ≤ s.lastmod → ∃ d ∈ s.delivered, d.1 = c.1 ∧ c.2 ≤ d.2 := by
  have got : (Runs.run step (init twoContacts 9) deltaRun).map (fun s => s.lastmod) = some 12 := by
    decide +kernel
  rw [Option.map_eq_some_iff] at got
  obtain ⟨s, hs, lastmod⟩ := got
  exact ⟨s, hs, lastmod, cursor_skips_nothing twoContacts 9 (by decide) deltaRun s
    (by decide +kernel) hs⟩

/-- A client that already has contact `a` asks for the rest: the cursor moves past
`a`, which the daemon never gets. And a contact added in the second of the newest
one reported is behind the cursor at once. -/
theorem client_sync_skips_contact :
    (¬ ∀ s, Runs.run step (init twoContacts 9)
        [.getContacts 0 7, .serve 0, .onContactsEvent 0] = some s →
      ∀ c ∈ s.node.entries, c.2 ≤ s.lastmod → ∃ d ∈ s.delivered, d.1 = c.1 ∧ c.2 ≤ d.2) ∧
    ¬ ∀ s, Runs.run step (init twoContacts 9)
        [.contactSync, .serve 0, .onContactsEvent 0, .modify "c" 9] = some s →
      ∀ c ∈ s.node.entries, c.2 ≤ s.lastmod → ∃ d ∈ s.delivered, d.1 = c.1 ∧ c.2 ≤ d.2 := by
  refine ⟨?_, ?_⟩
  · intro supposed
    have got : (Runs.run step (init twoContacts 9)
        [.getContacts 0 7, .serve 0, .onContactsEvent 0]).map
          (fun s => (s.node.entries, s.lastmod, s.delivered)) =
        some ([⟨"b", 9⟩, ⟨"a", 5⟩], 9, [⟨"b", 9⟩]) := by
      decide +kernel
    simp only [Option.map_eq_some_iff, Prod.mk.injEq] at got
    obtain ⟨s, hs, entries, lastmod, delivered⟩ := got
    obtain ⟨d, hd, key, _⟩ := supposed s hs ⟨"a", 5⟩ (by simp [entries]) (by simp [lastmod])
    rw [delivered, List.mem_singleton] at hd
    rw [hd] at key
    exact absurd key (by decide)
  · intro supposed
    have got : (Runs.run step (init twoContacts 9)
        [.contactSync, .serve 0, .onContactsEvent 0, .modify "c" 9]).map
          (fun s => (s.lastmod, s.node.entries.any (fun c => c.1 == "c" && c.2 == 9),
            s.delivered.all (fun d => d.1 != "c"))) =
        some (9, true, true) := by
      decide +kernel
    simp only [Option.map_eq_some_iff, Prod.mk.injEq, List.any_eq_true, List.all_eq_true,
      Bool.and_eq_true, beq_iff_eq, bne_iff_ne] at got
    obtain ⟨s, hs, lastmod, ⟨c, hc, key, stamp⟩, undelivered⟩ := got
    obtain ⟨d, hd, same, _⟩ := supposed s hs c hc (by rw [lastmod, stamp])
    exact undelivered d hd (same.trans key)

end MeshwardenDaemon.ContactSync
