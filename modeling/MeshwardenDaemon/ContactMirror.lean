import MeshwardenDaemon.ContactRegisters
import MeshwardenDaemon.ContactSync
import MeshwardenDaemon.Library.WriteBehind
import MeshwardenDaemon.Recorder

/-! The `contacts` table as a mirror of the node. Each CONTACTS event starts a handler that
upserts its contacts one by one, beside the handlers of other events; the cursor has moved on
long before. When a contact has no upsert before it, its row is as the contact is on the
node. -/
namespace MeshwardenDaemon.ContactMirror
open Library Runs WriteBehind ContactTable ContactHistory ContactRegisters

structure Details where
  advName : Option String := none
  type : Option ℕ := none
  flags : Option ℤ := none
  outPath : Option String := none
  outPathLen : Option ℤ := none
  advLat : Option ℚ := none
  advLon : Option ℚ := none
  lastAdvert : Option ℕ := none
  rawJson : Option String := none
  deriving DecidableEq

structure State where
  sync : ContactSync.State
  about : ContactSync.PublicKey → Details
  /-- The calls that each handler of the recorder has before it. -/
  handlers : List (List Call)
  table : Contacts

def init (node : AList fun _ : ContactSync.PublicKey => ℕ) (clock : ℕ)
    (about : ContactSync.PublicKey → Details) (table : Contacts) : State where
  sync := ContactSync.init node clock
  about := about
  handlers := []
  table := table

def Details.contact (d : Details) (publicKey : String) (lastmod : ℕ) : Contact where
  publicKey := publicKey
  advName := d.advName
  type := d.type
  flags := d.flags
  outPath := d.outPath
  outPathLen := d.outPathLen
  advLat := d.advLat
  advLon := d.advLon
  lastAdvert := d.lastAdvert
  lastmod := some lastmod
  rawJson := d.rawJson

def State.contact (s : State) (c : ContactSync.Contact) : Contact := (s.about c.1).contact c.1 c.2

/-- The calls that the recorder makes of `ContactStore` for an event. -/
def handler (e : Recorder.Event) : List Call :=
  (Recorder.calls 0 e).filterMap Recorder.Call.contact?

inductive Action
  /-- The node and the requests for its contacts; a contact that changes gets `details`. -/
  | sync (a : ContactSync.Action) (details : Details)
  /-- A NEW_CONTACT, an advert or the eviction of a contact. -/
  | push (e : Recorder.Event)
  /-- The k-th handler makes its next call. -/
  | proceed (k now : ℕ)
  /-- `RemoveContact` marks a contact. -/
  | removeContact (publicKey : String) (now : ℕ)

def State.Pushes (s : State) : Recorder.Event → Prop
  | .newContact contact => contact.publicKey ∉ s.sync.node
  | .advertisement _ | .contactDeleted _ => True
  | _ => False

instance (s : State) (e : Recorder.Event) : Decidable (s.Pushes e) := by
  unfold State.Pushes
  induction e using Recorder.Event.casesOn <;> infer_instance

def step (s : State) : Action → Option State
  | .sync a details => (ContactSync.step s.sync a).map fun sync =>
      { s with
        sync := sync
        about := match a with
          | .modify key _ => Function.update s.about key details
          | _ => s.about
        handlers := s.handlers ++ (sync.events.drop s.sync.events.length).map fun e =>
          handler (.contacts (e.contacts.map s.contact)) }
  | .push e => if s.Pushes e then some { s with handlers := s.handlers ++ [handler e] } else none
  | .proceed k now =>
    match s.handlers[k]? with
    | some (call :: rest) =>
      some { s with handlers := s.handlers.set k rest, table := call.run now s.table }
    | _ => none
  | .removeContact publicKey now =>
    some { s with table := (Call.markRemovedFromDevice publicKey).run now s.table }

def said (publicKey : String) : Call → Option Contact
  | .upsert contact _ _ => if contact.publicKey = publicKey then some contact else none
  | _ => none

/-- No handler upserts a contact that an earlier one has still to upsert. -/
def InTurn (s : State) (k : ℕ) : Prop :=
  ∀ call ∈ s.handlers[k]?.bind List.head?, call.upserts (key call) = true →
    ∀ handler ∈ s.handlers.take k, ∀ c ∈ handler, c.upserts (key call) = false

instance (s : State) (k : ℕ) : Decidable (InTurn s k) :=
  inferInstanceAs (Decidable (∀ call ∈ s.handlers[k]?.bind List.head?, _ → _))

/-- No client's request passes over a contact, and no handler gets ahead of another. -/
def Allowed (s : State) : Action → Prop
  | .sync a _ => ContactSync.NothingPassed s.sync a
  | .proceed k _ => InTurn s k
  | _ => True

instance (s : State) (a : Action) : Decidable (Allowed s a) := by
  unfold Allowed
  induction a using Action.casesOn <;> infer_instance

def State.settled (s : State) (publicKey : String) : Option Contact :=
  WriteBehind.settled (said publicKey) s.handlers ((row s.table publicKey).map (·.toContact))

structure Mirrored (s : State) : Prop where
  synced : ContactSync.Synced s.sync
  settled : ∀ c ∈ s.sync.node.entries, c.2 ≤ s.sync.reported → s.settled c.1 = some (s.contact c)

section node

theorem entries_unique {node : AList fun _ : ContactSync.PublicKey => ℕ} {c d : ContactSync.Contact}
    (hc : c ∈ node.entries) (hd : d ∈ node.entries) (same : d.1 = c.1) : d = c :=
  node.nodupKeys.eq_of_fst_eq hd hc same

theorem mem_insert {node : AList fun _ : ContactSync.PublicKey => ℕ} {key : String} {lastmod : ℕ}
    {c : ContactSync.Contact} (h : c ∈ (node.insert key lastmod).entries) :
    c = ⟨key, lastmod⟩ ∨ c.1 ≠ key ∧ c ∈ node.entries := by
  rw [AList.entries_insert, List.mem_cons] at h
  refine h.imp_right fun old => ⟨?_, (List.kerase_sublist _ _).subset old⟩
  rintro rfl
  exact List.notMem_keys_kerase c.1 node.nodupKeys (List.mem_keys_of_mem old)

theorem reported_of_unstreamed {s : ContactSync.State} (h : ContactSync.Synced s) {k : ℕ}
    {r : ContactSync.Request} (waits : s.requests[k]? = some r)
    (passed : r.requester.isClient = true →
      s.stream r.since = [] ∨ ∀ c ∈ s.node.entries, c.2 ≤ r.since → c.2 ≤ s.reported)
    {c : ContactSync.Contact} (hc : c ∈ s.node.entries) (below : c.2 ≤ r.since)
    (hle : c.2 ≤ max s.reported (ContactSync.top (s.stream r.since))) : c.2 ≤ s.reported := by
  cases client : r.requester.isClient with
  | false =>
    have since := h.own r (List.mem_of_getElem? waits) client
    exact below.trans since
  | true =>
    rcases passed client with nothing | covered
    · have empty : ContactSync.top (s.stream r.since) = 0 := by rw [nothing]; rfl
      rwa [empty, Nat.max_zero] at hle
    · exact covered c hc below

end node

section table
variable {table : Contacts} {publicKey : String}

theorem row_run (now : ℕ) (call : Call) :
    (row (call.run now table) publicKey).map (·.toContact) =
      (said publicKey call).or ((row table publicKey).map (·.toContact)) := by
  rw [row_call]
  by_cases own : publicKey = key call
  · rw [if_pos own]
    cases call with
    | upsert contact onDevice heard =>
      obtain rfl : publicKey = contact.publicKey := own
      simp only [said, if_true, Option.some_or, act, Option.map_some]
      cases found : row table contact.publicKey with
      | none => rfl
      | some r =>
        have same : r.publicKey = contact.publicKey := by
          have keyed := List.find?_some found
          simpa using keyed
        simp only [Option.map_some, Option.getD_some, ContactRow.doUpdate, Contact.row, same]
    | touch other | markRemovedFromDevice other =>
      simp only [said, Option.none_or, act]
      cases row table publicKey <;> rfl
  · rw [if_neg own]
    cases call with
    | upsert contact onDevice heard =>
      have silent : said publicKey (.upsert contact onDevice heard) = none := if_neg (Ne.symm own)
      rw [silent, Option.none_or]
    | touch other | markRemovedFromDevice other => exact (Option.none_or).symm

theorem said_eq_none {call : Call} :
    said publicKey call = none ↔ call.upserts publicKey = false := by
  cases call with
  | upsert contact onDevice heard => simp [said, Call.upserts]
  | touch | markRemovedFromDevice => simp [said, Call.upserts]

theorem said_contacts (contacts : List Contact) :
    (handler (.contacts contacts)).filterMap (said publicKey) =
      contacts.filter fun contact => contact.publicKey = publicKey := by
  have upserts : handler (.contacts contacts) = contacts.map fun c => .upsert c true false := by
    simp only [handler, Recorder.calls, List.filterMap_map]
    exact congrFun List.filterMap_eq_map contacts
  rw [upserts, List.filterMap_map, ← List.filterMap_eq_filter]
  refine List.filterMap_congr fun contact _ => ?_
  simp only [Function.comp_apply, said, Option.guard, decide_eq_true_eq]

end table

section Mirrored
variable {s t : State} {a : Action}

theorem settled_handler {e : Recorder.Event} {publicKey : String}
    (silent : (handler e).filterMap (said publicKey) = []) :
    State.settled { s with handlers := s.handlers ++ [handler e] } publicKey =
      s.settled publicKey := by
  rw [State.settled, settled_append, List.flatten_singleton, silent]
  rfl

theorem Mirrored.modify {key : String} {lastmod : ℕ} (details : Details) (h : Mirrored s)
    (later : s.sync.clock ≤ lastmod) (other : lastmod ≠ s.sync.reported) :
    Mirrored { s with
      sync := { s.sync with clock := lastmod, node := s.sync.node.insert key lastmod }
      about := Function.update s.about key details } where
  synced := h.synced.modify later other
  settled c hc hle := by
    rcases mem_insert hc with rfl | ⟨apart, old⟩
    · have reported := h.synced.reported_le
      exact absurd hle (by simp only; omega)
    · refine (h.settled c old hle).trans (congrArg some ?_)
      simp only [State.contact, Function.update_of_ne apart]

theorem Mirrored.serve {k : ℕ} {r : ContactSync.Request} (h : Mirrored s)
    (waits : s.sync.requests[k]? = some r)
    (passed : r.requester.isClient = true → s.sync.stream r.since = [] ∨
      ∀ c ∈ s.sync.node.entries, c.2 ≤ r.since → c.2 ≤ s.sync.reported) :
    Mirrored { s with
      sync := { s.sync with
        requests := s.sync.requests.eraseIdx k
        events := s.sync.events ++
          [⟨s.sync.stream r.since, ContactSync.top (s.sync.stream r.since)⟩]
        delivered := s.sync.delivered ++ s.sync.stream r.since
        reported := max s.sync.reported (ContactSync.top (s.sync.stream r.since)) }
      handlers := s.handlers ++
        [handler (.contacts ((s.sync.stream r.since).map s.contact))] } where
  synced := h.synced.serve waits passed
  settled c hc hle := by
    -- Of what the event says of the contact there is only one thing.
    have only : ∀ contact ∈ (handler (.contacts ((s.sync.stream r.since).map s.contact))).filterMap
        (said c.1), contact = s.contact c ∧ c ∈ s.sync.stream r.since := by
      intro contact told
      rw [said_contacts, List.mem_filter] at told
      obtain ⟨d, hd, rfl⟩ := List.mem_map.mp told.1
      obtain rfl := entries_unique hc (List.mem_of_mem_filter hd) (of_decide_eq_true told.2)
      exact ⟨rfl, hd⟩
    by_cases streamed : c ∈ s.sync.stream r.since
    · have told : s.contact c ∈
          (handler (.contacts ((s.sync.stream r.since).map s.contact))).filterMap (said c.1) := by
        rw [said_contacts, List.mem_filter]
        exact ⟨List.mem_map_of_mem streamed, by simp [State.contact, Details.contact]⟩
      rw [State.settled, settled_append, List.flatten_singleton,
        getLast?_of_forall told fun contact hcontact => (only contact hcontact).1]
      rfl
    · have below : c.2 ≤ r.since := by
        by_contra above
        exact streamed (List.mem_filter.mpr ⟨hc, by simpa using above⟩)
      refine (settled_handler ?_).trans
        (h.settled c hc (reported_of_unstreamed h.synced waits passed hc below hle))
      refine List.eq_nil_iff_forall_not_mem.mpr fun contact told => ?_
      exact streamed (only contact told).2

theorem Mirrored.sync {b : ContactSync.Action} {details : Details} (h : Mirrored s)
    (passed : ContactSync.NothingPassed s.sync b)
    (hs : step s (.sync b details) = some t) : Mirrored t := by
  obtain ⟨sync, moved, rfl⟩ := Option.map_eq_some_iff.mp hs
  have synced : ContactSync.Synced sync := h.synced.step passed moved
  cases b with
  | modify key lastmod =>
    simp only [ContactSync.step, Option.ite_none_right_eq_some, Option.some.injEq] at moved
    obtain ⟨later, rfl⟩ := moved
    simpa using h.modify details later passed
  | serve k =>
    simp only [ContactSync.step] at moved
    split at moved
    · rename_i r waits
      cases moved
      simpa using h.serve waits (passed r waits)
    · cases moved
  | remove key =>
    cases moved
    simp only [List.drop_length, List.map_nil, List.append_nil]
    exact ⟨synced, fun c hc => h.settled c ((List.kerase_sublist _ _).subset hc)⟩
  | contactSync | syncContacts | getContacts | drop =>
    cases moved
    simp only [List.drop_length, List.map_nil, List.append_nil]
    exact ⟨synced, h.settled⟩
  | onContactsEvent k =>
    simp only [ContactSync.step] at moved
    split at moved
    · cases moved
      have shorter : (s.sync.events.eraseIdx k).length ≤ s.sync.events.length :=
        (List.eraseIdx_sublist _ _).length_le
      simp only [List.drop_eq_nil_of_le shorter, List.map_nil, List.append_nil]
      exact ⟨synced, h.settled⟩
    · cases moved

theorem Mirrored.push {e : Recorder.Event} (h : Mirrored s) (pushes : s.Pushes e) :
    Mirrored { s with handlers := s.handlers ++ [handler e] } where
  synced := h.synced
  settled c hc hle := by
    refine (settled_handler ?_).trans (h.settled c hc hle)
    cases e with
    | newContact contact =>
      have other : contact.publicKey ≠ c.1 := by
        rintro same
        exact pushes (same ▸ List.mem_keys_of_mem hc)
      simp only [handler, Recorder.calls]
      split
      · simp [Recorder.Call.contact?, said, other]
      · rfl
    | advertisement | contactDeleted =>
      simp only [handler, Recorder.calls]
      split <;> simp [Recorder.Call.contact?, said]
    | _ => exact pushes.elim

theorem Mirrored.proceed {k now : ℕ} {call : Call} {rest : List Call} (h : Mirrored s)
    (waits : s.handlers[k]? = some (call :: rest)) (turn : InTurn s k) :
    Mirrored { s with handlers := s.handlers.set k rest, table := call.run now s.table } where
  synced := h.synced
  settled c hc hle := by
    refine Eq.trans ?_ (h.settled c hc hle)
    rw [State.settled, row_run]
    refine settled_proceed waits ?_
    have first := turn call (by simp [waits])
    by_cases own : call.upserts c.1 = true
    · have same : key call = c.1 := by
        cases call with
        | upsert contact onDevice heard => exact of_decide_eq_true own
        | touch | markRemovedFromDevice => cases own
      rw [same] at first
      exact Or.inr fun handler hh d hd => said_eq_none.mpr (first own handler hh d hd)
    · exact Or.inl (said_eq_none.mpr (by simpa using own))

theorem Mirrored.step (h : Mirrored s) (allowed : Allowed s a)
    (hs : ContactMirror.step s a = some t) : Mirrored t := by
  cases a with
  | sync b details => exact h.sync allowed hs
  | push e =>
    simp only [ContactMirror.step, Option.ite_none_right_eq_some, Option.some.injEq] at hs
    obtain ⟨pushes, rfl⟩ := hs
    exact h.push pushes
  | proceed k now =>
    simp only [ContactMirror.step] at hs
    split at hs
    · rename_i call rest waits
      cases hs
      exact h.proceed waits allowed
    · cases hs
  | removeContact publicKey now =>
    cases hs
    refine ⟨h.synced, fun c hc hle => Eq.trans ?_ (h.settled c hc hle)⟩
    rw [State.settled, row_run]
    rfl

end Mirrored

/-- Whatever the node, the clients and the handlers do, and whatever was in the table before:
as long as no client's request passes over a contact and no handler gets ahead of another one
with the same contact, the row of every contact that the cursor has passed says what the node
says of it, as soon as no upsert of the contact is on its way. -/
theorem table_mirrors_node (node : AList fun _ : ContactSync.PublicKey => ℕ) (clock : ℕ)
    (about : ContactSync.PublicKey → Details) (table : Contacts)
    (stamped : ∀ c ∈ node.entries, 0 < c.2 ∧ c.2 ≤ clock) (acts : List Action) (s : State)
    (allowed : Runs.Along step Allowed (init node clock about table) acts)
    (hrun : Runs.run step (init node clock about table) acts = some s) :
    ∀ c ∈ s.sync.node.entries, c.2 ≤ s.sync.lastmod →
      (∀ handler ∈ s.handlers, ∀ call ∈ handler, call.upserts c.1 = false) →
      (row s.table c.1).map (·.toContact) = some (s.contact c) := by
  have start : Mirrored (init node clock about table) := by
    refine ⟨ContactSync.init_synced stamped, fun c hc hle => ?_⟩
    exact absurd hle (Nat.not_le.mpr (stamped c hc).1)
  have mirrored : Mirrored s :=
    Runs.invariant (fun _ _ _ h allowed hs => h.step allowed hs) start allowed hrun
  intro c hc hle silent
  have settled := mirrored.settled c hc (hle.trans mirrored.synced.lastmod_le)
  rwa [State.settled, settled_silent fun handler hh call hcall =>
    said_eq_none.mpr (silent handler hh call hcall)] at settled

section sample

def changed : List Action :=
  [.sync .contactSync {}, .sync (.serve 0) {}, .proceed 0 100, .sync (.onContactsEvent 0) {},
    .sync (.modify "a" 12) { advName := some "new" }, .sync .contactSync {}, .sync (.serve 0) {},
    .push (.advertisement "a")]

def inTurn : List Action :=
  changed ++ [.proceed 0 101, .proceed 1 102, .sync (.onContactsEvent 0) {}, .proceed 2 103]

theorem table_mirrors_node_inTurn : ∃ s,
    Runs.run step (init ContactSync.twoContacts 9 (fun _ => {}) .empty) inTurn = some s ∧
      (row s.table "a").map (·.toContact) =
        some { publicKey := "a", advName := some "new", lastmod := some 12 } := by
  have got : (Runs.run step (init ContactSync.twoContacts 9 (fun _ => {}) .empty) inTurn).map
      (fun s => (s.sync.node.entries, s.sync.lastmod, s.handlers.all List.isEmpty,
        s.contact ⟨"a", 12⟩)) =
        some ([⟨"a", 12⟩, ⟨"b", 9⟩], 12, true,
          { publicKey := "a", advName := some "new", lastmod := some 12 }) := by
    decide +kernel
  simp only [Option.map_eq_some_iff, Prod.mk.injEq, List.all_eq_true, List.isEmpty_iff] at got
  obtain ⟨s, hs, entries, lastmod, idle, contact⟩ := got
  refine ⟨s, hs, Eq.trans ?_ (congrArg some contact)⟩
  refine table_mirrors_node ContactSync.twoContacts 9 (fun _ => {}) .empty (by decide) inTurn s
    (by decide +kernel) hs ⟨"a", 12⟩ (by simp [entries]) (by simp [lastmod]) ?_
  intro handler hh call hcall
  rw [idle handler hh] at hcall
  cases hcall

/-- The second event has one contact and the first has two: its upsert comes first, and what
the first event said of the contact stays, though the cursor has passed the change. -/
theorem overtaken_contact_stays :
    ¬ ∀ s, Runs.run step (init ContactSync.twoContacts 9 (fun _ => {}) .empty)
        (changed ++ [.proceed 1 101, .proceed 0 102, .sync (.onContactsEvent 0) {}]) = some s →
      ∀ c ∈ s.sync.node.entries, c.2 ≤ s.sync.lastmod →
        (∀ handler ∈ s.handlers, ∀ call ∈ handler, call.upserts c.1 = false) →
        (row s.table c.1).map (·.toContact) = some (s.contact c) := by
  intro supposed
  have got : (Runs.run step (init ContactSync.twoContacts 9 (fun _ => {}) .empty)
      (changed ++ [.proceed 1 101, .proceed 0 102, .sync (.onContactsEvent 0) {}])).map
        (fun s => (s.sync.node.entries, s.sync.lastmod,
          s.handlers.all (·.all fun call => !call.upserts "a"),
          ((row s.table "a").bind (·.lastmod), (s.contact ⟨"a", 12⟩).lastmod))) =
      some ([⟨"a", 12⟩, ⟨"b", 9⟩], 12, true, (some 5, some 12)) := by
    decide +kernel
  simp only [Option.map_eq_some_iff, Prod.mk.injEq, List.all_eq_true, Bool.not_eq_true'] at got
  obtain ⟨s, hs, entries, lastmod, silent, stale, there⟩ := got
  have mirrored := supposed s hs ⟨"a", 12⟩ (by simp [entries]) (by simp [lastmod]) silent
  obtain ⟨r, hr, same⟩ := Option.map_eq_some_iff.mp mirrored
  rw [hr, Option.bind_some, same, there] at stale
  cases stale

end sample

end MeshwardenDaemon.ContactMirror
