import MeshwardenDaemon.SlotTruth

/-! The channels table when the tracker has come to rest. Since the last connect
every slot is due to be read again, is being written from a fresh read, or is
recorded as the node holds it; at rest only the last is left. -/
namespace MeshwardenDaemon.ChannelTracker
open ChannelTable MessageTable Library

def Rest.covers (slot : ℕ) : Rest → Prop
  | .done => False
  | .scan next maxChannels => next ≤ slot ∨ maxChannels ≤ slot

def Progress.covers (slot : ℕ) : Progress → Prop
  | .query => True
  | .read at_ rest => at_ = slot ∨ rest.covers slot
  | .upsert _ _ rest | .vacate _ _ _ rest | .place _ _ _ rest | .clear _ rest => rest.covers slot
  | .clearFrom maxChannels => maxChannels ≤ slot

def Progress.writes : Option Progress → Option ℕ
  | some (.upsert slot ..) | some (.vacate slot ..) | some (.place slot ..)
  | some (.clear slot _) => some slot
  | _ => none

def Progress.moving : Option Progress → Option ℕ
  | some (.vacate _ _ id _) | some (.place _ _ id _) => some id
  | _ => none

def Progress.assigns : Option Progress → Option (ℕ × SlotInfo)
  | some (.upsert slot p _) | some (.vacate slot p ..) | some (.place slot p ..) => some (slot, p)
  | _ => none

def Accepted (s : State) (slot : ℕ) : Prop :=
  ∃ f, s.inFlight = some f ∧ f.slot = slot ∧ (true ∈ s.outbox ∨ f.response = some true)

def Due (s : State) (slot : ℕ) : Prop :=
  .refresh ∈ s.waiting ∨ .resync slot ∈ s.waiting ∨
    (∃ p, s.running = some p ∧ p.covers slot) ∨ Accepted s slot

def Writing (s : State) (slot : ℕ) : Prop :=
  match s.running with
  | some (.upsert at_ p _) => at_ = slot ∧ p = s.node slot ∧ p.isEmpty = false
  | some (.vacate at_ p id _) | some (.place at_ p id _) =>
    at_ = slot ∧ p = s.node slot ∧ p.isEmpty = false ∧
      ∃ r ∈ s.channels.rows, r.id = id ∧ r.secret = p.channelSecret ∧ r.name = p.channelName
  | some (.clear at_ _) => at_ = slot ∧ (s.node slot).isEmpty = true
  | _ => False

/-- A row with the slot is the channel the slot holds; the row being moved out of it
may have its new name already. -/
def Holds (s : State) (slot : ℕ) : Prop :=
  ∀ r ∈ s.channels.rows, r.slot = some slot →
    r.secret = (s.node slot).channelSecret ∧ (s.node slot).isEmpty = false ∧
    (r.name = (s.node slot).channelName ∨ Progress.moving s.running = some r.id)

def Settled (s : State) (slot : ℕ) : Prop :=
  Writing s slot ∨ (Progress.writes s.running ≠ some slot ∧ Holds s slot)

def Tracked (s : State) (slot : ℕ) : Prop := Due s slot ∨ Settled s slot

structure Flight (s : State) : Prop where
  inbox : ∀ m ∈ s.inbox, ∃ f, s.inFlight = some f ∧ f.slot = m.1 ∧ f.response = none
  outbox : s.outbox ≠ [] → ∃ f, s.inFlight = some f ∧ f.response = none
  single : s.inbox.length + s.outbox.length ≤ 1

/-- What may not happen after the last connect: the connection is lost, a query
fails, a channel is recorded from outside, or a SET_CHANNEL is given up that the
node has accepted or may yet accept. -/
def Undisturbed (s : State) : Action → Prop
  | .lose | .readError | .trackerFails | .upsertExtra .. => False
  | .abandon => s.inbox = [] ∧ s.outbox = [] ∧ ∀ f ∈ s.inFlight, f.response ≠ some true
  | _ => True

instance (s : State) (a : Action) : Decidable (Undisturbed s a) := by
  unfold Undisturbed
  induction a using Action.casesOn <;> infer_instance

theorem next_covers {slot : ℕ} {rest : Rest} (h : rest.covers slot) :
    ∃ p, rest.next = some p ∧ p.covers slot := by
  cases rest with
  | done => cases h
  | scan next maxChannels =>
    refine ⟨_, rfl, ?_⟩
    simp only [Rest.covers] at h
    split
    · simp only [Progress.covers, Rest.covers]
      omega
    · simp only [Progress.covers]
      omega

@[simp] theorem next_writes (rest : Rest) : Progress.writes rest.next = none := by
  rcases next_cases rest with h | ⟨_, _, h⟩ | ⟨_, h⟩ <;> rw [h] <;> rfl

@[simp] theorem next_assigns (rest : Rest) : Progress.assigns rest.next = none := by
  rcases next_cases rest with h | ⟨_, _, h⟩ | ⟨_, h⟩ <;> rw [h] <;> rfl

@[simp] theorem start_writes (job : Job) : Progress.writes (some job.start) = none := by
  cases job <;> rfl

@[simp] theorem start_assigns (job : Job) : Progress.assigns (some job.start) = none := by
  cases job <;> rfl

def Rest.within (maxChannels : ℕ) : Rest → Prop
  | .done => True
  | .scan _ bound => bound = maxChannels

def Progress.within (maxChannels : ℕ) : Progress → Prop
  | .query => True
  | .read _ rest | .upsert _ _ rest | .vacate _ _ _ rest | .place _ _ _ rest
  | .clear _ rest => rest.within maxChannels
  | .clearFrom bound => bound = maxChannels

theorem next_within {maxChannels : ℕ} {rest : Rest} (h : rest.within maxChannels) :
    ∀ p ∈ rest.next, p.within maxChannels := by
  cases rest with
  | done => simp [Rest.next]
  | scan next bound =>
    simp only [Rest.next, Option.mem_def, Option.some.injEq, forall_eq']
    split <;> exact h

structure Grounded (s : State) : Prop where
  sighted : Sighted s
  within : ∀ p ∈ s.running, p.within s.maxChannels
  vacated : ∀ slot p id rest, s.running = some (.place slot p id rest) →
    ∀ r ∈ s.channels.rows, r.slot = some slot → r.id = id
  offline : s.connected = false → s.inbox = [] ∧ s.outbox = []

theorem init_grounded (node : ℕ → SlotInfo) (maxChannels : ℕ) (channels : Channels)
    (messages : Messages) : Grounded (init node maxChannels channels messages) := by
  refine ⟨init_sighted node maxChannels channels messages, ?_, ?_, ?_⟩ <;> simp [init]

section Grounded
variable {s t : State} {a : Action}

theorem Grounded.within_move (h : Grounded s) (m : Move s a t) :
    ∀ p ∈ t.running, p.within t.maxChannels := by
  have at_ : ∀ {p}, s.running = some p → p.within s.maxChannels := fun hp => h.within _ hp
  cases m with
  | @take k job free waits =>
    rintro p ⟨⟩
    cases job <;> trivial
  | query =>
    have whole : (Rest.scan 0 s.maxChannels).within s.maxChannels := rfl
    exact next_within whole
  | readEmpty running | readChannel running | readError running | upsert running
  | vacate running =>
    rintro p ⟨⟩
    have bounded := at_ running
    exact bounded
  | place running | clear running => exact next_within (at_ running)
  | placeFails | clearFrom | trackerFails => exact nofun
  | _ => exact h.within

theorem Grounded.vacated_move (h : Grounded s) (m : Move s a t) :
    ∀ slot p id rest, t.running = some (.place slot p id rest) →
      ∀ r ∈ t.channels.rows, r.slot = some slot → r.id = id := by
  intro slot' p' id' rest' at_
  cases m with
  | take | place | clear =>
    refine (Progress.unplaced_not ?_ (Or.inr at_)).elim
    first | exact start_unplaced _ | exact next_unplaced _
  | query =>
    exact (Progress.unplaced_not (next_unplaced (.scan 0 s.maxChannels)) (Or.inr at_)).elim
  | readEmpty | readChannel | readError | upsert | placeFails | clearFrom | trackerFails =>
    cases at_
  | vacate running =>
    cases at_
    exact vacateSlot_free _ _
  | upsertExtra upserted =>
    intro r hr hslot
    rcases upserted.from_old r hr with old | ⟨hid, _, found⟩
    · exact h.vacated _ _ _ _ at_ r old hslot
    · obtain ⟨x, hx, hxslot, same, _⟩ := found _ hslot
      exact hid.trans (same.symm.trans (h.vacated _ _ _ _ at_ x hx hxslot))
  | _ => exact h.vacated _ _ _ _ at_

theorem Grounded.offline_move (h : Grounded s) (m : Move s a t) :
    t.connected = false → t.inbox = [] ∧ t.outbox = [] := by
  intro down
  cases m with
  | connect => cases down
  | lose => exact ⟨rfl, rfl⟩
  | setChannel up =>
    rw [up] at down
    cases down
  | accepts inbox | rejects inbox =>
    have := (h.offline down).1
    simp [inbox] at this
  | dispatch outbox =>
    have := (h.offline down).2
    simp [outbox] at this
  | _ => exact h.offline down

theorem Grounded.step (h : Grounded s) (hs : ChannelTracker.step s a = some t) : Grounded t :=
  have m := move_of_step hs
  ⟨h.sighted.move m, h.within_move m, h.vacated_move m, h.offline_move m⟩

theorem Flight.quiet (h : Flight s)
    (answered : ∀ f, s.inFlight = some f → f.response ≠ none) :
    s.inbox = [] ∧ s.outbox = [] := by
  refine ⟨?_, ?_⟩
  · refine List.eq_nil_iff_forall_not_mem.mpr fun m hm => ?_
    obtain ⟨f, flying, _, waits⟩ := h.inbox m hm
    exact answered f flying waits
  · by_contra some
    obtain ⟨f, flying, waits⟩ := h.outbox some
    exact answered f flying waits

theorem Flight.of_inbox {m : ℕ × SlotInfo} {rest : List (ℕ × SlotInfo)} (h : Flight s)
    (inbox : s.inbox = m :: rest) : rest = [] ∧ s.outbox = [] := by
  have single := h.single
  simp only [inbox, List.length_cons] at single
  exact ⟨List.length_eq_zero_iff.mp (by omega), List.length_eq_zero_iff.mp (by omega)⟩

theorem Flight.of_outbox {ok : Bool} {rest : List Bool} (h : Flight s)
    (outbox : s.outbox = ok :: rest) : rest = [] ∧ s.inbox = [] := by
  have single := h.single
  simp only [outbox, List.length_cons] at single
  exact ⟨List.length_eq_zero_iff.mp (by omega), List.length_eq_zero_iff.mp (by omega)⟩

theorem Flight.move (h : Flight s) (undisturbed : Undisturbed s a) (m : Move s a t) :
    Flight t := by
  cases m with
  | lose | readError | trackerFails | upsertExtra => cases undisturbed
  | @setChannel slot p up free =>
    obtain ⟨noInbox, noOutbox⟩ := h.quiet (by simp [free])
    constructor <;> simp [noInbox, noOutbox]
  | @accepts slot p rest inbox lt | @rejects slot p rest inbox =>
    obtain ⟨f, flying, _, waits⟩ := h.inbox (slot, p) (inbox ▸ List.mem_cons_self)
    obtain ⟨noRest, noOutbox⟩ := h.of_inbox inbox
    constructor <;> simp [noRest, noOutbox, flying, waits]
  | @dispatch ok rest outbox =>
    obtain ⟨noRest, noInbox⟩ := h.of_outbox outbox
    constructor <;> simp [noRest, noInbox]
  | @returns slot ok inFlight =>
    obtain ⟨noInbox, noOutbox⟩ := h.quiet (by simp [inFlight])
    constructor <;> simp [noInbox, noOutbox]
  | abandon =>
    obtain ⟨noInbox, noOutbox, _⟩ := undisturbed
    constructor <;> simp [noInbox, noOutbox]
  | _ => exact ⟨h.inbox, h.outbox, h.single⟩

end Grounded

section Tracked
variable {s t : State} {a : Action} {slot : ℕ}

theorem Accepted.move (h : Accepted s slot) (flight : Flight s)
    (undisturbed : Undisturbed s a) (m : Move s a t) :
    Accepted t slot ∨ .resync slot ∈ t.waiting := by
  obtain ⟨f, flying, same, answered⟩ := h
  cases m with
  | lose => cases undisturbed
  | setChannel up free => simp [free] at flying
  | accepts | rejects =>
    refine Or.inl ⟨f, flying, same, answered.imp_left fun ok => ?_⟩
    exact List.mem_append_left _ ok
  | @dispatch ok rest outbox =>
    obtain ⟨g, hg, waits⟩ := flight.outbox (by simp [outbox])
    obtain rfl := Option.some.inj (flying.symm.trans hg)
    have noRest := (flight.of_outbox outbox).1
    left
    refine ⟨{ f with response := f.response.or (some ok) }, by simp [flying], same, ?_⟩
    simpa [outbox, noRest, waits] using answered
  | @returns at_ ok inFlight =>
    obtain rfl := Option.some.inj (flying.symm.trans inFlight)
    obtain rfl : at_ = slot := same
    have noOutbox := (flight.quiet (by simp [inFlight])).2
    simp only [noOutbox, List.not_mem_nil, false_or, Option.some.injEq] at answered
    exact Or.inr (by simp [answered])
  | abandon =>
    obtain ⟨_, noOutbox, refused⟩ := undisturbed
    rcases answered with ok | ok
    · simp [noOutbox] at ok
    · exact absurd ok (refused f flying)
  | _ => exact Or.inl ⟨f, flying, same, answered⟩

theorem due_of_accepts {p : SlotInfo} {rest : List (ℕ × SlotInfo)} (flight : Flight s)
    (inbox : s.inbox = (slot, p) :: rest) :
    Due { s with
      inbox := rest, outbox := s.outbox ++ [true]
      node := Function.update s.node slot p } slot := by
  obtain ⟨f, flying, same, _⟩ := flight.inbox _ (inbox ▸ List.mem_cons_self)
  have accepted : true ∈ s.outbox ++ [true] := by simp
  exact Or.inr (Or.inr (Or.inr ⟨f, flying, same, Or.inl accepted⟩))

theorem Move.waiting (m : Move s a t) : ∀ j ∈ s.waiting, j ∈ t.waiting ∨
    t.running = some j.start := by
  intro j hj
  cases m with
  | connect | listChannels => exact Or.inl (List.mem_append_left _ hj)
  | @returns at_ ok inFlight => cases ok <;> simp [hj]
  | @take k job free waits =>
    obtain ⟨i, hi⟩ := List.mem_iff_getElem?.mp hj
    by_cases hik : i = k
    · exact Or.inr (congrArg _ (congrArg _ (Option.some.inj (waits.symm.trans (hik ▸ hi)))))
    · exact Or.inl (List.mem_eraseIdx_iff_getElem?.mpr ⟨i, hik, hi⟩)
  | _ => exact Or.inl hj

theorem Due.move (due : Due s slot) (grounded : Grounded s) (flight : Flight s)
    (undisturbed : Undisturbed s a) (m : Move s a t) :
    Due t slot ∨ Writing t slot ∨
      (s.maxChannels ≤ slot ∧ t.running = none ∧ Holds t slot) := by
  have covered : ∀ {p}, t.running = some p → p.covers slot → Due t slot := fun hp covers =>
    Or.inr (Or.inr (Or.inl ⟨_, hp, covers⟩))
  rcases due with refresh | resync | ⟨p, hp, covers⟩ | accepted
  · rcases m.waiting _ refresh with still | taken
    · exact Or.inl (Or.inl still)
    · exact Or.inl (covered taken trivial)
  · rcases m.waiting _ resync with still | taken
    · exact Or.inl (Or.inr (Or.inl still))
    · exact Or.inl (covered taken (Or.inl rfl))
  · have reading : ∀ {q}, s.running = some q → q.covers slot := fun hq =>
      Option.some.inj (hp.symm.trans hq) ▸ covers
    cases m with
    | readError | trackerFails => cases undisturbed
    | take free => simp [free] at hp
    | query running =>
      have whole : (Rest.scan 0 s.maxChannels).covers slot := Or.inl (Nat.zero_le _)
      obtain ⟨q, hq, next⟩ := next_covers whole
      exact Or.inl (covered hq next)
    | readEmpty running free empty =>
      rcases reading running with rfl | later
      · exact Or.inr (Or.inl ⟨rfl, empty⟩)
      · exact Or.inl (covered rfl later)
    | readChannel running free used =>
      rcases reading running with rfl | later
      · exact Or.inr (Or.inl ⟨rfl, rfl, used⟩)
      · exact Or.inl (covered rfl later)
    | upsert running | vacate running =>
      have later := reading running
      exact Or.inl (covered rfl later)
    | place running | clear running =>
      obtain ⟨q, hq, next⟩ := next_covers (reading running)
      exact Or.inl (covered hq next)
    | placeFails running set =>
      have placed := setSlot_isSome (grounded.vacated _ _ _ _ running)
      simp [set] at placed
    | @clearFrom bound now running =>
      have beyond : bound ≤ slot := reading running
      have same : bound = s.maxChannels := grounded.within _ running
      refine Or.inr (Or.inr ⟨same ▸ beyond, rfl, fun r hr hslot => ?_⟩)
      have kept := (mem_unassign_slot hr hslot).2
      simp [hslot, beyond] at kept
    | _ => exact Or.inl (covered hp covers)
  · rcases accepted.move flight undisturbed m with accepted | resync
    · exact Or.inl (Or.inr (Or.inr (Or.inr accepted)))
    · exact Or.inl (Or.inr (Or.inl resync))

theorem Settled.carry (h : Settled s slot) (node : t.node slot = s.node slot)
    (channels : t.channels = s.channels) (running : t.running = s.running) :
    Settled t slot := by
  unfold Settled Writing Holds at h ⊢
  rw [node, channels, running]
  exact h

theorem Holds.keep (h : Holds s slot) (still : Progress.moving s.running = none)
    (node : t.node slot = s.node slot)
    (rows : ∀ r ∈ t.channels.rows, r.slot = some slot → r ∈ s.channels.rows) :
    Holds t slot := by
  intro r hr hslot
  obtain ⟨secret, used, name | moved⟩ := h r (rows r hr hslot) hslot
  · rw [node]
    exact ⟨secret, used, Or.inl name⟩
  · simp [still] at moved

theorem Settled.upsert {at_ id : ℕ} {p : SlotInfo} {rest : Rest} {channels : Channels}
    (h : Settled s slot) (running : s.running = some (.upsert at_ p rest))
    (upserted : Upserted s.channels channels p.channelName p.channelSecret id) :
    Settled { s with channels := channels, running := some (.vacate at_ p id rest) } slot := by
  rcases h with writing | ⟨elsewhere, holds⟩
  · simp only [Writing, running] at writing
    obtain ⟨hat, hp, used⟩ := writing
    exact Or.inl ⟨hat, hp, used, upserted.row⟩
  · rw [running] at elsewhere
    refine Or.inr ⟨elsewhere, fun r hr hslot => ?_⟩
    rcases upserted.from_old r hr with old | ⟨hid, hsecret, found⟩
    · obtain ⟨secret, used, name | moved⟩ := holds r old hslot
      · exact ⟨secret, used, Or.inl name⟩
      · simp [running, Progress.moving] at moved
    · -- the row has its new name before it leaves the slot
      obtain ⟨x, hx, hxslot, _, same⟩ := found slot hslot
      obtain ⟨secret, used, _⟩ := holds x hx hxslot
      exact ⟨hsecret.trans (same.symm.trans secret), used, Or.inr (congrArg some hid.symm)⟩

theorem Settled.vacate {at_ id : ℕ} {p : SlotInfo} {rest : Rest} (h : Settled s slot)
    (running : s.running = some (.vacate at_ p id rest)) :
    Settled { s with
      channels := s.channels.vacateSlot at_ id
      running := some (.place at_ p id rest) } slot := by
  rcases h with writing | ⟨elsewhere, holds⟩
  · simp only [Writing, running] at writing
    obtain ⟨hat, hp, used, r, hr, hid, hsecret, hname⟩ := writing
    refine Or.inl ⟨hat, hp, used, r, mem_unassign.mpr (Or.inl ⟨hr, ?_⟩), hid, hsecret, hname⟩
    simp [hid]
  · rw [running] at elsewhere
    refine Or.inr ⟨elsewhere, fun r hr hslot => ?_⟩
    have held := holds r (mem_unassign_slot hr hslot).1 hslot
    rwa [running] at held

theorem Settled.place {at_ id : ℕ} {p : SlotInfo} {rest : Rest} {channels : Channels}
    {seen : ℕ → Option Secret} (h : Settled s slot)
    (running : s.running = some (.place at_ p id rest))
    (set : s.channels.setSlot at_ id = some channels) :
    Settled { s with channels := channels, running := rest.next, seen := seen } slot := by
  refine Or.inr ⟨by simp, fun x hx hslot => ?_⟩
  rcases h with writing | ⟨elsewhere, holds⟩
  · simp only [Writing, running] at writing
    obtain ⟨rfl, rfl, used, r, hr, hid, hsecret, hname⟩ := writing
    rcases (mem_setSlot set x).mp hx with ⟨old, other⟩ | ⟨y, hy, hyid, rfl⟩
    · exact absurd (setSlot_free set x old hslot) other
    · obtain rfl := s.channels.id_unique.eq_of_mem hr hy (congrArg some hid) (congrArg some hyid)
      exact ⟨hsecret, used, Or.inl hname⟩
  · have ne : at_ ≠ slot := by simpa [running, Progress.writes] using elsewhere
    rcases (mem_setSlot set x).mp hx with ⟨old, other⟩ | ⟨y, hy, hyid, rfl⟩
    · obtain ⟨secret, used, name | moved⟩ := holds x old hslot
      · exact ⟨secret, used, Or.inl name⟩
      · simp only [running, Progress.moving, Option.some.injEq] at moved
        exact absurd moved.symm other
    · exact absurd (Option.some.inj hslot) ne

theorem Settled.clear {at_ : ℕ} {rest : Rest} (h : Settled s slot)
    (running : s.running = some (.clear at_ rest)) :
    Settled { s with channels := s.channels.clearSlot at_, running := rest.next } slot := by
  refine Or.inr ⟨by simp, ?_⟩
  rcases h with writing | ⟨elsewhere, holds⟩
  · simp only [Writing, running] at writing
    obtain ⟨rfl, empty⟩ := writing
    intro r hr hslot
    have kept := (mem_unassign_slot hr hslot).2
    simp [hslot] at kept
  · exact holds.keep (by simp [running, Progress.moving]) rfl fun r hr hslot =>
      (mem_unassign_slot hr hslot).1

theorem Settled.advance {p : Option Progress} (h : Settled s slot)
    (still : Progress.moving s.running = none) (idle : Progress.writes s.running = none)
    (elsewhere : Progress.writes p ≠ some slot) {waiting : List Job} :
    Settled { s with waiting := waiting, running := p } slot := by
  rcases h with writing | ⟨_, holds⟩
  · cases hr : s.running with
    | none => simp [Writing, hr] at writing
    | some q => cases q <;> simp_all [Writing, Progress.writes]
  · exact Or.inr ⟨elsewhere, holds.keep still rfl fun _ hr _ => hr⟩

theorem Tracked.move (h : Tracked s slot) (grounded : Grounded s) (flight : Flight s)
    (up : s.connected = true) (undisturbed : Undisturbed s a) (m : Move s a t) :
    Tracked t slot := by
  rcases h with due | settled
  · rcases due.move grounded flight undisturbed m with due | writing | ⟨_, idle, holds⟩
    · exact Or.inl due
    · exact Or.inr (Or.inl writing)
    · exact Or.inr (Or.inr ⟨idle ▸ nofun, holds⟩)
  cases m with
  | connect down | offline down =>
    rw [up] at down
    cases down
  | readError | trackerFails | upsertExtra => cases undisturbed
  | @accepts changed p rest inbox lt =>
    by_cases hslot : changed = slot
    · subst hslot
      exact Or.inl (due_of_accepts flight inbox)
    · exact Or.inr (settled.carry (Function.update_of_ne (Ne.symm hslot) _ _) rfl rfl)
  | take free =>
    exact Or.inr (settled.advance (by simp [free, Progress.moving])
      (by simp [free, Progress.writes]) (by simp))
  | query running =>
    exact Or.inr (settled.advance (by simp [running, Progress.moving])
      (by simp [running, Progress.writes]) (by simp))
  | @readEmpty at_ rest running free empty =>
    by_cases hat : at_ = slot
    · exact Or.inr (Or.inl ⟨hat, hat ▸ empty⟩)
    · exact Or.inr (settled.advance (by simp [running, Progress.moving])
        (by simp [running, Progress.writes]) (by simpa [Progress.writes] using hat))
  | @readChannel at_ rest running free used =>
    by_cases hat : at_ = slot
    · exact Or.inr (Or.inl ⟨hat, hat ▸ rfl, used⟩)
    · exact Or.inr (settled.advance (by simp [running, Progress.moving])
        (by simp [running, Progress.writes]) (by simpa [Progress.writes] using hat))
  | upsert running upserted => exact Or.inr (settled.upsert running upserted)
  | vacate running => exact Or.inr (settled.vacate running)
  | place running set => exact Or.inr (settled.place running set)
  | placeFails running set =>
    have placed := setSlot_isSome (grounded.vacated _ _ _ _ running)
    simp [set] at placed
  | clear running => exact Or.inr (settled.clear running)
  | clearFrom running =>
    rcases settled with writing | ⟨_, holds⟩
    · simp [Writing, running] at writing
    · refine Or.inr (Or.inr ⟨nofun, holds.keep (by simp [running, Progress.moving]) rfl ?_⟩)
      exact fun r hr hslot => (mem_unassign_slot hr hslot).1
  | _ => exact Or.inr (settled.carry rfl rfl rfl)

end Tracked

end MeshwardenDaemon.ChannelTracker
