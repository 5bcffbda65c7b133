import MeshwardenDaemon.ChannelTrackerMoves

/-! Whether a message attributed by its slot names the channel the slot held. The
table says of every slot what the tracker saw in it when it last read and recorded
it, so a look-up is right exactly while the node still holds that secret. -/
namespace MeshwardenDaemon.ChannelTracker
open ChannelTable MessageTable Library

structure Sighted (s : State) : Prop where
  row : ∀ r ∈ s.channels.rows, ∀ slot, r.slot = some slot → s.seen slot = some r.secret
  placing : ∀ slot p id rest, s.running = some (.vacate slot p id rest) ∨
    s.running = some (.place slot p id rest) → s.channels.secretOf id = some p.channelSecret
  adds : ∀ a ∈ s.adds, ∀ c, a.channelId = some c → ∃ slot secret,
    a.message.channelIdx = some slot ∧ a.seen = some secret ∧
    s.channels.secretOf c = some secret
  recorded : ∀ r ∈ s.recorded, r.row.channelSource = some .slot → ∃ c secret,
    r.row.channelId = some c ∧ s.channels.secretOf c = some secret

theorem init_sighted (node : ℕ → SlotInfo) (maxChannels : ℕ) (channels : Channels)
    (messages : Messages) : Sighted (init node maxChannels channels messages) := by
  refine ⟨?_, ?_, ?_, ?_⟩
  · intro r hr slot hslot
    have at_slot : channels.idAt slot = some r.id := idAt_eq_some.mpr ⟨r, hr, hslot, rfl⟩
    have of_id : channels.secretOf r.id = some r.secret := secretOf_eq_some.mpr ⟨r, hr, rfl, rfl⟩
    simp only [init, at_slot, Option.bind_some, of_id]
  · simp [init]
  · simp [init]
  · simp [init]

def Progress.unplaced : Option Progress → Bool
  | some (.vacate ..) | some (.place ..) => false
  | _ => true

theorem next_cases (rest : Rest) : rest.next = none ∨
    (∃ slot later, rest.next = some (.read slot later)) ∨
    ∃ bound, rest.next = some (.clearFrom bound) := by
  cases rest with
  | done => exact Or.inl rfl
  | scan next maxChannels =>
    right
    simp only [Rest.next]
    split
    · exact Or.inl ⟨_, _, rfl⟩
    · exact Or.inr ⟨_, rfl⟩

@[simp] theorem next_unplaced (rest : Rest) : Progress.unplaced rest.next = true := by
  rcases next_cases rest with h | ⟨_, _, h⟩ | ⟨_, h⟩ <;> rw [h] <;> rfl

@[simp] theorem start_unplaced (job : Job) : Progress.unplaced (some job.start) = true := by
  cases job <;> rfl

theorem Progress.unplaced_not {running : Option Progress} (h : Progress.unplaced running = true)
    {slot id : ℕ} {p : SlotInfo} {rest : Rest}
    (at_ : running = some (.vacate slot p id rest) ∨ running = some (.place slot p id rest)) :
    False := by
  rcases at_ with rfl | rfl <;> cases h

section Sighted
variable {s t : State}

theorem Sighted.keep (h : Sighted s) (channels : t.channels = s.channels)
    (seen : t.seen = s.seen) (adds : t.adds = s.adds) (recorded : t.recorded = s.recorded)
    (running : t.running = s.running ∨ Progress.unplaced t.running = true) : Sighted t where
  row := by
    rw [channels, seen]
    exact h.row
  placing slot p id rest at_ := by
    rw [channels]
    rcases running with same | unplaced
    · exact h.placing slot p id rest (same ▸ at_)
    · exact (Progress.unplaced_not unplaced at_).elim
  adds := by
    rw [adds, channels]
    exact h.adds
  recorded := by
    rw [recorded, channels]
    exact h.recorded

theorem Sighted.rewrite (h : Sighted s) (grows : Extends s.channels t.channels)
    (adds : t.adds = s.adds) (recorded : t.recorded = s.recorded)
    (row : ∀ r ∈ t.channels.rows, ∀ slot, r.slot = some slot → t.seen slot = some r.secret)
    (placing : ∀ slot p id rest, t.running = some (.vacate slot p id rest) ∨
      t.running = some (.place slot p id rest) →
      t.channels.secretOf id = some p.channelSecret) : Sighted t where
  row := row
  placing := placing
  adds := by
    rw [adds]
    intro a ha c hc
    obtain ⟨slot, secret, hslot, hseen, hsecret⟩ := h.adds a ha c hc
    exact ⟨slot, secret, hslot, hseen, grows.secretOf hsecret⟩
  recorded := by
    rw [recorded]
    intro r hr hsource
    obtain ⟨c, secret, hc, hsecret⟩ := h.recorded r hr hsource
    exact ⟨c, secret, hc, grows.secretOf hsecret⟩

theorem Sighted.upserted_row (h : Sighted s) {channels : Channels} {name : String}
    {secret : Secret} {id : ℕ} (u : Upserted s.channels channels name secret id) :
    ∀ r ∈ channels.rows, ∀ slot, r.slot = some slot → s.seen slot = some r.secret := by
  intro r hr slot hslot
  rcases u.from_old r hr with old | ⟨_, rfl, found⟩
  · exact h.row r old slot hslot
  · obtain ⟨x, hx, hxslot, _, same⟩ := found slot hslot
    exact same ▸ h.row x hx slot hxslot

theorem Sighted.unassigned_row (h : Sighted s) (p : ChannelRow → Bool) :
    ∀ r ∈ (s.channels.unassign p).rows, ∀ slot, r.slot = some slot →
      s.seen slot = some r.secret := fun r hr slot hslot =>
  h.row r (mem_unassign_slot hr hslot).1 slot hslot

theorem Sighted.move {a : Action} (h : Sighted s) (m : Move s a t) : Sighted t := by
  cases m with
  | connect | lose | offline | setChannel | accepts | rejects | dispatch | returns | abandon
  | listChannels | prune => exact h.keep rfl rfl rfl rfl (Or.inl rfl)
  | take => exact h.keep rfl rfl rfl rfl (Or.inr (start_unplaced _))
  | query => exact h.keep rfl rfl rfl rfl (Or.inr (next_unplaced (.scan 0 s.maxChannels)))
  | readEmpty | readChannel | readError | placeFails | trackerFails =>
    exact h.keep rfl rfl rfl rfl (Or.inr rfl)
  | @upsert slot p rest now id channels running upserted =>
    refine h.rewrite upserted.extends rfl rfl (h.upserted_row upserted) ?_
    rintro slot' p' id' rest' (at_ | at_) <;> cases at_
    obtain ⟨r, hr, hid, hsecret, _⟩ := upserted.row
    exact secretOf_eq_some.mpr ⟨r, hr, hid, hsecret⟩
  | @vacate slot p id rest now running =>
    refine h.rewrite (extends_unassign _) rfl rfl (h.unassigned_row _) ?_
    rintro slot' p' id' rest' (at_ | at_) <;> cases at_
    exact (extends_unassign _).secretOf (h.placing _ _ _ _ (Or.inl running))
  | @place slot p id rest now channels running set =>
    refine h.rewrite (extends_setSlot set) rfl rfl ?_ fun _ _ _ _ at_ =>
      (Progress.unplaced_not (next_unplaced rest) at_).elim
    intro r hr slot' hslot
    rcases (mem_setSlot set r).mp hr with ⟨old, other⟩ | ⟨x, hx, hid, rfl⟩
    · have ne : slot' ≠ slot := by
        rintro rfl
        exact other (setSlot_free set r old hslot)
      simpa only [Function.update_of_ne ne] using h.row r old slot' hslot
    · obtain rfl := Option.some.inj hslot
      have known := h.placing _ _ _ _ (Or.inr running)
      have own : s.channels.secretOf id = some x.secret :=
        secretOf_eq_some.mpr ⟨x, hx, hid, rfl⟩
      simp only [Function.update_self]
      exact known.symm.trans own
  | @clear slot rest now running =>
    exact h.rewrite (extends_unassign _) rfl rfl (h.unassigned_row _) fun _ _ _ _ at_ =>
      (Progress.unplaced_not (next_unplaced rest) at_).elim
  | clearFrom running =>
    exact h.rewrite (extends_unassign _) rfl rfl (h.unassigned_row _) fun _ _ _ _ at_ =>
      (Progress.unplaced_not rfl at_).elim
  | upsertExtra upserted =>
    refine h.rewrite upserted.extends rfl rfl (h.upserted_row upserted) ?_
    exact fun slot p id rest at_ => upserted.extends.secretOf (h.placing slot p id rest at_)
  | @lookupChannel m =>
    refine ⟨h.row, h.placing, fun a ha c hc => ?_, h.recorded⟩
    rcases List.mem_append.mp ha with old | new
    · exact h.adds a old c hc
    · obtain rfl := List.mem_singleton.mp new
      simp only [NewMessage.lookup, Option.ite_none_right_eq_some, Option.bind_eq_some_iff] at hc
      obtain ⟨_, slot, hslot, hid⟩ := hc
      obtain ⟨r, hr, hrslot, rfl⟩ := idAt_eq_some.mp hid
      refine ⟨slot, r.secret, hslot, ?_, secretOf_eq_some.mpr ⟨r, hr, rfl, rfl⟩⟩
      simpa only [hslot, Option.bind_some] using h.row r hr slot hrslot
  | @insertMessage k ts a adds =>
    have mem : a ∈ s.adds := List.mem_of_getElem? adds
    refine ⟨h.row, h.placing, fun x hx => h.adds x (List.mem_of_mem_eraseIdx hx), ?_⟩
    intro r hr hsource
    rcases List.mem_append.mp hr with old | new
    · exact h.recorded r old hsource
    · obtain rfl := List.mem_singleton.mp new
      simp only [NewMessage.row, Option.map_eq_some_iff] at hsource
      obtain ⟨c, hc, _⟩ := hsource
      obtain ⟨_, secret, _, _, hsecret⟩ := h.adds a mem c hc
      exact ⟨c, secret, hc, hsecret⟩

theorem Sighted.step {a : Action} (h : Sighted s) (hs : ChannelTracker.step s a = some t) :
    Sighted t :=
  h.move (move_of_step hs)

theorem Move.extends {a : Action} (m : Move s a t) : Extends s.channels t.channels := by
  cases m with
  | upsert running upserted | upsertExtra upserted => exact upserted.extends
  | vacate | clear | clearFrom => exact extends_unassign _
  | place running set => exact extends_setSlot set
  | _ => exact Extends.refl _

end Sighted

/-- A row attributed by its slot names the channel whose secret the slot held on
the node when the row was inserted. -/
def Truthful (channels : Channels) (r : Recorded) : Prop :=
  r.row.channelSource = some .slot → ∃ c secret, r.row.channelId = some c ∧
    r.nodeSecret = some secret ∧ channels.secretOf c = some secret

/-- When a message that has found a channel is inserted, its slot holds on the node
what the tracker had seen in it before the look-up. -/
def SlotUnchanged (s : State) : Action → Prop
  | .insertMessage k _ => ∀ a ∈ s.adds[k]?, a.channelId ≠ none →
      ∀ slot ∈ a.message.channelIdx, a.seen = some (s.node slot).channelSecret
  | _ => True

instance (s : State) (a : Action) : Decidable (SlotUnchanged s a) := by
  unfold SlotUnchanged
  induction a using Action.casesOn <;> infer_instance

theorem truthful_congr {s t : State} {r : Recorded} (h : Sighted s) (hr : r ∈ s.recorded)
    (grows : Extends s.channels t.channels) :
    Truthful t.channels r ↔ Truthful s.channels r := by
  refine forall_congr' fun hsource => ?_
  obtain ⟨c, secret, hc, hsecret⟩ := h.recorded r hr hsource
  have later := grows.secretOf hsecret
  simp only [hc, Option.some.injEq, exists_and_left, exists_eq_left', hsecret, later]

theorem inserted_truthful_iff {s : State} {k ts : ℕ} {a : Pending} (h : Sighted s)
    (adds : s.adds[k]? = some a) :
    Truthful s.channels ⟨a.message.row a.channelId s.messages.nextId ts s.recorded.length,
        a.message.channelIdx.map fun slot => (s.node slot).channelSecret⟩ ↔
      SlotUnchanged s (.insertMessage k ts) := by
  simp only [Truthful, NewMessage.row, SlotUnchanged, adds, Option.mem_def, Option.some.injEq,
    forall_eq']
  rcases Option.eq_none_or_eq_some a.channelId with none | ⟨c, hc⟩
  · simp [none]
  · obtain ⟨slot, secret, hslot, hseen, hsecret⟩ :=
      h.adds a (List.mem_of_getElem? adds) c hc
    simp [hc, hslot, hseen, hsecret, eq_comm]

theorem truthful_step {s t : State} {a : Action} (h : Sighted s)
    (hs : step s a = some t) :
    (∀ r ∈ t.recorded, Truthful t.channels r) ↔
      (∀ r ∈ s.recorded, Truthful s.channels r) ∧ SlotUnchanged s a := by
  have m := move_of_step hs
  have old : (∀ r ∈ s.recorded, Truthful t.channels r) ↔
      ∀ r ∈ s.recorded, Truthful s.channels r :=
    forall₂_congr fun r hr => truthful_congr h hr m.extends
  cases m with
  | @insertMessage k ts a adds =>
    simp only [List.forall_mem_append, List.forall_mem_singleton]
    exact and_congr Iff.rfl (inserted_truthful_iff h adds)
  | _ =>
    rw [← old]
    exact (and_iff_left trivial).symm

/-- In every run, all messages attributed by their slot are attributed truthfully
exactly when no such message is inserted while its slot on the node differs from
what the tracker had seen in it before the look-up. -/
theorem slot_attribution_iff (node : ℕ → SlotInfo) (maxChannels : ℕ) (channels : Channels)
    (messages : Messages) (acts : List Action) (s : State)
    (hrun : Runs.run step (init node maxChannels channels messages) acts = some s) :
    (∀ r ∈ s.recorded, Truthful s.channels r) ↔
      Runs.Along step SlotUnchanged (init node maxChannels channels messages) acts := by
  have lifted := Runs.run_iff_along (I := Sighted)
    (Q := fun s => ∀ r ∈ s.recorded, Truthful s.channels r)
    (fun _ _ _ h hs => h.step hs) (fun _ _ _ h hs => truthful_step h hs)
    (init_sighted node maxChannels channels messages) hrun
  rw [lifted]
  exact and_iff_right (by simp [init])

def oneChannelNode : ℕ → SlotInfo
  | 0 => ⟨"ops", [7]⟩
  | _ => ⟨"", [0]⟩

def refreshRun : List Action :=
  [.connect, .take 0, .query, .read, .statement 5, .statement 5, .statement 5, .read,
    .statement 5, .statement 5]

def channelMessage : NewMessage :=
  { scope := .channel, text := "hi", channelIdx := some 0 }

theorem slot_attribution_refreshed :
    ∃ s, Runs.run step (init oneChannelNode 2 .empty .empty)
        (refreshRun ++ [.lookupChannel channelMessage, .insertMessage 0 9]) = some s ∧
      ∀ r ∈ s.recorded, Truthful s.channels r := by
  obtain ⟨s, hs⟩ := Option.isSome_iff_exists.mp
    (by decide +kernel : (Runs.run step (init oneChannelNode 2 .empty .empty)
      (refreshRun ++ [.lookupChannel channelMessage, .insertMessage 0 9])).isSome = true)
  exact ⟨s, hs, (slot_attribution_iff oneChannelNode 2 .empty .empty _ s hs).mpr
    (by decide +kernel)⟩

def overtakenRun : List Action :=
  refreshRun ++ [.setChannel 0 ⟨"new", [9]⟩, .nodeAnswers true, .dispatch, .returns,
    .lookupChannel channelMessage, .insertMessage 0 9]

theorem overtaken_message_misattributed :
    ¬ ∀ s, Runs.run step (init oneChannelNode 2 .empty .empty) overtakenRun = some s →
      ∀ r ∈ s.recorded, Truthful s.channels r := by
  intro supposed
  have got : (Runs.run step (init oneChannelNode 2 .empty .empty) overtakenRun).map
      (fun s => decide (s.recorded.map (fun r =>
          (r.row.channelSource, r.row.channelId, r.nodeSecret)) =
          [(some .slot, some 1, some [9])]) &&
        decide (s.channels.secretOf 1 = some [7])) = some true := by
    decide +kernel
  simp only [Option.map_eq_some_iff, Bool.and_eq_true, decide_eq_true_eq] at got
  obtain ⟨s, hs, recorded, secret⟩ := got
  obtain ⟨r, hr, row⟩ := List.map_eq_singleton_iff.mp recorded
  simp only [Prod.mk.injEq] at row
  obtain ⟨source, channel, held⟩ := row
  obtain ⟨c, k, hc, hk, hsecret⟩ := supposed s hs r (by simp [hr]) source
  obtain rfl := Option.some.inj (channel.symm.trans hc)
  obtain rfl := Option.some.inj (held.symm.trans hk)
  exact absurd (secret.symm.trans hsecret) (by decide)

end MeshwardenDaemon.ChannelTracker
