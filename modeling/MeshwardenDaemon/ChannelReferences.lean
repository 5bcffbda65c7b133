import MeshwardenDaemon.Listings
import MeshwardenDaemon.PacketScan

/-! The channels that messages refer to. The database does not enforce the reference of
`messages.channel_id`: it holds because no statement deletes a channel, changes its id or
its secret, or writes an id that was not read from the table. -/
namespace MeshwardenDaemon.ChannelBackfill
open ChannelTable MessageTable Library Library.KeyedTable

def Known (channels : Channels) (channelId : ℕ) : Prop :=
  channelId ∈ channels.rows.map ChannelRow.id

def Progress.listed : Option Progress → Option Channels
  | some (.scanning _ channels) => some channels
  | _ => none

/-- The scan indexes packets under the listed channels. -/
def Genuine (s : State) : Action → Prop
  | .backfillScan index => ∀ channels ∈ Progress.listed s.run, ∀ p ∈ index,
      Known channels p.2.channelId
  | _ => True

instance (s : State) (a : Action) : Decidable (Genuine s a) := by
  unfold Genuine Known
  induction a using Action.casesOn <;> infer_instance

structure Referring (s : State) : Prop where
  messages : ∀ m ∈ s.messages.rows, ∀ c ∈ m.channelId, Known s.channels c
  adds : ∀ a ∈ s.adds, ∀ c ∈ a.channelId, Known s.channels c
  listed : ∀ channels ∈ Progress.listed s.run, Extends channels s.channels
  updates : ∀ us, s.run = some (.writing us) → ∀ u ∈ us, Known s.channels u.channelId

section references
variable {s t : State} {a : Action} {channels later : Channels} {c : ℕ}

theorem Known.extends (known : Known channels c) (h : Extends channels later) :
    Known later c := by
  obtain ⟨r, hr, rfl⟩ := List.mem_map.mp known
  obtain ⟨r', hr', same, _⟩ := h r hr
  exact List.mem_map.mpr ⟨r', hr', same⟩

theorem known_of_idAt {slot : ℕ} (h : channels.idAt slot = some c) : Known channels c := by
  obtain ⟨r, hr, _, rfl⟩ := idAt_eq_some.mp h
  exact List.mem_map.mpr ⟨r, hr, rfl⟩

theorem known_of_lookup {m : NewMessage} (h : m.lookup channels = some c) : Known channels c := by
  simp only [NewMessage.lookup, Option.ite_none_right_eq_some, Option.bind_eq_some_iff] at h
  obtain ⟨_, slot, _, found⟩ := h
  exact known_of_idAt found

theorem attribution_mem {slotChannel : Option ℕ} {found : List ℕ} {d : ℕ × Source}
    (h : attribution slotChannel found = some d) : slotChannel = some d.1 ∨ d.1 ∈ found := by
  unfold attribution at h
  split at h
  · rename_i inSlot
    cases h
    exact Or.inl (Option.filter_eq_some_iff.mp inSlot).1
  · cases h
    exact Or.inr (List.mem_singleton_self _)
  · obtain ⟨c, inSlot, rfl⟩ := Option.map_eq_some_iff.mp h
    exact Or.inl inSlot
  · cases h

theorem known_of_updates {index : Index} {targets : List MessageRow} {u : Update}
    (genuine : ∀ p ∈ index, Known channels p.2.channelId)
    (h : u ∈ updatesFor channels index targets) : Known channels u.channelId := by
  obtain ⟨m, _, hu⟩ := List.mem_filterMap.mp h
  obtain ⟨d, decided, rfl⟩ := Option.map_eq_some_iff.mp hu
  rcases attribution_mem decided with inSlot | found
  · obtain ⟨slot, _, holds⟩ := Option.bind_eq_some_iff.mp inSlot
    exact known_of_idAt holds
  · simp only [matched, List.mem_dedup, List.mem_map] at found
    obtain ⟨p, hp, same⟩ := found
    exact same ▸ genuine p (List.mem_of_mem_filter hp)

/-- The scan of a run is genuine, whatever packets its pages have brought. -/
theorem scan_genuine {P : GroupText.Primitives} {parser : PacketScan.PacketParser}
    {rows : List PacketTable.PacketRow} {index : Index}
    (scanned : ∀ channels ∈ Progress.listed s.run, PacketScan.decryptPackets P parser
      (GroupText.secretsOf P (channels.list false)) rows = some index) :
    Genuine s (.backfillScan index) := by
  intro channels listed p hp
  obtain ⟨c, hc, same⟩ := PacketScan.decryptPackets_channel (scanned channels listed) p hp
  exact List.mem_map.mpr ⟨c, (mem_list.mp hc).1, same⟩

theorem step_extends (hs : step s a = some t) : Extends s.channels t.channels := by
  cases a with
  | upsert name secret now =>
    cases hs
    exact (upsert_upserted rfl).extends
  | vacateSlot slot id | clearSlot slot | clearSlotsFrom slot =>
    cases hs
    exact extends_unassign _
  | setSlot slot id =>
    cases hs
    cases set : s.channels.setSlot slot id with
    | none => simpa [set] using Extends.refl s.channels
    | some u => simpa [set] using extends_setSlot set
  | _ =>
    have same : t.channels = s.channels := by
      cases move_of_step hs <;> simp_all [Action.repoints]
    rw [same]
    exact Extends.refl _

theorem Referring.grow (h : Referring s) (grows : Extends s.channels later) :
    Referring { s with channels := later } where
  messages m hm c hc := (h.messages m hm c hc).extends grows
  adds a ha c hc := (h.adds a ha c hc).extends grows
  listed channels run := (h.listed channels run).trans grows
  updates us run u hu := (h.updates us run u hu).extends grows

theorem Referring.step (h : Referring s) (genuine : Genuine s a)
    (hs : ChannelBackfill.step s a = some t) : Referring t := by
  have grows := step_extends hs
  cases a with
  | upsert | vacateSlot | setSlot | clearSlot | clearSlotsFrom =>
    cases hs
    exact h.grow grows
  | lookupChannel m =>
    cases hs
    refine ⟨h.messages, fun a ha c hc => ?_, h.listed, h.updates⟩
    rcases List.mem_append.mp ha with old | new
    · exact h.adds a old c hc
    · obtain rfl := List.mem_singleton.mp new
      exact known_of_lookup hc
  | insertMessage k ts =>
    simp only [ChannelBackfill.step] at hs
    split at hs
    · rename_i add found
      cases hs
      refine ⟨fun m hm c hc => ?_, fun a ha => h.adds a (List.mem_of_mem_eraseIdx ha), h.listed,
        h.updates⟩
      rcases mem_insert.mp hm with old | rfl
      · exact h.messages m old c hc
      · exact h.adds add (List.mem_of_getElem? found) c hc
    · cases hs
  | prune cutoffTs =>
    cases hs
    exact ⟨fun m hm => h.messages m (mem_prune.mp hm).1, h.adds, h.listed, h.updates⟩
  | backfillSelect includeInferred =>
    simp only [ChannelBackfill.step] at hs
    split at hs
    · cases hs
      refine ⟨h.messages, h.adds, fun channels run => ?_, fun us run => ?_⟩
      · split at run <;> simp [Progress.listed] at run
      · split at run <;> simp at run
    · cases hs
  | backfillList =>
    simp only [ChannelBackfill.step] at hs
    split at hs
    · cases hs
      refine ⟨h.messages, h.adds, fun channels run => ?_, fun us run => by simp at run⟩
      obtain rfl : s.channels = channels := by simpa [Progress.listed] using run
      exact Extends.refl _
    · cases hs
  | backfillScan index =>
    simp only [ChannelBackfill.step] at hs
    split at hs
    · rename_i targets channels run
      cases hs
      have listed : channels ∈ Progress.listed s.run := by simp [Progress.listed, run]
      refine ⟨h.messages, h.adds, fun _ run => by simp [Progress.listed] at run,
        fun us writing u hu => ?_⟩
      simp only [Option.some.injEq, Progress.writing.injEq] at writing
      subst writing
      exact (known_of_updates (genuine channels listed) hu).extends (h.listed channels listed)
    · cases hs
  | backfillWrite =>
    simp only [ChannelBackfill.step] at hs
    split at hs
    · rename_i u rest run
      cases hs
      refine ⟨fun m hm c hc => ?_, h.adds, fun _ run => by simp [Progress.listed] at run,
        fun us writing v hv => ?_⟩
      · rcases mem_setChannel.mp hm with ⟨old, _⟩ | ⟨x, _, _, rfl⟩
        · exact h.messages m old c hc
        · obtain rfl : u.channelId = c := by simpa using hc
          exact h.updates _ run u List.mem_cons_self
      · simp only [Option.some.injEq, Progress.writing.injEq] at writing
        subst writing
        exact h.updates _ run v (List.mem_cons_of_mem _ hv)
    · cases hs
      exact ⟨h.messages, h.adds, fun _ run => by simp [Progress.listed] at run,
        fun _ run => by simp at run⟩
    · cases hs
  | backfillFails =>
    simp only [ChannelBackfill.step, Option.ite_none_right_eq_some, Option.some.injEq] at hs
    obtain ⟨_, rfl⟩ := hs
    exact ⟨h.messages, h.adds, fun _ run => by simp [Progress.listed] at run,
      fun _ run => by simp at run⟩

theorem init_referring {messages : Messages}
    (known : ∀ m ∈ messages.rows, ∀ c ∈ m.channelId, Known channels c) :
    Referring (init channels messages) where
  messages := known
  adds _ ha := absurd ha List.not_mem_nil
  listed := by simp [Progress.listed, init]
  updates := nofun

theorem listed_isSome {m : Listings.MessageRecord}
    (known : ∀ c ∈ m.channelId, Known channels c) :
    (m.listed channels).channelName.isSome = m.channelId.isSome := by
  simp only [Listings.MessageRecord.listed, Option.isSome_map]
  cases refers : m.channelId with
  | none => simp
  | some c =>
    obtain ⟨r, hr, rfl⟩ := List.mem_map.mp (known c refers)
    simpa using ⟨r, hr, rfl⟩

/-- The channel of a message stays in the table, under its id and with its secret, and a
listing shows a channel name exactly for the messages that have a channel. -/
theorem channels_stay_referred {messages : Messages} {before after : List Action}
    (known : ∀ m ∈ messages.rows, ∀ c ∈ m.channelId, Known channels c)
    (genuine : Runs.Along ChannelBackfill.step Genuine (init channels messages) (before ++ after))
    (hs : Runs.run ChannelBackfill.step (init channels messages) before = some s)
    (ht : Runs.run ChannelBackfill.step s after = some t) :
    (∀ m : Listings.MessageRecord, m.toMessageRow ∈ t.messages.rows →
      (m.listed t.channels).channelName.isSome = m.channelId.isSome) ∧
    ∀ c secret, s.channels.secretOf c = some secret → t.channels.secretOf c = some secret := by
  have referring : Referring t :=
    Runs.invariant (fun _ _ _ h hc hs => h.step hc hs) (init_referring known) genuine
      (Runs.run_append.mpr ⟨s, hs, ht⟩)
  have stays : Extends s.channels t.channels :=
    Runs.reachable (I := fun u => Extends s.channels u.channels)
      (fun _ _ _ h hs => h.trans (step_extends hs)) (Extends.refl _) ht
  exact ⟨fun m hm => listed_isSome (referring.messages _ hm), fun c secret => stays.secretOf⟩

def slotThenScan : List Action :=
  [.upsert "Public" [1] 5, .setSlot 0 1,
    .lookupChannel { scope := .channel, text := "hi", channelIdx := some 0 },
    .insertMessage 0 9, .clearSlot 0,
    .lookupChannel { scope := .channel, text := "ho", channelIdx := some 0 }, .insertMessage 0 10]

def scanWhileRenamed : List Action :=
  [.backfillSelect false, .backfillList, .backfillScan [("ho", ⟨1, 10, 0⟩)],
    .upsert "Renamed" [1] 12, .backfillWrite]

theorem channels_stay_referred_renamed : ∃ s t,
    Runs.run ChannelBackfill.step (init .empty .empty) slotThenScan = some s ∧
      Runs.run ChannelBackfill.step s scanWhileRenamed = some t ∧
      t.messages.rows.map (·.channelId) = [some 1, some 1] ∧
      t.channels.secretOf 1 = some [1] := by
  have got : (Runs.run ChannelBackfill.step (init .empty .empty) slotThenScan).bind (fun s =>
      (Runs.run ChannelBackfill.step s scanWhileRenamed).map fun t =>
        (s.channels.secretOf 1, t.messages.rows.map fun m => m.channelId)) =
          some (some [1], [some 1, some 1]) := by
    decide +kernel
  simp only [Option.bind_eq_some_iff, Option.map_eq_some_iff, Prod.mk.injEq] at got
  obtain ⟨s, hs, t, ht, known, ids⟩ := got
  refine ⟨s, t, hs, ht, ids, (channels_stay_referred ?_ ?_ hs ht).2 1 [1] known⟩
  · exact fun _ hm => absurd hm List.not_mem_nil
  · decide +kernel

end references

end MeshwardenDaemon.ChannelBackfill
