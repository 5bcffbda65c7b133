import MeshwardenDaemon.CommandEnds

/-! The response cache against the commands that change the node. An entry is
written in the step in which its command leaves the slot, so it is newer than a
mutation exactly when its slot number is. -/
namespace MeshwardenDaemon.CommandSlot
open Protocol ResponseCache Library

structure Stored (P : Settings) (s : State) : Prop where
  ttl : s.cache.ttl = P.proxyCacheTtl
  slot_le : ∀ k e, s.cache.entries.lookup k = some e → e.slot ≤ s.slots
  slot_lt : ∀ k e, s.cache.entries.lookup k = some e → s.commandLock ≠ none →
    e.slot < s.slots
  time : ∀ k e, s.cache.entries.lookup k = some e → e.storedAt ≤ s.clock
  source : ∀ k e, s.cache.entries.lookup k = some e → ∃ j,
    (s.calls j).origin.isProxy = true ∧ (s.calls j).frame = k ∧
    (s.calls j).phase = .returned e.frames ∧ (s.calls j).slot = e.slot ∧ e.frames ≠ []

theorem init_stored (P : Settings) : Stored P (init P) := by
  constructor <;> simp [init, ResponseCache.empty]

theorem afterCommand_lookup {P : Settings} {s : State} {c : Call} {frames : List Frame}
    {k : Frame} {e : Entry} (h : (afterCommand P s c frames).entries.lookup k = some e) :
    (c.origin.isProxy = true → isMutating P.codes (code c.frame) = false) ∧
    (s.cache.entries.lookup k = some e ∨ (c.origin.isProxy = true ∧ k = c.frame ∧
      e = ⟨s.clock, frames, c.slot⟩ ∧ frames ≠ [])) := by
  unfold afterCommand at h
  split at h
  · rename_i proxy
    split at h
    · simp at h
    · rename_i mutating
      refine ⟨fun _ => by simpa using mutating, ?_⟩
      split at h
      · rename_i store
        rcases set_lookup h with old | ⟨rfl, rfl⟩
        · exact Or.inl old
        · simp only [Bool.and_eq_true, Bool.not_eq_true', List.isEmpty_eq_false_iff] at store
          exact Or.inr ⟨proxy, rfl, rfl, store.2⟩
      · exact Or.inl h
  · rename_i raw
    exact ⟨fun proxy => absurd proxy raw, Or.inl h⟩

@[simp] theorem afterCommand_ttl (P : Settings) (s : State) (c : Call) (frames : List Frame) :
    (afterCommand P s c frames).ttl = s.cache.ttl := by
  unfold afterCommand
  split
  · split
    · rfl
    · split <;> simp
  · rfl

theorem Stored.quiet {P : Settings} {s t : State} {a : Action} (h : Stored P s)
    (q : Quiet P s a t) : Stored P t where
  ttl := q.ttl.trans h.ttl
  slot_le k e hk := (h.slot_le k e (q.kept k e hk)).trans q.slots
  slot_lt k e hk lock := by
    rcases q.taking lock with ⟨_, slots⟩ | ⟨held, slots⟩
    · have := h.slot_le k e (q.kept k e hk)
      omega
    · exact slots ▸ h.slot_lt k e (q.kept k e hk) held
  time k e hk := (h.time k e (q.kept k e hk)).trans q.clock
  source k e hk := by
    obtain ⟨j, proxy, frame, phase, slot, frames⟩ := h.source k e (q.kept k e hk)
    refine ⟨j, ?_⟩
    rw [q.stable j (by rw [phase]; rfl)]
    exact ⟨proxy, frame, phase, slot, frames⟩

theorem Stored.finish {P : Settings} {s : State} {a : Action} {i : CallId} {d : Call}
    (h : Stored P s) (ok : SlotOk s) (f : Finishes P s a i d) : Stored P (s.finish P i d) := by
  have lock := (ok.holder i).mp f.phase
  have top : d.slot = s.slots := f.slot.trans (ok.slot_top i lock).1
  refine ⟨?_, ?_, ?_, ?_, ?_⟩
  · exact (afterCommand_ttl P s d _).trans h.ttl
  · intro k e hk
    rcases (afterCommand_lookup hk).2 with old | ⟨_, _, rfl, _⟩
    · exact h.slot_le k e old
    · exact top.le
  · exact fun k e hk hlock => absurd rfl hlock
  · intro k e hk
    rcases (afterCommand_lookup hk).2 with old | ⟨_, _, rfl, _⟩
    · exact h.time k e old
    · exact le_refl s.clock
  · intro k e hk
    rcases (afterCommand_lookup hk).2 with old | ⟨proxy, rfl, rfl, frames⟩
    · obtain ⟨j, proxy, frame, phase, slot, frames⟩ := h.source k e old
      have hji : j ≠ i := by
        rintro rfl
        exact absurd f.phase (by simp [phase, Phase.inSlot])
      refine ⟨j, ?_⟩
      rw [State.finish, setCall_calls_ne hji]
      exact ⟨proxy, frame, phase, slot, frames⟩
    · exact ⟨i, by simp [State.finish, proxy, frames]⟩

theorem Stored.step {P : Settings} {s t : State} {a : Action} (h : Stored P s) (ok : SlotOk s)
    (hs : CommandSlot.step P s a = some t) : Stored P t := by
  rcases (move_of_step hs).finishes_or_quiet ok with ⟨i, d, f, rfl⟩ | q
  · exact h.finish ok f
  · exact h.quiet q

/-- Every answer the cache can give is newer than the returned commands in `M`. -/
def Newer (M : Origin → Frame → Bool) (s : State) : Prop :=
  ∀ m fs, M (s.calls m).origin (s.calls m).frame = true → (s.calls m).phase = .returned fs →
    ∀ k e, s.cache.Live k s.clock e → (s.calls m).slot < e.slot

/-- A command in `M` that the proxy does not see returns only when every entry has
outlived the TTL. -/
def Unobserved (M : Origin → Frame → Bool) (P : Settings) (s : State) (a : Action) : Prop :=
  ∀ i ∈ returning P s a, (s.calls i).origin.isProxy = false →
    M (s.calls i).origin (s.calls i).frame = true → s.cache.Expired s.clock

instance (M : Origin → Frame → Bool) (P : Settings) (s : State) (a : Action) :
    Decidable (Unobserved M P s a) := by
  unfold Unobserved
  infer_instance

theorem init_newer (M : Origin → Frame → Bool) (P : Settings) : Newer M (init P) := by
  intro m fs _ phase
  simp [init] at phase

section Newer
variable {M : Origin → Frame → Bool} {P : Settings} {s t : State} {a : Action}
  (flushes : ∀ client frame, M (.proxy client) frame = true →
    isMutating P.codes (code frame) = true)
include flushes

theorem Newer.finish {i : CallId} {d : Call} (h : Newer M s) (ok : SlotOk s)
    (unobserved : Unobserved M P s a) (f : Finishes P s a i d) :
    Newer M (s.finish P i d) := by
  have lock := (ok.holder i).mp f.phase
  intro m fs hm phase k e live
  obtain ⟨mutating, old_or_new⟩ := afterCommand_lookup live.1
  have live' : s.cache.entries.lookup k = some e → s.cache.Live k s.clock e := fun hk =>
    ⟨hk, afterCommand_ttl P s d _ ▸ live.2⟩
  by_cases hmi : m = i
  · subst hmi
    simp only [State.finish, setCall_calls_self] at hm
    cases proxy : d.origin.isProxy with
    | true =>
      obtain ⟨client, horigin⟩ : ∃ client, d.origin = .proxy client := by
        cases ho : d.origin <;> simp_all [Origin.isProxy]
      rw [horigin] at hm
      exact absurd (flushes client d.frame hm) (by simp [mutating proxy])
    | false =>
      rcases old_or_new with old | ⟨isProxy, _⟩
      · rw [f.origin] at proxy
        rw [f.origin, f.frame] at hm
        exact absurd (live' old) (expired_not_live (unobserved m f.action proxy hm) k e)
      · simp [proxy] at isProxy
  · rw [State.finish, setCall_calls_ne hmi] at hm phase ⊢
    rcases old_or_new with old | ⟨_, _, rfl, _⟩
    · exact h m fs hm phase k e (live' old)
    · have top := (ok.slot_top i lock)
      rw [f.slot, top.1]
      exact top.2 m hmi

omit flushes in
theorem Newer.quiet (h : Newer M s) (unobserved : Unobserved M P s a) (q : Quiet P s a t) :
    Newer M t := by
  intro m fs hm phase k e live
  have before : s.cache.Live k s.clock e := by
    refine live_mono q.clock ⟨q.kept k e live.1, ?_⟩
    rw [← q.ttl]
    exact live.2
  rcases q.ended m (by rw [phase]; rfl) with same | ⟨_, e', raised⟩ | ⟨e', _, rfl⟩ |
    ⟨returns, library, slot, same⟩
  · rw [same] at hm phase ⊢
    exact h m fs hm phase k e before
  · simp [raised] at phase
  · simp [State.abandon] at phase
  · rw [same] at hm
    have notProxy : (s.calls m).origin.isProxy = false := by
      cases ho : (s.calls m).origin <;> simp_all [Origin.isLibrary, Origin.isProxy]
    exact absurd before (expired_not_live (unobserved m returns notProxy hm) k e)

theorem Newer.step (h : Newer M s) (ok : SlotOk s) (unobserved : Unobserved M P s a)
    (hs : CommandSlot.step P s a = some t) : Newer M t := by
  rcases (move_of_step hs).finishes_or_quiet ok with ⟨i, d, f, rfl⟩ | q
  · exact h.finish flushes ok unobserved f
  · exact h.quiet unobserved q

end Newer

theorem stored_run {P : Settings} {acts : List Action} {s : State}
    (hrun : Runs.run (step P) (init P) acts = some s) : SlotOk s ∧ Stored P s := by
  refine Runs.reachable (I := fun s => SlotOk s ∧ Stored P s) ?_
    ⟨init_slotOk P, init_stored P⟩ hrun
  rintro s a t ⟨ok, stored⟩ hstep
  exact ⟨ok.step hstep, stored.step ok hstep⟩

theorem newer_run {M : Origin → Frame → Bool} {P : Settings} {acts : List Action} {s : State}
    (flushes : ∀ client frame, M (.proxy client) frame = true →
      isMutating P.codes (code frame) = true)
    (unobserved : Runs.Along (step P) (Unobserved M P) (init P) acts)
    (hrun : Runs.run (step P) (init P) acts = some s) : Newer M s := by
  have both := Runs.invariant (I := fun s => SlotOk s ∧ Newer M s) ?_
    ⟨init_slotOk P, init_newer M P⟩ unobserved hrun
  · exact both.2
  · rintro s a t ⟨ok, newer⟩ hC hstep
    exact ⟨ok.step hstep, newer.step flushes ok hC hstep⟩

/-- The mutating commands that pass through `_handle_command`. -/
def proxiedMutating (P : Settings) (o : Origin) (frame : Frame) : Bool :=
  o.isProxy && isMutating P.codes (code frame)

theorem proxiedMutating_unobserved (P : Settings) (s : State) (a : Action) :
    Unobserved (proxiedMutating P) P s a := by
  intro i _ notProxy mutating
  simp [proxiedMutating, notProxy] at mutating

/-- In every run in which no command gives up the slot, a cache hit is the node's
complete answer to the same request, within the TTL, and its command took the slot
after every proxied mutating command that has returned. -/
theorem no_lost_invalidation (P : Settings) (acts : List Action) (s : State)
    (normal : Runs.Along (step P) NoneAbandoned (init P) acts)
    (hrun : Runs.run (step P) (init P) acts = some s)
    (f : Frame) (frames : List Frame) (hit : (s.cache.get f s.clock).1 = some frames) :
    ∃ e j, s.cache.entries.lookup f = some e ∧ e.frames = frames ∧
      e.storedAt ≤ s.clock ∧ s.clock - e.storedAt ≤ P.proxyCacheTtl ∧
      (s.calls j).origin.isProxy = true ∧ (s.calls j).frame = f ∧
      (s.calls j).phase = .returned frames ∧ (s.calls j).slot = e.slot ∧
      Answers P.codes f frames ∧ s.reply j = some frames ∧
      (∃ last ∈ frames.getLast?, isTerminal P.codes (code f) (code last) = true) ∧
      ∀ m fs, (s.calls m).origin.isProxy = true →
        isMutating P.codes (code (s.calls m).frame) = true →
        (s.calls m).phase = .returned fs → (s.calls m).slot < (s.calls j).slot := by
  obtain ⟨ok, conversing, _⟩ := normal_run normal hrun
  obtain ⟨_, stored⟩ := stored_run hrun
  have newer : Newer (proxiedMutating P) s := by
    refine newer_run (fun client frame h => by simpa [proxiedMutating, Origin.isProxy] using h)
      ?_ hrun
    exact Runs.along_of_always (proxiedMutating_unobserved P) (init P) acts
  obtain ⟨e, live, rfl⟩ := (get_eq_some_iff _ _ _ _).mp hit
  obtain ⟨j, proxy, rfl, phase, slot, nonempty⟩ := stored.source f e live.1
  have raw : (s.calls j).origin.isLibrary = false := by
    cases ho : (s.calls j).origin <;> simp_all [Origin.isLibrary, Origin.isProxy]
  have conv := conversing j (Or.inr raw)
  obtain ⟨_, _, reboot, answer⟩ := conv.returned e.frames phase
  have expects : code (s.calls j).frame ≠ P.codes.value .reboot :=
    fun hr => nonempty (reboot hr)
  have answers := conv.answers (answer expects)
  obtain ⟨xs, last, split⟩ := (List.eq_nil_or_concat e.frames).resolve_left nonempty
  rw [List.concat_eq_append] at split
  have answered : Answers P.codes (s.calls j).frame (xs ++ [last]) := split ▸ answers
  have terminal : isTerminal P.codes (code (s.calls j).frame) (code last) = true :=
    (answers_terminal_iff answered).mpr rfl
  refine ⟨e, j, live.1, rfl, stored.time _ _ live.1, stored.ttl ▸ live.2, proxy, rfl, phase,
    slot, answers, answer expects, ⟨last, by simp [split], terminal⟩, ?_⟩
  intro m fs hm mutating hphase
  rw [slot]
  exact newer m fs (by simp [proxiedMutating, hm, mutating]) hphase _ e live

def cachedReadRun : List Action :=
  [.connect, .handleCommand 0 0 [8, 65], .logged 0, .handleCommand 1 1 [1, 3], .logged 1,
    .acquire 0, .transmit 0, .sendReturns 0, .answer [[0]], .dispatch, .receive 0,
    .forwarded 0, .acquire 1, .transmit 1, .sendReturns 1, .answer [[5, 9]], .dispatch,
    .receive 1, .forwarded 1, .advance 10]

theorem no_lost_invalidation_cachedRead :
    ∃ s, Runs.run (step sampleSettings) (init sampleSettings) cachedReadRun = some s ∧
      (s.cache.get [1, 3] s.clock).1 = some [[5, 9]] ∧
      ∃ j, s.reply j = some [[5, 9]] ∧ (s.calls 0).slot < (s.calls j).slot := by
  obtain ⟨s, hs⟩ := Option.isSome_iff_exists.mp
    (by decide +kernel : (Runs.run (step sampleSettings) (init sampleSettings)
      cachedReadRun).isSome = true)
  have got : (Runs.run (step sampleSettings) (init sampleSettings) cachedReadRun).map
      (fun s => ((s.cache.get [1, 3] s.clock).1, (s.calls 0).origin, (s.calls 0).frame,
        (s.calls 0).phase)) =
      some (some [[5, 9]], .proxy 0, [8, 65], .returned [[0]]) := by
    decide +kernel
  simp only [hs, Option.map_some, Option.some.injEq, Prod.mk.injEq] at got
  obtain ⟨hit, origin, frame, phase⟩ := got
  obtain ⟨_, j, _, _, _, _, _, _, _, _, _, answer, _, order⟩ :=
    no_lost_invalidation sampleSettings cachedReadRun s (by decide +kernel) hs [1, 3] [[5, 9]] hit
  refine ⟨s, hs, hit, j, answer, order 0 [[0]] ?_ ?_ phase⟩
  · rw [origin]
    rfl
  · rw [frame]
    decide

/-- A proxied mutating command that ends in the slot, its bytes sent or not, leaves
no older entry behind exactly when it returns or there was nothing in the cache. -/
theorem mutation_flushes_iff (P : Settings) (acts : List Action) (s t : State) (a : Action)
    (i : CallId) (hrun : Runs.run (step P) (init P) acts = some s)
    (hstep : step P s a = some t) (proxy : (s.calls i).origin.isProxy = true)
    (mutating : isMutating P.codes (code (s.calls i).frame) = true)
    (slot : (s.calls i).phase.inSlot = true) (ends : (t.calls i).phase.ended = true) :
    (∀ k e, t.cache.entries.lookup k = some e → ¬ e.slot < (s.calls i).slot) ↔
      (a.isFail = false ∨ s.cache.entries.entries = []) := by
  obtain ⟨ok, stored⟩ := stored_run hrun
  have lock := (ok.holder i).mp slot
  rcases (move_of_step hstep).finishes_or_quiet ok with ⟨j, d, f, rfl⟩ | q
  · -- the flush runs in the step in which the slot is released
    obtain rfl : i = j := Option.some.inj (lock.symm.trans ((ok.holder j).mp f.phase))
    refine iff_of_true (fun k e hk => ?_) (Or.inl f.normal)
    obtain ⟨flushed, _⟩ := afterCommand_lookup hk
    have := flushed (by rw [f.origin, proxy])
    rw [f.frame, mutating] at this
    cases this
  · have live := Phase.not_ended_of_inSlot slot
    rcases q.ended i ends with same | ⟨out, _⟩ | ⟨e, rfl, rfl⟩ | ⟨_, library, _⟩
    · rw [same, live] at ends
      cases ends
    · rw [slot] at out
      cases out
    · -- every entry is older than the command in the slot
      simp only [Action.isFail, reduceCtorEq, false_or]
      rw [← lookup_none_iff]
      refine ⟨?_, ?_⟩
      · intro kept k
        rcases Option.eq_none_or_eq_some (s.cache.entries.lookup k) with none | ⟨e, he⟩
        · exact none
        · have older := stored.slot_lt k e he (by simp [lock])
          rw [← (ok.slot_top i lock).1] at older
          exact absurd older (kept k e he)
      · intro noEntry k e hk
        have : s.cache.entries.lookup k = some e := hk
        simp [noEntry k] at this
    · cases ho : (s.calls i).origin <;> simp_all [Origin.isLibrary, Origin.isProxy]

def renameSentRun : List Action :=
  [.connect, .handleCommand 0 0 [1], .logged 0, .acquire 0, .transmit 0, .sendReturns 0,
    .answer [[5, 9]], .dispatch, .receive 0, .forwarded 0, .handleCommand 1 1 [8, 65],
    .logged 1, .acquire 1, .transmit 1, .sendReturns 1, .answer [[0]], .dispatch, .receive 1]

theorem mutation_flushes_rename :
    ∃ s t, Runs.run (step sampleSettings) (init sampleSettings) renameSentRun = some s ∧
      step sampleSettings s (.forwarded 1) = some t ∧
      ∀ k e, t.cache.entries.lookup k = some e → ¬ e.slot < (s.calls 1).slot := by
  have got : ((Runs.run (step sampleSettings) (init sampleSettings) renameSentRun).bind
      fun s => (step sampleSettings s (.forwarded 1)).map fun t =>
        ((s.calls 1).origin, (s.calls 1).frame, (s.calls 1).phase.inSlot,
          (t.calls 1).phase.ended)) =
      some (.proxy 1, [8, 65], true, true) := by
    decide +kernel
  simp only [Option.bind_eq_some_iff, Option.map_eq_some_iff, Prod.mk.injEq] at got
  obtain ⟨s, hs, t, ht, origin, frame, slot, ended⟩ := got
  refine ⟨s, t, hs, ht, ?_⟩
  refine (mutation_flushes_iff sampleSettings renameSentRun s t (.forwarded 1) 1 hs ht
    ?_ ?_ slot ended).mpr (Or.inl rfl)
  · rw [origin]
    rfl
  · rw [frame]
    decide

/-- The node has applied the rename when client 1 disconnects: the entry stays. -/
theorem abandoned_mutation_keeps_cache :
    ¬ ∀ s t, Runs.run (step sampleSettings) (init sampleSettings) renameSentRun = some s →
      step sampleSettings s (.fail 1 .clientGone) = some t →
      ∀ k e, t.cache.entries.lookup k = some e → ¬ e.slot < (s.calls 1).slot := by
  intro supposed
  have got : ((Runs.run (step sampleSettings) (init sampleSettings) renameSentRun).bind
      fun s => (step sampleSettings s (.fail 1 .clientGone)).map fun t =>
        (t.cache.entries.lookup [1], (s.calls 1).slot)) =
      some (some ⟨0, [[5, 9]], 1⟩, 2) := by
    decide +kernel
  simp only [Option.bind_eq_some_iff, Option.map_eq_some_iff, Prod.mk.injEq] at got
  obtain ⟨s, hs, t, ht, stale, slot⟩ := got
  exact supposed s t hs ht [1] _ stale (by rw [slot]; decide)

/-- The commands that change node state a cacheable read shows, by every route. -/
def invalidates (P : Settings) : Origin → Frame → Bool
  | .proxy _, frame | .raw, frame => isMutating P.codes (code frame)
  | .library .setName, _ | .library .setRadio, _ | .library .setTxPower, _
  | .library .setCoords, _ | .library .removeContact, _ => true
  | .library _, _ => false

/-- Along every run in which a mutating command issued outside the proxy returns
only when each cache entry has outlived the TTL, no hit is older than a mutating
command that has returned. -/
theorem cache_coherent_across_consumers (P : Settings) (acts : List Action) (s : State)
    (unobserved : Runs.Along (step P) (Unobserved (invalidates P) P) (init P) acts)
    (hrun : Runs.run (step P) (init P) acts = some s)
    (f : Frame) (frames : List Frame) (hit : (s.cache.get f s.clock).1 = some frames) :
    ∃ e, s.cache.Live f s.clock e ∧ e.frames = frames ∧
      ∀ m fs, invalidates P (s.calls m).origin (s.calls m).frame = true →
        (s.calls m).phase = .returned fs → (s.calls m).slot < e.slot := by
  obtain ⟨e, live, frames⟩ := (get_eq_some_iff _ _ _ _).mp hit
  have newer := newer_run (fun _ _ h => h) unobserved hrun
  exact ⟨e, live, frames, fun m fs hm phase => newer m fs hm phase f e live⟩

def renameThenReadRun : List Action :=
  [.connect, .command 0 .setName, .acquire 0, .librarySend 0 [8, 65], .answer [[0]],
    .dispatch, .libraryReturns 0, .handleCommand 1 1 [1], .logged 1, .acquire 1, .transmit 1,
    .sendReturns 1, .answer [[5, 9]], .dispatch, .receive 1, .forwarded 1]

theorem cache_coherent_renameThenRead :
    ∃ s, Runs.run (step sampleSettings) (init sampleSettings) renameThenReadRun = some s ∧
      ∃ e, s.cache.Live [1] s.clock e ∧ (s.calls 0).slot < e.slot := by
  have got : (Runs.run (step sampleSettings) (init sampleSettings) renameThenReadRun).map
      (fun s => ((s.cache.get [1] s.clock).1, (s.calls 0).origin, (s.calls 0).phase)) =
      some (some [[5, 9]], .library .setName, .returned []) := by
    decide +kernel
  simp only [Option.map_eq_some_iff, Prod.mk.injEq] at got
  obtain ⟨s, hs, hit, origin, phase⟩ := got
  obtain ⟨e, live, _, newer⟩ := cache_coherent_across_consumers sampleSettings
    renameThenReadRun s (by decide +kernel) hs [1] [[5, 9]] hit
  exact ⟨s, hs, e, live, newer 0 [] (by rw [origin]; rfl) phase⟩

def readThenRenameRun : List Action :=
  [.connect, .handleCommand 1 1 [1], .logged 1, .acquire 1, .transmit 1, .sendReturns 1,
    .answer [[5, 9]], .dispatch, .receive 1, .forwarded 1, .command 0 .setName, .acquire 0,
    .librarySend 0 [8, 65], .answer [[0]], .dispatch, .libraryReturns 0]

theorem library_mutation_keeps_cache :
    ¬ ∀ s, Runs.run (step sampleSettings) (init sampleSettings) readThenRenameRun = some s →
      ∀ f frames, (s.cache.get f s.clock).1 = some frames →
        ∃ e, s.cache.Live f s.clock e ∧ e.frames = frames ∧
          ∀ m fs, invalidates sampleSettings (s.calls m).origin (s.calls m).frame = true →
            (s.calls m).phase = .returned fs → (s.calls m).slot < e.slot := by
  intro supposed
  have got : (Runs.run (step sampleSettings) (init sampleSettings) readThenRenameRun).map
      (fun s => ((s.cache.get [1] s.clock).1, s.cache.entries.lookup [1],
        (s.calls 0).origin, (s.calls 0).phase, (s.calls 0).slot)) =
      some (some [[5, 9]], some ⟨0, [[5, 9]], 1⟩, .library .setName, .returned [], 2) := by
    decide +kernel
  simp only [Option.map_eq_some_iff, Prod.mk.injEq] at got
  obtain ⟨s, hs, hit, stale, origin, phase, slot⟩ := got
  obtain ⟨e, live, _, newer⟩ := supposed s hs [1] _ hit
  have younger := newer 0 [] (by rw [origin]; rfl) phase
  obtain rfl := Option.some.inj (stale.symm.trans live.1)
  rw [slot] at younger
  exact absurd younger (by decide)

end MeshwardenDaemon.CommandSlot
