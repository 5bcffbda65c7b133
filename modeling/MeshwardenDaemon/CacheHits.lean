import MeshwardenDaemon.CacheHistory
import MeshwardenDaemon.CacheCoherence

/-! When the proxy answers from its cache. The calls on the cache are read off a run, and the
cache is what they make of it; so a cacheable command is answered from the cache exactly when
one with the same bytes has returned within the TTL and no mutating command since. -/
namespace MeshwardenDaemon.CommandSlot
open Protocol ResponseCache CacheHistory Library

def proxiedReturn (P : Settings) (s : State) : Action → Option Call
  | .sendReturns i =>
    if code (s.calls i).frame = P.codes.value .reboot ∧ (s.calls i).origin.isProxy then
      some (s.calls i)
    else none
  | .forwarded i =>
    match (s.calls i).phase with
    | .forwarding resp =>
      if isTerminal P.codes (code (s.calls i).frame) (code resp) ∧
          (s.calls i).origin.isProxy then
        some (s.calls i)
      else none
    | _ => none
  | _ => none

/-- What the tail of `_handle_command` calls on the cache. -/
def tailOp (P : Settings) (now : ℚ) (c : Call) : Option Op :=
  if isMutating P.codes (code c.frame) then some .clear
  else if isCacheable P.codes (code c.frame) && !(c.frames.map Rx.frame).isEmpty then
    some (.set c.frame (c.frames.map Rx.frame) now c.slot)
  else none

def cacheOp (P : Settings) (x : State × Action) : Option Op :=
  match x.2 with
  | .logged i =>
    if isCacheable P.codes (code (x.1.calls i).frame) then
      some (.get (x.1.calls i).frame x.1.clock)
    else none
  | a => (proxiedReturn P x.1 a).bind (tailOp P x.1.clock)

section ops
variable {P : Settings} {s t : State} {a : Action}

theorem afterCommand_eq {c : Call} (proxy : c.origin.isProxy = true) :
    afterCommand P s c (c.frames.map Rx.frame) =
      ((tailOp P s.clock c).map fun op => op.apply s.cache).getD s.cache := by
  unfold afterCommand tailOp
  rw [if_pos proxy]
  split
  · rfl
  · split <;> rfl

theorem afterCommand_raw {c : Call} (raw : c.origin.isProxy = false) (frames : List Frame) :
    afterCommand P s c frames = s.cache := by
  simp [afterCommand, raw]

theorem consumed_cache {i : CallId} {c : Call} {resp : Frame} :
    (s.consumed P i c resp).cache =
      if isTerminal P.codes (code c.frame) (code resp) then
        afterCommand P s c (c.frames.map Rx.frame)
      else s.cache := by
  unfold State.consumed
  split <;> rfl

@[simp] theorem consumed_clock {i : CallId} {c : Call} {resp : Frame} :
    (s.consumed P i c resp).clock = s.clock := by
  unfold State.consumed
  split <;> rfl

theorem lookup_cache {i : CallId} : (s.lookup P i).cache =
    if isCacheable P.codes (code (s.calls i).frame) then
      (s.cache.get (s.calls i).frame s.clock).2
    else s.cache := by
  unfold State.lookup
  simp only
  split
  · split
    · rename_i cached cache hget
      rw [hget]
      rfl
    · rename_i cache hget
      rw [hget]
      rfl
  · rfl

@[simp] theorem lookup_clock {i : CallId} : (s.lookup P i).clock = s.clock := by
  unfold State.lookup
  simp only
  split
  · split <;> rfl
  · rfl

theorem dispatchFrame_cache (r : Rx) :
    (s.dispatchFrame r).cache = s.cache ∧ (s.dispatchFrame r).clock = s.clock := by
  rcases dispatchFrame_cases s r with same | ⟨q, -, -, queued⟩
  · rw [same]
    exact ⟨rfl, rfl⟩
  · rw [queued]
    exact ⟨rfl, rfl⟩

theorem tail_cache (c : Call) (ended : Prop) [Decidable ended] :
    (if ended then afterCommand P s c (c.frames.map Rx.frame) else s.cache) =
      (((if ended ∧ c.origin.isProxy = true then some c else none).bind (tailOp P s.clock)).map
        fun op => op.apply s.cache).getD s.cache := by
  split
  · rename_i last
    cases proxy : c.origin.isProxy with
    | true =>
      rw [if_pos ⟨last, rfl⟩]
      exact afterCommand_eq proxy
    | false =>
      rw [if_neg (by simp)]
      exact afterCommand_raw proxy _
  · rename_i more
    rw [if_neg (fun both => more both.1)]
    rfl

theorem logged_cache {i : CallId} (hs : step P s (.logged i) = some t) :
    t.cache = ((cacheOp P (s, .logged i)).map fun op => op.apply s.cache).getD s.cache ∧
      s.clock ≤ t.clock := by
  simp only [step, Option.ite_none_right_eq_some, Option.some.injEq] at hs
  obtain ⟨-, rfl⟩ := hs
  refine ⟨?_, by simp⟩
  rw [lookup_cache]
  simp only [cacheOp]
  split <;> rfl

theorem sendReturns_cache {i : CallId} (hs : step P s (.sendReturns i) = some t) :
    t.cache = ((cacheOp P (s, .sendReturns i)).map fun op => op.apply s.cache).getD s.cache ∧
      s.clock ≤ t.clock := by
  simp only [step, Option.ite_none_right_eq_some, Option.some.injEq] at hs
  obtain ⟨-, rfl⟩ := hs
  have tail := tail_cache (P := P) (s := s) (s.calls i)
    (code (s.calls i).frame = P.codes.value .reboot)
  simp only [cacheOp, proxiedReturn, ← tail]
  split <;> exact ⟨rfl, le_rfl⟩

theorem forwarded_cache {i : CallId} (hs : step P s (.forwarded i) = some t) :
    t.cache = ((cacheOp P (s, .forwarded i)).map fun op => op.apply s.cache).getD s.cache ∧
      s.clock ≤ t.clock := by
  simp only [step] at hs
  split at hs
  · rename_i resp phase
    cases hs
    refine ⟨?_, by simp⟩
    rw [consumed_cache]
    simp only [cacheOp, proxiedReturn, phase]
    exact tail_cache (s.calls i) _
  · cases hs

theorem receive_cache {i : CallId} (hs : step P s (.receive i) = some t) :
    t.cache = s.cache ∧ s.clock ≤ t.clock := by
  simp only [step] at hs
  split at hs
  · cases hs
    split
    · exact ⟨rfl, le_rfl⟩
    · rename_i raw
      refine ⟨?_, by simp⟩
      rw [consumed_cache]
      split
      · exact afterCommand_raw (by simpa using raw) _
      · rfl
  · cases hs

theorem cache_step (hs : step P s a = some t) :
    t.cache = ((cacheOp P (s, a)).map fun op => op.apply s.cache).getD s.cache ∧
      s.clock ≤ t.clock := by
  cases a with
  | logged i => exact logged_cache hs
  | sendReturns i => exact sendReturns_cache hs
  | forwarded i => exact forwarded_cache hs
  | receive i => exact receive_cache hs
  | advance clock =>
    simp only [step, Option.ite_none_right_eq_some, Option.some.injEq] at hs
    obtain ⟨later, rfl⟩ := hs
    exact ⟨rfl, later⟩
  | connect | lose | close | handleCommand | sendRawCommand | command | writeError | transmit
  | librarySend | libraryReturns | fail =>
    simp only [step, Option.ite_none_right_eq_some, Option.some.injEq] at hs
    obtain ⟨-, rfl⟩ := hs
    exact ⟨rfl, le_rfl⟩
  | writeCached i | acquire i =>
    simp only [step] at hs
    split at hs
    · cases hs
      exact ⟨rfl, le_rfl⟩
    · cases hs
  | answer reply =>
    simp only [step] at hs
    split at hs
    · simp only [Option.ite_none_right_eq_some, Option.some.injEq] at hs
      obtain ⟨-, rfl⟩ := hs
      exact ⟨rfl, le_rfl⟩
    · cases hs
  | dispatch =>
    simp only [step] at hs
    split at hs
    · cases hs
      obtain ⟨cache, clock⟩ := dispatchFrame_cache (s := { s with outbox := _ }) _
      exact ⟨cache, clock.ge⟩
    · cases hs
  | push frame =>
    simp only [step, Option.ite_none_right_eq_some, Option.some.injEq] at hs
    obtain ⟨-, rfl⟩ := hs
    obtain ⟨cache, clock⟩ := dispatchFrame_cache (s := s) ⟨frame, none⟩
    exact ⟨cache, clock.ge⟩

theorem cacheOp_time {x : State × Action} {op : Op} (h : cacheOp P x = some op) :
    op.time?.getD x.1.clock = x.1.clock := by
  obtain ⟨s, a⟩ := x
  simp only [cacheOp] at h
  split at h
  · simp only [Option.ite_none_right_eq_some, Option.some.injEq] at h
    obtain ⟨-, rfl⟩ := h
    rfl
  · obtain ⟨c, -, tail⟩ := Option.bind_eq_some_iff.mp h
    unfold tailOp at tail
    split at tail
    · cases tail
      rfl
    · split at tail
      · cases tail
        rfl
      · cases tail

theorem cache_run {acts : List Action} (hrun : Runs.run (step P) (init P) acts = some s) :
    ∃ clock ≤ s.clock, Runs.run CacheHistory.step ⟨ResponseCache.empty P.proxyCacheTtl, 0⟩
      ((Runs.trace (step P) (init P) acts).filterMap (cacheOp P)) = some ⟨s.cache, clock⟩ := by
  refine Runs.recorded (C := fun _ _ => True) (H := fun record s => ∃ clock ≤ s.clock,
      Runs.run CacheHistory.step ⟨ResponseCache.empty P.proxyCacheTtl, 0⟩
        (record.filterMap (cacheOp P)) = some ⟨s.cache, clock⟩) ?_ ⟨0, le_rfl, rfl⟩
    (Runs.along_of_always (fun _ _ => trivial) _ _) hrun
  rintro record u a v ⟨clock, before, ran⟩ - hv
  obtain ⟨cache, later⟩ := cache_step hv
  rw [List.filterMap_append]
  cases called : cacheOp P (u, a) with
  | none =>
    rw [called] at cache
    refine ⟨clock, before.trans later, ?_⟩
    simp only [List.filterMap_cons, called, List.filterMap_nil, List.append_nil, ran]
    exact congrArg (fun c => some (⟨c, clock⟩ : CacheHistory.State)) cache.symm
  | some op =>
    rw [called] at cache
    have time := cacheOp_time called
    have now : op.time?.getD clock ≤ u.clock := by
      cases read : op.time? with
      | none => exact before
      | some τ => simpa [read] using time.le
    have goes : clock ≤ op.time?.getD clock := by
      cases read : op.time? with
      | none => exact le_rfl
      | some τ => exact before.trans (by simpa [read] using time.ge)
    refine ⟨op.time?.getD clock, now.trans later, ?_⟩
    simp only [List.filterMap_cons, called, List.filterMap_nil]
    refine Runs.run_append.mpr ⟨_, ran, Runs.run_cons.mpr ⟨_, if_pos goes, ?_⟩⟩
    exact congrArg (fun c => some (⟨c, op.time?.getD clock⟩ : CacheHistory.State)) cache.symm

end ops

/-- A proxied command with these bytes returned at this time with these frames, and since then
neither another one with these bytes that got an answer, nor a mutating one. -/
def LastRead (P : Settings) (record : List (State × Action)) (f : Frame) (storedAt : ℚ)
    (frames : List Frame) : Prop :=
  ∃ before x after c, record = before ++ x :: after ∧
    proxiedReturn P x.1 x.2 = some c ∧ c.frame = f ∧ c.frames.map Rx.frame = frames ∧
    frames ≠ [] ∧ x.1.clock = storedAt ∧
    ∀ y ∈ after, ∀ d ∈ proxiedReturn P y.1 y.2,
      isMutating P.codes (code d.frame) = false ∧ (d.frame = f → d.frames = [])

section reads
variable {P : Settings} {f : Frame}

theorem tailOp_set (cacheable : isCacheable P.codes (code f) = true) (now : ℚ) {storedAt : ℚ}
    {c : Call} {frames : List Frame} :
    (∃ slot, tailOp P now c = some (.set f frames storedAt slot)) ↔
      c.frame = f ∧ c.frames.map Rx.frame = frames ∧ frames ≠ [] ∧ now = storedAt := by
  unfold tailOp
  refine ⟨?_, ?_⟩
  · rintro ⟨slot, h⟩
    split at h
    · cases h
    · simp only [Option.ite_none_right_eq_some, Option.some.injEq, Op.set.injEq,
        Bool.and_eq_true, Bool.not_eq_true', List.isEmpty_eq_false_iff] at h
      obtain ⟨⟨-, answer⟩, frame, same, time, -⟩ := h
      exact ⟨frame, same, same ▸ answer, time⟩
  · rintro ⟨rfl, rfl, answer, rfl⟩
    have reads := isMutating_of_isCacheable P.codes cacheable
    refine ⟨c.slot, ?_⟩
    rw [if_neg (by simp [reads]), if_pos]
    simpa [cacheable] using answer

theorem tailOp_quiet (cacheable : isCacheable P.codes (code f) = true) {now : ℚ} {c : Call} :
    (∀ op ∈ tailOp P now c, op.overwrites f = false) ↔
      isMutating P.codes (code c.frame) = false ∧ (c.frame = f → c.frames = []) := by
  unfold tailOp
  split
  · rename_i mutating
    simp [Op.overwrites, mutating]
  · rename_i reads
    simp only [Bool.not_eq_true] at reads
    simp only [reads, true_and]
    split
    · rename_i store
      simp only [Bool.and_eq_true, Bool.not_eq_true', List.isEmpty_eq_false_iff, ne_eq,
        List.map_eq_nil_iff] at store
      simp [Op.overwrites, store.2]
    · rename_i keep
      simp only [Option.mem_def, reduceCtorEq, false_implies, implies_true, true_iff]
      rintro rfl
      simpa [cacheable] using keep

theorem cacheOp_set {x : State × Action} {storedAt : ℚ} {frames : List Frame} {slot : ℕ} :
    cacheOp P x = some (.set f frames storedAt slot) ↔
      ∃ c, proxiedReturn P x.1 x.2 = some c ∧
        tailOp P x.1.clock c = some (.set f frames storedAt slot) := by
  obtain ⟨s, a⟩ := x
  rw [← Option.bind_eq_some_iff]
  cases a <;> simp [cacheOp, proxiedReturn]

theorem cacheOp_quiet (x : State × Action) : (∀ op ∈ cacheOp P x, op.overwrites f = false) ↔
    ∀ c ∈ proxiedReturn P x.1 x.2, ∀ op ∈ tailOp P x.1.clock c, op.overwrites f = false := by
  obtain ⟨s, a⟩ := x
  have bound : (∀ op ∈ (proxiedReturn P s a).bind (tailOp P s.clock),
      op.overwrites f = false) ↔
      ∀ c ∈ proxiedReturn P s a, ∀ op ∈ tailOp P s.clock c, op.overwrites f = false := by
    cases proxiedReturn P s a <;> simp
  cases a with
  | logged i =>
    simp only [cacheOp, proxiedReturn]
    split <;> simp [Op.overwrites]
  | _ => exact bound

/-- What was set last is what was read last. -/
theorem latest_iff (cacheable : isCacheable P.codes (code f) = true)
    {record : List (State × Action)} {storedAt : ℚ} {frames : List Frame} :
    Latest (record.filterMap (cacheOp P)) f storedAt frames ↔
      LastRead P record f storedAt frames := by
  have quiet : ∀ y : State × Action, (∀ op ∈ cacheOp P y, op.overwrites f = false) ↔
      ∀ d ∈ proxiedReturn P y.1 y.2,
        isMutating P.codes (code d.frame) = false ∧ (d.frame = f → d.frames = []) := by
    intro y
    rw [cacheOp_quiet]
    exact forall₂_congr fun _ _ => tailOp_quiet cacheable
  refine ⟨?_, ?_⟩
  · rintro ⟨before, slot, after, split, silent⟩
    obtain ⟨first, rest, rfl, -, split⟩ := List.filterMap_eq_append_iff.mp split
    obtain ⟨skipped, x, last, rfl, -, set, rfl⟩ := List.filterMap_eq_cons_iff.mp split
    obtain ⟨c, returns, set⟩ := cacheOp_set.mp set
    obtain ⟨frame, same, answer, time⟩ := (tailOp_set cacheable _).mp ⟨slot, set⟩
    refine ⟨first ++ skipped, x, last, c, by simp, returns, frame, same, answer, time,
      fun y hy => (quiet y).mp fun op hop => ?_⟩
    exact silent op (List.mem_filterMap.mpr ⟨y, hy, hop⟩)
  · rintro ⟨before, x, after, c, rfl, returns, frame, same, answer, time, silent⟩
    obtain ⟨slot, set⟩ := (tailOp_set cacheable x.1.clock).mpr ⟨frame, same, answer, time⟩
    have called : cacheOp P x = some (.set f frames storedAt slot) :=
      cacheOp_set.mpr ⟨c, returns, set⟩
    refine ⟨before.filterMap (cacheOp P), slot, after.filterMap (cacheOp P), ?_, ?_⟩
    · simp [called]
    · intro op hop
      obtain ⟨y, hy, hop⟩ := List.mem_filterMap.mp hop
      exact (quiet y).mpr (silent y hy) op hop

end reads

/-- The proxy answers a cacheable command from its cache, without the node, exactly when a
command with the same bytes was answered within the TTL and no proxied mutating command has
returned since; and what it writes is the latest such answer. -/
theorem proxy_hits_iff (P : Settings) (acts : List Action) (s t : State) (i : CallId)
    (hrun : Runs.run (step P) (init P) acts = some s) (hstep : step P s (.logged i) = some t)
    (cacheable : isCacheable P.codes (code (s.calls i).frame) = true) (frames : List Frame) :
    (t.calls i).phase = .replaying frames ↔
      0 < P.proxyCacheTtl ∧ ∃ storedAt, s.clock - storedAt ≤ P.proxyCacheTtl ∧
        LastRead P (Runs.trace (step P) (init P) acts) (s.calls i).frame storedAt frames := by
  obtain ⟨clock, before, ran⟩ := cache_run hrun
  have remembers := Runs.history (fun _ _ _ _ h hs => h.step hs)
    (init_remembers P.proxyCacheTtl) ran
  have hit : (s.cache.get (s.calls i).frame s.clock).1 = some frames ↔ _ :=
    remembers.get_iff before
  simp only [step, Option.ite_none_right_eq_some, Option.some.injEq] at hstep
  obtain ⟨-, rfl⟩ := hstep
  have replays : ((s.lookup P i).calls i).phase = .replaying frames ↔
      (s.cache.get (s.calls i).frame s.clock).1 = some frames := by
    unfold State.lookup
    simp only [cacheable, if_true]
    split
    · rename_i cached cache hget
      simp [State.setCall, hget]
    · rename_i cache hget
      have entered : (s.enter (s.calls i)).phase ≠ .replaying frames := by
        unfold State.enter
        split
        · exact Phase.noConfusion
        · simp only
          split <;> exact Phase.noConfusion
      simp [State.setCall, hget, entered]
  rw [replays, hit]
  refine and_congr_right fun _ => exists_congr fun storedAt => ?_
  rw [latest_iff cacheable]
  exact and_comm

def readTwiceRun : List Action :=
  renameSentRun ++ [.forwarded 1, .handleCommand 2 2 [1], .logged 2, .acquire 2, .transmit 2,
    .sendReturns 2, .answer [[5, 7]], .dispatch, .receive 2, .forwarded 2, .advance 3,
    .handleCommand 3 2 [1]]

theorem proxy_hits_iff_readTwice :
    ∃ s t, Runs.run (step sampleSettings) (init sampleSettings) readTwiceRun = some s ∧
      step sampleSettings s (.logged 3) = some t ∧ ∃ storedAt,
        LastRead sampleSettings (Runs.trace (step sampleSettings) (init sampleSettings)
          readTwiceRun) [1] storedAt [[5, 7]] := by
  have got : ((Runs.run (step sampleSettings) (init sampleSettings) readTwiceRun).bind
      fun s => (step sampleSettings s (.logged 3)).map fun t =>
        ((s.calls 3).frame, (t.calls 3).phase)) = some ([1], .replaying [[5, 7]]) := by
    decide +kernel
  simp only [Option.bind_eq_some_iff, Option.map_eq_some_iff, Prod.mk.injEq] at got
  obtain ⟨s, hs, t, ht, frame, replays⟩ := got
  have hit := (proxy_hits_iff sampleSettings readTwiceRun s t 3 hs ht
    (by rw [frame]; decide) [[5, 7]]).mp replays
  obtain ⟨-, storedAt, -, read⟩ := hit
  exact ⟨s, t, hs, ht, storedAt, frame ▸ read⟩

end MeshwardenDaemon.CommandSlot
