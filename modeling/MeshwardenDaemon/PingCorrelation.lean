import MeshwardenDaemon.Ping

/-! Which frame answers which ping. The table of pending tokens and the calls that
registered them agree in every state, so a frame reaches one call at most, and nothing
is left of a call that has ended. -/
namespace MeshwardenDaemon.Ping
open Protocol Framing Library

/-- The frame is the trace a call waits for, received before its deadline. -/
structure Matches (c : Call) (frame : Frame) (received : ℚ) : Prop where
  push : frame.headD 0 = 0x89
  tag : UInt32.ofNat (fromBytesLittle ((frame.drop 4).take 4)) = c.token.1
  auth : UInt32.ofNat (fromBytesLittle ((frame.drop 8).take 4)) = c.token.2
  pathBytes : frame[2]?.map UInt8.toNat = some c.route.length
  flags : frame[3]?.map UInt8.toNat = some c.flags
  route : (frame.drop 12).take c.route.length = c.route
  length : frame.length = 13 + c.route.length + c.route.length / 2 ^ c.flags
  inTime : received < c.deadline

def snrsOf (c : Call) (frame : Frame) : List ℚ :=
  (frame.drop (12 + c.route.length)).map fun b => (signedByte b : ℚ) / 4

def Entry.Speaks (e : Entry) (token : Token) (c : Call) : Prop :=
  c.phase.registered = true ∧ c.token = token ∧ c.route = e.route ∧ c.flags = e.flags ∧
    c.deadline = e.deadline

section onFrame
variable {s : State} {frame : Frame}

theorem getByte_ok {i : ℕ} (h : i < frame.length) : getByte frame i = .ok frame[i] := by
  simp only [getByte, List.getElem?_eq_getElem h]

theorem unpackToken_ok (h : 12 ≤ frame.length) :
    unpackToken frame 4 = .ok (UInt32.ofNat (fromBytesLittle ((frame.drop 4).take 4)),
      UInt32.ofNat (fromBytesLittle ((frame.drop 8).take 4))) :=
  if_neg (Nat.not_lt.mpr h)

theorem matches_of_accepts {e : Entry} {c : Call} {received : ℚ} (long : 13 ≤ frame.length)
    (push : frame.headD 0 = 0x89)
    (speaks : e.Speaks (UInt32.ofNat (fromBytesLittle ((frame.drop 4).take 4)),
      UInt32.ofNat (fromBytesLittle ((frame.drop 8).take 4))) c)
    (accepts : e.rejects frame frame[2] frame[3] c.future.done received = false) :
    Matches c frame received ∧ c.future = .waiting ∧
      frame.length = 13 + e.route.length + e.route.length / 2 ^ e.flags := by
  obtain ⟨-, token, route, flags, deadline⟩ := speaks
  simp only [Entry.rejects, Bool.or_eq_false_iff, bne_eq_false_iff_eq, decide_eq_false_iff_not,
    not_le] at accepts
  obtain ⟨⟨⟨⟨⟨pathBytes, flagBits⟩, length⟩, hashes⟩, waits⟩, inTime⟩ := accepts
  refine ⟨⟨push, ?_, ?_, ?_, ?_, ?_, ?_, ?_⟩, ?_, length⟩
  · rw [token]
  · rw [token]
  · rw [List.getElem?_eq_getElem (by omega), Option.map_some, pathBytes, route]
  · rw [List.getElem?_eq_getElem (by omega), Option.map_some, flagBits, flags]
  · rw [route, hashes]
  · rw [route, flags, length]
  · rw [deadline]
    exact inTime
  · cases future : c.future with
    | waiting => rfl
    | result | cancelled => simp [future, Future.done] at waits

theorem onFrame_spec (owned : ∀ token e, s.pending token = some e →
      e.Speaks token (s.calls e.ping)) (frame : Frame) :
    s.onFrame frame = .ok none ∨
      ∃ i, s.onFrame frame = .ok (some (i, snrsOf (s.calls i) frame)) ∧
        (s.calls i).phase.registered = true ∧ (s.calls i).future = .waiting ∧
        Matches (s.calls i) frame s.clock := by
  unfold State.onFrame
  split
  · exact Or.inl rfl
  rename_i passes
  simp only [Bool.or_eq_true, decide_eq_true_eq, bne_iff_ne, ne_eq, not_or, not_lt,
    Decidable.not_not] at passes
  obtain ⟨long, push⟩ := passes
  rw [unpackToken_ok (by omega)]
  simp only [bind, Except.bind]
  split
  · exact Or.inl rfl
  rename_i e found
  have speaks := owned _ e found
  rw [getByte_ok (show 2 < frame.length by omega), getByte_ok (show 3 < frame.length by omega)]
  simp only
  split
  · exact Or.inl rfl
  rename_i accepts
  have accepts := Bool.eq_false_iff.mpr accepts
  obtain ⟨fits, waits, length⟩ := matches_of_accepts long push speaks accepts
  have size : (frame.drop (12 + e.route.length)).length = e.route.length / 2 ^ e.flags + 1 := by
    rw [List.length_drop, length]
    generalize e.route.length / 2 ^ e.flags = count
    omega
  refine Or.inr ⟨e.ping, ?_, speaks.1, waits, fits⟩
  simp only [unpackSigned, if_pos size, waits, Future.done, snrsOf, speaks.2.2.1, List.map_map,
    Bool.false_eq_true, if_false]
  rfl

end onFrame

theorem Matches.congr {c d : Call} {frame : Frame} {received : ℚ} (h : Matches c frame received)
    (token : d.token = c.token) (route : d.route = c.route) (flags : d.flags = c.flags)
    (deadline : d.deadline = c.deadline) : Matches d frame received := by
  refine ⟨h.push, ?_, ?_, ?_, ?_, ?_, ?_, ?_⟩
  · rw [token, h.tag]
  · rw [token, h.auth]
  · rw [route, h.pathBytes]
  · rw [flags, h.flags]
  · rw [route, h.route]
  · rw [route, flags, h.length]
  · rw [deadline]
    exact h.inTime

structure CallSound (frames : List (Frame × ℚ)) (c : Call) : Prop where
  waiting : (∀ received snrs, c.future ≠ .result received snrs) → c.completedBy = []
  result : ∀ received snrs, c.future = .result received snrs → ∃ n frame,
    c.completedBy = [n] ∧ frames[n]? = some (frame, received) ∧ Matches c frame received ∧
      snrs = snrsOf c frame
  returned : ∀ elapsedMs snrs, c.phase = .returned elapsedMs snrs → ∃ received,
    c.future = .result received snrs ∧ elapsedMs = (received - c.started) * 1000

theorem callSound_new {frames : List (Frame × ℚ)} {c : Call} (future : c.future = .waiting)
    (completedBy : c.completedBy = [])
    (other : ∀ elapsedMs snrs, c.phase ≠ .returned elapsedMs snrs) : CallSound frames c where
  waiting _ := completedBy
  result received snrs h := by
    rw [future] at h
    cases h
  returned elapsedMs snrs h := absurd h (other elapsedMs snrs)

theorem CallSound.withPhase {frames : List (Frame × ℚ)} {c : Call} (h : CallSound frames c)
    {phase : Phase} (other : ∀ elapsedMs snrs, phase ≠ .returned elapsedMs snrs) :
    CallSound frames { c with phase := phase } where
  waiting := h.waiting
  result received snrs hr := by
    obtain ⟨n, frame, by_n, at_n, fits, same⟩ := h.result received snrs hr
    exact ⟨n, frame, by_n, at_n, fits.congr rfl rfl rfl rfl, same⟩
  returned elapsedMs snrs hp := absurd hp (other elapsedMs snrs)

theorem cancel_eq_result {f : Future} {received : ℚ} {snrs : List ℚ} :
    f.cancel = .result received snrs ↔ f = .result received snrs := by
  cases f <;> simp [Future.cancel]

theorem CallSound.cancel {frames : List (Frame × ℚ)} {c : Call} (h : CallSound frames c)
    {phase : Phase} (returned : ∀ elapsedMs snrs, phase = .returned elapsedMs snrs → ∃ received,
      c.future = .result received snrs ∧ elapsedMs = (received - c.started) * 1000) :
    CallSound frames { c with phase := phase, future := c.future.cancel } where
  waiting hw := h.waiting fun received snrs hr => hw received snrs (cancel_eq_result.mpr hr)
  result received snrs hr := by
    obtain ⟨n, frame, by_n, at_n, fits, same⟩ :=
      h.result received snrs (cancel_eq_result.mp hr)
    exact ⟨n, frame, by_n, at_n, fits.congr rfl rfl rfl rfl, same⟩
  returned elapsedMs snrs hp := by
    obtain ⟨received, future, elapsed⟩ := returned elapsedMs snrs hp
    exact ⟨received, cancel_eq_result.mpr future, elapsed⟩

theorem CallSound.later {frames : List (Frame × ℚ)} {c : Call} (h : CallSound frames c)
    (more : List (Frame × ℚ)) : CallSound (frames ++ more) c where
  waiting := h.waiting
  result received snrs hr := by
    obtain ⟨n, frame, by_n, at_n, rest⟩ := h.result received snrs hr
    have inside : n < frames.length := (List.getElem?_eq_some_iff.mp at_n).1
    exact ⟨n, frame, by_n, by rw [List.getElem?_append_left inside, at_n], rest⟩
  returned := h.returned

theorem callSound_update {frames : List (Frame × ℚ)} {calls : PingId → Call} {i : PingId}
    {c : Call} (h : ∀ j, CallSound frames (calls j)) (hc : CallSound frames c) (j : PingId) :
    CallSound frames (Function.update calls i c j) := by
  by_cases own : j = i
  · subst own
    rw [Function.update_self]
    exact hc
  · rw [Function.update_of_ne own]
    exact h j

structure Sound (s : State) : Prop where
  owned : ∀ token e, s.pending token = some e → e.Speaks token (s.calls e.ping)
  held : ∀ i, (s.calls i).phase.registered = true → s.pending (s.calls i).token =
    some ⟨(s.calls i).route, (s.calls i).flags, i, (s.calls i).deadline⟩
  calls : ∀ i, CallSound s.frames (s.calls i)
  noErrors : s.frameErrors = []

theorem init_sound : Sound init where
  owned token e h := by cases h
  held i h := by cases h
  calls i := callSound_new rfl rfl nofun
  noErrors := rfl

section Sound
variable {s t : State} {a : Action} {i j : PingId}

theorem Sound.token_injective (h : Sound s) (hi : (s.calls i).phase.registered = true)
    (hj : (s.calls j).phase.registered = true) (same : (s.calls i).token = (s.calls j).token) :
    i = j := by
  have entry := h.held i hi
  rw [same, h.held j hj, Option.some.injEq, Entry.mk.injEq] at entry
  exact entry.2.2.1.symm

theorem Sound.setCall (h : Sound s) {c : Call}
    (registered : c.phase.registered = (s.calls i).phase.registered)
    (same : c.phase.registered = true → c.token = (s.calls i).token ∧
      c.route = (s.calls i).route ∧ c.flags = (s.calls i).flags ∧
      c.deadline = (s.calls i).deadline)
    (sound : CallSound s.frames c) : Sound (s.setCall i c) where
  owned token e he := by
    have speaks := h.owned token e he
    by_cases own : e.ping = i
    · rw [own] at speaks ⊢
      rw [setCall_self]
      have up : c.phase.registered = true := registered.trans speaks.1
      obtain ⟨htoken, hroute, hflags, hdeadline⟩ := same up
      exact ⟨up, htoken.trans speaks.2.1, hroute.trans speaks.2.2.1,
        hflags.trans speaks.2.2.2.1, hdeadline.trans speaks.2.2.2.2⟩
    · rw [setCall_of_ne _ _ own]
      exact speaks
  held j hj := by
    by_cases own : j = i
    · subst own
      rw [setCall_self] at hj ⊢
      obtain ⟨htoken, hroute, hflags, hdeadline⟩ := same hj
      rw [htoken, hroute, hflags, hdeadline]
      exact h.held j (registered.symm.trans hj)
    · rw [setCall_of_ne _ _ own] at hj ⊢
      exact h.held j hj
  calls := callSound_update h.calls sound
  noErrors := h.noErrors

theorem Sound.finish (h : Sound s) (registered : (s.calls i).phase.registered = true)
    {phase : Phase} (ended : phase.registered = false)
    (sound : CallSound s.frames
      { s.calls i with phase := phase, future := (s.calls i).future.cancel }) :
    Sound (s.finish i phase) where
  owned token e he := by
    simp only [State.finish, State.setCall] at he ⊢
    by_cases own : token = (s.calls i).token
    · rw [own, Function.update_self] at he
      cases he
    · rw [Function.update_of_ne own] at he
      have speaks := h.owned token e he
      have other : e.ping ≠ i := fun same => own (same ▸ speaks.2.1.symm)
      rw [Function.update_of_ne other]
      exact speaks
  held j hj := by
    simp only [State.finish, State.setCall] at hj ⊢
    by_cases own : j = i
    · subst own
      rw [Function.update_self] at hj
      exact absurd (ended.symm.trans hj) Bool.false_ne_true
    · rw [Function.update_of_ne own] at hj ⊢
      have apart : (s.calls j).token ≠ (s.calls i).token :=
        fun same => own (h.token_injective hj registered same)
      rw [Function.update_of_ne apart]
      exact h.held j hj
  calls := callSound_update h.calls sound
  noErrors := h.noErrors

theorem Sound.enter (h : Sound s) {c : Call} (fresh : s.pending c.token = none)
    (unregistered : (s.calls i).phase.registered = false) (up : c.phase.registered = true)
    (sound : CallSound s.frames c) :
    Sound { s.setCall i c with
      pending := Function.update s.pending c.token (some ⟨c.route, c.flags, i, c.deadline⟩) } where
  owned token e he := by
    simp only [State.setCall] at he ⊢
    by_cases own : token = c.token
    · rw [own, Function.update_self, Option.some.injEq] at he
      subst he
      rw [Function.update_self, own]
      exact ⟨up, rfl, rfl, rfl, rfl⟩
    · rw [Function.update_of_ne own] at he
      have speaks := h.owned token e he
      have other : e.ping ≠ i := by
        rintro same
        rw [same] at speaks
        exact absurd (unregistered.symm.trans speaks.1) Bool.false_ne_true
      rw [Function.update_of_ne other]
      exact speaks
  held j hj := by
    simp only [State.setCall] at hj ⊢
    by_cases own : j = i
    · subst own
      rw [Function.update_self, Function.update_self]
    · rw [Function.update_of_ne own] at hj ⊢
      have entry := h.held j hj
      have apart : (s.calls j).token ≠ c.token := by
        intro same
        rw [same, fresh] at entry
        cases entry
      rw [Function.update_of_ne apart]
      exact entry
  calls := callSound_update h.calls sound
  noErrors := h.noErrors

theorem Sound.frame_cases (h : Sound s) {frame : Frame} (hs : step s (.frame frame) = some t) :
    t = { s with frames := s.frames ++ [(frame, s.clock)] } ∨
      ∃ i, (s.calls i).phase.registered = true ∧ (s.calls i).future = .waiting ∧
        Matches (s.calls i) frame s.clock ∧
        t = { s with frames := s.frames ++ [(frame, s.clock)] }.setCall i
          { s.calls i with
            future := .result s.clock (snrsOf (s.calls i) frame)
            completedBy := (s.calls i).completedBy ++ [s.frames.length] } := by
  simp only [step] at hs
  rcases onFrame_spec h.owned frame with passed | ⟨i, completed, registered, waits, fits⟩
  · rw [passed, Option.some.injEq] at hs
    exact Or.inl hs.symm
  · rw [completed, Option.some.injEq] at hs
    exact Or.inr ⟨i, registered, waits, fits, hs.symm⟩

theorem Sound.frame (h : Sound s) {frame : Frame} (hs : step s (.frame frame) = some t) :
    Sound t := by
  have heard : Sound { s with frames := s.frames ++ [(frame, s.clock)] } :=
    ⟨h.owned, h.held, fun i => (h.calls i).later _, h.noErrors⟩
  rcases h.frame_cases hs with rfl | ⟨i, registered, waits, fits, rfl⟩
  · exact heard
  have none_before : (s.calls i).completedBy = [] :=
    (h.calls i).waiting fun received snrs hr => by
      rw [waits] at hr
      cases hr
  refine heard.setCall rfl (fun _ => ⟨rfl, rfl, rfl, rfl⟩) ⟨?_, ?_, ?_⟩
  · exact fun other => absurd rfl (other _ _)
  · intro received snrs hr
    obtain ⟨rfl, rfl⟩ := Future.result.inj hr
    refine ⟨s.frames.length, frame, ?_, ?_, fits.congr rfl rfl rfl rfl, rfl⟩
    · simp only [none_before, List.nil_append]
    · exact List.getElem?_concat_length
  · intro elapsedMs snrs hp
    simp only at hp
    rw [hp] at registered
    cases registered

theorem Sound.register (h : Sound s) (listing : (s.calls i).phase = .listing)
    {rows : List Contact} {tokens : List Token} (hs : s.register i rows tokens = some t) :
    Sound t := by
  have unregistered : (s.calls i).phase.registered = false := by rw [listing]; rfl
  have raises : Sound (s.setCall i { s.calls i with phase := .raised .valueError }) :=
    h.setCall unregistered.symm nofun ((h.calls i).withPhase nofun)
  simp only [State.register] at hs
  split at hs
  · obtain rfl := Option.some.inj hs
    exact raises
  split at hs
  · obtain rfl := Option.some.inj hs
    exact raises
  split at hs
  · split at hs
    · rename_i token found
      obtain rfl := Option.some.inj hs
      have fresh : s.pending token = none := by
        have := List.find?_some found
        simpa using this
      exact h.enter fresh unregistered rfl (callSound_new rfl rfl nofun)
    · cases hs
  · obtain rfl := Option.some.inj hs
    exact raises

theorem Sound.raise (h : Sound s) (registered : (s.calls i).phase.registered = true)
    (error : PingError) : Sound (s.finish i (.raised error)) :=
  h.finish registered rfl ((h.calls i).cancel nofun)

theorem Sound.step (h : Sound s) (hs : Ping.step s a = some t) : Sound t := by
  cases a with
  | tick d =>
    simp only [Ping.step, Option.ite_none_right_eq_some, Option.some.injEq] at hs
    obtain ⟨-, rfl⟩ := hs
    exact ⟨h.owned, h.held, h.calls, h.noErrors⟩
  | frame frame => exact h.frame hs
  | ping i publicKey width =>
    simp only [Ping.step, Option.ite_none_right_eq_some] at hs
    obtain ⟨idle, hs⟩ := hs
    have unregistered : (s.calls i).phase.registered = false := by rw [idle]; rfl
    split at hs <;> cases hs
    · exact h.setCall unregistered.symm nofun (callSound_new rfl rfl nofun)
    · exact h.setCall unregistered.symm nofun (callSound_new rfl rfl nofun)
  | listed i rows tokens =>
    simp only [Ping.step, Option.ite_none_right_eq_some] at hs
    exact h.register hs.1 hs.2
  | commandReturns i outcome =>
    simp only [Ping.step, Option.ite_none_right_eq_some] at hs
    obtain ⟨command, hs⟩ := hs
    have registered : (s.calls i).phase.registered = true := by rw [command]; rfl
    cases outcome <;> cases hs
    · exact h.setCall registered.symm (fun _ => ⟨rfl, rfl, rfl, rfl⟩)
        ((h.calls i).withPhase nofun)
    · exact h.raise registered _
    · exact h.raise registered _
  | resume i =>
    simp only [Ping.step] at hs
    split at hs
    · rename_i received snrs awaiting future
      obtain rfl := Option.some.inj hs
      have registered : (s.calls i).phase.registered = true := by rw [awaiting]; rfl
      split
      · exact h.raise registered _
      · refine h.finish registered rfl ((h.calls i).cancel fun elapsedMs q hp => ?_)
        obtain ⟨rfl, rfl⟩ := Phase.returned.inj hp
        exact ⟨received, future, rfl⟩
    · cases hs
  | interrupt i error =>
    simp only [Ping.step, Option.ite_none_left_eq_some] at hs
    obtain ⟨-, hs⟩ := hs
    split at hs
    · rename_i listing
      obtain rfl := Option.some.inj hs
      have unregistered : (s.calls i).phase.registered = false := by rw [listing]; rfl
      exact h.setCall unregistered.symm nofun ((h.calls i).withPhase nofun)
    · rename_i command
      obtain rfl := Option.some.inj hs
      have registered : (s.calls i).phase.registered = true := by rw [command]; rfl
      exact h.setCall registered.symm (fun _ => ⟨rfl, rfl, rfl, rfl⟩)
        ((h.calls i).withPhase nofun)
    · rename_i awaiting
      obtain rfl := Option.some.inj hs
      have registered : (s.calls i).phase.registered = true := by rw [awaiting]; rfl
      exact h.setCall registered.symm (fun _ => ⟨rfl, rfl, rfl, rfl⟩)
        ((h.calls i).cancel nofun)
    · cases hs
  | unwind i =>
    simp only [Ping.step] at hs
    split at hs
    · rename_i error unwinding
      obtain rfl := Option.some.inj hs
      have registered : (s.calls i).phase.registered = true := by rw [unwinding]; rfl
      exact h.raise registered error
    · cases hs

theorem step_calls (hs : Ping.step s a = some t) :
    ∃ i c, t.calls = Function.update s.calls i c := by
  have same : ∃ i c, s.calls = Function.update s.calls i c :=
    ⟨0, s.calls 0, (Function.update_eq_self 0 s.calls).symm⟩
  cases a with
  | tick d =>
    simp only [Ping.step, Option.ite_none_right_eq_some, Option.some.injEq] at hs
    obtain ⟨-, rfl⟩ := hs
    exact same
  | frame frame =>
    simp only [Ping.step] at hs
    split at hs <;> cases hs
    · exact same
    · exact ⟨_, _, rfl⟩
    · exact same
  | ping i publicKey width =>
    simp only [Ping.step, Option.ite_none_right_eq_some] at hs
    obtain ⟨-, hs⟩ := hs
    split at hs <;> cases hs <;> exact ⟨i, _, rfl⟩
  | listed i rows tokens =>
    simp only [Ping.step, State.register, Option.ite_none_right_eq_some] at hs
    obtain ⟨-, hs⟩ := hs
    split at hs
    · cases hs; exact ⟨i, _, rfl⟩
    split at hs
    · cases hs; exact ⟨i, _, rfl⟩
    split at hs
    · split at hs <;> cases hs
      exact ⟨i, _, rfl⟩
    · cases hs; exact ⟨i, _, rfl⟩
  | commandReturns i outcome =>
    simp only [Ping.step, Option.ite_none_right_eq_some] at hs
    obtain ⟨-, hs⟩ := hs
    cases outcome <;> cases hs <;> exact ⟨i, _, rfl⟩
  | resume i =>
    simp only [Ping.step] at hs
    split at hs <;> cases hs
    exact ⟨i, _, rfl⟩
  | interrupt i error =>
    simp only [Ping.step, Option.ite_none_left_eq_some] at hs
    obtain ⟨-, hs⟩ := hs
    split at hs <;> cases hs <;> exact ⟨i, _, rfl⟩
  | unwind i =>
    simp only [Ping.step] at hs
    split at hs <;> cases hs
    exact ⟨i, _, rfl⟩

theorem Sound.popped (h : Sound s) (hs : Ping.step s a = some t)
    (registered : (s.calls i).phase.registered = true)
    (ended : (t.calls i).phase.registered = false) :
    t.pending (s.calls i).token = none := by
  by_contra left
  obtain ⟨e, he⟩ := Option.ne_none_iff_exists'.mp left
  have speaks := (h.step hs).owned _ e he
  have other : e.ping ≠ i := by
    rintro rfl
    exact absurd (ended.symm.trans speaks.1) Bool.false_ne_true
  obtain ⟨k, c, calls⟩ := step_calls hs
  have changed : k = i := by
    by_contra apart
    rw [calls, Function.update_of_ne (Ne.symm apart), registered] at ended
    cases ended
  rw [calls, Function.update_of_ne (changed ▸ other)] at speaks
  exact other (h.token_injective speaks.1 registered speaks.2.1)

end Sound

def Completes (s t : State) (i : PingId) : Prop :=
  (s.calls i).future.done = false ∧ (t.calls i).future.done = true

theorem Sound.completes_unique {s t : State} (h : Sound s) {frame : Frame}
    (hs : Ping.step s (.frame frame) = some t) {i : PingId} (hi : Completes s t i) :
    Matches (s.calls i) frame s.clock ∧ ∀ j, Completes s t j → j = i := by
  rcases h.frame_cases hs with rfl | ⟨k, _, _, fits, set⟩
  · exact absurd (hi.1.symm.trans hi.2) Bool.false_ne_true
  have only : ∀ j, Completes s t j → j = k := by
    intro j hj
    by_contra apart
    have same := hj.2
    rw [set, setCall_of_ne _ _ apart] at same
    exact absurd (hj.1.symm.trans same) Bool.false_ne_true
  obtain rfl := only i hi
  exact ⟨fits, only⟩

/-- Over every run: registered calls have different tokens; a frame raises nothing and
completes at most one call, whose trace it is; a call that returned has the time and the
SNRs of the one frame that completed it; what is pending belongs to a call that has not
ended, and the end of a call takes its token out. -/
theorem ping_correlation (acts : List Action) (s : State)
    (hrun : Runs.run step init acts = some s) :
    (∀ i j, (s.calls i).phase.registered = true → (s.calls j).phase.registered = true →
      (s.calls i).token = (s.calls j).token → i = j) ∧
    (∀ frame t, step s (.frame frame) = some t → t.frameErrors = [] ∧
      ∀ i, Completes s t i → Matches (s.calls i) frame s.clock ∧ ∀ j, Completes s t j → j = i) ∧
    (∀ i elapsedMs snrs, (s.calls i).phase = .returned elapsedMs snrs →
      ∃ n frame received, (s.calls i).completedBy = [n] ∧ s.frames[n]? = some (frame, received) ∧
        Matches (s.calls i) frame received ∧
        elapsedMs = (received - (s.calls i).started) * 1000 ∧ snrs = snrsOf (s.calls i) frame) ∧
    s.frameErrors = [] ∧
    (∀ token e, s.pending token = some e → (s.calls e.ping).phase.registered = true) ∧
    ∀ a t i, step s a = some t → (s.calls i).phase.registered = true →
      (t.calls i).phase.registered = false → t.pending (s.calls i).token = none := by
  have sound : Sound s := Runs.reachable (fun _ _ _ h hs => h.step hs) init_sound hrun
  refine ⟨fun i j => sound.token_injective, fun frame t hs => ?_, fun i elapsedMs snrs hp => ?_,
    sound.noErrors, fun token e he => (sound.owned token e he).1, fun a t i => sound.popped⟩
  · exact ⟨(sound.step hs).noErrors, fun i hi => sound.completes_unique hs hi⟩
  · obtain ⟨received, future, elapsed⟩ := (sound.calls i).returned elapsedMs snrs hp
    obtain ⟨n, frame, by_n, at_n, fits, same⟩ := (sound.calls i).result received snrs future
    exact ⟨n, frame, received, by_n, at_n, fits, elapsed, same⟩

def repeaterKey : Text := List.replicate 64 'a'

def sampleTrace (tag : UInt8) : Frame :=
  [0x89, 0, 1, 0, tag, 0, 0, 0, 7, 0, 0, 0, 0xaa, 8, 0xfc]

def twoPings : List Action :=
  [.ping 0 repeaterKey 1, .ping 1 repeaterKey 1, .listed 0 [⟨repeaterKey, some 2⟩] [(1, 7)],
    .listed 1 [⟨repeaterKey, some 2⟩] [(1, 7), (2, 7)], .tick 1, .frame (sampleTrace 1),
    .frame (sampleTrace 9), .commandReturns 0 .msgSent, .resume 0, .commandReturns 1 .msgSent,
    .frame (sampleTrace 1), .tick 5, .interrupt 1 .timeoutError, .frame (sampleTrace 2),
    .unwind 1]

theorem ping_correlation_twoPings :
    ∃ s, Runs.run step init twoPings = some s ∧
      (s.calls 0).phase = .returned 1000 [2, -1] ∧ (s.calls 1).phase = .raised .timeoutError ∧
      ∃ n frame received, (s.calls 0).completedBy = [n] ∧
        s.frames[n]? = some (frame, received) ∧ Matches (s.calls 0) frame received := by
  have got : (Runs.run step init twoPings).map (fun s =>
      ((s.calls 0).phase, (s.calls 1).phase)) =
        some (.returned 1000 [2, -1], .raised .timeoutError) := by
    decide +kernel
  rw [Option.map_eq_some_iff] at got
  obtain ⟨s, hs, phases⟩ := got
  rw [Prod.mk.injEq] at phases
  obtain ⟨n, frame, received, by_n, at_n, fits, _⟩ :=
    (ping_correlation twoPings s hs).2.2.1 0 1000 [2, -1] phases.1
  exact ⟨s, hs, phases.1, phases.2, n, frame, received, by_n, at_n, fits⟩

end MeshwardenDaemon.Ping
