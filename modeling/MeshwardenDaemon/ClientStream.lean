import MeshwardenDaemon.PushOrder
import MeshwardenDaemon.FrameRoundTrip

/-! The bytes on a client's line. `send_frame` writes a whole packet at once, so what the
broadcasts and the client's own handler write is cut into frames again at the other end,
each of them whole, wherever the transport cuts the stream and wherever it ends. -/
namespace MeshwardenDaemon.PushFanout
open Protocol Framing Library Scanning

def Writer.frame : Writer → Frame
  | .broadcast push => push.frame
  | .response frame => frame

def Writer.response? : Writer → Option Frame
  | .broadcast _ => none
  | .response frame => some frame

def State.bytesTo (s : State) (c : ClientId) : List UInt8 :=
  (s.client c).written.flatMap fun w => packet frameFromNode w.frame

def Action.response? (c : ClientId) : Action → Option Frame
  | .respond d frame => if d = c then some frame else none
  | _ => none

def Fits (frame : Frame) : Prop := 1 ≤ frame.length ∧ frame.length ≤ maxFrameSize

/-- The frames from the node, and those of the handlers, are of the protocol's size. -/
def Sized : State → Action → Prop
  | _, .dispatch frame => frame.length ≤ maxFrameSize
  | _, .respond _ frame => Fits frame
  | _, _ => True

instance (s : State) (a : Action) : Decidable (Sized s a) := by
  unfold Sized Fits
  induction a using Action.casesOn <;> infer_instance

structure Streamed (acts : List Action) (s : State) : Prop where
  fits : ∀ c, ∀ w ∈ (s.client c).written ++ (s.client c).waiters, Fits w.frame
  holder : ∀ c w, (s.client c).holder = some w → w ∈ (s.client c).written
  responses : ∀ c, ((s.client c).written ++ (s.client c).waiters).filterMap Writer.response? =
    acts.filterMap (Action.response? c)

theorem init_streamed : Streamed [] init where
  fits _ w hw := by cases hw
  holder _ _ hw := by cases hw
  responses _ := rfl

section Streamed
variable {acts : List Action} {a : Action} {s t : State}

theorem Streamed.lineUp (h : Streamed acts s) {c : ClientId} {w : Writer}
    (fits : Fits w.frame)
    (response : ∀ d, (if d = c then w.response?.toList else []) =
      (Action.response? d a).toList) : Streamed (acts ++ [a]) (s.lineUp c w) := by
  have told : ∀ d, (acts ++ [a]).filterMap (Action.response? d) =
      acts.filterMap (Action.response? d) ++ if d = c then w.response?.toList else [] := by
    intro d
    rw [response d]
    cases hd : Action.response? d a <;> simp [hd]
  refine ⟨fun d x hx => ?_, fun d x hx => ?_, fun d => ?_⟩
  · by_cases hd : d = c
    · subst hd
      simp only [State.lineUp, State.setClient, Function.update_self, ← List.append_assoc] at hx
      rcases List.mem_append.mp hx with old | new
      · exact h.fits d x old
      · rw [List.mem_singleton.mp new]
        exact fits
    · simp only [State.lineUp, State.setClient, Function.update_of_ne hd] at hx
      exact h.fits d x hx
  · by_cases hd : d = c
    · subst hd
      simp only [State.lineUp, State.setClient, Function.update_self] at hx ⊢
      exact h.holder d x hx
    · simp only [State.lineUp, State.setClient, Function.update_of_ne hd] at hx ⊢
      exact h.holder d x hx
  · rw [told d, ← h.responses d]
    by_cases hd : d = c
    · subst hd
      simp only [State.lineUp, State.setClient, Function.update_self, ← List.append_assoc]
      rw [List.filterMap_append]
      cases own : w.response? <;> simp [own]
    · simp [State.lineUp, State.setClient, hd]

theorem Streamed.quiet (h : Streamed acts s) (same : ∀ d, t.client d = s.client d)
    (silent : ∀ d, Action.response? d a = none) : Streamed (acts ++ [a]) t := by
  refine ⟨fun d x hx => h.fits d x ?_, fun d x hx => ?_, fun d => ?_⟩
  · rwa [← same]
  · rw [same] at hx ⊢
    exact h.holder d x hx
  · rw [same, h.responses, List.filterMap_append]
    simp [silent d]

theorem Streamed.broadcast (h : Streamed acts s) {push : Push} {route : List ClientId}
    (fits : Fits push.frame) (silent : ∀ d, Action.response? d a = none) :
    Streamed (acts ++ [a]) (s.broadcast push route) := by
  have same : Streamed acts
      { s with remaining := Function.update s.remaining push.number route } :=
    ⟨h.fits, h.holder, h.responses⟩
  cases route with
  | nil => exact same.quiet (fun _ => rfl) silent
  | cons c _ =>
    refine same.lineUp fits fun d => ?_
    rw [silent]
    split <;> rfl

theorem Streamed.turn (h : Streamed acts s) {c : ClientId} (client : Client)
    (same : client.written ++ client.waiters = (s.client c).written ++ (s.client c).waiters)
    (holder : ∀ w, client.holder = some w → w ∈ client.written) :
    Streamed acts (s.setClient c client) := by
  have client_eq : ∀ d, (s.setClient c client).client d =
      if d = c then client else s.client d := fun d => Function.update_apply _ _ _ _
  have all : ∀ d, ((s.setClient c client).client d).written ++
      ((s.setClient c client).client d).waiters = (s.client d).written ++ (s.client d).waiters := by
    intro d
    rw [client_eq]
    split
    · rename_i own
      rw [own, same]
    · rfl
  refine ⟨fun d x hx => h.fits d x (all d ▸ hx), fun d x hx => ?_, fun d => ?_⟩
  · rw [client_eq] at hx ⊢
    split at hx
    · rename_i own
      rw [if_pos own]
      exact holder x hx
    · rename_i other
      rw [if_neg other]
      exact h.holder d x hx
  · rw [all, h.responses]

theorem Streamed.step {proxyMaxClients : ℕ} (h : Streamed acts s) (sized : Sized s a)
    (hs : PushFanout.step proxyMaxClients s a = some t) : Streamed (acts ++ [a]) t := by
  cases a with
  | join c order =>
    simp only [PushFanout.step, Option.ite_none_right_eq_some, Option.some.injEq] at hs
    obtain ⟨-, rfl⟩ := hs
    exact h.quiet (fun _ => rfl) fun _ => rfl
  | leave c =>
    simp only [PushFanout.step, Option.ite_none_right_eq_some, Option.some.injEq] at hs
    obtain ⟨-, rfl⟩ := hs
    exact h.quiet (fun _ => rfl) fun _ => rfl
  | dispatch frame =>
    simp only [PushFanout.step] at hs
    have received : Streamed acts { s with frames := s.frames ++ [frame] } :=
      ⟨h.fits, h.holder, h.responses⟩
    split at hs <;> cases hs
    · rename_i push
      have nonempty : 1 ≤ frame.length := by
        simp only [isPush, Bool.and_eq_true, Bool.not_eq_true', List.isEmpty_eq_false_iff] at push
        exact List.length_pos_iff.mpr push.1
      exact received.broadcast ⟨nonempty, sized⟩ fun _ => rfl
    · exact h.quiet (fun _ => rfl) fun _ => rfl
  | respond c frame =>
    simp only [PushFanout.step, Option.ite_none_right_eq_some, Option.some.injEq] at hs
    obtain ⟨-, rfl⟩ := hs
    refine h.lineUp sized fun d => ?_
    by_cases own : d = c
    · simp [own, Action.response?, Writer.response?]
    · simp [own, Ne.symm own, Action.response?]
  | write c =>
    simp only [PushFanout.step] at hs
    split at hs
    · rename_i w rest free waiters
      cases hs
      have turned := h.turn (c := c) ⟨some w, rest, (s.client c).written ++ [w]⟩
        (by simp [waiters]) (by simp)
      exact turned.quiet (fun _ => rfl) fun _ => rfl
    · cases hs
  | drained c =>
    simp only [PushFanout.step] at hs
    split at hs
    · rename_i w holds
      have released := h.turn (c := c) { s.client c with holder := none }
        rfl (by simp)
      cases w with
      | broadcast push =>
        cases hs
        refine released.broadcast ?_ fun _ => rfl
        exact h.fits c _ (List.mem_append_left _ (h.holder c _ holds))
      | response frame =>
        cases hs
        exact released.quiet (fun _ => rfl) fun _ => rfl
    · cases hs

theorem Streamed.scan_bytesTo (h : Streamed acts s) (c : ClientId) :
    (wire frameFromNode).scan (s.bytesTo c) = ((s.client c).written.map Writer.frame, []) := by
  have plain : s.bytesTo c = line frameFromNode
      ((s.client c).written.map fun w => ⟨[], w.frame⟩) [] := by
    simp [State.bytesTo, line, List.flatMap_map]
  rw [plain, scan_line]
  · simp [Function.comp_def]
  · intro x hx
    obtain ⟨w, hw, rfl⟩ := List.mem_map.mp hx
    obtain ⟨nonempty, fits⟩ := h.fits c w (List.mem_append_left _ hw)
    exact ⟨List.not_mem_nil, nonempty, fits⟩
  · exact List.not_mem_nil

theorem Streamed.decodes (h : Streamed acts s) {c : ClientId} {received : List (List UInt8)}
    (begins : received.flatten <+: s.bytesTo c) :
    ((FrameParser.init frameFromNode).feedAll received).1 <+:
      (s.client c).written.map Writer.frame := by
  obtain ⟨later, cut⟩ := begins
  have whole := scan_append (S := wire frameFromNode) received.flatten later
  rw [cut, h.scan_bytesTo] at whole
  have frames : (s.client c).written.map Writer.frame = _ := congrArg Prod.fst whole
  rw [(FrameParser.feedAll_eq _ received).1, frames]
  exact List.prefix_append _ _

end Streamed

/-- In every run with frames of the protocol's size in which each push starts in step with
the tasks under way: what a connected client decodes, of whatever part of its line has come
and in whatever chunks, are responses of its own handler and pushes of the node since it
connected, the ones and the others each in their order and without a gap. Of the whole line
it decodes every frame that was written, and keeps nothing. -/
theorem client_stream_decodes (proxyMaxClients : ℕ) (acts : List Action) (s : State)
    (hrun : Runs.run (step proxyMaxClients) init acts = some s)
    (sized : Runs.Along (step proxyMaxClients) Sized init acts)
    (inStep : Runs.Along (step proxyMaxClients) InStep init acts)
    (c : ClientId) (hc : c ∈ s.clients) (received : List (List UInt8))
    (begins : received.flatten <+: s.bytesTo c) :
    (∃ writers : List Writer, ((FrameParser.init frameFromNode).feedAll received).1 =
        writers.map Writer.frame ∧
      writers.filterMap Writer.response? <+: acts.filterMap (Action.response? c) ∧
      writers.filterMap Writer.push? <+: s.pushesSince c) ∧
    (received.flatten = s.bytesTo c →
      ((FrameParser.init frameFromNode).feedAll received).1 =
          (s.client c).written.map Writer.frame ∧
        ((FrameParser.init frameFromNode).feedAll received).2.buf = []) := by
  have convoyed : Convoyed s none :=
    Runs.invariant (I := fun s => Convoyed s none) (fun _ _ _ h inStep hs => h.step inStep hs)
      init_convoyed inStep hrun
  have streamed : Streamed acts s := by
    have := Runs.recorded (H := fun record s => Streamed (record.map Prod.snd) s)
      (fun record s a t h sized hs => by simpa using h.step sized hs) init_streamed sized hrun
    rwa [Runs.trace_actions hrun] at this
  refine ⟨?_, fun whole => ?_⟩
  · obtain ⟨writers, written, got⟩ := List.prefix_map_iff.mp (streamed.decodes begins)
    refine ⟨writers, got, ?_, ?_⟩
    · rw [← streamed.responses c, List.filterMap_append]
      exact (written.filterMap _).trans (List.prefix_append _ _)
    · exact (written.filterMap _).trans
        (pushesTo_begins_lined.trans (convoyed.lined_begins_since hc))
  · obtain ⟨frames, buf⟩ := FrameParser.feedAll_eq (FrameParser.init frameFromNode) received
    have scanned := streamed.scan_bytesTo c
    rw [← whole] at scanned
    exact ⟨frames.trans (congrArg Prod.fst scanned), buf.trans (congrArg Prod.snd scanned)⟩

theorem client_stream_decodes_slowClient :
    ∃ s, Runs.run (step 4) init slowClient = some s ∧
      (∃ writers : List Writer,
        ((FrameParser.init frameFromNode).feedAll [[62, 1], [0, 5, 62, 2, 0, 128],
          [1, 62, 2, 0, 128]]).1 = writers.map Writer.frame ∧
        writers.filterMap Writer.response? <+: [[0x05]] ∧
        writers.filterMap Writer.push? <+: [⟨firstPush, 0⟩, ⟨secondPush, 1⟩]) := by
  have ran : (Runs.run (step 4) init slowClient).map (fun s =>
      (s.clients, s.bytesTo 2, s.pushesSince 2)) =
        some ([1, 2, 3], [62, 1, 0, 5, 62, 2, 0, 128, 1, 62, 2, 0, 128, 2],
          [⟨firstPush, 0⟩, ⟨secondPush, 1⟩]) := by
    decide +kernel
  simp only [Option.map_eq_some_iff, Prod.mk.injEq] at ran
  obtain ⟨s, hs, clients, bytes, since⟩ := ran
  have law := (client_stream_decodes 4 slowClient s hs (by decide +kernel) (by decide +kernel) 2
    (by simp [clients]) [[62, 1], [0, 5, 62, 2, 0, 128], [1, 62, 2, 0, 128]]
    ⟨[2], by rw [bytes]; rfl⟩).1
  obtain ⟨writers, got, responses, pushes⟩ := law
  exact ⟨s, hs, writers, got, responses, since ▸ pushes⟩

end MeshwardenDaemon.PushFanout
