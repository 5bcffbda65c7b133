import MeshwardenDaemon.CommandEnds
import MeshwardenDaemon.Library.Linearization

/-! The command slot makes the node a linearizable object: what the callers were told is
what the node says to their commands one at a time, in the order of the slots, which does
not contradict real time. The log is read off the run: one entry for each command that
the node answered. -/
namespace MeshwardenDaemon.CommandSlot
open Protocol ResponseCache Library
open Library.Linearization

abbrev Answered := Served CallId Frame (List Frame)

def answered : State × Action → Option Answered
  | (s, .answer reply) => s.inbox.head?.map fun m => ⟨m.1, m.2, reply⟩
  | _ => none

def logOf (record : List (State × Action)) : List Answered := record.filterMap answered

def nodeLog (P : Settings) (acts : List Action) : List Answered :=
  logOf (Runs.trace (step P) (init P) acts)

/-- The raw commands that returned, with their frame and what they were told. A REBOOT
returns before the node has it. -/
def State.completed (P : Settings) (s : State) (i : CallId) : Option (Frame × List Frame) :=
  match (s.calls i).phase with
  | .returned frames =>
    if (s.calls i).origin.isLibrary || code (s.calls i).frame == P.codes.value .reboot then none
    else some ((s.calls i).frame, frames)
  | _ => none

def State.arrivals (s : State) (log : List Answered) : List CallId :=
  log.map Served.caller ++ s.inbox.map Prod.fst

structure Sequenced (log : List Answered) (s : State) : Prop where
  sorted : (s.arrivals log).Pairwise fun i j => (s.calls i).slot ≤ (s.calls j).slot
  arrived : ∀ i ∈ s.arrivals log, 0 < (s.calls i).slot
  taken : ∀ i, (s.calls i).phase.inSlot = true → 0 < (s.calls i).slot
  early : ∀ i, (s.calls i).phase.inSlot = false → (s.calls i).phase.ended = false →
    (s.calls i).slot = 0

theorem init_sequenced (P : Settings) : Sequenced [] (init P) := by
  constructor <;> simp [init, State.arrivals, Phase.inSlot]

theorem Sequenced.keep {log log' : List Answered} {s t : State} {i : CallId} {d : Call}
    (h : Sequenced log s) (calls : t.calls = Function.update s.calls i d)
    (arrivals : t.arrivals log' = s.arrivals log) (slot : d.slot = (s.calls i).slot)
    (within : d.phase.inSlot = true → (s.calls i).phase.inSlot = true)
    (before : d.phase.inSlot = false → d.phase.ended = false →
      (s.calls i).phase.inSlot = false ∧ (s.calls i).phase.ended = false) :
    Sequenced log' t := by
  have slots : ∀ j, (t.calls j).slot = (s.calls j).slot := by
    intro j
    rw [calls]
    by_cases hj : j = i
    · subst hj
      simpa using slot
    · rw [Function.update_of_ne hj]
  refine ⟨?_, ?_, ?_, ?_⟩
  · simpa only [arrivals, slots] using h.sorted
  · simpa only [arrivals, slots] using h.arrived
  · intro j hin
    rw [slots]
    refine h.taken j ?_
    rw [calls] at hin
    by_cases hj : j = i
    · subst hj
      exact within (by simpa using hin)
    · rwa [Function.update_of_ne hj] at hin
  · intro j hin hend
    rw [slots]
    rw [calls] at hin hend
    by_cases hj : j = i
    · subst hj
      obtain ⟨outside, live⟩ := before (by simpa using hin) (by simpa using hend)
      exact h.early j outside live
    · rw [Function.update_of_ne hj] at hin hend
      exact h.early j hin hend

theorem Sequenced.congr {log log' : List Answered} {s t : State} (h : Sequenced log s)
    (calls : t.calls = s.calls) (arrivals : t.arrivals log' = s.arrivals log) :
    Sequenced log' t where
  sorted := by simpa only [arrivals, calls] using h.sorted
  arrived := by simpa only [arrivals, calls] using h.arrived
  taken := by simpa only [calls] using h.taken
  early := by simpa only [calls] using h.early

theorem Sequenced.send {log : List Answered} {s t : State} {i : CallId} {f : Frame}
    (h : Sequenced log s) (ok : SlotOk s) (lock : s.commandLock = some i)
    (slots : ∀ j, (t.calls j).slot = (s.calls j).slot)
    (phases : ∀ j, (t.calls j).phase = (s.calls j).phase)
    (inbox : t.inbox = s.inbox ++ [(i, f)]) : Sequenced log t := by
  have arrivals : t.arrivals log = s.arrivals log ++ [i] := by
    simp [State.arrivals, inbox]
  refine ⟨?_, ?_, ?_, ?_⟩
  · simp only [arrivals, slots, List.pairwise_append, List.pairwise_singleton, true_and,
      List.mem_singleton, forall_eq]
    refine ⟨h.sorted, fun j _ => ?_⟩
    rw [(ok.slot_top i lock).1]
    exact ok.slot_le j
  · simp only [arrivals, slots, List.mem_append, List.mem_singleton]
    rintro j (arrived | rfl)
    · exact h.arrived j arrived
    · exact h.taken j ((ok.holder j).mpr lock)
  · simpa only [slots, phases] using h.taken
  · simpa only [slots, phases] using h.early

theorem Sequenced.take {log : List Answered} {s : State} {i : CallId} {mc : Conn}
    (h : Sequenced log s) (phase : (s.calls i).phase = .waiting mc) :
    Sequenced log (s.takeSlot i mc) := by
  have before : (s.calls i).slot = 0 :=
    h.early i (by simp [phase, Phase.inSlot]) (by simp [phase, Phase.ended])
  have others : ∀ j, j ≠ i → (s.takeSlot i mc).calls j = s.calls j := by
    intro j hj
    simp [State.takeSlot, State.setCall, hj]
  have arrivals : (s.takeSlot i mc).arrivals log = s.arrivals log := rfl
  have absent : ∀ j ∈ s.arrivals log, (s.takeSlot i mc).calls j = s.calls j := by
    intro j hj
    refine others j ?_
    rintro rfl
    have := h.arrived j hj
    omega
  refine ⟨?_, ?_, ?_, ?_⟩
  · rw [arrivals]
    refine h.sorted.imp_of_mem fun {j k} hj hk le => ?_
    rwa [absent j hj, absent k hk]
  · rw [arrivals]
    intro j hj
    rw [absent j hj]
    exact h.arrived j hj
  · intro j hin
    by_cases hj : j = i
    · subst hj
      simp [State.takeSlot]
    · rw [others j hj] at hin ⊢
      exact h.taken j hin
  · intro j hin hend
    by_cases hj : j = i
    · subst hj
      cases library : (s.calls j).origin.isLibrary <;>
        simp [State.takeSlot, library, Phase.inSlot] at hin
    · rw [others j hj] at hin hend ⊢
      exact h.early j hin hend

theorem logOf_append (record : List (State × Action)) (s : State) (a : Action) :
    logOf (record ++ [(s, a)]) = logOf record ++ (answered (s, a)).toList := by
  cases entry : answered (s, a) <;> simp [logOf, entry]

theorem answer_step {P : Settings} {s t : State} {reply : List Frame}
    (hs : step P s (.answer reply) = some t) : ∃ i frame rest, s.inbox = (i, frame) :: rest ∧
      Answers P.codes frame reply ∧ t = { s with
        inbox := rest
        outbox := s.outbox ++ reply.map fun f => ⟨f, some i⟩
        reply := Function.update s.reply i (some reply) } := by
  simp only [step] at hs
  split at hs
  · rename_i i frame rest inbox
    simp only [Option.ite_none_right_eq_some, Option.some.injEq] at hs
    exact ⟨i, frame, rest, inbox, hs.1, hs.2.symm⟩
  · cases hs

theorem Sequenced.move {P : Settings} {log : List Answered} {s t : State} {a : Action}
    (h : Sequenced log s) (ok : SlotOk s) (silent : answered (s, a) = none)
    (m : Move P s a t) : Sequenced log t := by
  cases m with
  | environment => exact h.congr rfl rfl
  | outside cache proxied hits out ttl kept =>
    refine h.keep rfl rfl out.slot ?_ fun _ _ => ⟨out.before, out.live⟩
    simp [out.after]
  | take free phase => exact h.take phase
  | @transmit i phase unsent conn =>
    refine Sequenced.send (i := i) (f := (s.calls i).frame) h ok
      (ok.lock_of_phase phase rfl) ?_ ?_ rfl
    all_goals
      intro j
      by_cases hj : j = i
      · subst hj
        simp
      · rw [setCall_calls_ne hj]
  | sendReturns phase sent expects =>
    exact h.keep rfl rfl rfl (by simp [phase, Phase.inSlot]) (by simp [Phase.inSlot])
  | reboots phase reboot =>
    exact h.keep rfl rfl rfl (by simp [Phase.inSlot]) (by simp [Phase.ended])
  | hands phase queue proxy =>
    exact h.keep rfl rfl rfl (by simp [phase, Phase.inSlot]) (by simp [Phase.inSlot])
  | collects phase queue raw more =>
    exact h.keep rfl rfl rfl (by simp [phase, Phase.inSlot]) (by simp [Phase.inSlot])
  | completes phase queue raw last =>
    exact h.keep rfl rfl rfl (by simp [Phase.inSlot]) (by simp [Phase.ended])
  | streams phase more =>
    exact h.keep rfl rfl rfl (by simp [phase, Phase.inSlot]) (by simp [Phase.inSlot])
  | delivers phase last =>
    exact h.keep rfl rfl rfl (by simp [Phase.inSlot]) (by simp [Phase.ended])
  | librarySend phase =>
    exact h.send ok (ok.lock_of_phase phase rfl) (fun _ => rfl) (fun _ => rfl) rfl
  | libraryReturns phase settled =>
    exact h.keep rfl rfl rfl (by simp [Phase.inSlot]) (by simp [Phase.ended])
  | abandons phase =>
    exact h.keep rfl rfl rfl (by simp [Phase.inSlot]) (by simp [Phase.ended])
  | answer inbox answers => simp [answered, inbox] at silent
  | @dispatch r rest outbox =>
    have rest_sequenced : Sequenced log { s with outbox := rest } := h.congr rfl rfl
    rcases dispatchFrame_cases { s with outbox := rest } r with same | ⟨q, -, -, queued⟩
    · rw [same]
      exact rest_sequenced
    · rw [queued]
      exact rest_sequenced.keep rfl rfl rfl id fun outside live => ⟨outside, live⟩
  | push => exact h

theorem Sequenced.step {P : Settings} {record : List (State × Action)} {s t : State}
    {a : Action} (h : Sequenced (logOf record) s) (ok : SlotOk s)
    (hs : CommandSlot.step P s a = some t) : Sequenced (logOf (record ++ [(s, a)])) t := by
  rw [logOf_append]
  cases entry : answered (s, a) with
  | none => simpa using h.move ok entry (move_of_step hs)
  | some e =>
    cases a with
    | answer reply =>
      obtain ⟨i, frame, rest, inbox, -, rfl⟩ := answer_step hs
      obtain rfl : (⟨i, frame, reply⟩ : Answered) = e := by simpa [answered, inbox] using entry
      exact h.congr rfl (by simp [State.arrivals, inbox])
    | _ => simp [answered] at entry

theorem sequenced_run {P : Settings} {acts : List Action} {s : State}
    (hrun : Runs.run (step P) (init P) acts = some s) :
    SlotOk s ∧ Sequenced (nodeLog P acts) s := by
  refine Runs.recorded (H := fun record s => SlotOk s ∧ Sequenced (logOf record) s) ?_
    ⟨init_slotOk P, init_sequenced P⟩
    (Runs.along_of_always (C := fun _ _ => True) (fun _ _ => trivial) _ _) hrun
  rintro record s a t ⟨ok, sequenced⟩ - hs
  exact ⟨ok.step hs, sequenced.step ok hs⟩

theorem slot_update {s : State} {i : CallId} {d : Call} (slot : d.slot = (s.calls i).slot)
    (j : CallId) : (Function.update s.calls i d j).slot = (s.calls j).slot := by
  by_cases hj : j = i
  · subst hj
    simpa using slot
  · rw [Function.update_of_ne hj]

theorem Move.slot {P : Settings} {s t : State} {a : Action} (m : Move P s a t) (j : CallId) :
    (t.calls j).slot = (s.calls j).slot ∨ a = .acquire j ∧
      (∃ mc, (s.calls j).phase = .waiting mc) ∧ (t.calls j).slot = s.slots + 1 := by
  cases m with
  | environment | librarySend | answer | push => exact Or.inl rfl
  | outside cache proxied hits out => exact Or.inl (slot_update out.slot j)
  | @take i mc free phase =>
    by_cases hj : j = i
    · subst hj
      exact Or.inr ⟨rfl, ⟨mc, phase⟩, by simp [State.takeSlot]⟩
    · exact Or.inl (by simp [State.takeSlot, setCall_calls_ne hj])
  | transmit | sendReturns | reboots | hands | collects | completes | streams | delivers
  | libraryReturns | abandons => exact Or.inl (slot_update (by rfl) j)
  | @dispatch r rest outbox =>
    left
    rcases dispatchFrame_cases { s with outbox := rest } r with same | ⟨q, -, -, queued⟩
    · rw [same]
    · rw [queued]
      exact slot_update (s := s) (by rfl) j

theorem ended_stable {P : Settings} {s t : State} {a : Action} {j : CallId} (ok : SlotOk s)
    (hs : step P s a = some t) (ended : (s.calls j).phase.ended = true) :
    t.calls j = s.calls j ∧ s.slots ≤ t.slots := by
  rcases (move_of_step hs).finishes_or_quiet ok with ⟨i, d, finishes, rfl⟩ | quiet
  · exact ⟨update_of_ended (Phase.not_ended_of_inSlot finishes.phase) _ ended, le_rfl⟩
  · exact ⟨quiet.stable j ended, quiet.slots⟩

def Logged (log : List Answered) (s : State) : Prop :=
  ∀ i, (s.calls i).phase = .idle ∨ (s.calls i).origin.isLibrary = false →
    log.filter (·.caller = i) =
      (s.reply i).toList.map fun reply => ⟨i, (s.calls i).frame, reply⟩

theorem Logged.keep {log : List Answered} {s t : State} {i : CallId} {d : Call}
    (h : Logged log s) (calls : t.calls = Function.update s.calls i d)
    (reply : t.reply = s.reply)
    (kind : d.phase = .idle ∨ d.origin.isLibrary = false →
      ((s.calls i).phase = .idle ∨ (s.calls i).origin.isLibrary = false) ∧
      (d.frame = (s.calls i).frame ∨ s.reply i = none)) : Logged log t := by
  intro j hj
  rw [calls] at hj ⊢
  rw [reply]
  by_cases hji : j = i
  · subst hji
    simp only [Function.update_self] at hj ⊢
    obtain ⟨raw, frame | unanswered⟩ := kind hj
    · rw [frame]
      exact h j raw
    · simpa [unanswered] using h j raw
  · rw [Function.update_of_ne hji] at hj ⊢
    exact h j hj

theorem Logged.move {P : Settings} {log : List Answered} {s t : State} {a : Action}
    (h : Logged log s) (conv : Conversing P s)
    (silent : answered (s, a) = none) (m : Move P s a t) : Logged log t := by
  cases m with
  | environment | librarySend | push => exact h
  | @outside a i d cache proxied hits out =>
    refine h.keep rfl rfl ?_
    rintro (idle | raw)
    · exact absurd idle out.begun
    · rcases out.origin with idle | ⟨origin, frame⟩
      · have unsent := ((conv i (Or.inl idle)).early out.before out.live).1
        exact ⟨Or.inl idle, Or.inr ((conv i (Or.inl idle)).unsent unsent).2.2⟩
      · exact ⟨Or.inr (origin ▸ raw), Or.inl frame⟩
  | @take i mc free phase =>
    refine h.keep rfl rfl ?_
    rintro (idle | raw)
    · cases library : (s.calls i).origin.isLibrary <;> simp [library] at idle
    · exact ⟨Or.inr raw, Or.inl rfl⟩
  | transmit phase => exact h.keep rfl rfl fun raw => ⟨raw, Or.inl rfl⟩
  | sendReturns | reboots | hands | collects | completes | streams | delivers
  | libraryReturns | abandons =>
    refine h.keep rfl rfl ?_
    rintro (idle | raw)
    · cases idle
    · exact ⟨Or.inr raw, Or.inl rfl⟩
  | answer inbox answers => simp [answered, inbox] at silent
  | @dispatch r rest outbox =>
    have rest_logged : Logged log { s with outbox := rest } := h
    rcases dispatchFrame_cases { s with outbox := rest } r with same | ⟨q, -, -, queued⟩
    · rw [same]
      exact rest_logged
    · rw [queued]
      exact rest_logged.keep rfl rfl fun raw => ⟨raw, Or.inl rfl⟩

theorem Logged.answer {P : Settings} {log : List Answered} {s : State} {i : CallId}
    {frame : Frame} {rest : List (CallId × Frame)} {reply : List Frame}
    (h : Logged log s) (conv : Conversing P s) (inbox : s.inbox = (i, frame) :: rest)
    {outbox : List Rx} :
    Logged (log ++ [⟨i, frame, reply⟩]) { s with
      inbox := rest, outbox := outbox, reply := Function.update s.reply i (some reply) } := by
  intro j hj
  have before := h j hj
  by_cases hji : j = i
  · subst hji
    have pending : frame ∈ s.pending j := by simp [State.pending, inbox]
    have sent : (s.calls j).transmitted = true := by
      by_contra unsent
      rw [((conv j hj).unsent (by simpa using unsent)).1] at pending
      cases pending
    rcases (conv j hj).sent sent with ⟨mine, -, unanswered⟩ | ⟨none_pending, -⟩
    · rw [mine, List.mem_singleton] at pending
      simp [List.filter_append, before, unanswered, pending]
    · rw [none_pending] at pending
      cases pending
  · simpa [List.filter_append, Ne.symm hji, Function.update_of_ne hji] using before

theorem Logged.step {P : Settings} {record : List (State × Action)} {s t : State}
    {a : Action} (h : Logged (logOf record) s) (conv : Conversing P s)
    (hs : CommandSlot.step P s a = some t) : Logged (logOf (record ++ [(s, a)])) t := by
  rw [logOf_append]
  cases entry : answered (s, a) with
  | none => simpa using h.move conv entry (move_of_step hs)
  | some e =>
    cases a with
    | answer reply =>
      obtain ⟨i, frame, rest, inbox, -, rfl⟩ := answer_step hs
      obtain rfl : (⟨i, frame, reply⟩ : Answered) = e := by simpa [answered, inbox] using entry
      exact h.answer conv inbox
    | _ => simp [answered] at entry

def counting (n : ℕ) (_ : Frame) : ℕ × List Frame := (n + 1, [[12, UInt8.ofNat n]])

end MeshwardenDaemon.CommandSlot
