import MeshwardenDaemon.SlotOwnership

/-! A command that is in the slot, or waits for it, can always go on to return, as long
as no command gives up the slot and the connection stays. Every step towards it
lowers the work that is left. -/
namespace MeshwardenDaemon.CommandSlot
open Protocol ResponseCache Library

/-- No command gives up the slot and the connection is not lost. -/
def Calm (s : State) (a : Action) : Prop := NoneAbandoned s a ∧ a ≠ .lose

instance (s : State) (a : Action) : Decidable (Calm s a) := inferInstanceAs (Decidable (_ ∧ _))

structure Engaged (codes : CommandCodes) (mc : Option Conn) (c : Call) : Prop where
  waiting : ∀ m, c.phase = .waiting m → mc = some m
  slot : c.phase.inSlot = true → ∃ m, mc = some m ∧ c.sentOn = some m
  collecting : c.phase = .collecting → c.transmitted = true ∧
    code c.frame ≠ codes.value .reboot ∧
    ∀ r ∈ c.frames, isTerminal codes (code c.frame) (code r.frame) = false
  forwarding : ∀ resp, c.phase = .forwarding resp → c.transmitted = true ∧
    code c.frame ≠ codes.value .reboot ∧
    ∀ r ∈ c.frames.dropLast, isTerminal codes (code c.frame) (code r.frame) = false

structure Joined (P : Settings) (s : State) : Prop where
  up : s.mc ≠ none → s.connected = true
  engaged : ∀ i, Engaged P.codes s.mc (s.calls i)

theorem init_joined (P : Settings) : Joined P (init P) where
  up := by simp [init]
  engaged i := by constructor <;> simp [init, Phase.inSlot]

theorem Engaged.aside {codes : CommandCodes} {mc : Option Conn} {c : Call}
    (out : c.phase.inSlot = false) (waiting : ∀ m, c.phase = .waiting m → mc = some m) :
    Engaged codes mc c where
  waiting := waiting
  slot hin := by simp [hin] at out
  collecting hp := by simp [hp, Phase.inSlot] at out
  forwarding resp hp := by simp [hp, Phase.inSlot] at out

theorem Joined.setCall {P : Settings} {s t : State} {i : CallId} {d : Call} (h : Joined P s)
    (mc : t.mc = s.mc) (connected : t.connected = s.connected)
    (calls : t.calls = Function.update s.calls i d) (engaged : Engaged P.codes s.mc d) :
    Joined P t where
  up := by
    rw [mc, connected]
    exact h.up
  engaged j := by
    rw [mc, calls]
    by_cases hji : j = i
    · subst hji
      rwa [Function.update_self]
    · rw [Function.update_of_ne hji]
      exact h.engaged j

theorem Joined.link {P : Settings} {s : State} {a : Action} {mc : Option Conn}
    {connected : Bool} {connections losses : ℕ} {clock : ℚ} (h : Joined P s)
    (steady : a ≠ .lose) (l : Link s a mc connected connections losses) :
    Joined P { s with
      clock := clock, mc := mc, connected := connected
      connections := connections, losses := losses } := by
  cases l with
  | same => exact ⟨h.up, h.engaged⟩
  | connect free =>
    refine ⟨fun _ => rfl, fun i => Engaged.aside ?_ fun m hm => ?_⟩
    · by_contra hin
      obtain ⟨m, hmc, _⟩ := (h.engaged i).slot (by simpa using hin)
      simp [free] at hmc
    · have known := (h.engaged i).waiting m hm
      simp [free] at known
  | lose => exact absurd rfl steady
  | close held down => simp [h.up held] at down

theorem Joined.move {P : Settings} {s t : State} {a : Action} (h : Joined P s) (ok : SlotOk s)
    (conv : Conversing P s) (steady : a ≠ .lose) (m : Move P s a t) : Joined P t := by
  cases m with
  | environment later link => exact h.link steady link
  | outside cache proxied hits out =>
    exact h.setCall rfl rfl rfl (Engaged.aside out.after fun m hm => (out.waiting m hm).1)
  | @take i mc free phase =>
    refine h.setCall rfl rfl rfl ?_
    have known := (h.engaged i).waiting mc phase
    cases library : (s.calls i).origin.isLibrary <;> constructor <;>
      simp [known]
  | @transmit i phase unsent conn =>
    have engaged := h.engaged i
    refine h.setCall rfl rfl rfl ⟨engaged.waiting, engaged.slot, ?_, ?_⟩ <;> simp [phase]
  | @sendReturns i phase sent expects =>
    obtain ⟨_, conv⟩ := conv.holder ok phase rfl (by simp)
    have slot := (h.engaged i).slot (by simp [phase, Phase.inSlot])
    have transmitted : (s.calls i).transmitted = true := by
      obtain ⟨m, hmc, hconn⟩ := slot
      exact sent.resolve_right fun other => other (hmc.trans hconn.symm)
    refine h.setCall rfl rfl rfl ⟨by simp, fun _ => slot, fun _ => ?_, by simp⟩
    exact ⟨transmitted, expects, by simp [(conv.sending phase).1]⟩
  | @hands i r rest phase queue proxy =>
    obtain ⟨transmitted, expects, more⟩ := (h.engaged i).collecting phase
    have slot := (h.engaged i).slot (by simp [phase, Phase.inSlot])
    refine h.setCall rfl rfl rfl ⟨by simp, fun _ => slot, by simp, fun _ _ => ?_⟩
    exact ⟨transmitted, expects, by simpa using more⟩
  | @collects i r rest phase queue proxy last =>
    obtain ⟨transmitted, expects, more⟩ := (h.engaged i).collecting phase
    have slot := (h.engaged i).slot (by simp [phase, Phase.inSlot])
    refine h.setCall rfl rfl rfl ⟨by simp, fun _ => slot, fun _ => ?_, by simp⟩
    refine ⟨transmitted, expects, ?_⟩
    rw [List.forall_mem_append, List.forall_mem_singleton]
    exact ⟨more, last⟩
  | @streams i resp phase last =>
    obtain ⟨_, conv⟩ := conv.holder ok phase rfl (by simp)
    obtain ⟨xs, r, frames, rfl, _⟩ := conv.forwarding resp phase
    obtain ⟨transmitted, expects, more⟩ := (h.engaged i).forwarding _ phase
    have slot := (h.engaged i).slot (by simp [phase, Phase.inSlot])
    refine h.setCall rfl rfl rfl ⟨by simp, fun _ => slot, fun _ => ?_, by simp⟩
    refine ⟨transmitted, expects, ?_⟩
    simp only [frames, List.dropLast_concat] at more
    simp only [frames]
    rw [List.forall_mem_append, List.forall_mem_singleton]
    exact ⟨more, last⟩
  | reboots | completes | delivers | libraryReturns | abandons =>
    exact h.setCall rfl rfl rfl (Engaged.aside rfl (by simp))
  | librarySend | answer | push => exact ⟨h.up, h.engaged⟩
  | @dispatch r rest outbox =>
    rcases dispatchFrame_cases { s with outbox := rest } r with same | ⟨q, -, -, queued⟩
    · rw [same]
      exact ⟨h.up, h.engaged⟩
    · have engaged := h.engaged q
      rw [queued]
      exact h.setCall rfl rfl rfl
        ⟨engaged.waiting, engaged.slot, engaged.collecting, engaged.forwarding⟩

structure Steady (P : Settings) (s : State) : Prop where
  ok : SlotOk s
  conv : Conversing P s
  owned : Owned P s
  joined : Joined P s

theorem init_steady (P : Settings) : Steady P (init P) :=
  ⟨init_slotOk P, init_conversing P, init_owned P, init_joined P⟩

theorem Steady.step {P : Settings} {s t : State} {a : Action} (h : Steady P s) (calm : Calm s a)
    (hs : CommandSlot.step P s a = some t) : Steady P t :=
  have m := move_of_step hs
  ⟨h.ok.move m, h.conv.move h.ok (h.owned.clean h.ok a) m, h.owned.move h.ok h.conv calm.1 m,
    h.joined.move h.ok h.conv calm.2 m⟩

theorem steady_run {P : Settings} {acts : List Action} {s : State}
    (calm : Runs.Along (step P) Calm (init P) acts)
    (hrun : Runs.run (step P) (init P) acts = some s) : Steady P s :=
  Runs.invariant (fun _ _ _ h hC hs => h.step hC hs) (init_steady P) calm hrun

def Call.work (c : Call) : ℕ :=
  match c.phase with
  | .sending => if c.transmitted then 1 else 8
  | .forwarding _ => 1
  | _ => 0

/-- What is still to be done until call `i` can leave the slot: every command under
way may become a response, and every response an entry of the queue. -/
def State.work (s : State) (i : CallId) : ℕ :=
  6 * s.inbox.length + 4 * s.outbox.length + 2 * (s.calls i).queue.length + (s.calls i).work

structure Nearer (i : CallId) (s t : State) : Prop where
  others : ∀ j, j ≠ i → t.calls j = s.calls j
  ends : (∃ fs, (t.calls i).phase = .returned fs) ∨
    t.commandLock = some i ∧ t.work i < s.work i

section Progress
variable {P : Settings} {s : State} {i : CallId}

theorem Nearer.finish {d : Call} : Nearer i s (s.finish P i d) where
  others _ hj := setCall_calls_ne hj _ _
  ends := Or.inl ⟨d.frames.map Rx.frame, by simp [State.finish]⟩

theorem Nearer.setCall {t : State} {d : Call} (lock : s.commandLock = some i)
    (holds : t.commandLock = s.commandLock) (calls : t.calls = Function.update s.calls i d)
    (less : 6 * t.inbox.length + 4 * t.outbox.length + 2 * d.queue.length + d.work < s.work i) :
    Nearer i s t where
  others j hj := by rw [calls, Function.update_of_ne hj]
  ends := by
    refine Or.inr ⟨holds.trans lock, ?_⟩
    rwa [State.work, calls, Function.update_self]

theorem Nearer.consumed {d : Call} {resp : Frame} (lock : s.commandLock = some i)
    (less : 2 * d.queue.length < 2 * (s.calls i).queue.length + (s.calls i).work) :
    Nearer i s (s.consumed P i d resp) := by
  unfold State.consumed
  split
  · exact Nearer.finish
  · refine Nearer.setCall lock rfl rfl ?_
    have waits : ({ d with phase := .collecting } : Call).work = 0 := rfl
    simp only [State.work, setCall_inbox, setCall_outbox, waits]
    omega

theorem dispatch_nearer (h : Steady P s) (lock : s.commandLock = some i) {r : Rx}
    {rest : List Rx} (outbox : s.outbox = r :: rest) :
    ∃ t, step P s .dispatch = some t ∧ Nearer i s t := by
  have hs : step P s .dispatch = some ({ s with outbox := rest }.dispatchFrame r) := by
    simp only [step, outbox]
  have dropped : Nearer i s { s with outbox := rest } := by
    refine ⟨fun _ _ => rfl, Or.inr ⟨lock, ?_⟩⟩
    simp only [State.work, outbox, List.length_cons]
    omega
  refine ⟨_, hs, ?_⟩
  rcases dispatchFrame_cases { s with outbox := rest } r with same | ⟨q, queue, -, queued⟩
  · rw [same]
    exact dropped
  · obtain rfl : q = i := Option.some.inj (((h.ok.owner q).mp queue).1.symm.trans lock)
    rw [queued]
    refine Nearer.setCall lock rfl rfl ?_
    have same : ({ s.calls q with queue := (s.calls q).queue ++ [r] } : Call).work =
        (s.calls q).work := rfl
    simp only [State.work, setCall_inbox, setCall_outbox, same, outbox, List.length_cons,
      List.length_append, List.length_nil]
    omega

theorem answer_nearer (lock : s.commandLock = some i) {j : CallId} {frame : Frame}
    {rest : List (CallId × Frame)} (inbox : s.inbox = (j, frame) :: rest) :
    ∃ t, step P s (.answer (leastAnswer P.codes frame)) = some t ∧ Nearer i s t := by
  have hs : step P s (.answer (leastAnswer P.codes frame)) = some { s with
      inbox := rest
      outbox := s.outbox ++ tagged j (leastAnswer P.codes frame)
      reply := Function.update s.reply j (some (leastAnswer P.codes frame)) } := by
    simp only [step, inbox, if_pos (leastAnswer_answers frame), tagged]
  refine ⟨_, hs, fun _ _ => rfl, Or.inr ⟨lock, ?_⟩⟩
  have short : (leastAnswer P.codes frame).length ≤ 1 := leastAnswer_length frame
  simp only [State.work, inbox, tagged, List.length_cons, List.length_append, List.length_map]
  omega

theorem queue_of_quiet (h : Steady P s) (phase : (s.calls i).phase = .collecting)
    (inbox : s.inbox = []) (outbox : s.outbox = []) : ∃ r rest, (s.calls i).queue = r :: rest := by
  obtain ⟨_, conv⟩ := h.conv.holder h.ok phase rfl (by simp)
  obtain ⟨transmitted, expects, more⟩ := (h.joined.engaged i).collecting phase
  have answered : ∃ fs, s.reply i = some fs ∧ Answers P.codes (s.calls i).frame fs := by
    rcases conv.sent transmitted with ⟨pending, _⟩ | ⟨_, answered⟩
    · simp [State.pending, inbox] at pending
    · exact answered
  obtain ⟨fs, reply, answers⟩ := answered
  refine List.exists_cons_of_ne_nil fun queue => ?_
  have talk := conv.talking (by simp [phase, Phase.inSlot])
  have heard : (s.calls i).frames.map Rx.frame = fs := by
    simpa [queue, State.owed, outbox, reply] using congrArg (List.map Rx.frame) talk
  rcases List.eq_nil_or_concat (s.calls i).frames with none | ⟨xs, r, frames⟩
  · exact answers_ne_nil answers expects (by simp [← heard, none])
  · rw [List.concat_eq_append] at frames
    have last : isTerminal P.codes (code (s.calls i).frame) (code r.frame) = true := by
      have split : fs = xs.map Rx.frame ++ r.frame :: [] := by simp [← heard, frames]
      exact (answers_terminal_iff (split ▸ answers)).mpr rfl
    simp [more r (by simp [frames])] at last

theorem send_nearer (h : Steady P s) (phase : (s.calls i).phase = .sending) :
    ∃ a t, Calm s a ∧ step P s a = some t ∧ Nearer i s t := by
  have lock := h.ok.lock_of_phase phase rfl
  obtain ⟨mc, here, conn⟩ := (h.joined.engaged i).slot (by simp [phase, Phase.inSlot])
  cases sent : (s.calls i).transmitted with
  | false =>
    have hs : step P s (.transmit i) = some
        ({ s with inbox := s.inbox ++ [(i, (s.calls i).frame)] }.setCall i
          { s.calls i with transmitted := true }) := by
      simp only [step, phase, sent, here, conn, and_self, if_true]
    refine ⟨.transmit i, _, ⟨trivial, by simp⟩, hs, Nearer.setCall lock rfl rfl ?_⟩
    have before : (s.calls i).work = 8 := by simp [Call.work, phase, sent]
    have after : ({ s.calls i with transmitted := true } : Call).work = 1 := by
      simp [Call.work, phase]
    simp only [State.work, setCall_inbox, setCall_outbox, before, after,
      List.length_append, List.length_singleton]
    omega
  | true =>
    have hs : step P s (.sendReturns i) = some
        (if code (s.calls i).frame = P.codes.value .reboot then s.finish P i (s.calls i)
          else s.setCall i { s.calls i with phase := .collecting }) := by
      simp only [step, phase, sent, true_or, and_self, if_true]
    refine ⟨.sendReturns i, _, ⟨trivial, by simp⟩, hs, ?_⟩
    split
    · exact Nearer.finish
    · refine Nearer.setCall lock rfl rfl ?_
      have before : (s.calls i).work = 1 := by simp [Call.work, phase, sent]
      have after : ({ s.calls i with phase := .collecting } : Call).work = 0 := rfl
      simp only [State.work, setCall_inbox, setCall_outbox, before, after]
      omega

theorem receive_nearer (lock : s.commandLock = some i)
    (phase : (s.calls i).phase = .collecting) {r : Rx} {rest : List Rx}
    (queue : (s.calls i).queue = r :: rest) :
    ∃ a t, Calm s a ∧ step P s a = some t ∧ Nearer i s t := by
  have hs : step P s (.receive i) = some
      (let c := { s.calls i with queue := rest, frames := (s.calls i).frames ++ [r] }
      if c.origin.isProxy then s.setCall i { c with phase := .forwarding r.frame }
        else s.consumed P i c r.frame) := by
    simp only [step, phase, queue]
  refine ⟨.receive i, _, ⟨trivial, by simp⟩, hs, ?_⟩
  simp only
  split
  · refine Nearer.setCall lock rfl rfl ?_
    simp only [State.work, setCall_inbox, setCall_outbox, queue, List.length_cons, Call.work]
    omega
  · refine Nearer.consumed lock ?_
    simp only [queue, List.length_cons]
    omega

theorem forward_nearer (lock : s.commandLock = some i) {resp : Frame}
    (phase : (s.calls i).phase = .forwarding resp) :
    ∃ a t, Calm s a ∧ step P s a = some t ∧ Nearer i s t := by
  have hs : step P s (.forwarded i) = some (s.consumed P i
      { s.calls i with written := (s.calls i).written ++ [resp] } resp) := by
    simp only [step, phase]
  refine ⟨.forwarded i, _, ⟨trivial, by simp⟩, hs, Nearer.consumed lock ?_⟩
  simp only [Call.work, phase]
  omega

theorem libraryReturns_nearer (phase : (s.calls i).phase = .running) (inbox : s.inbox = [])
    (outbox : s.outbox = []) : ∃ a t, Calm s a ∧ step P s a = some t ∧ Nearer i s t := by
  have settled : s.settled i = true := by simp [State.settled, inbox, outbox]
  have hs : step P s (.libraryReturns i) = some
      ({ s with commandLock := none }.setCall i { s.calls i with phase := .returned [] }) := by
    simp only [step, phase, settled, and_self, if_true]
  refine ⟨.libraryReturns i, _, ⟨trivial, by simp⟩, hs, fun j hj => setCall_calls_ne hj _ _, ?_⟩
  exact Or.inl ⟨[], by simp⟩

theorem holder_nearer (h : Steady P s) (lock : s.commandLock = some i) :
    ∃ a t, Calm s a ∧ step P s a = some t ∧ Nearer i s t := by
  cases outbox : s.outbox with
  | cons r rest =>
    obtain ⟨t, hs, nearer⟩ := dispatch_nearer h lock outbox
    exact ⟨.dispatch, t, ⟨trivial, by simp⟩, hs, nearer⟩
  | nil =>
    cases inbox : s.inbox with
    | cons m rest =>
      obtain ⟨t, hs, nearer⟩ := answer_nearer (P := P) lock inbox
      exact ⟨.answer (leastAnswer P.codes m.2), t, ⟨trivial, by simp⟩, hs, nearer⟩
    | nil =>
      have slot := (h.ok.holder i).mpr lock
      cases phase : (s.calls i).phase with
      | sending => exact send_nearer h phase
      | collecting =>
        obtain ⟨r, rest, queue⟩ := queue_of_quiet h phase inbox outbox
        exact receive_nearer lock phase queue
      | forwarding resp => exact forward_nearer lock phase
      | running => exact libraryReturns_nearer phase inbox outbox
      | _ => simp [phase, Phase.inSlot] at slot

theorem holder_returns (h : Steady P s) (lock : s.commandLock = some i) :
    ∃ more t, Runs.Along (step P) Calm s more ∧ Runs.run (step P) s more = some t ∧
      Steady P t ∧ (∃ fs, (t.calls i).phase = .returned fs) ∧
      ∀ j, j ≠ i → t.calls j = s.calls j := by
  refine Runs.reaches (I := fun u => Steady P u ∧ u.commandLock = some i ∧
    ∀ j, j ≠ i → u.calls j = s.calls j) (fun u => u.work i) ?_ ⟨h, lock, fun _ _ => rfl⟩
  rintro u ⟨steady, holds, same⟩
  obtain ⟨a, t, calm, hs, nearer⟩ := holder_nearer steady holds
  have later : ∀ j, j ≠ i → t.calls j = s.calls j := fun j hj =>
    (nearer.others j hj).trans (same j hj)
  refine ⟨a, t, calm, hs, ?_⟩
  rcases nearer.ends with returned | ⟨still, less⟩
  · exact Or.inl ⟨steady.step calm hs, returned, later⟩
  · exact Or.inr ⟨⟨steady.step calm hs, still, later⟩, less⟩

theorem waiting_acquires (h : Steady P s) {mc : Conn} (phase : (s.calls i).phase = .waiting mc) :
    ∃ more t, Runs.Along (step P) Calm s more ∧ Runs.run (step P) s more = some t ∧
      Steady P t ∧ t.commandLock = some i := by
  have enters : ∀ u, Steady P u → u.commandLock = none → (u.calls i).phase = .waiting mc →
      ∃ t, step P u (.acquire i) = some t ∧ Steady P t ∧ t.commandLock = some i := by
    intro u steady free waits
    have hs : step P u (.acquire i) = some (u.takeSlot i mc) := by simp only [step, free, waits]
    have calm : Calm u (.acquire i) := ⟨trivial, by simp⟩
    exact ⟨_, hs, steady.step calm hs, rfl⟩
  rcases Option.eq_none_or_eq_some s.commandLock with free | ⟨k, lock⟩
  · obtain ⟨t, hs, steady, holds⟩ := enters s h free phase
    exact ⟨[.acquire i], t, (Runs.along_cons hs).mpr ⟨⟨trivial, by simp⟩, trivial⟩,
      Runs.run_cons.mpr ⟨t, hs, rfl⟩, steady, holds⟩
  · -- the present holder returns first
    obtain ⟨more, u, along, hu, steady, ⟨fs, returned⟩, same⟩ := holder_returns h lock
    have hik : i ≠ k := by
      rintro rfl
      simpa [phase, Phase.inSlot] using (h.ok.holder i).mpr lock
    have free : u.commandLock = none := by
      rw [Option.eq_none_iff_forall_ne_some]
      intro j held
      have slot := (steady.ok.holder j).mpr held
      by_cases hjk : j = k
      · subst hjk
        simp [returned, Phase.inSlot] at slot
      · rw [same j hjk] at slot
        exact hjk (Option.some.inj (((h.ok.holder j).mp slot).symm.trans lock))
    obtain ⟨t, hs, steady', holds⟩ := enters u steady free (by rw [same i hik, phase])
    refine ⟨more ++ [.acquire i], t, Runs.along_append hu along ?_, ?_, steady', holds⟩
    · exact (Runs.along_cons hs).mpr ⟨⟨trivial, by simp⟩, trivial⟩
    · exact Runs.run_append.mpr ⟨u, hu, Runs.run_cons.mpr ⟨t, hs, rfl⟩⟩

theorem command_returns (h : Steady P s)
    (begun : (s.calls i).phase.inSlot = true ∨ ∃ mc, (s.calls i).phase = .waiting mc) :
    ∃ more t, Runs.Along (step P) Calm s more ∧ Runs.run (step P) s more = some t ∧
      ∃ fs, (t.calls i).phase = .returned fs := by
  rcases begun with slot | ⟨mc, phase⟩
  · obtain ⟨more, t, along, ht, _, returned, _⟩ := holder_returns h ((h.ok.holder i).mp slot)
    exact ⟨more, t, along, ht, returned⟩
  · obtain ⟨more, u, along, hu, steady, lock⟩ := waiting_acquires h phase
    obtain ⟨more', t, along', ht, _, returned, _⟩ := holder_returns steady lock
    exact ⟨more ++ more', t, Runs.along_append hu along along',
      Runs.run_append.mpr ⟨u, hu, ht⟩, returned⟩

end Progress

end MeshwardenDaemon.CommandSlot
