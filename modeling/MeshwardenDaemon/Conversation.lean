import MeshwardenDaemon.SlotInvariant

/-! The exchange between one raw command and the node: what the call has heard,
what is still owed to it and what the node answered. `Conv` is kept by every
action, failures included, as long as no response reaches the queue of a call it
does not answer (`Clean`). -/
namespace MeshwardenDaemon.CommandSlot
open Protocol ResponseCache Library

def State.pending (s : State) (i : CallId) : List Frame :=
  (s.inbox.filter (·.1 = i)).map Prod.snd

def State.owed (s : State) (i : CallId) : List Rx := s.outbox.filter (·.cmd = some i)

def tagged (i : CallId) (reply : List Frame) : List Rx := reply.map fun f => ⟨f, some i⟩

@[simp] theorem tagged_nil (i : CallId) : tagged i [] = [] := rfl

theorem mem_tagged {i : CallId} {reply : List Frame} {r : Rx} (h : r ∈ tagged i reply) :
    r.cmd = some i ∧ r.frame ∈ reply := by
  obtain ⟨f, hf, rfl⟩ := List.mem_map.mp h
  exact ⟨rfl, hf⟩

@[simp] theorem tagged_frames (i : CallId) (reply : List Frame) :
    (tagged i reply).map Rx.frame = reply := by
  simp [tagged, Function.comp_def]

structure Conv (codes : CommandCodes) (i : CallId) (c : Call) (pending : List Frame)
    (owed : List Rx) (reply : Option (List Frame)) : Prop where
  own : ∀ r ∈ c.frames ++ c.queue, r.cmd = some i
  unsent : c.transmitted = false → pending = [] ∧ owed = [] ∧ reply = none
  sent : c.transmitted = true → (pending = [c.frame] ∧ owed = [] ∧ reply = none) ∨
    (pending = [] ∧ ∃ fs, reply = some fs ∧ Answers codes c.frame fs)
  early : c.phase.inSlot = false → c.phase.ended = false →
    c.transmitted = false ∧ c.sentOn = none ∧ c.frames = [] ∧ c.queue = []
  fresh : c.phase.fresh = true → c.written = []
  conn : c.phase.inSlot = true → c.sentOn ≠ none
  talking : c.phase.inSlot = true →
    c.frames ++ c.queue ++ owed = tagged i (reply.getD [])
  sending : c.phase = .sending → c.frames = [] ∧ c.written = []
  collecting : c.phase = .collecting → c.origin.isProxy = true →
    c.written = c.frames.map Rx.frame
  forwarding : ∀ resp, c.phase = .forwarding resp →
    ∃ xs r, c.frames = xs ++ [r] ∧ r.frame = resp ∧ c.written = xs.map Rx.frame
  returned : ∀ fs, c.phase = .returned fs → fs = c.frames.map Rx.frame ∧
    (c.origin.isProxy = true → c.written = fs) ∧
    (code c.frame = codes.value .reboot → fs = []) ∧
    (code c.frame ≠ codes.value .reboot → reply = some fs)
  prefixed : c.sentOn ≠ none → c.written <+: c.frames.map Rx.frame

variable {codes : CommandCodes} {i : CallId} {c d : Call} {pending : List Frame}
  {owed : List Rx} {reply : Option (List Frame)}

theorem idle_conv : Conv codes i {} [] [] none := by
  constructor <;> simp [Phase.inSlot]

theorem Conv.outside {s : State} (h : Conv codes i c pending owed reply)
    (out : Outside s c d) : Conv codes i d pending owed reply := by
  obtain ⟨unsent, noConn, noFrames, noQueue⟩ := h.early out.before out.live
  have hin := out.after
  refine ⟨?_, ?_, ?_, ?_, ?_, ?_, ?_, ?_, ?_, ?_, ?_, ?_⟩
  · simp [out.frames, out.queue, noFrames, noQueue]
  · exact fun _ => h.unsent unsent
  · simp [out.transmitted, unsent]
  · exact fun _ _ => ⟨out.transmitted.trans unsent, out.sentOn.trans noConn,
      out.frames.trans noFrames, out.queue.trans noQueue⟩
  · intro fresh
    obtain ⟨hc, hw⟩ := out.fresh fresh
    exact hw.trans (h.fresh hc)
  · simp [hin]
  · simp [hin]
  · intro hp
    simp [hp, Phase.inSlot] at hin
  · intro hp
    simp [hp, Phase.inSlot] at hin
  · intro resp hp
    simp [hp, Phase.inSlot] at hin
  · exact fun fs hp => absurd hp (out.not_returned fs)
  · simp [out.sentOn, noConn]

theorem Conv.take {mc mc' : Conn} {slot : ℕ} {p : Phase}
    (h : Conv codes i c pending owed reply)
    (phase : c.phase = .waiting mc) (enters : p = .sending ∨ p = .running) :
    Conv codes i { c with phase := p, sentOn := some mc', slot := slot }
      pending owed reply := by
  obtain ⟨unsent, noConn, noFrames, noQueue⟩ :=
    h.early (by simp [phase, Phase.inSlot]) (by simp [phase, Phase.ended])
  obtain ⟨noPending, noOwed, noReply⟩ := h.unsent unsent
  have silent := h.fresh (by simp [phase, Phase.fresh])
  rcases enters with rfl | rfl <;> constructor <;>
    simp [Phase.inSlot, Phase.fresh, *]

theorem Conv.transmit (h : Conv codes i c pending owed reply) (phase : c.phase = .sending)
    (unsent : c.transmitted = false) :
    Conv codes i { c with transmitted := true } (pending ++ [c.frame]) owed reply := by
  obtain ⟨rfl, rfl, rfl⟩ := h.unsent unsent
  refine { h with unsent := nofun, sent := fun _ => Or.inl ⟨rfl, rfl, rfl⟩, early := ?_ }
  simp [phase, Phase.inSlot]

theorem Conv.progress (h : Conv codes i c pending owed reply)
    (before : c.phase.inSlot = true)
    (after : d.phase = .collecting ∨ ∃ resp, d.phase = .forwarding resp)
    (frame : d.frame = c.frame) (transmitted : d.transmitted = c.transmitted)
    (conn : d.sentOn = c.sentOn) (heard : d.frames ++ d.queue = c.frames ++ c.queue)
    (collecting : d.phase = .collecting → d.origin.isProxy = true →
      d.written = d.frames.map Rx.frame)
    (forwarding : ∀ resp, d.phase = .forwarding resp →
      ∃ xs r, d.frames = xs ++ [r] ∧ r.frame = resp ∧ d.written = xs.map Rx.frame)
    (prefixed : d.sentOn ≠ none → d.written <+: d.frames.map Rx.frame) :
    Conv codes i d pending owed reply := by
  have hin : d.phase.inSlot = true := by
    rcases after with hp | ⟨resp, hp⟩ <;> simp [hp, Phase.inSlot]
  refine { own := heard ▸ h.own, unsent := transmitted ▸ h.unsent, sent := ?_, early := ?_
           fresh := ?_, conn := fun _ => conn ▸ h.conn before
           talking := fun _ => heard ▸ h.talking before, sending := ?_
           collecting := collecting, forwarding := forwarding, returned := ?_
           prefixed := prefixed }
  · rw [transmitted, frame]
    exact h.sent
  · simp [hin]
  all_goals rcases after with hp | ⟨resp, hp⟩ <;> simp [hp, Phase.fresh]

theorem Conv.answered (h : Conv codes i c pending owed reply)
    (heard : owed ≠ [] ∨ reply ≠ none) : c.transmitted = true ∧ pending = [] ∧
      ∃ fs, reply = some fs ∧ Answers codes c.frame fs := by
  cases sent : c.transmitted with
  | false =>
    obtain ⟨_, noOwed, noReply⟩ := h.unsent sent
    simp [noOwed, noReply] at heard
  | true =>
    rcases h.sent sent with ⟨_, noOwed, noReply⟩ | replied
    · simp [noOwed, noReply] at heard
    · exact ⟨rfl, replied⟩

theorem Conv.complete {xs rest : List Rx} {r : Rx} (h : Conv codes i c pending owed reply)
    (phase : c.phase.inSlot = true) (heard : c.frames ++ c.queue = xs ++ r :: rest)
    (last : isTerminal codes (code c.frame) (code r.frame) = true) :
    owed = [] ∧ pending = [] ∧ code c.frame ≠ codes.value .reboot ∧
      reply = some ((xs ++ [r]).map Rx.frame) := by
  have talk := h.talking phase
  rw [heard] at talk
  have replied : reply ≠ none := by
    rintro rfl
    simp at talk
  obtain ⟨_, noPending, fs, rfl, answers⟩ := h.answered (Or.inr replied)
  have frames : fs = xs.map Rx.frame ++ r.frame :: (rest ++ owed).map Rx.frame := by
    simpa using (congrArg (List.map Rx.frame) talk).symm
  have none_left : (rest ++ owed).map Rx.frame = [] :=
    (answers_terminal_iff (frames ▸ answers)).mp last
  obtain ⟨rfl, rfl⟩ := List.append_eq_nil_iff.mp (List.map_eq_nil_iff.mp none_left)
  refine ⟨rfl, noPending, fun reboot => ?_, by simpa using frames⟩
  simp [answers_reboot answers reboot] at frames

theorem Conv.told {resp : Frame} (h : Conv codes i c pending owed reply)
    (phase : c.phase = .forwarding resp) : c.written ++ [resp] = c.frames.map Rx.frame := by
  obtain ⟨xs, r, frames, rfl, told⟩ := h.forwarding resp phase
  simp [frames, told]

theorem Conv.delivered {resp : Frame} (h : Conv codes i c pending owed reply)
    (phase : c.phase = .forwarding resp)
    (last : isTerminal codes (code c.frame) (code resp) = true) :
    owed = [] ∧ pending = [] ∧ code c.frame ≠ codes.value .reboot ∧
      reply = some (c.frames.map Rx.frame) := by
  obtain ⟨xs, r, frames, rfl, -⟩ := h.forwarding resp phase
  have heard : c.frames ++ c.queue = xs ++ r :: c.queue := by simp [frames]
  have slot : c.phase.inSlot = true := by simp [phase, Phase.inSlot]
  rw [frames]
  exact h.complete slot heard last

theorem Conv.unanswered (h : Conv codes i c pending owed reply)
    (slot : c.phase.inSlot = true) (reboot : code c.frame = codes.value .reboot) :
    owed = [] ∧ ∀ f ∈ pending, code f = codes.value .reboot := by
  cases sent : c.transmitted with
  | false =>
    obtain ⟨rfl, rfl, -⟩ := h.unsent sent
    exact ⟨rfl, by simp⟩
  | true =>
    rcases h.sent sent with ⟨rfl, rfl, -⟩ | ⟨rfl, fs, replied, answers⟩
    · exact ⟨rfl, by simpa using reboot⟩
    · obtain rfl := answers_reboot answers reboot
      have silent := h.talking slot
      rw [replied, Option.getD_some, tagged_nil] at silent
      exact ⟨(List.append_eq_nil_iff.mp silent).2, by simp⟩

theorem Conv.answers {fs : List Frame} (h : Conv codes i c pending owed reply)
    (replied : reply = some fs) : Answers codes c.frame fs := by
  obtain ⟨_, _, fs', replied', answers⟩ := h.answered (Or.inr (by simp [replied]))
  obtain rfl : fs' = fs := Option.some.inj (replied'.symm.trans replied)
  exact answers

theorem Conv.finish {fs : List Frame} (h : Conv codes i c pending owed reply)
    (frame : d.frame = c.frame) (transmitted : d.transmitted = c.transmitted)
    (heard : d.frames ++ d.queue = c.frames ++ c.queue)
    (result : fs = d.frames.map Rx.frame)
    (written : d.written <+: fs) (told : d.origin.isProxy = true → d.written = fs)
    (reboot : code c.frame = codes.value .reboot → fs = [])
    (answer : code c.frame ≠ codes.value .reboot → reply = some fs) :
    Conv codes i { d with phase := .returned fs } pending owed reply := by
  refine { own := heard ▸ h.own, unsent := transmitted ▸ h.unsent, sent := ?_, early := nofun
           fresh := nofun, conn := nofun, talking := nofun, sending := nofun
           collecting := nofun, forwarding := nofun, returned := ?_
           prefixed := fun _ => result ▸ written }
  · simp only [transmitted, frame]
    exact h.sent
  · rintro fs' ⟨⟩
    exact ⟨result, told, frame ▸ reboot, frame ▸ answer⟩

theorem Conv.abandon {e : Fault} (h : Conv codes i c pending owed reply) :
    Conv codes i { c with phase := .raised e } pending owed reply :=
  { own := h.own, unsent := h.unsent, sent := h.sent, early := nofun, fresh := nofun
    conn := nofun, talking := nofun, sending := nofun, collecting := nofun, forwarding := nofun
    returned := nofun, prefixed := h.prefixed }

theorem Conv.answer {f : Frame} {rest : List Frame} {fs : List Frame}
    (h : Conv codes i c (f :: rest) owed reply) (answers : Answers codes f fs) :
    Conv codes i c rest (owed ++ tagged i fs) (some fs) := by
  have sent : c.transmitted = true := by
    by_contra unsent
    exact absurd (h.unsent (by simpa using unsent)).1 (List.cons_ne_nil f rest)
  rcases h.sent sent with ⟨pending, rfl, rfl⟩ | ⟨pending, _⟩
  · obtain ⟨rfl, rfl⟩ := List.cons_eq_cons.mp pending
    refine { h with unsent := by simp [sent], sent := fun _ => Or.inr ⟨rfl, fs, rfl, answers⟩
                    talking := ?_, returned := ?_ }
    · intro hin
      have talk := h.talking hin
      simp only [List.append_nil, Option.getD_none, tagged_nil] at talk
      simp [talk]
    · intro fs' hp
      obtain ⟨result, told, reboot, answer⟩ := h.returned fs' hp
      refine ⟨result, told, reboot, fun hr => ?_⟩
      exact absurd (answer hr) nofun
  · exact absurd pending (List.cons_ne_nil f rest)

theorem Conv.dispatch {r : Rx} (h : Conv codes i c pending (r :: owed) reply)
    (own : r.cmd = some i) :
    Conv codes i { c with queue := c.queue ++ [r] } pending owed reply := by
  obtain ⟨sent, replied⟩ := h.answered (Or.inl (List.cons_ne_nil r owed))
  refine { h with own := ?_, unsent := by simp [sent], sent := fun _ => Or.inr replied
                  early := ?_, talking := ?_ }
  · intro x hx
    rw [← List.append_assoc, List.mem_append, List.mem_singleton] at hx
    rcases hx with hx | rfl
    · exact h.own x hx
    · exact own
  · intro hin hend
    obtain ⟨unsent, _⟩ := h.early hin hend
    simp [sent] at unsent
  · intro hin
    simpa using h.talking hin

theorem Conv.drop {r : Rx} (h : Conv codes i c pending (r :: owed) reply)
    (out : c.phase.inSlot = false) : Conv codes i c pending owed reply := by
  obtain ⟨sent, replied⟩ := h.answered (Or.inl (List.cons_ne_nil r owed))
  exact { h with unsent := by simp [sent], sent := fun _ => Or.inr replied
                 talking := by simp [out] }

theorem Conv.isResponse {r : Rx} (h : Conv codes i c pending (r :: owed) reply)
    (slot : c.phase.inSlot = true) : isResponse r.frame = true := by
  have talk := h.talking slot
  obtain ⟨_, _, fs, rfl, answers⟩ := h.answered (Or.inl (List.cons_ne_nil r owed))
  have mem : r ∈ tagged i fs := by
    rw [Option.getD_some] at talk
    simp [← talk]
  exact answers_isResponse answers (mem_tagged mem).2

def Conversing (P : Settings) (s : State) : Prop :=
  ∀ i, (s.calls i).phase = .idle ∨ (s.calls i).origin.isLibrary = false →
    Conv P.codes i (s.calls i) (s.pending i) (s.owed i) (s.reply i)

/-- The response about to be dispatched does not meet the queue of a raw command
it is no response to. -/
def Clean (s : State) : Action → Prop
  | .dispatch => ∀ r ∈ s.outbox.head?, ∀ q ∈ s.rawQueue, r.cmd = some q
  | _ => True

instance (s : State) (a : Action) : Decidable (Clean s a) := by
  unfold Clean
  induction a using Action.casesOn <;> infer_instance

theorem init_conversing (P : Settings) : Conversing P (init P) := by
  intro i _
  simpa [init, State.pending, State.owed] using @idle_conv P.codes i

theorem pending_append_ne {i j : CallId} (h : j ≠ i) (s : State) (f : Frame) :
    { s with inbox := s.inbox ++ [(i, f)] }.pending j = s.pending j := by
  simp [State.pending, Ne.symm h]

theorem Conversing.setCall {P : Settings} {s t : State} {i : CallId} {d : Call}
    (h : Conversing P s) (inbox : t.inbox = s.inbox) (outbox : t.outbox = s.outbox)
    (reply : t.reply = s.reply) (calls : t.calls = Function.update s.calls i d)
    (kind : d.phase = .idle ∨ d.origin.isLibrary = false →
      (s.calls i).phase = .idle ∨ (s.calls i).origin.isLibrary = false)
    (conv : (s.calls i).phase = .idle ∨ (s.calls i).origin.isLibrary = false →
      Conv P.codes i (s.calls i) (s.pending i) (s.owed i) (s.reply i) →
      Conv P.codes i d (s.pending i) (s.owed i) (s.reply i)) : Conversing P t := by
  intro j hj
  simp only [State.pending, State.owed, inbox, outbox, reply]
  rw [calls] at hj ⊢
  by_cases hji : j = i
  · subst hji
    simp only [Function.update_self] at hj ⊢
    exact conv (kind hj) (h j (kind hj))
  · rw [Function.update_of_ne hji] at hj ⊢
    exact h j hj

theorem Conversing.holder {P : Settings} {s : State} (h : Conversing P s) (ok : SlotOk s)
    {i : CallId} {p : Phase} (phase : (s.calls i).phase = p) (slot : p.inSlot = true)
    (raw : p ≠ .running) : (s.calls i).origin.isLibrary = false ∧
      Conv P.codes i (s.calls i) (s.pending i) (s.owed i) (s.reply i) := by
  have running := ok.running i (by rw [phase, slot])
  have isRaw : (s.calls i).origin.isLibrary = false := by
    rw [← Bool.not_eq_true, ← running, phase]
    exact raw
  exact ⟨isRaw, h i (Or.inr isRaw)⟩

theorem Conversing.inbox {P : Settings} {s : State} (h : Conversing P s)
    {inbox : List (CallId × Frame)} (raw : ∀ j, (s.calls j).phase = .idle ∨
      (s.calls j).origin.isLibrary = false → { s with inbox := inbox }.pending j = s.pending j) :
    Conversing P { s with inbox := inbox } := by
  intro j hj
  rw [raw j hj]
  exact h j hj

theorem Conversing.finish {P : Settings} {s : State} {i : CallId} {d : Call}
    (h : Conversing P s) (raw : (s.calls i).origin.isLibrary = false)
    (conv : Conv P.codes i (s.calls i) (s.pending i) (s.owed i) (s.reply i) →
      Conv P.codes i { d with phase := .returned (d.frames.map Rx.frame) }
        (s.pending i) (s.owed i) (s.reply i)) : Conversing P (s.finish P i d) :=
  h.setCall rfl rfl rfl rfl (fun _ => Or.inr raw) fun _ => conv

theorem Conversing.receive {P : Settings} {s : State} (h : Conversing P s) (ok : SlotOk s)
    {r : Rx} {rest : List Rx} (outbox : s.outbox = r :: rest)
    (clean : ∀ q ∈ s.rawQueue, r.cmd = some q) :
    Conversing P ({ s with outbox := rest }.dispatchFrame r) := by
  have owed : ∀ j, s.owed j = if r.cmd = some j then r :: { s with outbox := rest }.owed j
      else { s with outbox := rest }.owed j := by
    intro j
    simp [State.owed, outbox, List.filter_cons]
  rcases Option.eq_none_or_eq_some s.rawQueue with queue | ⟨q, queue⟩
  · have dropped : { s with outbox := rest }.dispatchFrame r = { s with outbox := rest } := by
      simp [State.dispatchFrame, queue]
    rw [dropped]
    intro j hj
    have conv := h j hj
    rw [owed j] at conv
    split at conv
    · refine conv.drop ?_
      by_contra slot
      rw [Bool.not_eq_false] at slot
      have lock := (ok.holder j).mp slot
      have raw : (s.calls j).origin.isLibrary = false := by
        refine hj.resolve_left fun idle => ?_
        change (s.calls j).phase = .idle at idle
        rw [idle] at slot
        exact absurd slot nofun
      exact absurd (queue.symm.trans ((ok.owner j).mpr ⟨lock, raw⟩)) nofun
    · exact conv
  · have own := clean q queue
    obtain ⟨lock, raw⟩ := (ok.owner q).mp queue
    have slot := (ok.holder q).mpr lock
    have conv := h q (Or.inr raw)
    rw [owed q, if_pos own] at conv
    have queued : { s with outbox := rest }.dispatchFrame r =
        { s with outbox := rest }.setCall q
          { s.calls q with queue := (s.calls q).queue ++ [r] } := by
      simp [State.dispatchFrame, queue, conv.isResponse slot]
    rw [queued]
    intro j hj
    by_cases hjq : j = q
    · subst hjq
      rw [setCall_calls_self]
      exact conv.dispatch own
    · rw [setCall_calls_ne hjq] at hj ⊢
      have other := h j hj
      rw [owed j, if_neg (by rw [own]; simpa using Ne.symm hjq)] at other
      exact other

theorem Conversing.answer {P : Settings} {s : State} (h : Conversing P s) {i : CallId}
    {frame : Frame} {rest : List (CallId × Frame)} {reply : List Frame}
    (inbox : s.inbox = (i, frame) :: rest) (answers : Answers P.codes frame reply) :
    Conversing P { s with
      inbox := rest, outbox := s.outbox ++ tagged i reply
      reply := Function.update s.reply i (some reply) } := by
  intro j hj
  have conv := h j hj
  by_cases hji : j = i
  · subst hji
    have own : s.pending j = frame :: (rest.filter (·.1 = j)).map Prod.snd := by
      simp [State.pending, inbox]
    have all : (tagged j reply).filter (fun r => r.cmd = some j) = tagged j reply :=
      List.filter_eq_self.mpr fun r hr => by simpa using (mem_tagged hr).1
    rw [own] at conv
    simpa [State.pending, State.owed, all] using conv.answer answers
  · have none_pending : s.pending j = (rest.filter (·.1 = j)).map Prod.snd := by
      simp [State.pending, inbox, Ne.symm hji]
    have none_owed : (tagged i reply).filter (fun r => r.cmd = some j) = [] :=
      List.filter_eq_nil_iff.mpr fun r hr => by
        simpa [(mem_tagged hr).1] using Ne.symm hji
    rw [none_pending] at conv
    simpa [State.pending, State.owed, none_owed, Function.update_of_ne hji] using conv

section move
variable {P : Settings} {s : State} {i : CallId} {r : Rx} {rest : List Rx} {resp : Frame}

theorem Conversing.take {mc : Conn} (h : Conversing P s)
    (phase : (s.calls i).phase = .waiting mc) : Conversing P (s.takeSlot i mc) := by
  refine h.setCall rfl rfl rfl rfl ?_ (fun _ conv => conv.take phase ?_)
  · rintro (idle | raw)
    · cases library : (s.calls i).origin.isLibrary <;> simp [library] at idle
    · exact Or.inr raw
  · cases library : (s.calls i).origin.isLibrary <;> simp

theorem Conversing.transmit (h : Conversing P s) (ok : SlotOk s)
    (phase : (s.calls i).phase = .sending) (unsent : (s.calls i).transmitted = false) :
    Conversing P ({ s with inbox := s.inbox ++ [(i, (s.calls i).frame)] }.setCall i
      { s.calls i with transmitted := true }) := by
  obtain ⟨raw, conv⟩ := h.holder ok phase rfl (by simp)
  intro j hj
  by_cases hji : j = i
  · subst hji
    simpa [State.pending, State.owed] using conv.transmit phase unsent
  · rw [setCall_calls_ne hji] at hj ⊢
    have other := h j hj
    rw [← pending_append_ne hji s (s.calls i).frame] at other
    exact other

theorem Conversing.sendReturns (h : Conversing P s) (ok : SlotOk s)
    (phase : (s.calls i).phase = .sending) :
    Conversing P (s.setCall i { s.calls i with phase := .collecting }) := by
  obtain ⟨raw, conv⟩ := h.holder ok phase rfl (by simp)
  obtain ⟨noFrames, silent⟩ := conv.sending phase
  refine h.setCall rfl rfl rfl rfl (fun _ => Or.inr raw) fun _ _ =>
    conv.progress (by simp [phase, Phase.inSlot]) (Or.inl rfl) rfl rfl rfl rfl ?_ (by simp) ?_
  · intro _ _
    simp [noFrames, silent]
  · simp [noFrames, silent]

theorem Conversing.reboots (h : Conversing P s) (ok : SlotOk s)
    (phase : (s.calls i).phase = .sending)
    (reboot : code (s.calls i).frame = P.codes.value .reboot) :
    Conversing P (s.finish P i (s.calls i)) := by
  obtain ⟨raw, conv⟩ := h.holder ok phase rfl (by simp)
  obtain ⟨noFrames, silent⟩ := conv.sending phase
  refine h.finish raw fun _ => conv.finish rfl rfl rfl rfl ?_ ?_ ?_ ?_
  · simp [noFrames, silent]
  · intro _
    simp [noFrames, silent]
  · intro _
    simp [noFrames]
  · exact fun expects => absurd reboot expects

theorem Conversing.hands (h : Conversing P s) (ok : SlotOk s)
    (phase : (s.calls i).phase = .collecting) (queue : (s.calls i).queue = r :: rest)
    (proxy : (s.calls i).origin.isProxy = true) :
    Conversing P (s.setCall i { s.calls i with
      queue := rest, frames := (s.calls i).frames ++ [r], phase := .forwarding r.frame }) := by
  obtain ⟨raw, conv⟩ := h.holder ok phase rfl (by simp)
  have told := conv.collecting phase proxy
  refine h.setCall rfl rfl rfl rfl (fun _ => Or.inr raw) fun _ _ =>
    conv.progress (by simp [phase, Phase.inSlot]) (Or.inr ⟨r.frame, rfl⟩) rfl rfl rfl
      (by simp [queue]) (by simp) ?_ ?_
  · rintro resp ⟨⟩
    exact ⟨(s.calls i).frames, r, rfl, rfl, told⟩
  · intro _
    rw [told, List.map_append]
    exact List.prefix_append _ _

theorem Conversing.collects (h : Conversing P s) (ok : SlotOk s)
    (phase : (s.calls i).phase = .collecting) (queue : (s.calls i).queue = r :: rest)
    (proxy : (s.calls i).origin.isProxy = false) :
    Conversing P (s.setCall i { s.calls i with
      queue := rest, frames := (s.calls i).frames ++ [r], phase := .collecting }) := by
  obtain ⟨raw, conv⟩ := h.holder ok phase rfl (by simp)
  refine h.setCall rfl rfl rfl rfl (fun _ => Or.inr raw) fun _ _ =>
    conv.progress (by simp [phase, Phase.inSlot]) (Or.inl rfl) rfl rfl rfl
      (by simp [queue]) ?_ (by simp) ?_
  · intro _ isProxy
    simp [proxy] at isProxy
  · intro hconn
    rw [List.map_append]
    exact (conv.prefixed hconn).trans (List.prefix_append _ _)

theorem Conversing.completes (h : Conversing P s) (ok : SlotOk s)
    (phase : (s.calls i).phase = .collecting) (queue : (s.calls i).queue = r :: rest)
    (proxy : (s.calls i).origin.isProxy = false)
    (last : isTerminal P.codes (code (s.calls i).frame) (code r.frame) = true) :
    Conversing P (s.finish P i { s.calls i with
      queue := rest, frames := (s.calls i).frames ++ [r] }) := by
  obtain ⟨raw, conv⟩ := h.holder ok phase rfl (by simp)
  have slot : (s.calls i).phase.inSlot = true := by simp [phase, Phase.inSlot]
  obtain ⟨_, _, expects, answered⟩ := conv.complete slot (by rw [queue]) last
  refine h.finish raw fun _ => conv.finish rfl rfl (by simp [queue]) rfl ?_ ?_ ?_
    fun _ => answered
  · rw [List.map_append]
    exact (conv.prefixed (conv.conn slot)).trans (List.prefix_append _ _)
  · intro isProxy
    simp [proxy] at isProxy
  · exact fun reboot => absurd reboot expects

theorem Conversing.streams (h : Conversing P s) (ok : SlotOk s)
    (phase : (s.calls i).phase = .forwarding resp) :
    Conversing P (s.setCall i { s.calls i with
      written := (s.calls i).written ++ [resp], phase := .collecting }) := by
  obtain ⟨raw, conv⟩ := h.holder ok phase rfl (by simp)
  have told := conv.told phase
  refine h.setCall rfl rfl rfl rfl (fun _ => Or.inr raw) fun _ _ =>
    conv.progress (by simp [phase, Phase.inSlot]) (Or.inl rfl) rfl rfl rfl rfl ?_ (by simp) ?_
  · exact fun _ _ => told
  · exact fun _ => told ▸ List.prefix_rfl

theorem Conversing.delivers (h : Conversing P s) (ok : SlotOk s)
    (phase : (s.calls i).phase = .forwarding resp)
    (last : isTerminal P.codes (code (s.calls i).frame) (code resp) = true) :
    Conversing P (s.finish P i { s.calls i with
      written := (s.calls i).written ++ [resp] }) := by
  obtain ⟨raw, conv⟩ := h.holder ok phase rfl (by simp)
  have told := conv.told phase
  obtain ⟨_, _, expects, answered⟩ := conv.delivered phase last
  refine h.finish raw fun _ => conv.finish rfl rfl rfl rfl ?_ ?_ ?_ ?_
  · exact told ▸ List.prefix_rfl
  · exact fun _ => told
  · exact fun reboot => absurd reboot expects
  · exact fun _ => answered

theorem Conversing.move {t : State} {a : Action} (h : Conversing P s) (ok : SlotOk s)
    (clean : Clean s a) (m : Move P s a t) : Conversing P t := by
  cases m with
  | environment | push => exact h
  | outside cache proxied hits out ttl kept =>
    refine h.setCall rfl rfl rfl rfl ?_ (fun _ conv => conv.outside out)
    rintro (idle | raw)
    · exact absurd idle out.begun
    · rcases out.origin with idle | ⟨origin, _⟩
      · exact Or.inl idle
      · exact Or.inr (origin ▸ raw)
  | take free phase => exact h.take phase
  | transmit phase unsent conn => exact h.transmit ok phase unsent
  | sendReturns phase sent expects => exact h.sendReturns ok phase
  | reboots phase reboot => exact h.reboots ok phase reboot
  | hands phase queue proxy => exact h.hands ok phase queue proxy
  | collects phase queue proxy more => exact h.collects ok phase queue proxy
  | completes phase queue proxy last => exact h.completes ok phase queue proxy last
  | streams phase more => exact h.streams ok phase
  | delivers phase last => exact h.delivers ok phase last
  | @librarySend i frame phase =>
    refine h.inbox fun j hj => pending_append_ne ?_ s frame
    rintro rfl
    have library := (ok.running j (by simp [phase, Phase.inSlot])).mp phase
    simp [phase, library] at hj
  | @libraryReturns i phase settled =>
    have library := (ok.running i (by simp [phase, Phase.inSlot])).mp phase
    refine h.setCall rfl rfl rfl rfl ?_ ?_
    · simp [library]
    · simp [phase, library]
  | @abandons i e phase =>
    refine h.setCall rfl rfl rfl rfl ?_ (fun _ conv => conv.abandon)
    simpa using Or.inr
  | answer inbox answers => exact h.answer inbox answers
  | @dispatch r rest outbox =>
    refine h.receive ok outbox ?_
    simpa [Clean, outbox] using clean

end move

end MeshwardenDaemon.CommandSlot
