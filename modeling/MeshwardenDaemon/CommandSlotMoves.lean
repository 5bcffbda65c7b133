import MeshwardenDaemon.CommandSlot
import MeshwardenDaemon.Library.Runs

/-! What one action of the command-slot machine can do, as an inductive relation.
Every invariant is a case analysis over `Move`; `step` itself is unfolded in
`move_of_step` only. -/
namespace MeshwardenDaemon.CommandSlot
open Protocol ResponseCache Library

structure Outside (s : State) (c d : Call) : Prop where
  before : c.phase.inSlot = false
  live : c.phase.ended = false
  after : d.phase.inSlot = false
  begun : d.phase ≠ .idle
  not_returned : ∀ frames, d.phase ≠ .returned frames
  origin : c.phase = .idle ∨ (d.origin = c.origin ∧ d.frame = c.frame)
  slot : d.slot = c.slot
  sentOn : d.sentOn = c.sentOn
  transmitted : d.transmitted = c.transmitted
  frames : d.frames = c.frames
  queue : d.queue = c.queue
  fresh : d.phase.fresh = true → c.phase.fresh = true ∧ d.written = c.written
  waiting : ∀ mc, d.phase = .waiting mc →
    s.mc = some mc ∧ s.connected = true ∧ d.losses = s.losses

inductive Link (s : State) : Action → Option Conn → Bool → ℕ → ℕ → Prop
  | same {a : Action} : Link s a s.mc s.connected s.connections s.losses
  | connect (free : s.mc = none) :
      Link s .connect (some s.connections) true (s.connections + 1) s.losses
  | lose (up : s.connected = true) : Link s .lose s.mc false s.connections (s.losses + 1)
  | close (held : s.mc ≠ none) (down : s.connected = false) :
      Link s .close none s.connected s.connections s.losses

inductive Move (P : Settings) (s : State) : Action → State → Prop
  | environment {a : Action} {clock : ℚ} {mc : Option Conn} {connected : Bool}
      {connections losses : ℕ} (later : s.clock ≤ clock)
      (link : Link s a mc connected connections losses) :
      Move P s a { s with
        clock := clock, mc := mc, connected := connected
        connections := connections, losses := losses }
  | outside {a : Action} {i : CallId} {d : Call} (cache : Cache) (proxied hits : ℕ)
      (out : Outside s (s.calls i) d) (ttl : cache.ttl = s.cache.ttl)
      (kept : ∀ k e, cache.entries.lookup k = some e → s.cache.entries.lookup k = some e) :
      Move P s a ({ s with
        cache := cache, commandsProxied := proxied, cacheHits := hits }.setCall i d)
  | take {i : CallId} {mc : Conn} (free : s.commandLock = none)
      (phase : (s.calls i).phase = .waiting mc) : Move P s (.acquire i) (s.takeSlot i mc)
  | transmit {i : CallId} (phase : (s.calls i).phase = .sending)
      (unsent : (s.calls i).transmitted = false) (conn : s.mc = (s.calls i).sentOn) :
      Move P s (.transmit i)
        ({ s with inbox := s.inbox ++ [(i, (s.calls i).frame)] }.setCall i
          { s.calls i with transmitted := true })
  | sendReturns {i : CallId} (phase : (s.calls i).phase = .sending)
      (sent : (s.calls i).transmitted = true ∨ s.mc ≠ (s.calls i).sentOn)
      (expects : code (s.calls i).frame ≠ P.codes.value .reboot) :
      Move P s (.sendReturns i) (s.setCall i { s.calls i with phase := .collecting })
  | reboots {i : CallId} (phase : (s.calls i).phase = .sending)
      (reboot : code (s.calls i).frame = P.codes.value .reboot) :
      Move P s (.sendReturns i) (s.finish P i (s.calls i))
  | hands {i : CallId} {r : Rx} {rest : List Rx} (phase : (s.calls i).phase = .collecting)
      (queue : (s.calls i).queue = r :: rest) (proxy : (s.calls i).origin.isProxy = true) :
      Move P s (.receive i) (s.setCall i { s.calls i with
        queue := rest, frames := (s.calls i).frames ++ [r], phase := .forwarding r.frame })
  | collects {i : CallId} {r : Rx} {rest : List Rx} (phase : (s.calls i).phase = .collecting)
      (queue : (s.calls i).queue = r :: rest) (raw : (s.calls i).origin.isProxy = false)
      (more : isTerminal P.codes (code (s.calls i).frame) (code r.frame) = false) :
      Move P s (.receive i) (s.setCall i { s.calls i with
        queue := rest, frames := (s.calls i).frames ++ [r], phase := .collecting })
  | completes {i : CallId} {r : Rx} {rest : List Rx} (phase : (s.calls i).phase = .collecting)
      (queue : (s.calls i).queue = r :: rest) (raw : (s.calls i).origin.isProxy = false)
      (last : isTerminal P.codes (code (s.calls i).frame) (code r.frame) = true) :
      Move P s (.receive i) (s.finish P i { s.calls i with
        queue := rest, frames := (s.calls i).frames ++ [r] })
  | streams {i : CallId} {resp : Frame} (phase : (s.calls i).phase = .forwarding resp)
      (more : isTerminal P.codes (code (s.calls i).frame) (code resp) = false) :
      Move P s (.forwarded i) (s.setCall i { s.calls i with
        written := (s.calls i).written ++ [resp], phase := .collecting })
  | delivers {i : CallId} {resp : Frame} (phase : (s.calls i).phase = .forwarding resp)
      (last : isTerminal P.codes (code (s.calls i).frame) (code resp) = true) :
      Move P s (.forwarded i) (s.finish P i { s.calls i with
        written := (s.calls i).written ++ [resp] })
  | librarySend {i : CallId} {frame : Frame} (phase : (s.calls i).phase = .running) :
      Move P s (.librarySend i frame) { s with inbox := s.inbox ++ [(i, frame)] }
  | libraryReturns {i : CallId} (phase : (s.calls i).phase = .running)
      (settled : s.settled i = true) :
      Move P s (.libraryReturns i)
        ({ s with commandLock := none }.setCall i { s.calls i with phase := .returned [] })
  | abandons {i : CallId} {e : Fault} (phase : (s.calls i).phase.inSlot = true) :
      Move P s (.fail i e) (s.abandon i e)
  | answer {i : CallId} {frame : Frame} {rest : List (CallId × Frame)} {reply : List Frame}
      (inbox : s.inbox = (i, frame) :: rest) (answers : Answers P.codes frame reply) :
      Move P s (.answer reply) { s with
        inbox := rest
        outbox := s.outbox ++ reply.map fun f => ⟨f, some i⟩
        reply := Function.update s.reply i (some reply) }
  | dispatch {r : Rx} {rest : List Rx} (outbox : s.outbox = r :: rest) :
      Move P s .dispatch ({ s with outbox := rest }.dispatchFrame r)
  | push {frame : Frame} : Move P s (.push frame) s

theorem enter_outside {s : State} {c d : Call} (before : c.phase.fresh = true)
    (hslot : d.slot = c.slot) (hs : d.sentOn = c.sentOn) (ht : d.transmitted = c.transmitted)
    (hf : d.frames = c.frames) (hq : d.queue = c.queue) (hw : d.written = c.written)
    (ho : c.phase = .idle ∨ (d.origin = c.origin ∧ d.frame = c.frame)) :
    Outside s c (s.enter d) := by
  have hin : c.phase.inSlot = false := by
    cases hc : c.phase <;> simp_all [Phase.fresh, Phase.inSlot]
  have hend : c.phase.ended = false := by
    cases hc : c.phase <;> simp_all [Phase.fresh, Phase.ended]
  unfold State.enter
  split
  · rename_i mc hmc hconn
    constructor <;> simp_all [Phase.inSlot]
  · cases hp : d.origin.isProxy <;> constructor <;> simp_all [Phase.inSlot, Phase.fresh]

theorem outside_move {P : Settings} {s : State} {a : Action} {i : CallId} {d : Call}
    (proxied : ℕ) (out : Outside s (s.calls i) d) :
    Move P s a ({ s with commandsProxied := proxied }.setCall i d) :=
  Move.outside s.cache proxied s.cacheHits out rfl (fun _ _ h => h)

theorem lookup_move {P : Settings} {s : State} {a : Action} {i : CallId}
    (phase : (s.calls i).phase = .logging) : Move P s a (s.lookup P i) := by
  have entering := enter_outside (s := s) (c := s.calls i) (d := s.calls i)
    (by simp [phase, Phase.fresh]) rfl rfl rfl rfl rfl rfl (Or.inr ⟨rfl, rfl⟩)
  have ttl := get_ttl s.cache (s.calls i).frame s.clock
  have kept : ∀ k e, (s.cache.get (s.calls i).frame s.clock).2.entries.lookup k = some e →
      s.cache.entries.lookup k = some e := fun _ _ h => get_lookup h
  unfold State.lookup
  simp only
  split
  · split
    · rename_i cached cache hget
      rw [hget] at ttl kept
      refine Move.outside cache s.commandsProxied _ ?_ ttl kept
      constructor <;> simp [phase, Phase.inSlot, Phase.ended, Phase.fresh]
    · rename_i cache hget
      rw [hget] at ttl kept
      exact Move.outside cache s.commandsProxied s.cacheHits entering ttl kept
  · exact outside_move s.commandsProxied entering

theorem canRaise_live {p : Phase} {e : Fault} (h : p.canRaise e = true) :
    p.ended = false ∧ p ≠ .idle := by
  cases p with
  | idle | returned frames | raised e' =>
    cases e <;> simp [Phase.canRaise, Phase.suspended] at h
  | _ => exact ⟨rfl, nofun⟩

theorem abandon_move {P : Settings} {s : State} {i : CallId} {e : Fault}
    (h : (s.calls i).phase.canRaise e = true) : Move P s (.fail i e) (s.abandon i e) := by
  cases slot : (s.calls i).phase.inSlot with
  | true => exact Move.abandons slot
  | false =>
    have same : s.abandon i e = s.setCall i { s.calls i with phase := .raised e } := by
      simp [State.abandon, slot]
    rw [same]
    refine outside_move s.commandsProxied ?_
    obtain ⟨live, _⟩ := canRaise_live h
    constructor <;> first | assumption | simp [Phase.inSlot, Phase.fresh]

theorem dispatchFrame_cases (s : State) (r : Rx) : s.dispatchFrame r = s ∨
    ∃ q, s.rawQueue = some q ∧ isResponse r.frame = true ∧ s.dispatchFrame r =
      s.setCall q { s.calls q with queue := (s.calls q).queue ++ [r] } := by
  unfold State.dispatchFrame
  split
  · rename_i q queue
    split
    · rename_i response
      exact Or.inr ⟨q, queue, response, rfl⟩
    · exact Or.inl rfl
  · exact Or.inl rfl

theorem dispatchFrame_push {s : State} {frame : Frame} (h : isPush frame = true) :
    s.dispatchFrame ⟨frame, none⟩ = s := by
  refine (dispatchFrame_cases s ⟨frame, none⟩).resolve_right ?_
  rintro ⟨q, -, response, -⟩
  rw [isPush_not_response h] at response
  cases response

theorem receive_move {P : Settings} {s : State} {i : CallId} {r : Rx} {rest : List Rx}
    (phase : (s.calls i).phase = .collecting) (queue : (s.calls i).queue = r :: rest) :
    let c := { s.calls i with queue := rest, frames := (s.calls i).frames ++ [r] }
    Move P s (.receive i)
      (if c.origin.isProxy then s.setCall i { c with phase := .forwarding r.frame }
      else s.consumed P i c r.frame) := by
  intro c
  cases proxy : c.origin.isProxy with
  | true => exact Move.hands phase queue proxy
  | false =>
    cases last : isTerminal P.codes (code c.frame) (code r.frame) with
    | true => simpa [State.consumed, last] using Move.completes phase queue proxy last
    | false => simpa [State.consumed, last] using Move.collects phase queue proxy last

theorem forwarded_move {P : Settings} {s : State} {i : CallId} {resp : Frame}
    (phase : (s.calls i).phase = .forwarding resp) :
    Move P s (.forwarded i) (s.consumed P i
      { s.calls i with written := (s.calls i).written ++ [resp] } resp) := by
  cases last : isTerminal P.codes (code (s.calls i).frame) (code resp) with
  | true => simpa [State.consumed, last] using Move.delivers phase last
  | false => simpa [State.consumed, last] using Move.streams phase last

theorem move_of_step {P : Settings} {s t : State} {a : Action}
    (h : step P s a = some t) : Move P s a t := by
  cases a with
  | advance clock =>
    simp only [step, Option.ite_none_right_eq_some, Option.some.injEq] at h
    obtain ⟨later, rfl⟩ := h
    exact Move.environment later Link.same
  | connect =>
    simp only [step, Option.ite_none_right_eq_some, Option.some.injEq] at h
    obtain ⟨free, rfl⟩ := h
    exact Move.environment le_rfl (Link.connect free)
  | lose =>
    simp only [step, Option.ite_none_right_eq_some, Option.some.injEq] at h
    obtain ⟨up, rfl⟩ := h
    exact Move.environment le_rfl (Link.lose up)
  | close =>
    simp only [step, Option.ite_none_right_eq_some, Option.some.injEq] at h
    obtain ⟨⟨held, down⟩, rfl⟩ := h
    exact Move.environment le_rfl (Link.close held down)
  | handleCommand i client frame =>
    simp only [step, Option.ite_none_right_eq_some, Option.some.injEq] at h
    obtain ⟨⟨idle, _⟩, rfl⟩ := h
    refine outside_move _ ?_
    constructor <;> simp [idle, Phase.inSlot, Phase.ended, Phase.fresh]
  | sendRawCommand i frame =>
    simp only [step, Option.ite_none_right_eq_some, Option.some.injEq] at h
    obtain ⟨idle, rfl⟩ := h
    refine outside_move s.commandsProxied ?_
    split
    · constructor <;> simp [idle, Phase.inSlot, Phase.ended, Phase.fresh]
    · exact enter_outside (by simp [idle, Phase.fresh]) rfl rfl rfl rfl rfl rfl (Or.inl idle)
  | command i name =>
    simp only [step, Option.ite_none_right_eq_some, Option.some.injEq] at h
    obtain ⟨idle, rfl⟩ := h
    exact outside_move s.commandsProxied
      (enter_outside (by simp [idle, Phase.fresh]) rfl rfl rfl rfl rfl rfl (Or.inl idle))
  | logged i =>
    simp only [step, Option.ite_none_right_eq_some, Option.some.injEq] at h
    obtain ⟨phase, rfl⟩ := h
    exact lookup_move phase
  | writeCached i =>
    simp only [step] at h
    split at h
    · rename_i frame rest phase
      cases h
      refine outside_move s.commandsProxied ?_
      constructor <;> simp [phase, Phase.inSlot, Phase.ended, Phase.fresh]
    · cases h
  | writeError i =>
    simp only [step, Option.ite_none_right_eq_some, Option.some.injEq] at h
    obtain ⟨phase, rfl⟩ := h
    refine outside_move s.commandsProxied ?_
    constructor <;> simp [phase, Phase.inSlot, Phase.ended, Phase.fresh]
  | acquire i =>
    simp only [step] at h
    split at h
    · rename_i mc free phase
      cases h
      exact Move.take free phase
    · cases h
  | transmit i =>
    simp only [step, Option.ite_none_right_eq_some, Option.some.injEq] at h
    obtain ⟨⟨phase, unsent, conn⟩, rfl⟩ := h
    exact Move.transmit phase unsent conn
  | sendReturns i =>
    simp only [step, Option.ite_none_right_eq_some, Option.some.injEq] at h
    obtain ⟨⟨phase, sent⟩, rfl⟩ := h
    split
    · exact Move.reboots phase (by assumption)
    · exact Move.sendReturns phase sent (by assumption)
  | receive i =>
    simp only [step] at h
    split at h
    · rename_i r rest phase queue
      cases h
      exact receive_move phase queue
    · cases h
  | forwarded i =>
    simp only [step] at h
    split at h
    · rename_i resp phase
      cases h
      exact forwarded_move phase
    · cases h
  | librarySend i frame =>
    simp only [step, Option.ite_none_right_eq_some, Option.some.injEq] at h
    obtain ⟨⟨phase, _⟩, rfl⟩ := h
    exact Move.librarySend phase
  | libraryReturns i =>
    simp only [step, Option.ite_none_right_eq_some, Option.some.injEq] at h
    obtain ⟨⟨phase, settled⟩, rfl⟩ := h
    exact Move.libraryReturns phase settled
  | fail i e =>
    simp only [step, Option.ite_none_right_eq_some, Option.some.injEq] at h
    obtain ⟨raises, rfl⟩ := h
    exact abandon_move raises
  | answer reply =>
    simp only [step] at h
    split at h
    · rename_i i frame rest inbox
      simp only [Option.ite_none_right_eq_some, Option.some.injEq] at h
      obtain ⟨answers, rfl⟩ := h
      exact Move.answer inbox answers
    · cases h
  | dispatch =>
    simp only [step] at h
    split at h
    · rename_i r rest outbox
      cases h
      exact Move.dispatch outbox
    · cases h
  | push frame =>
    simp only [step, Option.ite_none_right_eq_some, Option.some.injEq] at h
    obtain ⟨push, rfl⟩ := h
    rw [dispatchFrame_push push]
    exact Move.push

end MeshwardenDaemon.CommandSlot
