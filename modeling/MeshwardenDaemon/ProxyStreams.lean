import MeshwardenDaemon.CallSteps
import MeshwardenDaemon.ClientSessions
import MeshwardenDaemon.Attribution

/-! The proxy as a whole: the handlers of the clients on one side, the command slot on the
other. Where a handler comes to a frame, an execution of `_handle_command` begins in the
slot; where that has returned, or has raised what `_handle_command` catches, the handler
goes on, and any other exception ends it. Fields marked ghost are written only. -/
namespace MeshwardenDaemon.ProxyStreams
open Protocol Framing Library
open CommandSlot (CallId Call caller)
open ClientSessions (ClientId)

structure Settings where
  sessions : ClientSessions.Settings
  slot : CommandSlot.Settings

structure State where
  sessions : ClientSessions.State
  slot : CommandSlot.State
  /-- Ghost: the executions of `_handle_command` for a client, in the order of their start. -/
  commands : ClientId → List CallId
  /-- Ghost: the frames that these wrote to the client, in order. -/
  responses : ClientId → List Frame

def init (P : Settings) : State :=
  ⟨ClientSessions.init, CommandSlot.init P.slot, fun _ => [], fun _ => []⟩

/-- `i` is the execution of `_handle_command` that begins, where one does. -/
inductive Action
  | session (a : ClientSessions.Action)
  | read (c : ClientId) (data : List UInt8) (i : CallId)
  | next (c : ClientId) (i : CallId)
  | slot (a : CommandSlot.Action)
  deriving DecidableEq

def returns : CommandSlot.Phase → Bool
  | .returned _ | .replaying [] | .raised .timeout | .raised .deviceUnavailable => true
  | _ => false

def raises : CommandSlot.Phase → Bool
  | .raised .timeout | .raised .deviceUnavailable => false
  | .raised _ => true
  | _ => false

def State.atEnd (s : State) (c : ClientId) (p : CommandSlot.Phase → Bool) : Bool :=
  (s.commands c).getLast?.any fun i => p (s.slot.calls i).phase

def State.admits (s : State) : ClientSessions.Action → Bool
  | .read _ _ | .commandReturns _ => false
  | .raises c => (s.sessions.sessions c).phase == .reading || s.atEnd c raises
  | _ => true

/-- The handler of `c` has come to its next frame, or to its next read. -/
def State.proceed (P : Settings) (s : State) (sessions : ClientSessions.State) (c : ClientId)
    (i : CallId) : Option State :=
  match (sessions.sessions c).phase with
  | .handling frame _ =>
    (CommandSlot.step P.slot s.slot (.handleCommand i c frame)).map fun slot =>
      { s with
        sessions := sessions
        slot := slot
        commands := Function.update s.commands c (s.commands c ++ [i]) }
  | _ => some { s with sessions := sessions }

def State.deliver (s : State) (t : CommandSlot.State) (a : CommandSlot.Action) :
    ClientId → List Frame :=
  match caller a with
  | some i =>
    match (t.calls i).origin with
    | .proxy c => Function.update s.responses c (s.responses c ++
        (t.calls i).written.drop (s.slot.calls i).written.length)
    | _ => s.responses
  | none => s.responses

def beginsProxied : CommandSlot.Action → Bool
  | .handleCommand _ _ _ => true
  | _ => false

def step (P : Settings) (s : State) : Action → Option State
  | .session a =>
    if s.admits a then
      (ClientSessions.step P.sessions s.sessions a).map fun t => { s with sessions := t }
    else none
  | .read c data i =>
    (ClientSessions.step P.sessions s.sessions (.read c data)).bind fun t => s.proceed P t c i
  | .next c i =>
    if s.atEnd c returns then
      (ClientSessions.step P.sessions s.sessions (.commandReturns c)).bind
        fun t => s.proceed P t c i
    else none
  | .slot a =>
    if beginsProxied a then none
    else (CommandSlot.step P.slot s.slot a).map fun t =>
      { s with slot := t, responses := s.deliver t a }

structure Told (s : State) (c : ClientId) : Prop where
  begun : ∀ i ∈ s.commands c,
    (s.slot.calls i).phase ≠ .idle ∧ (s.slot.calls i).origin = .proxy c
  nodup : (s.commands c).Nodup
  frames : (s.commands c).map (fun i => (s.slot.calls i).frame) = (s.sessions.sessions c).handled
  current : ∀ i ∈ s.commands c, (s.slot.calls i).phase.over = false →
    (∃ frame rest, (s.sessions.sessions c).phase = .handling frame rest) ∧
      (s.commands c).getLast? = some i
  responses : s.responses c = (s.commands c).flatMap fun i => (s.slot.calls i).written

structure Streams (s : State) : Prop where
  blank : ∀ i, (s.slot.calls i).phase = .idle →
    (s.slot.calls i).written = [] ∧ (s.slot.calls i).origin.isProxy = false
  known : ∀ i c, (s.slot.calls i).origin = .proxy c → i ∈ s.commands c
  client : ∀ c, Told s c

theorem init_streams (P : Settings) : Streams (init P) where
  blank _ _ := ⟨rfl, rfl⟩
  known _ _ proxied := nomatch proxied
  client _ := by constructor <;> simp [init, ClientSessions.init]

theorem Streams.call {P : Settings} {s : State} {t : CommandSlot.State} {a : CommandSlot.Action}
    (h : Streams s) (other : beginsProxied a = false)
    (hs : CommandSlot.step P.slot s.slot a = some t) (i : CallId) :
    ((s.slot.calls i).phase = .idle →
      (t.calls i).written = [] ∧ (t.calls i).origin.isProxy = false) ∧
    ((s.slot.calls i).phase ≠ .idle → (t.calls i).phase ≠ .idle ∧
      (t.calls i).origin = (s.slot.calls i).origin ∧
      (t.calls i).frame = (s.slot.calls i).frame ∧
      ((s.slot.calls i).phase.over = true → (t.calls i).phase.over = true)) := by
  by_cases own : caller a = some i
  · refine ⟨fun idle => ?_, fun begun => ?_⟩
    · obtain ⟨silent, raw⟩ := h.blank i idle
      obtain ⟨-, written, ⟨client, frame, rfl, -⟩ | origin | raw'⟩ :=
        CommandSlot.call_of_idle hs own idle
      · cases other
      · exact ⟨written.trans silent, origin ▸ raw⟩
      · exact ⟨written.trans silent, raw'⟩
    · have carries := CommandSlot.call_of_caller hs own begun
      refine ⟨carries.begun, carries.origin, carries.frame, fun past => ?_⟩
      exact absurd (carries.unfinished.symm.trans past) nofun
  · obtain ⟨queue, same⟩ := CommandSlot.call_of_other hs own
    rw [same]
    exact ⟨fun idle => h.blank i idle, fun begun => ⟨begun, rfl, rfl, id⟩⟩

theorem Told.last {s : State} {c : ClientId} {i : CallId} (h : Told s c)
    (mem : i ∈ s.commands c) (unfinished : (s.slot.calls i).phase.over = false) :
    ∃ earlier, s.commands c = earlier ++ [i] ∧ i ∉ earlier := by
  obtain ⟨earlier, split⟩ := List.getLast?_eq_some_iff.mp (h.current i mem unfinished).2
  have nodup := h.nodup
  rw [split, List.nodup_append] at nodup
  exact ⟨earlier, split, fun again => nodup.2.2 i again i (by simp) rfl⟩

theorem Streams.deliver {P : Settings} {s : State} {t : CommandSlot.State}
    {a : CommandSlot.Action} (h : Streams s) (other : beginsProxied a = false)
    (hs : CommandSlot.step P.slot s.slot a = some t) (c : ClientId) :
    s.deliver t a c = (s.commands c).flatMap fun i => (t.calls i).written := by
  have told := (h.client c).responses
  have silent : (∀ i ∈ s.commands c, caller a ≠ some i) →
      s.responses c = (s.commands c).flatMap fun i => (t.calls i).written := by
    intro others
    rw [told]
    refine List.flatMap_congr fun i mem => ?_
    obtain ⟨queue, same⟩ := CommandSlot.call_of_other hs (others i mem)
    rw [same]
  unfold State.deliver
  cases own : caller a with
  | none => exact silent fun i _ => by simp [own]
  | some i =>
    by_cases mem : i ∈ s.commands c
    · obtain ⟨begun, proxied⟩ := (h.client c).begun i mem
      have carries := CommandSlot.call_of_caller hs own begun
      obtain ⟨earlier, split, distinct⟩ := (h.client c).last mem carries.unfinished
      obtain ⟨more, written⟩ := carries.written
      have before : earlier.flatMap (fun j => (s.slot.calls j).written) =
          earlier.flatMap fun j => (t.calls j).written := by
        refine List.flatMap_congr fun j hj => ?_
        obtain ⟨queue, same⟩ := CommandSlot.call_of_other hs
          (by rw [own]; simpa using (ne_of_mem_of_not_mem hj distinct).symm)
        rw [same]
      simp only [carries.origin, proxied, Function.update_self]
      rw [told, split, List.flatMap_append, List.flatMap_append, before, ← written]
      simp [← written]
    · have others := silent fun j hj => by
        rw [own]
        simpa using (ne_of_mem_of_not_mem hj mem).symm
      have known : ∀ d, (t.calls i).origin = .proxy d → c ≠ d := by
        rintro d proxied rfl
        by_cases idle : (s.slot.calls i).phase = .idle
        · have raw := ((h.call other hs i).1 idle).2
          simp [proxied, CommandSlot.Origin.isProxy] at raw
        · rw [((h.call other hs i).2 idle).2.1] at proxied
          exact mem (h.known i c proxied)
      cases origin : (t.calls i).origin with
      | proxy d => simpa [origin, Function.update_of_ne (known d origin)] using others
      | raw | library => simpa [origin] using others

theorem Streams.slot {P : Settings} {s : State} {t : CommandSlot.State}
    {a : CommandSlot.Action} (h : Streams s) (other : beginsProxied a = false)
    (hs : CommandSlot.step P.slot s.slot a = some t) :
    Streams { s with slot := t, responses := s.deliver t a } where
  blank i idle := by
    by_cases before : (s.slot.calls i).phase = .idle
    · exact (h.call other hs i).1 before
    · exact absurd idle ((h.call other hs i).2 before).1
  known i c proxied := by
    by_cases before : (s.slot.calls i).phase = .idle
    · have raw := ((h.call other hs i).1 before).2
      have proxied : (t.calls i).origin = .proxy c := proxied
      simp [proxied, CommandSlot.Origin.isProxy] at raw
    · exact h.known i c (((h.call other hs i).2 before).2.1 ▸ proxied)
  client c := by
    have told := h.client c
    have carried : ∀ i ∈ s.commands c, (t.calls i).phase ≠ .idle ∧
        (t.calls i).origin = (s.slot.calls i).origin ∧
        (t.calls i).frame = (s.slot.calls i).frame ∧
        ((s.slot.calls i).phase.over = true → (t.calls i).phase.over = true) :=
      fun i mem => (h.call other hs i).2 (told.begun i mem).1
    refine ⟨fun i mem => ?_, told.nodup, ?_, fun i mem unfinished => ?_, h.deliver other hs c⟩
    · exact ⟨(carried i mem).1, (carried i mem).2.1.trans (told.begun i mem).2⟩
    · rw [← told.frames]
      exact List.map_congr_left fun i mem => (carried i mem).2.2.1
    · refine told.current i mem ?_
      by_contra past
      rw [Bool.not_eq_false] at past
      exact absurd (unfinished.symm.trans ((carried i mem).2.2.2 past)) nofun

theorem over_of_returns {p : CommandSlot.Phase} (h : returns p = true) : p.over = true := by
  unfold returns at h
  split at h <;> first | rfl | cases h

theorem over_of_raises {p : CommandSlot.Phase} (h : raises p = true) : p.over = true := by
  unfold raises at h
  split at h <;> first | rfl | cases h

theorem Told.all_over {s : State} {c : ClientId} (h : Told s c) {p : CommandSlot.Phase → Bool}
    (ended : ∀ q, p q = true → q.over = true) (atEnd : s.atEnd c p = true) :
    ∀ i ∈ s.commands c, (s.slot.calls i).phase.over = true := by
  intro i mem
  by_contra unfinished
  rw [Bool.not_eq_true] at unfinished
  rw [State.atEnd, (h.current i mem unfinished).2] at atEnd
  exact absurd (unfinished.symm.trans (ended _ (by simpa using atEnd))) nofun

theorem Told.idle {s : State} {c : ClientId} (h : Told s c)
    (idle : ∀ frame rest, (s.sessions.sessions c).phase ≠ .handling frame rest) :
    ∀ i ∈ s.commands c, (s.slot.calls i).phase.over = true := by
  intro i mem
  by_contra unfinished
  obtain ⟨⟨frame, rest, phase⟩, -⟩ := h.current i mem (by simpa using unfinished)
  exact idle frame rest phase

theorem Streams.sessions {s : State} {u : ClientSessions.State} (h : Streams s)
    (handled : ∀ c, (u.sessions c).handled = (s.sessions.sessions c).handled)
    (kept : ∀ c, (u.sessions c).phase = (s.sessions.sessions c).phase ∨
      ∀ i ∈ s.commands c, (s.slot.calls i).phase.over = true) :
    Streams { s with sessions := u } where
  blank := h.blank
  known := h.known
  client c := by
    have told := h.client c
    refine ⟨told.begun, told.nodup, told.frames.trans (handled c).symm, fun i mem unfinished => ?_,
      told.responses⟩
    rcases kept c with same | past
    · have current := told.current i mem unfinished
      rw [← same] at current
      exact current
    · exact absurd (unfinished.symm.trans (past i mem)) nofun

theorem Told.keep {s t : State} {c : ClientId} (h : Told s c)
    (commands : t.commands c = s.commands c) (responses : t.responses c = s.responses c)
    (session : t.sessions.sessions c = s.sessions.sessions c)
    (calls : ∀ j ∈ s.commands c, t.slot.calls j = s.slot.calls j) : Told t c where
  begun j mem := by
    rw [commands] at mem
    rw [calls j mem]
    exact h.begun j mem
  nodup := commands ▸ h.nodup
  frames := by
    rw [commands, session, ← h.frames]
    exact List.map_congr_left fun j mem => by rw [calls j mem]
  current j mem := by
    rw [commands] at mem ⊢
    rw [calls j mem, session]
    exact h.current j mem
  responses := by
    rw [commands, responses, h.responses]
    exact List.flatMap_congr fun j mem => by rw [calls j mem]

theorem Told.begin {s t : State} {c : ClientId} {i : CallId} (frame : Frame) (h : Told s c)
    (past : ∀ j ∈ s.commands c, (s.slot.calls j).phase.over = true) (unused : i ∉ s.commands c)
    (commands : t.commands c = s.commands c ++ [i]) (responses : t.responses c = s.responses c)
    (handled : (t.sessions.sessions c).handled = (s.sessions.sessions c).handled ++ [frame])
    (phase : ∃ rest, (t.sessions.sessions c).phase = .handling frame rest)
    (calls : ∀ j ∈ s.commands c, t.slot.calls j = s.slot.calls j)
    (own : (t.slot.calls i).phase ≠ .idle ∧ (t.slot.calls i).origin = .proxy c ∧
      (t.slot.calls i).frame = frame ∧ (t.slot.calls i).written = []) : Told t c := by
  obtain ⟨begun, proxied, own_frame, silent⟩ := own
  refine ⟨fun j mem => ?_, ?_, ?_, fun j mem unfinished => ?_, ?_⟩
  · rw [commands, List.mem_append, List.mem_singleton] at mem
    rcases mem with mem | rfl
    · rw [calls j mem]
      exact h.begun j mem
    · exact ⟨begun, proxied⟩
  · rw [commands, List.nodup_append]
    exact ⟨h.nodup, List.nodup_singleton i, fun j mem k hk => by
      rw [List.mem_singleton.mp hk]
      exact ne_of_mem_of_not_mem mem unused⟩
  · rw [commands, handled, List.map_append, ← h.frames]
    congr 1
    · exact List.map_congr_left fun j mem => by rw [calls j mem]
    · simp [own_frame]
  · rw [commands, List.mem_append, List.mem_singleton] at mem
    rcases mem with mem | rfl
    · rw [calls j mem] at unfinished
      exact absurd (unfinished.symm.trans (past j mem)) nofun
    · obtain ⟨rest, phase⟩ := phase
      exact ⟨⟨frame, rest, phase⟩, by simp [commands]⟩
  · rw [commands, responses, h.responses, List.flatMap_append]
    have before : (s.commands c).flatMap (fun j => (s.slot.calls j).written) =
        (s.commands c).flatMap fun j => (t.slot.calls j).written :=
      List.flatMap_congr fun j mem => by rw [calls j mem]
    simp [before, silent]

theorem Streams.proceed {P : Settings} {s t : State} {u : ClientSessions.State} {c : ClientId}
    {i : CallId} {x : ClientSessions.Session} {frames : List Frame} (h : Streams s)
    (past : ∀ i ∈ s.commands c, (s.slot.calls i).phase.over = true)
    (sessions : u.sessions = Function.update s.sessions.sessions c (x.next frames))
    (handled : x.handled = (s.sessions.sessions c).handled)
    (ht : s.proceed P u c i = some t) : Streams t := by
  have others : ∀ d, d ≠ c → u.sessions d = s.sessions.sessions d := fun d hd => by
    rw [sessions, Function.update_of_ne hd]
  have self : u.sessions c = x.next frames := by rw [sessions, Function.update_self]
  unfold State.proceed at ht
  rw [self] at ht
  cases frames with
  | nil =>
    simp only [ClientSessions.Session.next, Option.some.injEq] at ht
    subst ht
    refine h.sessions (fun d => ?_) fun d => ?_
    · by_cases hd : d = c
      · rw [hd, self]
        exact handled
      · rw [others d hd]
    · by_cases hd : d = c
      · exact Or.inr (hd ▸ past)
      · exact Or.inl (by rw [others d hd])
  | cons frame rest =>
    simp only [ClientSessions.Session.next, CommandSlot.step, Option.map_eq_some_iff,
      Option.ite_none_right_eq_some, Option.some.injEq] at ht
    obtain ⟨_, ⟨⟨idle, -⟩, rfl⟩, rfl⟩ := ht
    have unused : ∀ d, i ∉ s.commands d := fun d mem => ((h.client d).begun i mem).1 idle
    have silent := (h.blank i idle).1
    refine ⟨fun j before => ?_, fun j d proxied => ?_, fun d => ?_⟩
    · by_cases hj : j = i
      · subst hj
        simp at before
      · rw [CommandSlot.setCall_calls_ne hj] at before ⊢
        exact h.blank j before
    · by_cases hj : j = i
      · subst hj
        obtain rfl : c = d := by simpa using proxied
        simp
      · rw [CommandSlot.setCall_calls_ne hj] at proxied
        have known := h.known j d proxied
        by_cases hd : d = c
        · subst hd
          simp [known]
        · simpa [Function.update_of_ne hd] using known
    · have told := h.client d
      have apart : ∀ j ∈ s.commands d, j ≠ i := fun j mem => ne_of_mem_of_not_mem mem (unused d)
      by_cases hd : d = c
      · subst hd
        refine told.begin (i := i) frame past (unused d) ?_ rfl ?_ ?_ ?_ ?_
        · simp
        · simp [self, ClientSessions.Session.next, handled]
        · exact ⟨rest, by simp [self, ClientSessions.Session.next]⟩
        · exact fun j mem => CommandSlot.setCall_calls_ne (apart j mem) _ _
        · simp [silent]
      · refine told.keep ?_ rfl (others d hd) ?_
        · simp [Function.update_of_ne hd]
        · exact fun j mem => CommandSlot.setCall_calls_ne (apart j mem) _ _

/-- A step of a handler that comes to no frame: what was handled stays, and a handler inside
`_handle_command` moves only where that raises. -/
theorem quiet_session {P : ClientSessions.Settings} {s t : ClientSessions.State}
    {a : ClientSessions.Action} (hs : ClientSessions.step P s a = some t)
    (noRead : ∀ c data, a ≠ .read c data) (noNext : ∀ c, a ≠ .commandReturns c)
    (c : ClientId) : (t.sessions c).handled = (s.sessions c).handled ∧
      ((t.sessions c).phase = (s.sessions c).phase ∨
        (∀ frame rest, (s.sessions c).phase ≠ .handling frame rest) ∨ a = .raises c) := by
  have aside : ∀ {u : ClientSessions.State} {d : ClientId} {x : ClientSessions.Session},
      u.sessions = s.sessions → x.handled = (s.sessions d).handled →
      ((∀ frame rest, (s.sessions d).phase ≠ .handling frame rest) ∨ a = .raises d) →
      ((u.set d x).sessions c).handled = (s.sessions c).handled ∧
        (((u.set d x).sessions c).phase = (s.sessions c).phase ∨
          (∀ frame rest, (s.sessions c).phase ≠ .handling frame rest) ∨ a = .raises c) := by
    intro u d x same handled leaves
    by_cases hc : c = d
    · subst hc
      rw [ClientSessions.set_self]
      exact ⟨handled, Or.inr leaves⟩
    · rw [ClientSessions.set_ne hc, same]
      exact ⟨rfl, Or.inl rfl⟩
  cases a with
  | read d data => exact absurd rfl (noRead d data)
  | commandReturns d => exact absurd rfl (noNext d)
  | start | stopReturns | connectionLost =>
    simp only [ClientSessions.step, Option.ite_none_right_eq_some, Option.some.injEq] at hs
    obtain ⟨-, rfl⟩ := hs
    exact ⟨rfl, Or.inl rfl⟩
  | fetch =>
    simp only [ClientSessions.step, Option.some.injEq] at hs
    subst hs
    exact ⟨rfl, Or.inl rfl⟩
  | stop =>
    simp only [ClientSessions.step, Option.ite_none_right_eq_some, Option.some.injEq] at hs
    obtain ⟨-, rfl⟩ := hs
    by_cases hc : c ∈ s.clients <;> simp [hc]
  | accept d =>
    simp only [ClientSessions.step, Option.ite_none_right_eq_some, Option.some.injEq] at hs
    obtain ⟨⟨-, phase⟩, rfl⟩ := hs
    exact aside rfl rfl (Or.inl (by simp [phase]))
  | handleClient d =>
    simp only [ClientSessions.step, Option.ite_none_right_eq_some, Option.some.injEq] at hs
    obtain ⟨phase, rfl⟩ := hs
    split
    · exact aside rfl rfl (Or.inl (by simp [phase]))
    · exact aside rfl rfl (Or.inl (by simp [phase]))
  | eof d =>
    simp only [ClientSessions.step, Option.ite_none_right_eq_some, Option.some.injEq] at hs
    obtain ⟨phase, rfl⟩ := hs
    exact aside rfl rfl (Or.inl (by simp [phase]))
  | raises d =>
    simp only [ClientSessions.step, Option.ite_none_right_eq_some, Option.some.injEq] at hs
    obtain ⟨-, rfl⟩ := hs
    exact aside rfl rfl (Or.inr rfl)

theorem Streams.step {P : Settings} {s t : State} {a : Action} (h : Streams s)
    (hs : ProxyStreams.step P s a = some t) : Streams t := by
  cases a with
  | session a =>
    simp only [ProxyStreams.step, Option.ite_none_right_eq_some, Option.map_eq_some_iff] at hs
    obtain ⟨admits, u, hu, rfl⟩ := hs
    have quiet := quiet_session hu (by rintro c data rfl; cases admits)
      (by rintro c rfl; cases admits)
    refine h.sessions (fun c => (quiet c).1) fun c => ?_
    rcases (quiet c).2 with same | idle | rfl
    · exact Or.inl same
    · exact Or.inr ((h.client c).idle idle)
    · right
      simp only [State.admits, Bool.or_eq_true, beq_iff_eq] at admits
      rcases admits with reading | atEnd
      · exact (h.client c).idle (by simp [reading])
      · exact (h.client c).all_over (fun _ => over_of_raises) atEnd
  | read c data i =>
    simp only [ProxyStreams.step, ClientSessions.step, Option.bind_eq_some_iff,
      Option.ite_none_right_eq_some, Option.some.injEq] at hs
    obtain ⟨_, ⟨⟨reading, -⟩, rfl⟩, hs⟩ := hs
    have past := (h.client c).idle (by simp [reading])
    exact h.proceed (x := { s.sessions.sessions c with
      parser := ((s.sessions.sessions c).parser.feed data).2
      received := (s.sessions.sessions c).received ++ data }) past rfl rfl hs
  | next c i =>
    simp only [ProxyStreams.step, ClientSessions.step, Option.bind_eq_some_iff,
      Option.ite_none_right_eq_some] at hs
    obtain ⟨atEnd, u, hu, hs⟩ := hs
    have past := (h.client c).all_over (fun _ => over_of_returns) atEnd
    split at hu
    · cases hu
      exact h.proceed past rfl rfl hs
    · cases hu
  | slot a =>
    simp only [ProxyStreams.step, Option.ite_none_left_eq_some, Option.map_eq_some_iff,
      Bool.not_eq_true] at hs
    obtain ⟨other, u, hu, rfl⟩ := hs
    exact h.slot other hu

theorem proceed_parts {P : Settings} {s t : State} {u : ClientSessions.State} {c : ClientId}
    {i : CallId} (hs : s.proceed P u c i = some t) : t.sessions = u ∧ (t.slot = s.slot ∨
      ∃ frame, CommandSlot.step P.slot s.slot (.handleCommand i c frame) = some t.slot) := by
  unfold State.proceed at hs
  split at hs
  · rename_i frame rest phase
    rw [Option.map_eq_some_iff] at hs
    obtain ⟨v, hv, rfl⟩ := hs
    exact ⟨rfl, Or.inr ⟨frame, hv⟩⟩
  · cases hs
    exact ⟨rfl, Or.inl rfl⟩

/-- No command gives up the slot before it is answered. -/
def NoneAbandoned (s : State) : Action → Prop
  | .slot a => CommandSlot.NoneAbandoned s.slot a
  | _ => True

instance (s : State) (a : Action) : Decidable (NoneAbandoned s a) := by
  unfold NoneAbandoned
  induction a using Action.casesOn <;> infer_instance

/-- Each step is at most one step of the handlers and one of the slot. -/
theorem step_parts {P : Settings} {s t : State} {a : Action} (hs : step P s a = some t) :
    (t.sessions = s.sessions ∨
      ∃ b, ClientSessions.step P.sessions s.sessions b = some t.sessions) ∧
    (t.slot = s.slot ∨ ∃ b, (NoneAbandoned s a → CommandSlot.NoneAbandoned s.slot b) ∧
      CommandSlot.step P.slot s.slot b = some t.slot) := by
  have coming : ∀ {u : ClientSessions.State} {c : ClientId} {i : CallId},
      s.proceed P u c i = some t → t.sessions = u ∧ (t.slot = s.slot ∨
        ∃ b, (NoneAbandoned s a → CommandSlot.NoneAbandoned s.slot b) ∧
          CommandSlot.step P.slot s.slot b = some t.slot) := by
    intro u c i hp
    obtain ⟨sessions, slot⟩ := proceed_parts hp
    exact ⟨sessions, slot.imp_right fun ⟨frame, hv⟩ =>
      ⟨.handleCommand i c frame, fun _ => trivial, hv⟩⟩
  cases a with
  | session a =>
    simp only [step, Option.ite_none_right_eq_some, Option.map_eq_some_iff] at hs
    obtain ⟨-, u, hu, rfl⟩ := hs
    exact ⟨Or.inr ⟨a, hu⟩, Or.inl rfl⟩
  | read c data i =>
    simp only [step, Option.bind_eq_some_iff] at hs
    obtain ⟨u, hu, hs⟩ := hs
    obtain ⟨rfl, slot⟩ := coming hs
    exact ⟨Or.inr ⟨_, hu⟩, slot⟩
  | next c i =>
    simp only [step, Option.bind_eq_some_iff, Option.ite_none_right_eq_some] at hs
    obtain ⟨-, u, hu, hs⟩ := hs
    obtain ⟨rfl, slot⟩ := coming hs
    exact ⟨Or.inr ⟨_, hu⟩, slot⟩
  | slot a =>
    simp only [step, Option.ite_none_left_eq_some, Option.map_eq_some_iff] at hs
    obtain ⟨-, u, hu, rfl⟩ := hs
    exact ⟨Or.inl rfl, Or.inr ⟨a, id, hu⟩⟩

def Answered (P : Settings) (s : State) : Prop :=
  ∀ i frames, (s.slot.calls i).phase = .returned frames → (s.slot.calls i).origin.isProxy = true →
    (s.slot.calls i).written = frames ∧
      (code (s.slot.calls i).frame ≠ P.slot.codes.value .reboot →
        s.slot.reply i = some frames ∧ Answers P.slot.codes (s.slot.calls i).frame frames)

theorem answered_run {P : Settings} {acts : List Action} {s : State}
    (normal : Runs.Along (step P) NoneAbandoned (init P) acts)
    (hrun : Runs.run (step P) (init P) acts = some s) : Answered P s := by
  have kept := Runs.invariant (I := fun s : State => CommandSlot.SlotOk s.slot ∧
      CommandSlot.Conversing P.slot s.slot ∧ CommandSlot.Owned P.slot s.slot) ?_
    ⟨CommandSlot.init_slotOk P.slot, CommandSlot.init_conversing P.slot,
      CommandSlot.init_owned P.slot⟩ normal hrun
  · intro i frames phase proxy
    have raw : (s.slot.calls i).origin.isLibrary = false := by
      cases origin : (s.slot.calls i).origin <;> simp_all [CommandSlot.Origin.isProxy,
        CommandSlot.Origin.isLibrary]
    have conv := kept.2.1 i (Or.inr raw)
    obtain ⟨-, written, -, answered⟩ := conv.returned frames phase
    refine ⟨written proxy, fun expects => ?_⟩
    exact ⟨answered expects, conv.answers (answered expects)⟩
  · rintro s a t ⟨ok, conv, owned⟩ normal hs
    rcases (step_parts hs).2 with same | ⟨b, kind, hb⟩
    · rw [same]
      exact ⟨ok, conv, owned⟩
    · have m := CommandSlot.move_of_step hb
      exact ⟨ok.step hb, conv.move ok (owned.clean ok b) m, owned.move ok conv (kind normal) m⟩

theorem streams_run {P : Settings} {acts : List Action} {s : State}
    (hrun : Runs.run (step P) (init P) acts = some s) :
    Streams s ∧ ClientSessions.Counted P.sessions s.sessions := by
  refine Runs.reachable (I := fun s => Streams s ∧ ClientSessions.Counted P.sessions s.sessions)
    ?_ ⟨init_streams P, ClientSessions.init_counted P.sessions⟩ hrun
  rintro s a t ⟨streams, counted⟩ hs
  refine ⟨streams.step hs, ?_⟩
  rcases (step_parts hs).1 with same | ⟨b, hb⟩
  · rw [same]
    exact counted
  · exact counted.step hb

/-- The proxy is transparent. Whatever the clients, the node and the schedule do: the
commands executed for a client are the frames of its byte stream, in order and one after
another, all but the last of them at their end; what it was sent in response is what they
wrote, in the same order; and where no command was given up, each command that returned
wrote the whole answer of the node to that command and nothing else. -/
theorem proxy_transparent (P : Settings) (acts : List Action) (s : State)
    (hrun : Runs.run (step P) (init P) acts = some s) (c : ClientId) :
    (s.commands c).map (fun i => (s.slot.calls i).frame) <+:
        ((wire frameToNode).scan (s.sessions.sessions c).received).1 ∧
      (∀ i ∈ s.commands c, (s.slot.calls i).phase.over = false →
        (s.commands c).getLast? = some i) ∧
      s.responses c = (s.commands c).flatMap (fun i => (s.slot.calls i).written) ∧
      (Runs.Along (step P) NoneAbandoned (init P) acts →
        ∀ i ∈ s.commands c, ∀ frames, (s.slot.calls i).phase = .returned frames →
          (s.slot.calls i).written = frames ∧
            (code (s.slot.calls i).frame ≠ P.slot.codes.value .reboot →
              s.slot.reply i = some frames ∧
                Answers P.slot.codes (s.slot.calls i).frame frames)) := by
  obtain ⟨streams, counted⟩ := streams_run hrun
  have told := streams.client c
  refine ⟨?_, fun i mem unfinished => (told.current i mem unfinished).2, told.responses,
    fun normal i mem frames phase => ?_⟩
  · rw [told.frames]
    exact (counted.session c).handled
  · refine answered_run normal hrun i frames phase ?_
    rw [(told.begun i mem).2]
    rfl

open CommandSlot (sampleSettings)

def twoClients : List Action :=
  [.session .start, .session (.accept 0), .session (.accept 1), .session (.handleClient 0),
    .session (.handleClient 1), .slot .connect, .read 0 [0x3C, 1, 0, 22, 0x3C, 1, 0, 20] 10,
    .read 1 [0x3C, 1, 0, 20] 11, .slot (.logged 10), .slot (.logged 11), .slot (.acquire 11),
    .slot (.transmit 11), .slot (.sendReturns 11), .slot (.answer [[12, 1]]), .slot .dispatch,
    .slot (.receive 11), .slot (.forwarded 11), .slot (.acquire 10), .slot (.transmit 10),
    .slot (.sendReturns 10), .slot (.answer [[13]]), .slot .dispatch, .slot (.receive 10),
    .slot (.forwarded 10), .next 1 13, .next 0 12, .slot (.logged 12), .slot (.writeCached 12)]

/-- The second command of client 0 is answered from the cache. -/
theorem proxy_transparent_two_clients :
    ∃ s, Runs.run (step ⟨⟨5⟩, sampleSettings⟩) (init ⟨⟨5⟩, sampleSettings⟩) twoClients = some s ∧
      s.responses 0 = [[13], [12, 1]] ∧
      s.responses 0 = (s.commands 0).flatMap (fun i => (s.slot.calls i).written) := by
  have got : (Runs.run (step ⟨⟨5⟩, sampleSettings⟩) (init ⟨⟨5⟩, sampleSettings⟩) twoClients).map
      (fun s => s.responses 0) = some [[13], [12, 1]] := by decide +kernel
  rw [Option.map_eq_some_iff] at got
  obtain ⟨s, hs, responses⟩ := got
  exact ⟨s, hs, responses, (proxy_transparent ⟨⟨5⟩, sampleSettings⟩ twoClients s hs 0).2.2.1⟩

end MeshwardenDaemon.ProxyStreams
