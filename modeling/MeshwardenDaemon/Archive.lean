import MeshwardenDaemon.Recorder
import Mathlib.Data.List.Perm.Basic

/-! What the daemon keeps of what the node sends. The tap hands every frame to the library,
the library's events start the handlers of the recorder, and these work side by side, with
other writers, retention and the proxy's clients in between. Nothing that the node has sent
is recorded twice, and nothing is left out when all of them are through. -/
namespace MeshwardenDaemon.Archive
open Protocol Library Runs MessageTable PacketTable ContactTable Listings LivePages Recorder

structure Reader (σ : Type) where
  start : σ
  read : σ → Frame → σ × List Event

def Reader.after {σ : Type} (L : Reader σ) : σ → List Frame → σ
  | r, [] => r
  | r, frame :: rest => L.after (L.read r frame).1 rest

def Reader.events {σ : Type} (L : Reader σ) : σ → List Frame → List Event
  | _, [] => []
  | r, frame :: rest => (L.read r frame).2 ++ L.events (L.read r frame).1 rest

inductive Stmt
  | call (c : Call)
  | insert (m : AddArgs) (channelId : Option ℕ)

def Stmt.of : Stmt → Call
  | .call c => c
  | .insert m _ => .add m

structure State (σ : Type) where
  tap : ReaderTap.State
  reader : σ
  /-- The events that have no handler yet. -/
  events : List Event
  /-- What each handler has before it. -/
  tasks : List (List Stmt)
  tables : Tables
  packets : PacketStats.State
  contacts : Contacts
  /-- Ghost: the events whose handlers have started, and when. -/
  handled : List (ℕ × Event)
  /-- Ghost: the calls that the handlers have made. -/
  made : List Call
  /-- Ghost: the messages that were pruned. -/
  pruned : List MessageRecord

def init {σ : Type} (L : Reader σ) : State σ where
  tap := ReaderTap.init
  reader := L.start
  events := []
  tasks := []
  tables := ⟨⟨[], KeyedTable.unique_nil _⟩, .empty⟩
  packets := PacketStats.init
  contacts := .empty
  handled := []
  made := []
  pruned := []

inductive Action
  | tap (a : PushFanout.Action)
  /-- The k-th event is handed to the recorder. -/
  | handle (k now : ℕ)
  /-- The k-th handler makes its next statement. -/
  | proceed (k now : ℕ)
  /-- A statement of another writer of messages or channels, or of their retention. -/
  | other (a : Statement)
  /-- The second statement of a `log`, or a statement of the packets' retention. -/
  | packets (a : PacketStats.Action)

/-- The writers beside the recorder store no message in the name of the device. -/
def Foreign : Statement → Prop
  | .insert m _ _ _ => m.origin ≠ .device
  | _ => True

instance (a : Statement) : Decidable (Foreign a) := by
  unfold Foreign
  induction a using Statement.casesOn <;> infer_instance

def logs : PacketStats.Action → Bool
  | .insertPacket _ => true
  | _ => false

def expired (t : History) : Statement → List MessageRecord
  | .prune cutoffTs => t.rows.filter fun m => decide ((m.ts : ℤ) < cutoffTs)
  | _ => []

variable {σ : Type} (L : Reader σ) (proxyMaxClients : ℕ) (storePayloads : Bool)

def readFrames (s : ReaderTap.State) : List Frame := s.read.filterMap (s.fanout.frames[·]?)

def State.execute (s : State σ) (k now : ℕ) (rest : List Stmt) : Stmt → Option (State σ)
  | .call (.add m) => some { s with
      tasks := s.tasks.set k (.insert m (m.toNewMessage.lookup s.tables.channels) :: rest) }
  | .insert m channelId => some { s with
      tables := { s.tables with
        history := LivePages.History.insert s.tables.history m channelId now s.made.length }
      tasks := s.tasks.set k rest
      made := s.made ++ [.add m] }
  | .call (.log p) => (PacketStats.step storePayloads s.packets (.insertPacket p)).map
      fun packets => { s with
        packets := packets
        tasks := s.tasks.set k rest
        made := s.made ++ [.log p] }
  | .call (.contact c) => some { s with
      contacts := c.run now s.contacts
      tasks := s.tasks.set k rest
      made := s.made ++ [.contact c] }
  | .call (.markAcked code) => some { s with
      tables := { s.tables with history := LivePages.History.markAcked s.tables.history code }
      tasks := s.tasks.set k rest
      made := s.made ++ [.markAcked code] }

def step (s : State σ) : Action → Option (State σ)
  | .tap a => (ReaderTap.step proxyMaxClients s.tap a).map fun tap =>
      let frames := (readFrames tap).drop (readFrames s.tap).length
      { s with
        tap := tap
        reader := L.after s.reader frames
        events := s.events ++ L.events s.reader frames }
  | .handle k now =>
    match s.events[k]? with
    | some e => some { s with
        events := s.events.eraseIdx k
        tasks := s.tasks ++ [(calls now e).map .call]
        handled := s.handled ++ [(now, e)] }
    | none => none
  | .proceed k now =>
    match s.tasks[k]? with
    | some (stmt :: rest) => s.execute storePayloads k now rest stmt
    | _ => none
  | .other a =>
    if Foreign a then
      (s.tables.statement a).map fun tables =>
        { s with tables := tables, pruned := s.pruned ++ expired s.tables.history a }
    else none
  | .packets a =>
    if logs a = false then
      (PacketStats.step storePayloads s.packets a).map fun packets => { s with packets := packets }
    else none

def args (m : MessageRecord) : AddArgs where
  scope := m.scope
  text := m.text
  channelIdx := m.channelIdx
  senderTimestamp := m.senderTimestamp
  direction := m.direction
  peer := m.peer
  txtType := m.txtType
  snr := m.snr
  pathLen := m.pathLen
  expectedAck := m.expectedAck
  origin := m.origin

def received? (m : MessageRecord) : Option AddArgs :=
  if m.origin = .device then some (args m) else none

def received (rows : List MessageRecord) : List AddArgs := (rows.map received?).reduceOption

def due (tasks : List (List Stmt)) : List Call := tasks.flatMap fun task => task.map Stmt.of

variable {L} {proxyMaxClients} {storePayloads}

structure Accounted (L : Reader σ) (storePayloads : Bool) (s : State σ) : Prop where
  tapped : ReaderTap.Tapped s.tap none
  reader : s.reader = L.after L.start (readFrames s.tap)
  events : (s.handled.map Prod.snd ++ s.events).Perm (L.events L.start (readFrames s.tap))
  calls : (s.made ++ due s.tasks).Perm (s.handled.flatMap fun x => calls x.1 x.2)
  rows : (received (s.tables.history.rows ++ s.pruned)).Perm (s.made.filterMap Call.message)
  logged : s.packets.logged = s.made.filterMap Call.packet
  packets : PacketStats.Accounted storePayloads s.packets

section reading

theorem after_append (r : σ) (before new : List Frame) :
    L.after r (before ++ new) = L.after (L.after r before) new := by
  induction before generalizing r with
  | nil => rfl
  | cons frame before ih => exact ih _

theorem events_append (r : σ) (before new : List Frame) :
    L.events r (before ++ new) = L.events r before ++ L.events (L.after r before) new := by
  induction before generalizing r with
  | nil => rfl
  | cons frame before ih => simp only [List.cons_append, Reader.events, Reader.after, ih,
      List.append_assoc]

theorem events_filterMap {α : Type} {f : Event → Option α} {g : Frame → Option α}
    (each : ∀ r frame, (L.read r frame).2.filterMap f = (g frame).toList) (r : σ)
    (frames : List Frame) : (L.events r frames).filterMap f = frames.filterMap g := by
  induction frames generalizing r with
  | nil => rfl
  | cons frame frames ih =>
    rw [Reader.events, List.filterMap_append, each, ih]
    cases found : g frame with
    | none => simp [found]
    | some x => simp [found]

theorem fanout_frames {s t : PushFanout.State} {a : PushFanout.Action}
    (hs : PushFanout.step proxyMaxClients s a = some t) : s.frames <+: t.frames := by
  cases a with
  | dispatch frame =>
    simp only [PushFanout.step] at hs
    split at hs <;> cases hs <;> simp
  | drained c =>
    simp only [PushFanout.step] at hs
    split at hs
    · rename_i w holds
      cases w <;> cases hs <;> simp [PushFanout.State.setClient]
    · cases hs
  | write c =>
    simp only [PushFanout.step] at hs
    split at hs <;> cases hs
    exact List.prefix_rfl
  | join c order | leave c | respond c frame =>
    simp only [PushFanout.step, Option.ite_none_right_eq_some, Option.some.injEq] at hs
    obtain ⟨_, rfl⟩ := hs
    exact List.prefix_rfl

theorem readFrames_grow {s t : ReaderTap.State} {a : PushFanout.Action}
    (tapped : ReaderTap.Tapped s none)
    (hs : ReaderTap.step proxyMaxClients s a = some t) : readFrames s <+: readFrames t := by
  rw [ReaderTap.step, Option.map_eq_some_iff] at hs
  obtain ⟨u, hu, rfl⟩ := hs
  obtain ⟨more, grown⟩ := fanout_frames hu
  have same : s.read.filterMap (s.fanout.frames[·]?) = s.read.filterMap (u.frames[·]?) := by
    refine List.filterMap_congr fun i hi => ?_
    rw [← grown, List.getElem?_append_left ((tapped.mem_read i).mp hi).1]
  rw [readFrames, readFrames, same, List.filterMap_append]
  exact List.prefix_append _ _

theorem filterMap_range {α : Type} (l : List α) :
    (List.range l.length).filterMap (l[·]?) = l := by
  induction l using List.reverseRecOn with
  | nil => rfl
  | append_singleton l x ih =>
    have before : (List.range l.length).filterMap ((l ++ [x])[·]?) =
        (List.range l.length).filterMap (l[·]?) :=
      List.filterMap_congr fun i hi => List.getElem?_append_left (List.mem_range.mp hi)
    rw [List.length_append, List.length_singleton, List.range_succ, List.filterMap_append, before,
      ih]
    simp

theorem readFrames_perm {s : ReaderTap.State} (tapped : ReaderTap.Tapped s none)
    (quiet : s.fanout.Quiet) : (readFrames s).Perm s.fanout.frames := by
  have all : s.read.Perm (List.range s.fanout.frames.length) := by
    refine (List.perm_ext_iff_of_nodup tapped.nodup List.nodup_range).mpr fun i => ?_
    rw [tapped.mem_read, List.mem_range]
    exact ⟨fun h => h.1, fun lt => ⟨lt, nofun, quiet i lt⟩⟩
  exact (all.filterMap _).trans (List.Perm.of_eq (filterMap_range s.fanout.frames))

end reading

section handlers

theorem due_split {tasks : List (List Stmt)} {k : ℕ} {task : List Stmt}
    (waits : tasks[k]? = some task) (next : List Stmt) :
    (due tasks).Perm (task.map Stmt.of ++ due (tasks.eraseIdx k)) ∧
      (due (tasks.set k next)).Perm (next.map Stmt.of ++ due (tasks.eraseIdx k)) := by
  have split : ∀ {tasks : List (List Stmt)} {task : List Stmt}, tasks[k]? = some task →
      (due tasks).Perm (task.map Stmt.of ++ due (tasks.eraseIdx k)) := by
    intro tasks task waits
    obtain ⟨inside, rfl⟩ := List.getElem?_eq_some_iff.mp waits
    exact ((List.getElem_cons_eraseIdx_perm inside).symm.flatMap_right _)
  refine ⟨split waits, ?_⟩
  have inside := (List.getElem?_eq_some_iff.mp waits).1
  have set : (tasks.set k next)[k]? = some next := List.getElem?_set_self inside
  have moved := split set
  rwa [List.eraseIdx_set_eq] at moved

theorem due_made {tasks : List (List Stmt)} {k : ℕ} {stmt : Stmt} {rest : List Stmt}
    (waits : tasks[k]? = some (stmt :: rest)) (made : List Call) :
    (made ++ [stmt.of] ++ due (tasks.set k rest)).Perm (made ++ due tasks) := by
  obtain ⟨before, after⟩ := due_split waits rest
  rw [List.append_assoc]
  refine List.Perm.append_left made ?_
  exact (after.cons stmt.of).trans before.symm

theorem due_same {tasks : List (List Stmt)} {k : ℕ} {stmt next : Stmt} {rest : List Stmt}
    (waits : tasks[k]? = some (stmt :: rest)) (same : next.of = stmt.of) :
    (due (tasks.set k (next :: rest))).Perm (due tasks) := by
  obtain ⟨before, after⟩ := due_split waits (next :: rest)
  rw [List.map_cons, same] at after
  exact after.trans before.symm

theorem origin_of_calls {now : ℕ} {e : Event} {m : AddArgs} (h : .add m ∈ calls now e) :
    m.origin = .device := by
  have brought : m ∈ (calls now e).filterMap Call.message :=
    List.mem_filterMap.mpr ⟨_, h, rfl⟩
  rw [calls_messages, Option.mem_toList] at brought
  cases e with
  | contactMsgRecv p | channelMsgRecv p =>
    cases brought
    rfl
  | _ => cases brought

end handlers

section rows

theorem received_append (rows new : List MessageRecord) :
    received (rows ++ new) = received rows ++ received new := by
  rw [received, List.map_append, List.reduceOption_append]
  rfl

theorem received_record {m : AddArgs} {channelId : Option ℕ} {id ts born : ℕ} :
    received [m.record channelId id ts born] = if m.origin = .device then [m] else [] := by
  simp only [received, List.map_singleton, received?]
  change List.reduceOption [if m.origin = .device then some m else none] = _
  split <;> rfl

theorem received_update {p : MessageRecord → Bool} {g : MessageRecord → MessageRecord}
    {rows updated : List MessageRecord} (hu : updated = KeyedTable.updateWhere p g rows)
    (keeps : ∀ m, received? (g m) = received? m) : received updated = received rows := by
  rw [received, hu, KeyedTable.map_updateWhere received? keeps]
  rfl

theorem received_other {t u : Tables} {a : Statement} (foreign : Foreign a)
    (hu : t.statement a = some u) (pruned : List MessageRecord) :
    (received (u.history.rows ++ (pruned ++ expired t.history a))).Perm
      (received (t.history.rows ++ pruned)) := by
  cases a with
  | insert m channelId ts born =>
    cases hu
    simp only [expired, List.append_nil, received_append]
    refine List.Perm.append_right _ (List.Perm.of_eq ?_)
    rw [LivePages.History.insert, received_append, received_record, if_neg foreign, List.append_nil]
  | setChannel channelId source id =>
    cases hu
    simp only [expired, List.append_nil, received_append]
    exact List.Perm.append_right _ (List.Perm.of_eq (received_update rfl fun _ => rfl))
  | markAcked code =>
    cases hu
    simp only [expired, List.append_nil, received_append]
    exact List.Perm.append_right _ (List.Perm.of_eq (received_update rfl fun _ => rfl))
  | prune cutoffTs =>
    cases hu
    refine List.Perm.filterMap _ (List.Perm.map _ ?_)
    have parts := List.filter_append_perm (fun m : MessageRecord => decide ((m.ts : ℤ) < cutoffTs))
      t.history.rows
    refine (List.perm_append_comm.append_left _).trans ?_
    rw [← List.append_assoc]
    exact (List.perm_append_comm.trans parts).append_right pruned
  | channels channels =>
    cases hu
    simp only [expired, List.append_nil]
    exact List.Perm.refl _

theorem logged_of_quiet {s t : PacketStats.State} {a : PacketStats.Action} (quiet : logs a = false)
    (hs : PacketStats.step storePayloads s a = some t) : t.logged = s.logged := by
  cases a with
  | insertPacket p => cases quiet
  | upsertHourly k =>
    simp only [PacketStats.step] at hs
    split at hs <;> cases hs
    rfl
  | prune cutoffTs batch =>
    simp only [PacketStats.step, Option.ite_none_right_eq_some, Option.some.injEq] at hs
    obtain ⟨_, rfl⟩ := hs
    rfl
  | deleteBatch k ids =>
    simp only [PacketStats.step] at hs
    split at hs
    · rw [Option.ite_none_right_eq_some] at hs
      obtain ⟨_, hs⟩ := hs
      cases hs
      rfl
    · cases hs

end rows

section run
variable {s t : State σ} {a : Action}

theorem init_accounted : Accounted L storePayloads (init L) where
  tapped := ReaderTap.init_tapped
  reader := rfl
  events := List.Perm.refl _
  calls := List.Perm.refl _
  rows := List.Perm.refl _
  logged := rfl
  packets := PacketStats.init_accounted

theorem filterMap_concat {α β : Type} (f : α → Option β) (l : List α) (x : α) :
    (l ++ [x]).filterMap f = l.filterMap f ++ (f x).toList := by
  rw [List.filterMap_append]
  cases found : f x <;> simp [found]

theorem Accounted.makes (h : Accounted L storePayloads s) {k : ℕ} {c : Call} {rest : List Stmt}
    (waits : s.tasks[k]? = some (.call c :: rest)) {tables : Tables} {contacts : Contacts}
    (apart : c.message = none ∧ c.packet = none)
    (rows : received tables.history.rows = received s.tables.history.rows) :
    Accounted L storePayloads { s with
      tables := tables, contacts := contacts
      tasks := s.tasks.set k rest, made := s.made ++ [c] } where
  tapped := h.tapped
  reader := h.reader
  events := h.events
  calls := (due_made waits s.made).trans h.calls
  rows := by
    rw [filterMap_concat, apart.1, Option.toList_none, List.append_nil, received_append, rows,
      ← received_append]
    exact h.rows
  logged := by
    rw [filterMap_concat, apart.2, Option.toList_none, List.append_nil]
    exact h.logged
  packets := h.packets

theorem Accounted.inserts (h : Accounted L storePayloads s) {k now : ℕ} {m : AddArgs}
    {channelId : Option ℕ} {rest : List Stmt}
    (waits : s.tasks[k]? = some (.insert m channelId :: rest)) :
    Accounted L storePayloads { s with
      tables := { s.tables with
        history := LivePages.History.insert s.tables.history m channelId now s.made.length }
      tasks := s.tasks.set k rest
      made := s.made ++ [.add m] } where
  tapped := h.tapped
  reader := h.reader
  events := h.events
  calls := (due_made waits s.made).trans h.calls
  rows := by
    have own : m.origin = .device := by
      have called : Call.add m ∈ s.handled.flatMap fun x => Recorder.calls x.1 x.2 :=
        ((due_made waits s.made).trans h.calls).mem_iff.mp (by simp [Stmt.of])
      obtain ⟨x, _, hx⟩ := List.mem_flatMap.mp called
      exact origin_of_calls hx
    have old := h.rows
    rw [received_append] at old
    rw [filterMap_concat, LivePages.History.insert, received_append, received_append,
      received_record, if_pos own, List.append_assoc]
    refine (List.perm_append_comm.append_left _).trans ?_
    rw [← List.append_assoc]
    exact old.append_right [m]
  logged := by
    rw [filterMap_concat, h.logged]
    exact (List.append_nil _).symm
  packets := h.packets

theorem Accounted.execute (h : Accounted L storePayloads s) {k now : ℕ} {stmt : Stmt}
    {rest : List Stmt} (waits : s.tasks[k]? = some (stmt :: rest))
    (hs : s.execute storePayloads k now rest stmt = some t) : Accounted L storePayloads t := by
  cases stmt with
  | insert m channelId =>
    cases hs
    exact h.inserts waits
  | call c =>
    cases c with
    | add m =>
      cases hs
      have same : (due (s.tasks.set k
          (.insert m (m.toNewMessage.lookup s.tables.channels) :: rest))).Perm (due s.tasks) :=
        due_same waits rfl
      exact ⟨h.tapped, h.reader, h.events, (same.append_left _).trans h.calls, h.rows, h.logged,
        h.packets⟩
    | log p =>
      rw [State.execute, Option.map_eq_some_iff] at hs
      obtain ⟨packets, logs, rfl⟩ := hs
      refine ⟨h.tapped, h.reader, h.events, (due_made waits s.made).trans h.calls, ?_, ?_,
        h.packets.step logs⟩
      · rw [filterMap_concat]
        simpa [Call.message] using h.rows
      · cases logs
        rw [filterMap_concat, ← h.logged]
        rfl
    | contact c =>
      cases hs
      exact h.makes waits ⟨rfl, rfl⟩ rfl
    | markAcked code =>
      cases hs
      exact h.makes waits ⟨rfl, rfl⟩ (received_update rfl fun _ => rfl)

theorem Accounted.step (h : Accounted L storePayloads s)
    (hs : Archive.step L proxyMaxClients storePayloads s a = some t) :
    Accounted L storePayloads t := by
  cases a with
  | tap a =>
    obtain ⟨tap, moved, rfl⟩ := Option.map_eq_some_iff.mp hs
    obtain ⟨new, grown⟩ := readFrames_grow h.tapped moved
    refine ⟨h.tapped.step moved, ?_, ?_, h.calls, h.rows, h.logged, h.packets⟩
    · simp only [← grown, List.drop_left, after_append, h.reader]
    · simp only [← grown, List.drop_left, events_append, ← h.reader, ← List.append_assoc]
      exact h.events.append_right _
  | handle k now =>
    simp only [Archive.step] at hs
    split at hs
    · rename_i e waits
      cases hs
      obtain ⟨inside, rfl⟩ := List.getElem?_eq_some_iff.mp waits
      refine ⟨h.tapped, h.reader, ?_, ?_, h.rows, h.logged, h.packets⟩
      · rw [List.map_append, List.append_assoc]
        refine List.Perm.trans ?_ h.events
        exact (List.getElem_cons_eraseIdx_perm inside).append_left _
      · rw [due, List.flatMap_append, List.flatMap_append, ← List.append_assoc]
        refine h.calls.append ?_
        simp [Stmt.of, Function.comp_def]
    · cases hs
  | proceed k now =>
    simp only [Archive.step] at hs
    split at hs
    · rename_i stmt rest waits
      exact h.execute waits hs
    · cases hs
  | other a =>
    simp only [Archive.step, Option.ite_none_right_eq_some] at hs
    obtain ⟨foreign, hs⟩ := hs
    obtain ⟨tables, hu, rfl⟩ := Option.map_eq_some_iff.mp hs
    exact ⟨h.tapped, h.reader, h.events, h.calls, (received_other foreign hu _).trans h.rows,
      h.logged, h.packets⟩
  | packets a =>
    simp only [Archive.step, Option.ite_none_right_eq_some] at hs
    obtain ⟨quiet, hs⟩ := hs
    obtain ⟨packets, hu, rfl⟩ := Option.map_eq_some_iff.mp hs
    refine ⟨h.tapped, h.reader, h.events, h.calls, h.rows, ?_, h.packets.step hu⟩
    exact (logged_of_quiet quiet hu).trans h.logged

structure State.Idle (s : State σ) : Prop where
  quiet : s.tap.fanout.Quiet
  events : s.events = []
  tasks : ∀ task ∈ s.tasks, task = []

/-- A packet but for its time, which may be that of its handler. -/
def untimed (p : Packet) : Packet := { p with ts := 0 }

theorem untimed_packet (now now' : ℕ) (e : Event) :
    (e.packet now).map untimed = (e.packet now').map untimed := by
  cases e <;> rfl

theorem due_idle {tasks : List (List Stmt)} (done : ∀ task ∈ tasks, task = []) :
    due tasks = [] := by
  refine List.flatMap_eq_nil_iff.mpr fun task ht => ?_
  rw [done task ht]
  rfl

theorem filterMap_calls {α : Type} {f : Call → Option α} {g : ℕ → Event → Option α}
    (each : ∀ now e, (calls now e).filterMap f = (g now e).toList) (handled : List (ℕ × Event)) :
    (handled.flatMap fun x => calls x.1 x.2).filterMap f =
      handled.filterMap fun x => g x.1 x.2 := by
  rw [List.filterMap_flatMap, List.filterMap_eq_flatMap_toList]
  simp only [each]

theorem Accounted.brought (h : Accounted L storePayloads s) (idle : s.Idle) {α : Type}
    {f : Event → Option α} {g : Frame → Option α}
    (each : ∀ r frame, (L.read r frame).2.filterMap f = (g frame).toList) :
    ((s.handled.map Prod.snd).filterMap f).Perm (s.tap.fanout.frames.filterMap g) := by
  have events := h.events
  rw [idle.events, List.append_nil] at events
  refine (events.filterMap f).trans ?_
  rw [events_filterMap each]
  exact (readFrames_perm h.tapped idle.quiet).filterMap g

theorem Accounted.made_perm (h : Accounted L storePayloads s) (idle : s.Idle) :
    s.made.Perm (s.handled.flatMap fun x => Recorder.calls x.1 x.2) := by
  have calls := h.calls
  rwa [due_idle idle.tasks, List.append_nil] at calls

end run

/-- Whatever the clients, the other writers and retention do: no call of a store is made twice
for an event, and none is left out but those that a handler still has before it. When all
are through, the messages from the device that are stored or were pruned are those that the
frames of the node brought, each once, and so are the packets; these have the time that their
event or their handler gave them. -/
theorem recorded_once {messageOf : Frame → Option AddArgs} {packetOf : Frame → Option Packet}
    (messages : ∀ r frame, (L.read r frame).2.filterMap Event.message = (messageOf frame).toList)
    (packets : ∀ r frame, (L.read r frame).2.filterMap (fun e => (e.packet 0).map untimed) =
      (packetOf frame).toList)
    (acts : List Action) (s : State σ)
    (hr : Runs.run (step L proxyMaxClients storePayloads) (init L) acts = some s) :
    (s.made ++ due s.tasks).Perm (s.handled.flatMap fun x => Recorder.calls x.1 x.2) ∧
    (s.handled.map Prod.snd ++ s.events).Perm (L.events L.start (readFrames s.tap)) ∧
    (s.Idle →
      (received (s.tables.history.rows ++ s.pruned)).Perm
        (s.tap.fanout.frames.filterMap messageOf) ∧
      s.packets.logged.Perm (s.handled.filterMap fun x => x.2.packet x.1) ∧
      (s.packets.logged.map untimed).Perm (s.tap.fanout.frames.filterMap packetOf) ∧
      ((s.packets.packets.rows ++ s.packets.pruned).map PacketRow.toPacket).Perm
        (s.packets.logged.map (Packet.stored storePayloads))) := by
  have h : Accounted L storePayloads s :=
    Runs.reachable (fun _ _ _ h hs => h.step hs) init_accounted hr
  have logged : s.Idle → s.packets.logged.Perm (s.handled.filterMap fun x => x.2.packet x.1) := by
    intro idle
    rw [h.logged, ← filterMap_calls calls_packets]
    exact (h.made_perm idle).filterMap _
  refine ⟨h.calls, h.events, fun idle => ⟨?_, logged idle, ?_, h.packets.rows⟩⟩
  · refine h.rows.trans (((h.made_perm idle).filterMap _).trans ?_)
    have brought := h.brought idle messages
    rw [List.filterMap_map] at brought
    rwa [filterMap_calls calls_messages]
  · have brought := h.brought idle packets
    rw [List.filterMap_map] at brought
    refine ((logged idle).map untimed).trans ?_
    rw [List.map_filterMap]
    simp only [untimed_packet _ 0]
    exact brought

section sample

def sampleEvent : Frame → Option Event
  | 8 :: slot :: _ => some (.channelMsgRecv { channelIdx := some slot.toNat, text := some "hi" })
  | 0x88 :: size :: _ => some (.rxLogData { payloadLength := some size.toNat })
  | _ => none

def sampleReader : Reader Unit := ⟨(), fun _ frame => ((), (sampleEvent frame).toList)⟩

theorem sampleReader_each {α : Type} (f : Event → Option α) (r : Unit) (frame : Frame) :
    (sampleReader.read r frame).2.filterMap f = ((sampleEvent frame).bind f).toList := by
  simp only [sampleReader]
  cases sampleEvent frame with
  | none => rfl
  | some e => cases found : f e <;> simp [found]

def slowBroadcast : List Action :=
  [.tap (.join 1 [1]), .tap (.dispatch [0x88, 5]), .tap (.write 1), .tap (.dispatch [8, 2]),
    .handle 0 100, .proceed 0 100,
    .other (.insert { scope := .contact, text := "own", direction := .outbound, origin := .daemon }
      none 100 0),
    .proceed 0 101, .tap (.drained 1), .handle 0 102, .proceed 1 102, .packets (.upsertHourly 0),
    .other (.prune 100)]

theorem recorded_once_slowBroadcast : ∃ s,
    Runs.run (step sampleReader 4 true) (init sampleReader) slowBroadcast = some s ∧
      s.tap.fanout.frames = [[0x88, 5], [8, 2]] ∧
      (received (s.tables.history.rows ++ s.pruned)).Perm
        (s.tap.fanout.frames.filterMap fun frame => (sampleEvent frame).bind Event.message) := by
  have got : (Runs.run (step sampleReader 4 true) (init sampleReader) slowBroadcast).map (fun s =>
      (s.tap.fanout.frames, decide s.tap.fanout.Quiet, s.events, s.tasks.all List.isEmpty)) =
        some ([[0x88, 5], [8, 2]], true, [], true) := by
    decide +kernel
  simp only [Option.map_eq_some_iff, Prod.mk.injEq, decide_eq_true_eq, List.all_eq_true,
    List.isEmpty_iff] at got
  obtain ⟨s, hs, frames, quiet, events, tasks⟩ := got
  have law := recorded_once (sampleReader_each Event.message)
    (sampleReader_each fun e => (e.packet 0).map untimed) slowBroadcast s hs
  exact ⟨s, hs, frames, (law.2.2 ⟨quiet, events, tasks⟩).1⟩

end sample

end MeshwardenDaemon.Archive
