import MeshwardenDaemon.PacketPrune
import MeshwardenDaemon.MessageTable

/-! `RetentionService` beside the writers of the two tables that it prunes. Its sweep is
taken statement by statement, with inserts at any moment in between; a packet prune is a
call of `PacketStore.prune` as the store runs it. The clock is `int(time.time())`; it does not
go back. -/
namespace MeshwardenDaemon.Retention
open Library KeyedTable PacketTable MessageTable

structure Settings where
  packetRetentionDays : ℤ
  messageRetentionDays : ℤ
  storePacketPayloads : Bool

def day : ℤ := 86400

/-- The default `batch` of `PacketStore.prune`. -/
def batch : ℕ := 5000

/-- The statement that the service comes to next; `now` was read when the sweep began. -/
inductive Phase
  | ready
  | packets (now : ℕ)
  | messages (now : ℕ)
  | vacuum
  | sleeping
  | ended
  deriving DecidableEq

structure State where
  clock : ℕ
  store : PacketStats.State
  messages : Messages
  phase : Phase
  /-- Ghost: the INSERTs into `messages`. -/
  born : ℕ
  /-- Ghost: the cutoffs of the last prunes that came to their end. -/
  packetsSince : Option ℤ
  messagesSince : Option ℤ

def init : State := ⟨0, PacketStats.init, .empty, .ready, 0, none, none⟩

inductive Action
  | advance (t : ℕ)
  | insertPacket (p : Packet)
  | upsertHourly (k : ℕ)
  | insertMessage (m : NewMessage) (channelId : Option ℕ) (ts : ℕ)
  | wake
  | deleteBatch (ids : List ℕ)
  | pruneMessages
  | vacuum
  | fails
  | cancel
  deriving DecidableEq

def Settings.packetCutoff (P : Settings) (now : ℕ) : ℤ := now - P.packetRetentionDays * day

def Settings.messageCutoff (P : Settings) (now : ℕ) : ℤ := now - P.messageRetentionDays * day

def Settings.afterPackets (P : Settings) (now : ℕ) : Phase :=
  if 0 < P.messageRetentionDays then .messages now else .vacuum

def Phase.awake : Phase → Bool
  | .packets _ | .messages _ | .vacuum => true
  | _ => false

/-- The loop of `run` may come to the next sweep. `asyncio.sleep` goes by another clock than
`time.time()`, which may show anything when it ends. -/
def State.due (s : State) : Bool :=
  match s.phase with
  | .ready | .sleeping => true
  | _ => false

/-- An exception or the cancellation drops the `prune` call that is under way. -/
def State.drop (s : State) (phase : Phase) : State :=
  { s with phase := phase, store := { s.store with prunes := [] } }

def step (P : Settings) (s : State) : Action → Option State
  | .advance t => if s.clock ≤ t then some { s with clock := t } else none
  | .insertPacket p =>
    (PacketStats.step P.storePacketPayloads s.store (.insertPacket p)).map
      fun store => { s with store := store }
  | .upsertHourly k =>
    (PacketStats.step P.storePacketPayloads s.store (.upsertHourly k)).map
      fun store => { s with store := store }
  | .insertMessage m channelId ts => some { s with
      messages := s.messages.insert m channelId ts (s.born + 1), born := s.born + 1 }
  | .wake =>
    if s.due then
      if 0 < P.packetRetentionDays then
        (PacketStats.step P.storePacketPayloads s.store
          (.prune (P.packetCutoff s.clock) batch)).map
            fun store => { s with store := store, phase := .packets s.clock }
      else some { s with phase := P.afterPackets s.clock }
    else none
  | .deleteBatch ids =>
    match s.phase with
    | .packets now =>
      (PacketStats.step P.storePacketPayloads s.store (.deleteBatch 0 ids)).map fun store =>
        if store.prunes = [] then
          { s with
            store := store
            phase := P.afterPackets now
            packetsSince := some (P.packetCutoff now) }
        else { s with store := store }
    | _ => none
  | .pruneMessages =>
    match s.phase with
    | .messages now => some { s with
        messages := s.messages.prune (P.messageCutoff now).toNat
        phase := .vacuum
        messagesSince := some (P.messageCutoff now) }
    | _ => none
  -- the PRAGMAs change no row
  | .vacuum => if s.phase = .vacuum then some { s with phase := .sleeping } else none
  | .fails => if s.phase.awake then some (s.drop .sleeping) else none
  | .cancel => if s.phase = .ended then none else some (s.drop .ended)

/-- The `prune` call of the store is the one of the sweep. -/
structure Sweeping (P : Settings) (s : State) : Prop where
  packets : ∀ now, s.phase = .packets now → now ≤ s.clock ∧ 0 < P.packetRetentionDays ∧
    ∃ total, s.store.prunes = [⟨P.packetCutoff now, batch, total⟩]
  messages : ∀ now, s.phase = .messages now → now ≤ s.clock ∧ 0 < P.messageRetentionDays
  alone : (∀ now, s.phase ≠ .packets now) → s.store.prunes = []

theorem init_sweeping (P : Settings) : Sweeping P init := ⟨nofun, nofun, fun _ => rfl⟩

theorem sweeping_after {P : Settings} {s : State} {now : ℕ} (le : now ≤ s.clock)
    (phase : s.phase = P.afterPackets now) (alone : s.store.prunes = []) : Sweeping P s := by
  refine ⟨fun n hn => ?_, fun n hn => ?_, fun _ => alone⟩
  · rw [phase, Settings.afterPackets] at hn
    split at hn <;> cases hn
  · rw [phase, Settings.afterPackets] at hn
    split at hn
    · rename_i days
      cases hn
      exact ⟨le, days⟩
    · cases hn

theorem batch_pos : 1 ≤ batch := by decide

theorem deleteBatch_eq {P : Settings} {s t : State} {ids : List ℕ} (h : Sweeping P s)
    (hs : step P s (.deleteBatch ids) = some t) :
    ∃ now total store, s.phase = .packets now ∧
      (⟨P.packetCutoff now, batch, total⟩ : PacketStats.Prune).Selects s.store.packets.rows ids ∧
      PacketStats.step P.storePacketPayloads s.store (.deleteBatch 0 ids) = some store ∧
      store.packets = s.store.packets.delete ids ∧
      (ids.length < batch ∧ store.prunes = [] ∧ t = { s with
          store := store
          phase := P.afterPackets now
          packetsSince := some (P.packetCutoff now) } ∨
        batch ≤ ids.length ∧
          store.prunes = [⟨P.packetCutoff now, batch, total + ids.length⟩] ∧
          t = { s with store := store }) := by
  simp only [step] at hs
  split at hs
  · rename_i now phase
    obtain ⟨-, -, total, prunes⟩ := h.packets now phase
    rw [Option.map_eq_some_iff] at hs
    obtain ⟨store, hstore, rfl⟩ := hs
    have selects := hstore
    simp only [PacketStats.step, prunes, List.getElem?_cons_zero, Option.ite_none_right_eq_some,
      Option.some.injEq] at selects
    obtain ⟨selects, rfl⟩ := selects
    refine ⟨now, total, _, phase, selects, hstore, rfl, ?_⟩
    by_cases short : ids.length < batch
    · exact Or.inl ⟨short, by simp [short], by simp [short]⟩
    · exact Or.inr ⟨Nat.le_of_not_lt short, by simp [short], by simp [short]⟩
  · cases hs

theorem Sweeping.step {P : Settings} {s t : State} {a : Action} (h : Sweeping P s)
    (hs : Retention.step P s a = some t) : Sweeping P t ∧ s.clock ≤ t.clock := by
  cases a with
  | advance clock =>
    simp only [Retention.step, Option.ite_none_right_eq_some, Option.some.injEq] at hs
    obtain ⟨later, rfl⟩ := hs
    refine ⟨⟨fun now hn => ?_, fun now hn => ?_, h.alone⟩, later⟩
    · exact ⟨(h.packets now hn).1.trans later, (h.packets now hn).2⟩
    · exact ⟨(h.messages now hn).1.trans later, (h.messages now hn).2⟩
  | insertPacket p =>
    simp only [Retention.step, PacketStats.step, Option.map_some, Option.some.injEq] at hs
    subst hs
    exact ⟨⟨h.packets, h.messages, h.alone⟩, le_rfl⟩
  | upsertHourly k =>
    simp only [Retention.step, PacketStats.step, Option.map_eq_some_iff] at hs
    obtain ⟨store, hstore, rfl⟩ := hs
    split at hstore
    · cases hstore
      exact ⟨⟨h.packets, h.messages, h.alone⟩, le_rfl⟩
    · cases hstore
  | insertMessage m channelId ts =>
    simp only [Retention.step, Option.some.injEq] at hs
    subst hs
    exact ⟨⟨h.packets, h.messages, h.alone⟩, le_rfl⟩
  | wake =>
    simp only [Retention.step, Option.ite_none_right_eq_some] at hs
    obtain ⟨due, hs⟩ := hs
    have alone : s.store.prunes = [] := h.alone fun now hn => by
      simp [State.due, hn] at due
    split at hs
    · rename_i days
      rw [Option.map_eq_some_iff] at hs
      obtain ⟨store, hstore, rfl⟩ := hs
      simp only [PacketStats.step, if_pos batch_pos, Option.some.injEq] at hstore
      subst hstore
      refine ⟨⟨fun now hn => ?_, by simp, fun other => absurd rfl (other s.clock)⟩, le_rfl⟩
      cases hn
      exact ⟨le_rfl, days, 0, by simp [alone]⟩
    · cases hs
      exact ⟨sweeping_after le_rfl rfl alone, le_rfl⟩
  | deleteBatch ids =>
    obtain ⟨now, total, store, phase, -, -, -, last | more⟩ := deleteBatch_eq h hs
    · obtain ⟨-, alone, rfl⟩ := last
      exact ⟨sweeping_after (h.packets now phase).1 rfl alone, le_rfl⟩
    · obtain ⟨-, prunes, rfl⟩ := more
      refine ⟨⟨fun n hn => ?_, h.messages, fun other => absurd phase (other now)⟩, le_rfl⟩
      obtain rfl : now = n := Phase.packets.inj (phase.symm.trans hn)
      exact ⟨(h.packets now phase).1, (h.packets now phase).2.1, _, prunes⟩
  | pruneMessages =>
    simp only [Retention.step] at hs
    split at hs
    · rename_i now phase
      cases hs
      exact ⟨⟨by simp, by simp, fun _ => h.alone (by simp [phase])⟩, le_rfl⟩
    · cases hs
  | vacuum =>
    simp only [Retention.step, Option.ite_none_right_eq_some, Option.some.injEq] at hs
    obtain ⟨phase, rfl⟩ := hs
    exact ⟨⟨by simp, by simp, fun _ => h.alone (by simp [phase])⟩, le_rfl⟩
  | fails =>
    simp only [Retention.step, Option.ite_none_right_eq_some, Option.some.injEq] at hs
    obtain ⟨-, rfl⟩ := hs
    refine ⟨⟨fun now hn => ?_, fun now hn => ?_, fun _ => rfl⟩, le_rfl⟩ <;> cases hn
  | cancel =>
    simp only [Retention.step, Option.ite_none_left_eq_some, Option.some.injEq] at hs
    obtain ⟨-, rfl⟩ := hs
    refine ⟨⟨fun now hn => ?_, fun now hn => ?_, fun _ => rfl⟩, le_rfl⟩ <;> cases hn

theorem packet_step {P : Settings} {s t : State} {a : Action} (h : Sweeping P s)
    (hs : step P s a = some t) {r : PacketRow} (hr : r ∈ s.store.packets.rows) :
    r ∈ t.store.packets.rows ∨
      0 < P.packetRetentionDays ∧ ∃ now ≤ s.clock, (r.ts : ℤ) < P.packetCutoff now := by
  cases a with
  | insertPacket p =>
    simp only [step, PacketStats.step, Option.map_some, Option.some.injEq] at hs
    subst hs
    exact Or.inl (List.mem_append_left _ hr)
  | upsertHourly k =>
    simp only [step, PacketStats.step, Option.map_eq_some_iff] at hs
    obtain ⟨store, hstore, rfl⟩ := hs
    split at hstore
    · cases hstore
      exact Or.inl hr
    · cases hstore
  | wake =>
    simp only [step, Option.ite_none_right_eq_some] at hs
    obtain ⟨-, hs⟩ := hs
    split at hs
    · rw [Option.map_eq_some_iff] at hs
      obtain ⟨store, hstore, rfl⟩ := hs
      simp only [PacketStats.step, if_pos batch_pos, Option.some.injEq] at hstore
      subst hstore
      exact Or.inl hr
    · cases hs
      exact Or.inl hr
  | deleteBatch ids =>
    obtain ⟨now, total, store, phase, selects, -, packets, ends⟩ := deleteBatch_eq h hs
    have rows : t.store.packets = s.store.packets.delete ids := by
      rcases ends with ⟨-, -, rfl⟩ | ⟨-, -, rfl⟩ <;> exact packets
    obtain ⟨le, days, -⟩ := h.packets now phase
    by_cases named : r.id ∈ ids
    · exact Or.inr ⟨days, now, le, PacketStats.old_of_selected selects hr named⟩
    · rw [rows]
      exact Or.inl (List.mem_filter.mpr ⟨hr, by simpa using named⟩)
  | pruneMessages =>
    simp only [step] at hs
    split at hs
    · cases hs
      exact Or.inl hr
    · cases hs
  | advance | vacuum | fails =>
    simp only [step, Option.ite_none_right_eq_some, Option.some.injEq] at hs
    obtain ⟨-, rfl⟩ := hs
    exact Or.inl hr
  | insertMessage =>
    simp only [step, Option.some.injEq] at hs
    subst hs
    exact Or.inl hr
  | cancel =>
    simp only [step, Option.ite_none_left_eq_some, Option.some.injEq] at hs
    obtain ⟨-, rfl⟩ := hs
    exact Or.inl hr

theorem message_step {P : Settings} {s t : State} {a : Action} (h : Sweeping P s)
    (hs : step P s a = some t) {r : MessageRow} (hr : r ∈ s.messages.rows) :
    r ∈ t.messages.rows ∨
      0 < P.messageRetentionDays ∧ ∃ now ≤ s.clock, (r.ts : ℤ) < P.messageCutoff now := by
  cases a with
  | insertMessage m channelId ts =>
    simp only [step, Option.some.injEq] at hs
    subst hs
    exact Or.inl (mem_insert.mpr (Or.inl hr))
  | pruneMessages =>
    simp only [step] at hs
    split at hs
    · rename_i now phase
      cases hs
      obtain ⟨le, days⟩ := h.messages now phase
      by_cases old : (r.ts : ℤ) < P.messageCutoff now
      · exact Or.inr ⟨days, now, le, old⟩
      · exact Or.inl (mem_prune.mpr ⟨hr, by omega⟩)
    · cases hs
  | insertPacket | upsertHourly =>
    simp only [step, Option.map_eq_some_iff] at hs
    obtain ⟨store, -, rfl⟩ := hs
    exact Or.inl hr
  | wake =>
    simp only [step, Option.ite_none_right_eq_some] at hs
    obtain ⟨-, hs⟩ := hs
    split at hs
    · rw [Option.map_eq_some_iff] at hs
      obtain ⟨store, -, rfl⟩ := hs
      exact Or.inl hr
    · cases hs
      exact Or.inl hr
  | deleteBatch ids =>
    obtain ⟨-, -, store, -, -, -, -, ⟨-, -, rfl⟩ | ⟨-, -, rfl⟩⟩ := deleteBatch_eq h hs <;>
      exact Or.inl hr
  | advance | vacuum | fails =>
    simp only [step, Option.ite_none_right_eq_some, Option.some.injEq] at hs
    obtain ⟨-, rfl⟩ := hs
    exact Or.inl hr
  | cancel =>
    simp only [step, Option.ite_none_left_eq_some, Option.some.injEq] at hs
    obtain ⟨-, rfl⟩ := hs
    exact Or.inl hr

theorem sweeping_run {P : Settings} {acts : List Action} {s : State}
    (hrun : Runs.run (step P) init acts = some s) : Sweeping P s :=
  Runs.reachable (fun _ _ _ h hs => (h.step hs).1) (init_sweeping P) hrun

/-- The hourly table is not touched: it goes on adding up all packets ever logged. -/
theorem accounted_step {P : Settings} {s t : State} {a : Action} (h : Sweeping P s)
    (hs : step P s a = some t) (accounted : PacketStats.Accounted P.storePacketPayloads s.store) :
    PacketStats.Accounted P.storePacketPayloads t.store := by
  cases a with
  | insertPacket | upsertHourly =>
    simp only [step, Option.map_eq_some_iff] at hs
    obtain ⟨store, hstore, rfl⟩ := hs
    exact accounted.step hstore
  | wake =>
    simp only [step, Option.ite_none_right_eq_some] at hs
    obtain ⟨-, hs⟩ := hs
    split at hs
    · rw [Option.map_eq_some_iff] at hs
      obtain ⟨store, hstore, rfl⟩ := hs
      exact accounted.step hstore
    · cases hs
      exact accounted
  | deleteBatch ids =>
    obtain ⟨-, -, store, -, -, hstore, -, ⟨-, -, rfl⟩ | ⟨-, -, rfl⟩⟩ := deleteBatch_eq h hs <;>
      exact accounted.step hstore
  | pruneMessages =>
    simp only [step] at hs
    split at hs
    · cases hs
      exact accounted
    · cases hs
  | advance | vacuum | fails =>
    simp only [step, Option.ite_none_right_eq_some, Option.some.injEq] at hs
    obtain ⟨-, rfl⟩ := hs
    exact ⟨accounted.rows, accounted.counts, accounted.hourly⟩
  | insertMessage =>
    simp only [step, Option.some.injEq] at hs
    subst hs
    exact accounted
  | cancel =>
    simp only [step, Option.ite_none_left_eq_some, Option.some.injEq] at hs
    obtain ⟨-, rfl⟩ := hs
    exact ⟨accounted.rows, accounted.counts, accounted.hourly⟩

/-- Whatever is logged, archived and swept meanwhile, a packet or a message that is not
older than its retention period is still there, and with no period for its table it is there
for ever; the hourly statistics add up all packets ever logged, pruned or not. -/
theorem retention_keeps_recent (P : Settings) (acts more : List Action) (s t : State)
    (hs : Runs.run (step P) init acts = some s) (ht : Runs.run (step P) s more = some t) :
    (∀ r ∈ s.store.packets.rows, P.packetRetentionDays ≤ 0 ∨
        (t.clock : ℤ) ≤ r.ts + P.packetRetentionDays * day → r ∈ t.store.packets.rows) ∧
      (∀ r ∈ s.messages.rows, P.messageRetentionDays ≤ 0 ∨
        (t.clock : ℤ) ≤ r.ts + P.messageRetentionDays * day → r ∈ t.messages.rows) ∧
      PacketStats.Accounted P.storePacketPayloads t.store := by
  have sweeping := sweeping_run hs
  refine ⟨fun r hr young => ?_, fun r hr young => ?_, ?_⟩
  · refine (Runs.reachable (I := fun u : State => Sweeping P u ∧
      (P.packetRetentionDays ≤ 0 ∨ (u.clock : ℤ) ≤ r.ts + P.packetRetentionDays * day →
        r ∈ u.store.packets.rows)) ?_ ⟨sweeping, fun _ => hr⟩ ht).2 young
    rintro u a v ⟨sweeping, kept⟩ hv
    obtain ⟨next, le⟩ := sweeping.step hv
    refine ⟨next, fun young => ?_⟩
    have before := kept (young.imp_right fun le' => by omega)
    rcases packet_step sweeping hv before with stays | ⟨days, now, past, old⟩
    · exact stays
    · simp only [Settings.packetCutoff] at old
      omega
  · refine (Runs.reachable (I := fun u : State => Sweeping P u ∧
      (P.messageRetentionDays ≤ 0 ∨ (u.clock : ℤ) ≤ r.ts + P.messageRetentionDays * day →
        r ∈ u.messages.rows)) ?_ ⟨sweeping, fun _ => hr⟩ ht).2 young
    rintro u a v ⟨sweeping, kept⟩ hv
    obtain ⟨next, le⟩ := sweeping.step hv
    refine ⟨next, fun young => ?_⟩
    have before := kept (young.imp_right fun le' => by omega)
    rcases message_step sweeping hv before with stays | ⟨days, now, past, old⟩
    · exact stays
    · simp only [Settings.messageCutoff] at old
      omega
  · refine (Runs.reachable (I := fun u : State => Sweeping P u ∧
      PacketStats.Accounted P.storePacketPayloads u.store) ?_
      ⟨init_sweeping P, PacketStats.init_accounted⟩
      (Runs.run_append.mpr ⟨s, hs, ht⟩ : Runs.run (step P) init (acts ++ more) = some t)).2
    rintro u a v ⟨sweeping, accounted⟩ hv
    exact ⟨(sweeping.step hv).1, accounted_step sweeping hv accounted⟩

def oneDay : Settings := ⟨1, 1, true⟩

def day0 : List Action :=
  [.insertPacket { ts := 10 }, .upsertHourly 0, .insertMessage { scope := .contact, text := "hi" }
    none 20, .advance 90000, .insertPacket { ts := 90000 }, .insertMessage
    { scope := .contact, text := "yo" } none 90000]

def sweep : List Action :=
  [.advance 100000, .wake, .insertPacket { ts := 100000 }, .deleteBatch [1], .pruneMessages,
    .vacuum]

theorem retention_keeps_recent_sweep :
    ∃ s t, Runs.run (step oneDay) init day0 = some s ∧ Runs.run (step oneDay) s sweep = some t ∧
      t.store.packets.rows.map PacketRow.id = [2, 3] ∧
      ⟨{ ts := 90000 }, 2⟩ ∈ t.store.packets.rows := by
  have got : (Runs.run (step oneDay) init day0).map (fun s => s.store.packets.rows) =
      some [⟨{ ts := 10 }, 1⟩, ⟨{ ts := 90000 }, 2⟩] ∧
      (Runs.run (step oneDay) init (day0 ++ sweep)).map (fun t =>
        (t.store.packets.rows.map PacketRow.id, t.clock)) = some ([2, 3], 100000) := by
    decide +kernel
  obtain ⟨before, after⟩ := got
  rw [Option.map_eq_some_iff] at before after
  obtain ⟨t, ht, seen⟩ := after
  obtain ⟨s, hs, rest⟩ := Runs.run_append.mp ht
  obtain ⟨s', hs', rows⟩ := before
  obtain rfl : s = s' := Option.some.inj (hs.symm.trans hs')
  rw [Prod.mk.injEq] at seen
  refine ⟨s, t, hs, rest, seen.1, ?_⟩
  refine (retention_keeps_recent oneDay _ _ s t hs rest).1 _ (by simp [rows]) (Or.inr ?_)
  rw [seen.2]
  decide

/-- Rows come in before they are due to go. -/
def Timely (P : Settings) (s : State) : Action → Prop
  | .insertPacket p => P.packetCutoff s.clock ≤ p.ts
  | .insertMessage _ _ ts => P.messageCutoff s.clock ≤ ts
  | _ => True

instance (P : Settings) (s : State) (a : Action) : Decidable (Timely P s a) := by
  unfold Timely
  induction a using Action.casesOn <;> infer_instance

structure Trimmed (P : Settings) (s : State) : Prop where
  packets : ∀ c, s.packetsSince = some c → c ≤ P.packetCutoff s.clock ∧
    ∀ r ∈ s.store.packets.rows, c ≤ r.ts
  messages : ∀ c, s.messagesSince = some c → c ≤ P.messageCutoff s.clock ∧
    ∀ r ∈ s.messages.rows, c ≤ r.ts

theorem packetCutoff_mono (P : Settings) {now later : ℕ} (h : now ≤ later) :
    P.packetCutoff now ≤ P.packetCutoff later := by
  simp only [Settings.packetCutoff]
  omega

theorem messageCutoff_mono (P : Settings) {now later : ℕ} (h : now ≤ later) :
    P.messageCutoff now ≤ P.messageCutoff later := by
  simp only [Settings.messageCutoff]
  omega

theorem Trimmed.keep {P : Settings} {s t : State} (h : Trimmed P s) (clock : s.clock ≤ t.clock)
    (packetsSince : t.packetsSince = s.packetsSince)
    (messagesSince : t.messagesSince = s.messagesSince)
    (packets : ∀ r ∈ t.store.packets.rows, r ∈ s.store.packets.rows ∨
      P.packetCutoff s.clock ≤ r.ts)
    (messages : ∀ r ∈ t.messages.rows, r ∈ s.messages.rows ∨
      P.messageCutoff s.clock ≤ r.ts) : Trimmed P t where
  packets c hc := by
    obtain ⟨bound, rows⟩ := h.packets c (packetsSince ▸ hc)
    refine ⟨bound.trans (packetCutoff_mono P clock), fun r hr => ?_⟩
    exact (packets r hr).elim (rows r) fun young => bound.trans young
  messages c hc := by
    obtain ⟨bound, rows⟩ := h.messages c (messagesSince ▸ hc)
    refine ⟨bound.trans (messageCutoff_mono P clock), fun r hr => ?_⟩
    exact (messages r hr).elim (rows r) fun young => bound.trans young

theorem Trimmed.step {P : Settings} {s t : State} {a : Action} (h : Trimmed P s)
    (sweeping : Sweeping P s) (timely : Timely P s a) (hs : Retention.step P s a = some t) :
    Trimmed P t := by
  cases a with
  | advance clock =>
    simp only [Retention.step, Option.ite_none_right_eq_some, Option.some.injEq] at hs
    obtain ⟨later, rfl⟩ := hs
    exact h.keep later rfl rfl (fun _ => Or.inl) fun _ => Or.inl
  | insertPacket p =>
    simp only [Retention.step, PacketStats.step, Option.map_some, Option.some.injEq] at hs
    subst hs
    refine h.keep le_rfl rfl rfl (fun r hr => ?_) fun _ => Or.inl
    rcases List.mem_append.mp hr with mem | mem
    · exact Or.inl mem
    · rw [List.mem_singleton.mp mem]
      exact Or.inr timely
  | upsertHourly k =>
    simp only [Retention.step, PacketStats.step, Option.map_eq_some_iff] at hs
    obtain ⟨store, hstore, rfl⟩ := hs
    split at hstore
    · cases hstore
      exact h.keep le_rfl rfl rfl (fun _ => Or.inl) fun _ => Or.inl
    · cases hstore
  | insertMessage m channelId ts =>
    simp only [Retention.step, Option.some.injEq] at hs
    subst hs
    refine h.keep le_rfl rfl rfl (fun _ => Or.inl) fun r hr => ?_
    rcases mem_insert.mp hr with mem | rfl
    · exact Or.inl mem
    · exact Or.inr timely
  | wake =>
    simp only [Retention.step, Option.ite_none_right_eq_some] at hs
    obtain ⟨-, hs⟩ := hs
    split at hs
    · rw [Option.map_eq_some_iff] at hs
      obtain ⟨store, hstore, rfl⟩ := hs
      simp only [PacketStats.step, if_pos batch_pos, Option.some.injEq] at hstore
      subst hstore
      exact h.keep le_rfl rfl rfl (fun _ => Or.inl) fun _ => Or.inl
    · cases hs
      exact h.keep le_rfl rfl rfl (fun _ => Or.inl) fun _ => Or.inl
  | deleteBatch ids =>
    obtain ⟨now, total, store, phase, selects, -, packets, ends⟩ := deleteBatch_eq sweeping hs
    rcases ends with ⟨short, -, rfl⟩ | ⟨-, -, rfl⟩
    · -- the last batch: every old row is among those that it takes
      refine ⟨fun c hc => ?_, h.messages⟩
      obtain rfl := Option.some.inj hc
      refine ⟨packetCutoff_mono P (sweeping.packets now phase).1, fun r hr => ?_⟩
      have kept : r ∈ (s.store.packets.delete ids).rows := packets ▸ hr
      obtain ⟨mem, unnamed⟩ := List.mem_filter.mp kept
      by_contra old
      exact absurd (PacketStats.all_selected selects short mem (not_le.mp old))
        (by simpa using unnamed)
    · refine h.keep le_rfl rfl rfl (fun r hr => Or.inl ?_) fun _ => Or.inl
      have kept : r ∈ (s.store.packets.delete ids).rows := packets ▸ hr
      exact (List.mem_filter.mp kept).1
  | pruneMessages =>
    simp only [Retention.step] at hs
    split at hs
    · rename_i now phase
      cases hs
      refine ⟨h.packets, fun c hc => ?_⟩
      obtain rfl := Option.some.inj hc
      refine ⟨messageCutoff_mono P (sweeping.messages now phase).1, fun r hr => ?_⟩
      have young := (mem_prune.mp hr).2
      omega
    · cases hs
  | vacuum | fails =>
    simp only [Retention.step, Option.ite_none_right_eq_some, Option.some.injEq] at hs
    obtain ⟨-, rfl⟩ := hs
    exact h.keep le_rfl rfl rfl (fun _ => Or.inl) fun _ => Or.inl
  | cancel =>
    simp only [Retention.step, Option.ite_none_left_eq_some, Option.some.injEq] at hs
    obtain ⟨-, rfl⟩ := hs
    exact h.keep le_rfl rfl rfl (fun _ => Or.inl) fun _ => Or.inl

/-- Where rows come in before they are due to go, no packet and no message is left that was
older than its retention period at the start of the last sweep that pruned its table to the
end, whatever was inserted between the batches and since, and whatever failed since. -/
theorem retention_drops_old (P : Settings) (acts : List Action) (s : State)
    (timely : Runs.Along (step P) (Timely P) init acts)
    (hrun : Runs.run (step P) init acts = some s) :
    (∀ c, s.packetsSince = some c → ∀ r ∈ s.store.packets.rows, c ≤ r.ts) ∧
      ∀ c, s.messagesSince = some c → ∀ r ∈ s.messages.rows, c ≤ r.ts := by
  have trimmed := (Runs.invariant (I := fun s => Sweeping P s ∧ Trimmed P s)
    (fun _ _ _ h timely hs => ⟨(h.1.step hs).1, h.2.step h.1 timely hs⟩)
    ⟨init_sweeping P, nofun, nofun⟩ timely hrun).2
  exact ⟨fun c hc => (trimmed.packets c hc).2, fun c hc => (trimmed.messages c hc).2⟩

theorem retention_drops_old_sweep :
    ∃ s, Runs.run (step oneDay) init (day0 ++ sweep) = some s ∧
      s.packetsSince = some 13600 ∧ ∀ r ∈ s.store.packets.rows, 13600 ≤ (r.ts : ℤ) := by
  have got : (Runs.run (step oneDay) init (day0 ++ sweep)).map State.packetsSince =
      some (some 13600) := by decide +kernel
  rw [Option.map_eq_some_iff] at got
  obtain ⟨s, hs, since⟩ := got
  exact ⟨s, hs, since,
    (retention_drops_old oneDay _ s (by decide +kernel) hs).1 13600 since⟩

end MeshwardenDaemon.Retention
