import MeshwardenDaemon.MessageTable
import MeshwardenDaemon.Library.Runs
import Mathlib.Data.List.DropRight
import Mathlib.Data.List.Dedup

/-! `ChannelBackfill` among the other writers of the two tables. A run selects its
candidates, lists the channels, scans the packets and writes by row id; adds, slot
statements, channel upserts and pruning go on between any two of its statements. -/
namespace MeshwardenDaemon.ChannelBackfill
open ChannelTable MessageTable Library Library.KeyedTable

structure Decrypted where
  channelId : ℕ
  ts : ℕ
  senderTimestamp : ℕ
  deriving DecidableEq

/-- Max receive-time distance for messages without a sender timestamp. -/
def tsTolerance : ℕ := 60

def sameSend (m : MessageRow) (packet : Decrypted) : Bool :=
  match m.senderTimestamp with
  | some (t + 1) => t + 1 == packet.senderTimestamp
  | _ => ((m.ts : ℤ) - packet.ts).natAbs ≤ tsTolerance

/-- `str.strip("\0")`. -/
def stripNul (text : String) : List Char :=
  (text.toList.dropWhile (·.toNat == 0)).rdropWhile (·.toNat == 0)

/-- The scan's index: the decrypted packets under each text they may be stored as. -/
abbrev Index := List (String × Decrypted)

def matched (index : Index) (m : MessageRow) : List ℕ :=
  ((index.filter fun p => p.1.toList == stripNul m.text && sameSend m p.2).map
    fun p => p.2.channelId).dedup

/-- The decision of `_run` for one candidate, `none` where it stays unresolved. -/
def attribution (slotChannel : Option ℕ) (matched : List ℕ) : Option (ℕ × Source) :=
  match slotChannel.filter (matched.contains ·), matched with
  | some channelId, _ => some (channelId, .decrypted)
  | none, [channelId] => some (channelId, .decrypted)
  | none, [] => slotChannel.map fun channelId => (channelId, .inferred)
  | none, _ => none

structure Update where
  channelId : ℕ
  source : Source
  messageId : ℕ
  /-- Ghost: the stamp of the row that was the candidate. -/
  born : ℕ
  deriving DecidableEq

inductive Progress
  | selected (targets : List MessageRow)
  | scanning (targets : List MessageRow) (channels : Channels)
  | writing (updates : List Update)

structure Pending where
  message : NewMessage
  channelId : Option ℕ

structure State where
  channels : Channels
  messages : Messages
  adds : List Pending
  run : Option Progress
  /-- Ghost: the stamp of the next row. -/
  born : ℕ

def init (channels : Channels) (messages : Messages) : State where
  channels := channels
  messages := messages
  adds := []
  run := none
  born := nextKey MessageRow.born messages.rows

inductive Action
  | lookupChannel (m : NewMessage)
  | insertMessage (k ts : ℕ)
  | upsert (name : String) (secret : Secret) (now : ℕ)
  | vacateSlot (slot id : ℕ)
  | setSlot (slot id : ℕ)
  | clearSlot (slot : ℕ)
  | clearSlotsFrom (firstSlot : ℕ)
  | prune (cutoffTs : ℕ)
  | backfillSelect (includeInferred : Bool)
  | backfillList
  | backfillScan (index : Index)
  | backfillWrite
  | backfillFails

def Action.repoints : Action → Bool
  | .upsert .. | .vacateSlot .. | .setSlot .. | .clearSlot .. | .clearSlotsFrom .. => true
  | _ => false

def updatesFor (channels : Channels) (index : Index) (targets : List MessageRow) :
    List Update :=
  targets.filterMap fun m =>
    (attribution (m.channelIdx.bind channels.idAt) (matched index m)).map fun a =>
      ⟨a.1, a.2, m.id, m.born⟩

def step (s : State) : Action → Option State
  | .lookupChannel m => some { s with adds := s.adds ++ [⟨m, m.lookup s.channels⟩] }
  | .insertMessage k ts =>
    match s.adds[k]? with
    | some a => some { s with
        adds := s.adds.eraseIdx k
        messages := s.messages.insert a.message a.channelId ts s.born
        born := s.born + 1 }
    | none => none
  | .upsert name secret now =>
    some { s with channels := (s.channels.upsert name secret now).2 }
  | .vacateSlot slot id => some { s with channels := s.channels.vacateSlot slot id }
  | .setSlot slot id => some { s with channels := (s.channels.setSlot slot id).getD s.channels }
  | .clearSlot slot => some { s with channels := s.channels.clearSlot slot }
  | .clearSlotsFrom firstSlot =>
    some { s with channels := s.channels.clearSlotsFrom firstSlot }
  | .prune cutoffTs => some { s with messages := s.messages.prune cutoffTs }
  | .backfillSelect includeInferred =>
    match s.run with
    | none =>
      let targets := s.messages.channelBackfillCandidates includeInferred
      some { s with run := if targets = [] then none else some (.selected targets) }
    | some _ => none
  | .backfillList =>
    match s.run with
    | some (.selected targets) => some { s with run := some (.scanning targets s.channels) }
    | _ => none
  | .backfillScan index =>
    match s.run with
    | some (.scanning targets channels) =>
      some { s with run := some (.writing (updatesFor channels index targets)) }
    | _ => none
  | .backfillWrite =>
    match s.run with
    | some (.writing (u :: rest)) => some { s with
        messages := s.messages.setChannel u.channelId u.source u.messageId
        run := some (.writing rest) }
    | some (.writing []) => some { s with run := none }
    | _ => none
  | .backfillFails => if s.run.isSome then some { s with run := none } else none

def Progress.marks : Option Progress → List (ℕ × ℕ)
  | some (.selected targets) | some (.scanning targets _) =>
    targets.map fun m => (m.id, m.born)
  | some (.writing updates) => updates.map fun u => (u.messageId, u.born)
  | none => []

theorem updatesFor_marks (channels : Channels) (index : Index) (targets : List MessageRow) :
    ((updatesFor channels index targets).map fun u => (u.messageId, u.born)).Sublist
      (targets.map fun m => (m.id, m.born)) := by
  induction targets with
  | nil => exact List.Sublist.slnil
  | cons m ms ih =>
    unfold updatesFor at ih ⊢
    rw [List.filterMap_cons]
    split
    · exact ih.cons _
    · rename_i u hu
      obtain ⟨a, _, rfl⟩ := Option.map_eq_some_iff.mp hu
      exact ih.cons_cons _

theorem attribution_source {slotChannel : Option ℕ} {found : List ℕ} {a : ℕ × Source}
    (h : attribution slotChannel found = some a) :
    a.2 = .inferred ∨ a.2 = .decrypted := by
  unfold attribution at h
  split at h
  · cases h
    exact Or.inr rfl
  · cases h
    exact Or.inr rfl
  · obtain ⟨c, _, rfl⟩ := Option.map_eq_some_iff.mp h
    exact Or.inl rfl
  · cases h

theorem updatesFor_source {channels : Channels} {index : Index} {targets : List MessageRow}
    {u : Update} (h : u ∈ updatesFor channels index targets) :
    u.source = .inferred ∨ u.source = .decrypted := by
  obtain ⟨m, _, hu⟩ := List.mem_filterMap.mp h
  obtain ⟨a, ha, rfl⟩ := Option.map_eq_some_iff.mp hu
  exact attribution_source ha

inductive Move (s : State) : Action → State → Prop
  | channels {a : Action} {channels : Channels} (repoints : a.repoints = true) :
      Move s a { s with channels := channels }
  | looksUp {m : NewMessage} :
      Move s (.lookupChannel m) { s with adds := s.adds ++ [⟨m, m.lookup s.channels⟩] }
  | inserts {k ts : ℕ} {a : Pending} (adds : s.adds[k]? = some a) :
      Move s (.insertMessage k ts) { s with
        adds := s.adds.eraseIdx k
        messages := s.messages.insert a.message a.channelId ts s.born
        born := s.born + 1 }
  | prunes {cutoffTs : ℕ} :
      Move s (.prune cutoffTs) { s with messages := s.messages.prune cutoffTs }
  | selects {includeInferred : Bool} {run : Option Progress}
      (marks : (Progress.marks run).Sublist
        ((s.messages.channelBackfillCandidates includeInferred).map fun m => (m.id, m.born)))
      (updates : ∀ us, run ≠ some (.writing us)) :
      Move s (.backfillSelect includeInferred) { s with run := run }
  | proceeds {a : Action} {run : Option Progress}
      (idle : a = .backfillWrite → s.run = some (.writing []))
      (marks : (Progress.marks run).Sublist (Progress.marks s.run))
      (updates : ∀ us, run = some (.writing us) → ∀ u ∈ us,
        u.source = .inferred ∨ u.source = .decrypted) :
      Move s a { s with run := run }
  | writes {u : Update} {rest : List Update} (run : s.run = some (.writing (u :: rest))) :
      Move s .backfillWrite { s with
        messages := s.messages.setChannel u.channelId u.source u.messageId
        run := some (.writing rest) }

theorem move_of_step {s t : State} {a : Action} (h : step s a = some t) : Move s a t := by
  cases a with
  | lookupChannel m =>
    cases h
    exact Move.looksUp
  | insertMessage k ts =>
    simp only [step] at h
    split at h
    · rename_i a adds
      cases h
      exact Move.inserts adds
    · cases h
  | upsert | vacateSlot | setSlot | clearSlot | clearSlotsFrom =>
    cases h
    exact Move.channels rfl
  | prune cutoffTs =>
    cases h
    exact Move.prunes
  | backfillSelect includeInferred =>
    simp only [step] at h
    split at h
    · cases h
      refine Move.selects ?_ fun us => ?_
      · split
        · exact List.nil_sublist _
        · exact List.Sublist.refl _
      · split <;> exact nofun
    · cases h
  | backfillList =>
    simp only [step] at h
    split at h
    · rename_i targets run
      cases h
      refine Move.proceeds nofun ?_ nofun
      rw [run]
      exact List.Sublist.refl _
    · cases h
  | backfillScan index =>
    simp only [step] at h
    split at h
    · rename_i targets channels run
      cases h
      refine Move.proceeds nofun ?_ ?_
      · rw [run]
        exact updatesFor_marks channels index targets
      · rintro us ⟨⟩ u hu
        exact updatesFor_source hu
    · cases h
  | backfillWrite =>
    simp only [step] at h
    split at h
    · rename_i u rest run
      cases h
      exact Move.writes run
    · rename_i run
      cases h
      exact Move.proceeds (fun _ => run) (List.nil_sublist _) nofun
    · cases h
  | backfillFails =>
    simp only [step, Option.ite_none_right_eq_some, Option.some.injEq] at h
    obtain ⟨_, rfl⟩ := h
    exact Move.proceeds nofun (List.nil_sublist _) nofun

end MeshwardenDaemon.ChannelBackfill
