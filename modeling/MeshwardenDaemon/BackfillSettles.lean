import MeshwardenDaemon.BackfillWindow
import MeshwardenDaemon.Library.Runs

/-! Backfills one after the other. Each run takes up what the one before left open, and its
window may be narrower; a run that takes up the same messages as the one before decides them
as before, so after at most one run for each message the table is at rest. -/
namespace MeshwardenDaemon.BackfillRun
open ChannelTable MessageTable ChannelBackfill GroupText PacketTable PacketScan Library

section settles
variable {P : Primitives} {parser : PacketParser} {channels : Channels} {packets : Packets}
  {includeInferred : Bool} {messages after : Messages}
  {outcome : MessageRow → Option (ℕ × Source)}

theorem messages_eq {t u : Messages} (rows : t.rows = u.rows) : t = u := by
  cases t
  cases u
  simpa using rows

theorem backfill_nothing (none : messages.channelBackfillCandidates includeInferred = []) :
    backfill P parser channels packets includeInferred messages = some ({}, messages) :=
  if_pos none

theorem candidates_again
    (rows : after.rows = messages.rows.map fun m =>
      if m.isCandidate includeInferred then attributed m (outcome m) else m) :
    after.channelBackfillCandidates includeInferred =
      ((messages.channelBackfillCandidates includeInferred).filter fun m =>
        (attributed m (outcome m)).isCandidate includeInferred).map
          fun m => attributed m (outcome m) := by
  unfold Messages.channelBackfillCandidates
  rw [rows, List.filter_map, List.filter_filter]
  have open_again : ∀ m : MessageRow,
      (MessageRow.isCandidate includeInferred ∘ fun m =>
        if m.isCandidate includeInferred then attributed m (outcome m) else m) m =
      ((attributed m (outcome m)).isCandidate includeInferred &&
        m.isCandidate includeInferred) := by
    intro m
    cases candidate : m.isCandidate includeInferred <;> simp [candidate]
  simp only [funext open_again]
  refine List.map_congr_left fun m hm => if_pos ?_
  simpa using (Bool.and_eq_true_iff.mp (List.mem_filter.mp hm).2).2

theorem same_candidates_settle (stored : ∀ r ∈ packets.rows, 0 < r.id)
    (readable : Readable parser packets
      (scanWindow parser (messages.channelBackfillCandidates includeInferred)))
    (decides : ∀ x ∈ messages.channelBackfillCandidates includeInferred,
      Decides (x.channelIdx.bind channels.idAt) (matchSet P parser channels packets
        (scanWindow parser (messages.channelBackfillCandidates includeInferred)) x) (outcome x))
    (rows : after.rows = messages.rows.map fun m =>
      if m.isCandidate includeInferred then attributed m (outcome m) else m)
    (length : (messages.channelBackfillCandidates includeInferred).length ≤
      (after.channelBackfillCandidates includeInferred).length) :
    (backfill P parser channels packets includeInferred after).map Prod.snd = some after := by
  have again : after.channelBackfillCandidates includeInferred =
      ((messages.channelBackfillCandidates includeInferred).filter fun m =>
        (attributed m (outcome m)).isCandidate includeInferred).map
          fun m => attributed m (outcome m) := candidates_again rows
  have all : (messages.channelBackfillCandidates includeInferred).filter (fun m =>
      (attributed m (outcome m)).isCandidate includeInferred) =
        messages.channelBackfillCandidates includeInferred := by
    refine List.filter_sublist.eq_of_length_le ?_
    rwa [again, List.length_map] at length
  have window : scanWindow parser (after.channelBackfillCandidates includeInferred) =
      scanWindow parser (messages.channelBackfillCandidates includeInferred) := by
    have times : (after.channelBackfillCandidates includeInferred).map MessageRow.ts =
        (messages.channelBackfillCandidates includeInferred).map MessageRow.ts := by
      simp only [again, all, List.map_map, Function.comp_def, attributed_ts]
    simp only [scanWindow, times]
  have readable' : Readable parser packets
      (scanWindow parser (after.channelBackfillCandidates includeInferred)) := by
    rw [window]
    exact readable
  obtain ⟨outcome', after', returns, decides', rows'⟩ :=
    backfill_decides P channels stored readable'
  have unchanged : after'.rows = after.rows := by
    rw [rows']
    refine (List.map_congr_left fun m hm => ?_).trans (List.map_id _)
    by_cases candidate : m.isCandidate includeInferred = true
    · have hm' : m ∈ after.channelBackfillCandidates includeInferred :=
        List.mem_filter.mpr ⟨hm, candidate⟩
      have decided := decides' m hm'
      rw [window] at decided
      rw [if_pos candidate]
      exact attributed_again rows decides hm' decided
    · exact if_neg candidate
  rw [returns, Option.map_some, messages_eq unchanged]

def withoutChannel (m : MessageRow) : MessageRow :=
  { m with channelId := none, channelSource := none }

theorem withoutChannel_attributed (m : MessageRow) (a : Option (ℕ × Source)) :
    withoutChannel (attributed m a) = withoutChannel m := by
  cases a <;> rfl

theorem nothing_decrypted {decision : Option (ℕ × Source)} {m : MessageRow}
    (candidate : m.isCandidate includeInferred = true)
    (unchanged : attributed m decision = m) : decision.any (·.2 == .decrypted) = false := by
  match decision, unchanged with
  | none, _ => rfl
  | some (c, source), unchanged =>
    have marked : m.channelSource = some source := by
      rw [← unchanged]
      rfl
    cases source <;> simp_all [MessageRow.isCandidate]

/-- What runs have left as it was in the table `messages`: all but the channels of the messages
that were open, and with them the packets that a run may look at. -/
structure LeftByRuns (parser : PacketParser) (packets : Packets) (includeInferred : Bool)
    (messages t : Messages) : Prop where
  readable : t.channelBackfillCandidates includeInferred ≠ [] → Readable parser packets
    (scanWindow parser (t.channelBackfillCandidates includeInferred))
  rows : t.rows.map withoutChannel = messages.rows.map withoutChannel
  closed : ∀ m ∈ messages.rows, m.isCandidate includeInferred = false → m ∈ t.rows

variable (P channels) in
theorem LeftByRuns.again {t : Messages} (stored : ∀ r ∈ packets.rows, 0 < r.id)
    (h : LeftByRuns parser packets includeInferred messages t) :
    ∃ u, (backfill P parser channels packets includeInferred t).map Prod.snd = some u ∧
      LeftByRuns parser packets includeInferred messages u ∧
      ((u.channelBackfillCandidates includeInferred).length <
          (t.channelBackfillCandidates includeInferred).length ∨
        (backfill P parser channels packets includeInferred u).map Prod.snd = some u) := by
  by_cases none : t.channelBackfillCandidates includeInferred = []
  · have nothing : (backfill P parser channels packets includeInferred t).map
        Prod.snd = some t := by
      rw [backfill_nothing none, Option.map_some]
    exact ⟨t, nothing, h, Or.inr nothing⟩
  · obtain ⟨outcome, u, returns, decides, rows⟩ := backfill_decides P channels stored
      (h.readable none)
    have leads : (backfill P parser channels packets includeInferred t).map
        Prod.snd = some u := by
      rw [returns, Option.map_some]
    refine ⟨u, leads, ⟨fun again r hr selects => ?_, ?_, fun m hm closed => ?_⟩, ?_⟩
    · exact h.readable none r hr (scanWindow_again rows again selects)
    · rw [← h.rows, rows, List.map_map]
      refine List.map_congr_left fun m _ => ?_
      simp only [Function.comp_apply]
      split
      · exact withoutChannel_attributed _ _
      · rfl
    · rw [rows]
      exact List.mem_map.mpr ⟨m, h.closed m hm closed, if_neg (by simp [closed])⟩
    · rcases Nat.lt_or_ge (u.channelBackfillCandidates includeInferred).length
        (t.channelBackfillCandidates includeInferred).length with fewer | length
      · exact Or.inl fewer
      · exact Or.inr (same_candidates_settle stored (h.readable none) decides rows length)

theorem LeftByRuns.rest {t : Messages} (stored : ∀ r ∈ packets.rows, 0 < r.id)
    (h : LeftByRuns parser packets includeInferred messages t)
    (rest : (backfill P parser channels packets includeInferred t).map Prod.snd = some t) :
    ∃ result, backfill P parser channels packets includeInferred t = some (result, t) ∧
      result.decrypted = 0 := by
  by_cases none : t.channelBackfillCandidates includeInferred = []
  · exact ⟨{}, backfill_nothing none, rfl⟩
  · obtain ⟨outcome, u, returns, -, rows⟩ := backfill_decides P channels stored (h.readable none)
    rw [returns, Option.map_some, Option.some.injEq] at rest
    obtain rfl : u = t := rest
    refine ⟨_, returns, ?_⟩
    rw [foldl_count, Nat.zero_add, List.countP_eq_zero]
    intro m hm
    have decided := attributed_mem_rows rows hm
    obtain ⟨mem, candidate⟩ := List.mem_filter.mp hm
    simp [nothing_decrypted candidate (eq_of_id decided mem (attributed_id _ _))]

end settles

end MeshwardenDaemon.BackfillRun
