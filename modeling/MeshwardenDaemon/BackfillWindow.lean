import MeshwardenDaemon.BackfillSpecification

/-! One scan serves all candidates of a run: its window reaches from the earliest to the
latest of them. A message without a sender timestamp sees only packets of its own minute;
for one with a timestamp it matters which of its packets the others bring into the window. -/
namespace MeshwardenDaemon.BackfillRun
open ChannelTable MessageTable GroupText PacketTable PacketScan

/-- The message has a sender timestamp that is not 0. -/
def Stamped (m : MessageRow) : Prop := ¬ (m.senderTimestamp = none ∨ m.senderTimestamp = some 0)

instance (m : MessageRow) : Decidable (Stamped m) := inferInstanceAs (Decidable (¬ _))

section window
variable {P : Primitives} {parser : PacketParser} {channels : Channels} {packets : Packets}
  {targets : List MessageRow} {m : MessageRow} {r : PacketRow}

theorem scanWindow_around (hm : ∃ x ∈ targets, x.ts = m.ts)
    (type : r.payloadType = some parser.grpTxt) (payload : r.payloadHex.isSome = true)
    (near : ((m.ts : ℤ) - r.ts).natAbs ≤ 60) : (scanWindow parser targets).Selects r := by
  have mem : m.ts ∈ targets.map MessageRow.ts := List.mem_map.mpr hm
  have first := List.min?_getD_le_of_mem (k := 0) mem
  have last := List.le_max?_getD_of_mem (k := 0) mem
  refine ⟨type, payload, ?_, ?_⟩
  · simp only [scanWindow, scanBefore]
    omega
  · simp only [scanWindow, scanAfter]
    omega

theorem scanWindow_mono {fewer : List MessageRow} (nonempty : fewer ≠ [])
    (among : ∀ x ∈ fewer, ∃ m ∈ targets, m.ts = x.ts)
    (selects : (scanWindow parser fewer).Selects r) : (scanWindow parser targets).Selects r := by
  have times : ∀ t ∈ fewer.map MessageRow.ts, (targets.map MessageRow.ts).min?.getD 0 ≤ t ∧
      t ≤ (targets.map MessageRow.ts).max?.getD 0 := by
    intro t ht
    obtain ⟨x, hx, rfl⟩ := List.mem_map.mp ht
    have mem : x.ts ∈ targets.map MessageRow.ts := List.mem_map.mpr (among x hx)
    exact ⟨List.min?_getD_le_of_mem mem, List.le_max?_getD_of_mem mem⟩
  have some_time : fewer.map MessageRow.ts ≠ [] := by simpa using nonempty
  have first : (fewer.map MessageRow.ts).min?.getD 0 ∈ fewer.map MessageRow.ts := by
    cases least : (fewer.map MessageRow.ts).min? with
    | none => exact absurd (List.min?_eq_none_iff.mp least) some_time
    | some t => exact List.min?_mem least
  have last : (fewer.map MessageRow.ts).max?.getD 0 ∈ fewer.map MessageRow.ts := by
    cases greatest : (fewer.map MessageRow.ts).max? with
    | none => exact absurd (List.max?_eq_none_iff.mp greatest) some_time
    | some t => exact List.max?_mem greatest
  obtain ⟨type, payload, lower, upper⟩ := selects
  have low := (times _ first).1
  have high := (times _ last).2
  refine ⟨type, payload, ?_, ?_⟩
  · simp only [scanWindow] at lower ⊢
    omega
  · simp only [scanWindow] at upper ⊢
    omega

/-- A decision depends on what the message says, not on what is known of its channel. -/
theorem matchSet_attributed (w : Window) (a : Option (ℕ × Source)) :
    matchSet P parser channels packets w (attributed m a) =
      matchSet P parser channels packets w m := by
  cases a <;> rfl

theorem matchSet_congr {targets' : List MessageRow} (hm : ∃ x ∈ targets, x.ts = m.ts)
    (hm' : ∃ x ∈ targets', x.ts = m.ts)
    (same : Stamped m → ∀ r ∈ packets.rows, ∀ c, Matches P parser channels r m c →
      ((scanWindow parser targets).Selects r ↔ (scanWindow parser targets').Selects r)) :
    matchSet P parser channels packets (scanWindow parser targets) m =
      matchSet P parser channels packets (scanWindow parser targets') m := by
  have either : ∀ r ∈ packets.rows, ∀ c, Matches P parser channels r m c →
      ((scanWindow parser targets).Selects r ↔ (scanWindow parser targets').Selects r) := by
    intro r hr c found
    by_cases stamped : Stamped m
    · exact same stamped r hr c found
    · obtain ⟨_, _, _, -, -, -, time⟩ := found
      rw [SameTime, if_pos (not_not.mp stamped)] at time
      exact ⟨fun h => scanWindow_around hm' h.1 h.2.1 time,
        fun h => scanWindow_around hm h.1 h.2.1 time⟩
  ext c
  refine ⟨?_, ?_⟩
  · rintro ⟨r, hr, selects, found⟩
    exact ⟨r, hr, (either r hr c found).mp selects, found⟩
  · rintro ⟨r, hr, selects, found⟩
    exact ⟨r, hr, (either r hr c found).mpr selects, found⟩

section rerun
variable {includeInferred : Bool} {messages after : Messages}
  {outcome : MessageRow → Option (ℕ × Source)}

theorem attributed_mem_rows
    (rows : after.rows = messages.rows.map fun m =>
      if m.isCandidate includeInferred then attributed m (outcome m) else m)
    (hm : m ∈ messages.channelBackfillCandidates includeInferred) :
    attributed m (outcome m) ∈ after.rows := by
  obtain ⟨mem, candidate⟩ := List.mem_filter.mp hm
  rw [rows]
  exact List.mem_map.mpr ⟨m, mem, if_pos candidate⟩

theorem candidate_again
    (rows : after.rows = messages.rows.map fun m =>
      if m.isCandidate includeInferred then attributed m (outcome m) else m)
    (hm : m ∈ after.channelBackfillCandidates includeInferred) :
    ∃ x ∈ messages.channelBackfillCandidates includeInferred, m = attributed x (outcome x) := by
  obtain ⟨mem, candidate⟩ := List.mem_filter.mp hm
  rw [rows, List.mem_map] at mem
  obtain ⟨x, hx, rfl⟩ := mem
  by_cases old : x.isCandidate includeInferred = true
  · exact ⟨x, List.mem_filter.mpr ⟨hx, old⟩, if_pos old⟩
  · rw [if_neg old] at candidate
    exact absurd candidate old

theorem scanWindow_again
    (rows : after.rows = messages.rows.map fun m =>
      if m.isCandidate includeInferred then attributed m (outcome m) else m)
    (nonempty : after.channelBackfillCandidates includeInferred ≠ [])
    (selects : (scanWindow parser (after.channelBackfillCandidates includeInferred)).Selects r) :
    (scanWindow parser (messages.channelBackfillCandidates includeInferred)).Selects r := by
  refine scanWindow_mono nonempty (fun x hx => ?_) selects
  obtain ⟨m, hm, rfl⟩ := candidate_again rows hx
  exact ⟨m, hm, (attributed_ts m _).symm⟩

/-- With its packets still in the window a message taken up again is decided as before. -/
theorem matchSet_again
    (rows : after.rows = messages.rows.map fun m =>
      if m.isCandidate includeInferred then attributed m (outcome m) else m)
    (hm : m ∈ after.channelBackfillCandidates includeInferred)
    (kept : Stamped m → ∀ r ∈ packets.rows, ∀ c, Matches P parser channels r m c →
      (scanWindow parser (messages.channelBackfillCandidates includeInferred)).Selects r →
      (scanWindow parser (after.channelBackfillCandidates includeInferred)).Selects r) :
    matchSet P parser channels packets
        (scanWindow parser (after.channelBackfillCandidates includeInferred)) m =
      matchSet P parser channels packets
        (scanWindow parser (messages.channelBackfillCandidates includeInferred)) m := by
  refine matchSet_congr ⟨m, hm, rfl⟩ ?_ fun stamped r hr c found =>
    ⟨scanWindow_again rows (List.ne_nil_of_mem hm), kept stamped r hr c found⟩
  obtain ⟨x, hx, rfl⟩ := candidate_again rows hm
  exact ⟨x, hx, (attributed_ts x _).symm⟩

theorem attributed_again {decision : Option (ℕ × Source)}
    (rows : after.rows = messages.rows.map fun m =>
      if m.isCandidate includeInferred then attributed m (outcome m) else m)
    (decides : ∀ x ∈ messages.channelBackfillCandidates includeInferred,
      Decides (x.channelIdx.bind channels.idAt) (matchSet P parser channels packets
        (scanWindow parser (messages.channelBackfillCandidates includeInferred)) x) (outcome x))
    (hm : m ∈ after.channelBackfillCandidates includeInferred)
    (decided : Decides (m.channelIdx.bind channels.idAt) (matchSet P parser channels packets
      (scanWindow parser (messages.channelBackfillCandidates includeInferred)) m) decision) :
    attributed m decision = m := by
  obtain ⟨x, hx, rfl⟩ := candidate_again rows hm
  rw [matchSet_attributed, attributed_channelIdx] at decided
  rw [decided.unique (decides x hx), attributed_twice]

end rerun

end window

/-- Two runs make the same of a message that is a candidate of both, if it has no sender
timestamp or the same of its packets are in both windows; a second run alters no row, if
what it takes up again has all its packets of the first window in the second. -/
theorem judged_with_same_packets (P : Primitives) (parser : PacketParser) (channels : Channels)
    (packets : Packets) (stored : ∀ r ∈ packets.rows, 0 < r.id) :
    (∀ (include₁ include₂ : Bool) (messages₁ messages₂ : Messages) (m : MessageRow),
      let targets₁ := messages₁.channelBackfillCandidates include₁
      let targets₂ := messages₂.channelBackfillCandidates include₂
      m ∈ targets₁ → m ∈ targets₂ →
      Readable parser packets (scanWindow parser targets₁) →
      Readable parser packets (scanWindow parser targets₂) →
      (Stamped m → ∀ r ∈ packets.rows, ∀ c, Matches P parser channels r m c →
        ((scanWindow parser targets₁).Selects r ↔ (scanWindow parser targets₂).Selects r)) →
      ∃ outcome result₁ after₁ result₂ after₂,
        backfill P parser channels packets include₁ messages₁ = some (result₁, after₁) ∧
        backfill P parser channels packets include₂ messages₂ = some (result₂, after₂) ∧
        Decides (m.channelIdx.bind channels.idAt)
          (matchSet P parser channels packets (scanWindow parser targets₁) m) outcome ∧
        attributed m outcome ∈ after₁.rows ∧ attributed m outcome ∈ after₂.rows) ∧
    ∀ (includeInferred : Bool) (messages after : Messages) (result : BackfillResult),
      let window := scanWindow parser (messages.channelBackfillCandidates includeInferred)
      let again := after.channelBackfillCandidates includeInferred
      Readable parser packets window →
      backfill P parser channels packets includeInferred messages = some (result, after) →
      (∀ m ∈ again, Stamped m → ∀ r ∈ packets.rows, ∀ c, Matches P parser channels r m c →
        window.Selects r → (scanWindow parser again).Selects r) →
      ∃ result' after', backfill P parser channels packets includeInferred after =
          some (result', after') ∧ after'.rows = after.rows := by
  refine ⟨?_, ?_⟩
  · intro include₁ include₂ messages₁ messages₂ m targets₁ targets₂ hm₁ hm₂ readable₁ readable₂ same
    obtain ⟨outcome₁, after₁, returns₁, decides₁, rows₁⟩ :=
      backfill_decides P channels stored readable₁
    obtain ⟨outcome₂, after₂, returns₂, decides₂, rows₂⟩ :=
      backfill_decides P channels stored readable₂
    have decided₂ := decides₂ m hm₂
    rw [← matchSet_congr ⟨m, hm₁, rfl⟩ ⟨m, hm₂, rfl⟩ same] at decided₂
    have agree := (decides₁ m hm₁).unique decided₂
    refine ⟨outcome₁ m, _, after₁, _, after₂, returns₁, returns₂, decides₁ m hm₁, ?_, ?_⟩
    · exact attributed_mem_rows rows₁ hm₁
    · rw [agree]
      exact attributed_mem_rows rows₂ hm₂
  · intro includeInferred messages after result window again readable returns same
    obtain ⟨outcome, after', returns', decides, rows⟩ :=
      backfill_decides P channels stored readable
    obtain rfl : after' = after := by
      rw [returns, Option.some.injEq, Prod.mk.injEq] at returns'
      exact returns'.2.symm
    by_cases none : again = []
    · have nothing : backfill P parser channels packets includeInferred after' =
          some ({}, after') := if_pos none
      exact ⟨{}, after', nothing, rfl⟩
    · have readable' : Readable parser packets (scanWindow parser again) :=
        fun r hr selects => readable r hr (scanWindow_again rows none selects)
      obtain ⟨outcome', after'', returns'', decides', rows'⟩ :=
        backfill_decides P channels stored readable'
      refine ⟨_, after'', returns'', ?_⟩
      rw [rows']
      refine (List.map_congr_left fun m hm => ?_).trans (List.map_id _)
      by_cases candidate : m.isCandidate includeInferred = true
      · have hm' : m ∈ again := List.mem_filter.mpr ⟨hm, candidate⟩
        have decided := decides' m hm'
        rw [matchSet_again rows hm' (same m hm')] at decided
        rw [if_pos candidate]
        exact attributed_again rows decides hm' decided
      · exact if_neg candidate

def oneMessage : Messages :=
  Messages.empty.insert ⟨.channel, "b: hi", some 0, none⟩ none 1000 0

theorem judged_with_same_packets_threeMessages :
    ∃ outcome result₁ after₁ result₂ after₂,
      backfill recorded directParser publicChannel (storedPacket 1010) false oneMessage =
        some (result₁, after₁) ∧
      backfill recorded directParser publicChannel (storedPacket 1010) false threeMessages =
        some (result₂, after₂) ∧
      attributed ⟨1, 1000, .channel, some 0, none, none, none, "b: hi", 0⟩ outcome ∈ after₁.rows ∧
      attributed ⟨1, 1000, .channel, some 0, none, none, none, "b: hi", 0⟩ outcome ∈
        after₂.rows := by
  obtain ⟨outcome, result₁, after₁, result₂, after₂, returns₁, returns₂, -, mem₁, mem₂⟩ :=
    (judged_with_same_packets recorded directParser publicChannel (storedPacket 1010)
      (by decide)).1 false false oneMessage threeMessages
      ⟨1, 1000, .channel, some 0, none, none, none, "b: hi", 0⟩ (by decide +kernel)
      (by decide +kernel) (by unfold Readable; decide +kernel)
      (by unfold Readable; decide +kernel) (fun stamped => absurd stamped (by decide))
  exact ⟨outcome, result₁, after₁, result₂, after₂, returns₁, returns₂, mem₁, mem₂⟩

def early : Messages := Messages.empty.insert ⟨.channel, "a: b: hi", some 0, some 7⟩ none 1000 0

def accompanied : Messages := early.insert ⟨.channel, "x", some 0, none⟩ none 1000000 1

/-- Alone the message is inferred, beside the other one it is decrypted. -/
theorem company_decides :
    ¬ ∀ m, m ∈ early.channelBackfillCandidates false →
      m ∈ accompanied.channelBackfillCandidates false → ∀ result₁ after₁ result₂ after₂,
      backfill recorded directParser publicChannel (storedPacket 1000000) false early =
        some (result₁, after₁) →
      backfill recorded directParser publicChannel (storedPacket 1000000) false accompanied =
        some (result₂, after₂) →
      after₁.rows.find? (·.id = m.id) = after₂.rows.find? (·.id = m.id) := by
  intro supposed
  have alone : (backfill recorded directParser publicChannel (storedPacket 1000000) false
      early).map (fun x => (x.2.rows.find? (·.id = 1)).bind (·.channelSource)) =
        some (some .inferred) := by
    decide +kernel
  have beside : (backfill recorded directParser publicChannel (storedPacket 1000000) false
      accompanied).map (fun x => (x.2.rows.find? (·.id = 1)).bind (·.channelSource)) =
        some (some .decrypted) := by
    decide +kernel
  simp only [Option.map_eq_some_iff, Prod.exists] at alone beside
  obtain ⟨result₁, after₁, returns₁, inferred⟩ := alone
  obtain ⟨result₂, after₂, returns₂, decrypted⟩ := beside
  have same := supposed ⟨1, 1000, .channel, some 0, none, none, some 7, "a: b: hi", 0⟩
    (by decide +kernel) (by decide +kernel) result₁ after₁ result₂ after₂ returns₁ returns₂
  rw [same, decrypted] at inferred
  cases inferred

end MeshwardenDaemon.BackfillRun
