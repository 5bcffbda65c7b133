import MeshwardenDaemon.BackfillWindow

/-! Messages that the node has sent itself. They are stored without the sender name that
their packets carry; the index has what follows the first ": " of a plaintext, and a name
may have one of its own. -/
namespace MeshwardenDaemon.BackfillRun
open ChannelTable MessageTable ChannelBackfill GroupText PacketTable PacketScan Library.Text

section names
variable {name text : List Char}

/-- A separator that starts before the end of the name lies in the name. -/
theorem front_of_plain (clean : ¬ [':', ' '] <:+: name) {front body : List Char}
    (cut : name ++ [':', ' '] ++ text = front ++ [':', ' '] ++ body) :
    name.length ≤ front.length := by
  induction name generalizing front with
  | nil => exact Nat.zero_le _
  | cons c name ih =>
    cases front with
    | nil =>
      exfalso
      apply clean
      simp only [List.cons_append, List.nil_append, List.cons.injEq] at cut
      obtain ⟨rfl, rest⟩ := cut
      cases name with
      | nil => simp at rest
      | cons d name =>
        simp only [List.cons_append, List.cons.injEq] at rest
        exact ⟨[], name, by rw [rest.1]; rfl⟩
    | cons d front =>
      simp only [List.cons_append, List.cons.injEq] at cut
      have inner : ¬ [':', ' '] <:+: name := fun h => clean (List.infix_cons h)
      exact Nat.succ_le_succ (ih inner cut.2)

theorem storedAs_text :
    StoredAs (name ++ [':', ' '] ++ text) text ↔ ¬ [':', ' '] <:+: name := by
  refine ⟨?_, ?_⟩
  · rintro (whole | ⟨sender, cut, first⟩) ⟨u, v, rfl⟩
    · have lengths := congrArg List.length whole
      simp only [List.length_append, List.length_cons, List.length_nil] at lengths
      omega
    · have earlier := first u (v ++ [':', ' '] ++ text) (by simp)
      have lengths := congrArg List.length cut
      simp only [List.length_append, List.length_cons, List.length_nil] at lengths earlier
      omega
  · intro clean
    exact Or.inr ⟨name, rfl, fun front body cut => front_of_plain clean cut⟩

theorem separator_dropWhile :
    [':', ' '] <:+: name.dropWhile (·.toNat == 0) ↔ [':', ' '] <:+: name := by
  induction name with
  | nil => rfl
  | cons c name ih =>
    by_cases nul : c.toNat = 0
    · rw [List.dropWhile_cons_of_pos (by simpa using nul), ih, List.infix_cons_iff]
      refine ⟨Or.inr, fun h => h.resolve_left ?_⟩
      rintro ⟨rest, cut⟩
      simp only [List.cons_append, List.cons.injEq] at cut
      rw [← cut.1] at nul
      exact absurd nul (by decide)
    · rw [List.dropWhile_cons_of_neg (by simpa using nul)]

/-- Of a plaintext, stripping takes only NULs in front of the name. -/
theorem strip_plain (trailing : text.getLast? ≠ some '\x00') :
    strip (·.toNat == 0) (name ++ [':', ' '] ++ text) =
      name.dropWhile (·.toNat == 0) ++ [':', ' '] ++ text := by
  have front : (name ++ [':', ' '] ++ text).dropWhile (·.toNat == 0) =
      name.dropWhile (·.toNat == 0) ++ [':', ' '] ++ text := by
    induction name with
    | nil => rfl
    | cons c name ih =>
      by_cases nul : c.toNat = 0
      · simpa [nul] using ih
      · simp [nul]
  have last : ∀ c ∈ (name.dropWhile (·.toNat == 0) ++ [':', ' '] ++ text).getLast?,
      (c.toNat == 0) = false := by
    intro c hc
    rw [List.getLast?_append] at hc
    cases tail : text.getLast? with
    | none =>
      simp only [tail, Option.none_or, List.getLast?_append, List.getLast?_cons_cons,
        List.getLast?_singleton, Option.some_or, Option.mem_def, Option.some.injEq] at hc
      rw [← hc]
      rfl
    | some d =>
      simp only [tail, Option.some_or, Option.mem_def, Option.some.injEq] at hc
      rw [beq_eq_false_iff_ne]
      intro zero
      have same : c = '\x00' := Char.toNat_inj.mp zero
      exact trailing (by rw [tail, hc, same])
  rw [strip, front, rdropWhile_eq_self last]

end names

/-- A stored GRP_TXT packet that decrypts to the text under the channel's secret. -/
def DecryptsTo (P : Primitives) (parser : PacketParser) (r : PacketRow) (c : ChannelRow)
    (text : List Char) : Prop :=
  r.payloadType = some parser.grpTxt ∧ r.payloadHex.isSome = true ∧
    ∃ payload ∈ payloadOf parser r, DecryptsUnder P payload c ∧
      (opened P payload c).2.2 = String.ofList text

/-- The scan takes the packet for one of the channel: no channel listed before has its hash byte
and its MAC too. -/
def TakenFor (P : Primitives) (parser : PacketParser) (channels : Channels) (r : PacketRow)
    (c : ChannelRow) : Prop :=
  ∃ before after, channels.list false = before ++ c :: after ∧ ForeignTo P parser r before

theorem Decides.only_iff {slotChannel : Option ℕ} {found : Set ℕ} {a : Option (ℕ × Source)}
    (h : Decides slotChannel found a) {c : ℕ} (only : ∀ d ∈ found, d = c) :
    a = some (c, .decrypted) ↔ c ∈ found := by
  refine ⟨?_, fun mem => h.unique ?_⟩
  · rintro rfl
    cases h with
    | slot _ mem => exact mem
    | single _ only => exact only ▸ Set.mem_singleton c
  · have all : found = {c} := Set.eq_singleton_iff_unique_mem.mpr ⟨mem, only⟩
    by_cases own : slotChannel = some c
    · exact Decides.slot own mem
    · refine Decides.single (fun s hs in_found => own ?_) all
      rw [Option.mem_def.mp hs, only s in_found]

section sent
variable {P : Primitives} {parser : PacketParser} {channels : Channels} {packets : Packets}
  {r : PacketRow} {c : ChannelRow}

theorem DecryptsTo.unique {text text' : List Char} (h : DecryptsTo P parser r c text)
    (h' : DecryptsTo P parser r c text') : text = text' := by
  obtain ⟨-, -, payload, read, -, plain⟩ := h
  obtain ⟨-, -, payload', read', -, plain'⟩ := h'
  obtain rfl : payload = payload' := Option.mem_unique read read'
  exact String.ofList_inj.mp (plain.symm.trans plain')

theorem TakenFor.mem (h : TakenFor P parser channels r c) : c ∈ channels.rows := by
  obtain ⟨before, after, listed, -⟩ := h
  exact (mem_list.mp (by rw [listed]; simp : c ∈ channels.list false)).1

variable (P parser channels packets) in
theorem mem_matchSet_unstamped {targets : List MessageRow} {m : MessageRow} (hm : m ∈ targets)
    (unstamped : m.senderTimestamp = none) (id : ℕ) :
    id ∈ matchSet P parser channels packets (scanWindow parser targets) m ↔
      ∃ c : ChannelRow, c.id = id ∧ ∃ r ∈ packets.rows, ((m.ts : ℤ) - r.ts).natAbs ≤ 60 ∧
        TakenFor P parser channels r c ∧
        ∃ text, DecryptsTo P parser r c text ∧ StoredAs text (stripNul m.text) := by
  have time : ∀ ts stamp, SameTime m ts stamp ↔ ((m.ts : ℤ) - ts).natAbs ≤ 60 := by
    intro ts stamp
    rw [SameTime, if_pos (Or.inl unstamped)]
  rw [matchSet_eq]
  refine ⟨?_, ?_⟩
  · rintro ⟨before, c, after, listed, named, r, hr, selects, ⟨payload, read, own, told, near⟩,
      foreign⟩
    refine ⟨c, named, r, hr, (time r.ts _).mp near, ⟨before, after, listed, foreign⟩, _,
      ⟨selects.1, selects.2.1, payload, read, own, String.ofList_toList.symm⟩, told⟩
  · rintro ⟨c, named, r, hr, near, ⟨before, after, listed, foreign⟩, text,
      ⟨type, stored, payload, read, own, plain⟩, told⟩
    refine ⟨before, c, after, listed, named, r, hr, scanWindow_around ⟨m, hm, rfl⟩ type stored near,
      ⟨payload, read, own, ?_, (time r.ts _).mpr near⟩, foreign⟩
    rwa [plain, String.toList_ofList]

variable (P parser packets) in
theorem id_mem_matchSet_unstamped {targets : List MessageRow} {m : MessageRow} (hm : m ∈ targets)
    (unstamped : m.senderTimestamp = none) (hc : c ∈ channels.rows) :
    c.id ∈ matchSet P parser channels packets (scanWindow parser targets) m ↔
      ∃ r ∈ packets.rows, ((m.ts : ℤ) - r.ts).natAbs ≤ 60 ∧ TakenFor P parser channels r c ∧
        ∃ text, DecryptsTo P parser r c text ∧ StoredAs text (stripNul m.text) := by
  rw [mem_matchSet_unstamped P parser channels packets hm unstamped]
  refine ⟨?_, fun said => ⟨c, rfl, said⟩⟩
  rintro ⟨c', same, r, hr, near, taken, said⟩
  obtain rfl : c' = c := channels.id_unique.eq_of_mem taken.mem hc rfl (congrArg some same.symm)
  exact ⟨r, hr, near, taken, said⟩

section row
variable {includeInferred : Bool} {messages after : Messages}
  {outcome : MessageRow → Option (ℕ × Source)} {m : MessageRow} {channelId : ℕ}

theorem row_after (hm : m ∈ messages.rows)
    (rows : after.rows = messages.rows.map fun m =>
      if m.isCandidate includeInferred then attributed m (outcome m) else m)
    (a : Option (ℕ × Source)) :
    attributed m a ∈ after.rows ↔
      attributed m a = if m.isCandidate includeInferred then attributed m (outcome m) else m := by
  rw [rows, List.mem_map]
  refine ⟨?_, fun same => ⟨m, hm, same.symm⟩⟩
  rintro ⟨x, hx, same⟩
  have id : x.id = m.id := by
    have ids := congrArg MessageRow.id same
    by_cases candidate : x.isCandidate includeInferred = true
    · simpa [candidate] using ids
    · simpa [candidate] using ids
  rw [← same, eq_of_id hx hm id]

theorem candidate_mem_iff (hm : m ∈ messages.rows)
    (candidate : m.isCandidate includeInferred = true)
    (rows : after.rows = messages.rows.map fun m =>
      if m.isCandidate includeInferred then attributed m (outcome m) else m) :
    attributed m (some (channelId, .decrypted)) ∈ after.rows ↔
      outcome m = some (channelId, .decrypted) := by
  rw [row_after hm rows, if_pos candidate]
  refine ⟨fun same => ?_, fun decided => by rw [decided]⟩
  match decided : outcome m with
  | none =>
    rw [decided] at same
    have source : some .decrypted = m.channelSource := congrArg MessageRow.channelSource same
    simp [MessageRow.isCandidate, ← source] at candidate
  | some (decidedId, source) =>
    rw [decided] at same
    simp only [attributed, MessageRow.mk.injEq, Option.some.injEq, true_and, and_true] at same
    rw [← same.1, ← same.2]

theorem other_mem_iff (hm : m ∈ messages.rows)
    (other : ¬ m.isCandidate includeInferred = true)
    (rows : after.rows = messages.rows.map fun m =>
      if m.isCandidate includeInferred then attributed m (outcome m) else m) :
    attributed m (some (channelId, .decrypted)) ∈ after.rows ↔
      m.channelId = some channelId ∧ m.channelSource = some .decrypted := by
  rw [row_after hm rows, if_neg other]
  refine ⟨fun same => ?_, fun ⟨channel, source⟩ => ?_⟩
  · exact ⟨(congrArg MessageRow.channelId same).symm,
      (congrArg MessageRow.channelSource same).symm⟩
  · simp only [attributed, ← channel, ← source]

end row

theorem said_by_own {name text : String} (trailing : text.toList.getLast? ≠ some '\x00')
    {m : MessageRow} (hr : r ∈ packets.rows) (near : ((m.ts : ℤ) - r.ts).natAbs ≤ 60)
    (own : DecryptsTo P parser r c
      (strip (·.toNat == 0) (name.toList ++ [':', ' '] ++ text.toList))) :
    (∃ x ∈ packets.rows, ((m.ts : ℤ) - x.ts).natAbs ≤ 60 ∧ TakenFor P parser channels x c ∧
      ∃ plain, DecryptsTo P parser x c plain ∧ StoredAs plain text.toList) ↔
    ¬ [':', ' '] <:+: name.toList ∧ TakenFor P parser channels r c ∨
      ∃ x ∈ packets.rows, x ≠ r ∧ ((m.ts : ℤ) - x.ts).natAbs ≤ 60 ∧
        TakenFor P parser channels x c ∧
        ∃ plain, DecryptsTo P parser x c plain ∧ StoredAs plain text.toList := by
  refine ⟨?_, ?_⟩
  · rintro ⟨x, hx, minute, taken, plain, decrypts, stored_as⟩
    by_cases same : x = r
    · subst same
      rw [decrypts.unique own, strip_plain trailing, storedAs_text, separator_dropWhile]
        at stored_as
      exact Or.inl ⟨stored_as, taken⟩
    · exact Or.inr ⟨x, hx, same, minute, taken, plain, decrypts, stored_as⟩
  · rintro (⟨clean, taken⟩ | ⟨x, hx, -, minute, taken, plain, decrypts, stored_as⟩)
    · refine ⟨r, hr, near, taken, _, own, ?_⟩
      rw [strip_plain trailing, storedAs_text, separator_dropWhile]
      exact clean
    · exact ⟨x, hx, minute, taken, plain, decrypts, stored_as⟩

end sent

/-- Where the node's packet of a sent message is stored and no packet of another channel
says the same, the message is attributed to the packet's channel after a run exactly if it was
before, or the run takes it up and it finds the packet, the sender name having no ": ", or
another packet of the channel and the minute that says the same. -/
theorem sent_recognised_iff (P : Primitives) (parser : PacketParser) (channels : Channels)
    (packets : Packets) (includeInferred : Bool) (messages : Messages)
    (stored : ∀ r ∈ packets.rows, 0 < r.id)
    (readable : Readable parser packets
      (scanWindow parser (messages.channelBackfillCandidates includeInferred)))
    (name text : String) (leading : text.toList.head? ≠ some '\x00')
    (trailing : text.toList.getLast? ≠ some '\x00')
    (m : MessageRow) (hm : m ∈ messages.rows)
    (message : m.text = text) (unstamped : m.senderTimestamp = none)
    (r : PacketRow) (hr : r ∈ packets.rows) (near : ((m.ts : ℤ) - r.ts).natAbs ≤ 60)
    (c : ChannelRow) (hc : c ∈ channels.rows)
    (own : DecryptsTo P parser r c
      (strip (·.toNat == 0) (name.toList ++ [':', ' '] ++ text.toList)))
    (alone : ∀ x ∈ packets.rows, ∀ d ∈ channels.rows, ∀ plain, DecryptsTo P parser x d plain →
      StoredAs plain text.toList → d = c) :
    ∃ result after,
      backfill P parser channels packets includeInferred messages = some (result, after) ∧
      (attributed m (some (c.id, .decrypted)) ∈ after.rows ↔
        m.channelId = some c.id ∧ m.channelSource = some .decrypted ∨
        m.isCandidate includeInferred = true ∧
          (¬ [':', ' '] <:+: name.toList ∧ TakenFor P parser channels r c ∨
          ∃ x ∈ packets.rows, x ≠ r ∧ ((m.ts : ℤ) - x.ts).natAbs ≤ 60 ∧
            TakenFor P parser channels x c ∧
            ∃ plain, DecryptsTo P parser x c plain ∧ StoredAs plain text.toList)) := by
  obtain ⟨outcome, after, returns, decides, rows⟩ := backfill_decides P channels stored readable
  refine ⟨_, after, returns, ?_⟩
  by_cases candidate : m.isCandidate includeInferred = true
  · have undecided : ¬ (m.channelId = some c.id ∧ m.channelSource = some .decrypted) := by
      rintro ⟨-, source⟩
      simp [MessageRow.isCandidate, source] at candidate
    have taken : m ∈ messages.channelBackfillCandidates includeInferred :=
      List.mem_filter.mpr ⟨hm, candidate⟩
    have unpadded : stripNul m.text = text.toList := by
      rw [message]
      exact strip_nul_eq_self leading trailing
    have only : ∀ d ∈ matchSet P parser channels packets
        (scanWindow parser (messages.channelBackfillCandidates includeInferred)) m, d = c.id := by
      intro d hd
      obtain ⟨x, rfl, r', hr', -, known, plain, decrypts, stored_as⟩ :=
        (mem_matchSet_unstamped P parser channels packets taken unstamped d).mp hd
      rw [unpadded] at stored_as
      rw [alone r' hr' x known.mem plain decrypts stored_as]
    rw [candidate_mem_iff hm candidate rows, (decides m taken).only_iff only,
      id_mem_matchSet_unstamped P parser packets taken unstamped hc, unpadded]
    simp only [undecided, candidate, true_and, false_or]
    exact said_by_own trailing hr near own
  · rw [other_mem_iff hm candidate rows]
    simp only [candidate, false_and, or_false, Bool.false_eq_true]

def ownPacket : PacketRow where
  id := 1
  ts := 1010
  payloadType := some 5
  payloadHex := some "1500be93844e9bfe9251433934d85e5efc2ca66b39"

def publicRow : ChannelRow := ⟨1, keyA, "Public", some 0, 0, 0⟩

theorem ownPacket_decrypts :
    DecryptsTo recorded directParser ownPacket publicRow "a: b: hi".toList :=
  ⟨rfl, rfl, [0xBE, 0x93, 0x84] ++ cipherA, by decide +kernel, by decide +kernel,
    by decide +kernel⟩

theorem ownPacket_alone : ∀ d ∈ publicChannel.rows, d = publicRow := by decide

theorem sent_recognised_iff_oneMessage :
    ∃ result after, backfill recorded directParser publicChannel (storedPacket 1010) false
        oneMessage = some (result, after) ∧
      ⟨1, 1000, .channel, some 0, some 1, some .decrypted, none, "b: hi", 0⟩ ∈ after.rows := by
  obtain ⟨result, after, returns, recognised⟩ :=
    sent_recognised_iff recorded directParser publicChannel (storedPacket 1010) false oneMessage
      (by decide) (by unfold Readable; decide +kernel) "a" "b: hi" (by decide) (by decide)
      ⟨1, 1000, .channel, some 0, none, none, none, "b: hi", 0⟩ (by decide +kernel) rfl rfl
      ownPacket (by decide +kernel) (by decide) publicRow (by decide) ownPacket_decrypts
      (fun _ _ d hd _ _ _ => ownPacket_alone d hd)
  refine ⟨result, after, returns, recognised.mpr (Or.inr ⟨rfl, Or.inl ⟨by decide, [], [], ?_, ?_⟩⟩)⟩
  · decide +kernel
  · exact fun _ _ _ none => absurd none List.not_mem_nil

def sentByAB : Messages := Messages.empty.insert ⟨.channel, "hi", some 0, none⟩ none 1000 0

/-- The packet "a: b: hi" is not found to be the one of the message. -/
theorem separator_in_name_missed :
    DecryptsTo recorded directParser ownPacket publicRow ("a: b" ++ ": " ++ "hi").toList ∧
    (∀ d ∈ publicChannel.rows, d = publicRow) ∧
    ¬ ∃ result after, backfill recorded directParser publicChannel (storedPacket 1010) false
        sentByAB = some (result, after) ∧
      ⟨1, 1000, .channel, some 0, some 1, some .decrypted, none, "hi", 0⟩ ∈ after.rows := by
  refine ⟨ownPacket_decrypts, ownPacket_alone, ?_⟩
  rintro ⟨result, after, returns, recognised⟩
  have sources : (backfill recorded directParser publicChannel (storedPacket 1010) false
      sentByAB).map (fun x => x.2.rows.map (·.channelSource)) = some [some .inferred] := by
    decide +kernel
  rw [returns, Option.map_some, Option.some.injEq] at sources
  have source := List.mem_map_of_mem recognised (f := MessageRow.channelSource)
  rw [sources] at source
  simp at source

end MeshwardenDaemon.BackfillRun
