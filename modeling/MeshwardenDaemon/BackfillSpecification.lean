import MeshwardenDaemon.BackfillRun

/-! What a backfill should make of a candidate, told by each channel's secret alone. The hash
byte and the MAC are three bytes together: a packet may carry those of two channels, and
`decrypt_group_text` then knows it under the channel that is listed first. -/
namespace MeshwardenDaemon.BackfillRun
open ChannelTable MessageTable ChannelBackfill GroupText PacketTable PacketScan

variable (P : Primitives) (parser : PacketParser) (channels : Channels) (packets : Packets)

/-- Under the channel's own secret the packet says what was stored as the message. -/
def SaysUnder (r : PacketRow) (m : MessageRow) (c : ChannelRow) : Prop :=
  ∃ payload ∈ payloadOf parser r, DecryptsUnder P payload c ∧
    StoredAs (opened P payload c).2.2.toList (stripNul m.text) ∧
    SameTime m r.ts (opened P payload c).2.1

/-- The packet carries the hash byte and the MAC of none of these channels. -/
def ForeignTo (r : PacketRow) (before : List ChannelRow) : Prop :=
  ∀ payload ∈ payloadOf parser r, ∀ x ∈ before, ¬ DecryptsUnder P payload x

/-- The channels under which packets of the window say the message. -/
def saidUnder (w : Window) (m : MessageRow) : Set ℕ :=
  {id | ∃ c ∈ channels.list false, c.id = id ∧
    ∃ r ∈ packets.rows, w.Selects r ∧ SaysUnder P parser r m c}

/-- The channels that are the first under which a packet of the window decrypts, and under
which it says the message. -/
def saidFirstUnder (w : Window) (m : MessageRow) : Set ℕ :=
  {id | ∃ before c after, channels.list false = before ++ c :: after ∧ c.id = id ∧
    ∃ r ∈ packets.rows, w.Selects r ∧ SaysUnder P parser r m c ∧ ForeignTo P parser r before}

/-- No packet of the window that says the message under a channel decrypts under one that is
listed before it. -/
def Unambiguous (w : Window) (m : MessageRow) : Prop :=
  ∀ before c after, channels.list false = before ++ c :: after →
    ∀ r ∈ packets.rows, w.Selects r → SaysUnder P parser r m c → ForeignTo P parser r before

section
variable {P parser channels packets}

theorem matches_iff {r : PacketRow} {m : MessageRow} {id : ℕ} :
    Matches P parser channels r m id ↔
      ∃ before c after, channels.list false = before ++ c :: after ∧ c.id = id ∧
        SaysUnder P parser r m c ∧ ForeignTo P parser r before := by
  refine ⟨?_, ?_⟩
  · rintro ⟨payload, senderTimestamp, text, read, decrypted, stored, time⟩
    obtain ⟨before, c, after, listed, own, first, result⟩ :=
      decryptGroupText_eq_some_iff.mp decrypted
    have only : ∀ body ∈ payloadOf parser r, body = payload := by
      intro body hbody
      rw [Option.mem_def, read] at hbody
      exact (Option.some.inj hbody).symm
    refine ⟨before, c, after, listed, congrArg Prod.fst result, ⟨payload, read, own, ?_⟩, ?_⟩
    · rw [result]
      exact ⟨stored, time⟩
    · intro body hbody
      rw [only body hbody]
      exact first
  · rintro ⟨before, c, after, listed, rfl, ⟨payload, read, own, stored, time⟩, foreign⟩
    refine ⟨payload, _, _, read, ?_, stored, time⟩
    exact decryptGroupText_eq_some_iff.mpr
      ⟨before, c, after, listed, own, foreign payload read, rfl⟩

theorem matchSet_eq (w : Window) (m : MessageRow) :
    matchSet P parser channels packets w m = saidFirstUnder P parser channels packets w m := by
  ext id
  simp only [matchSet, saidFirstUnder, matches_iff, Set.mem_ofPred_eq]
  refine ⟨?_, ?_⟩
  · rintro ⟨r, hr, selects, before, c, after, listed, named, told, foreign⟩
    exact ⟨before, c, after, listed, named, r, hr, selects, told, foreign⟩
  · rintro ⟨before, c, after, listed, named, r, hr, selects, told, foreign⟩
    exact ⟨r, hr, selects, before, c, after, listed, named, told, foreign⟩

theorem saidFirstUnder_eq {w : Window} {m : MessageRow}
    (unambiguous : Unambiguous P parser channels packets w m) :
    saidFirstUnder P parser channels packets w m = saidUnder P parser channels packets w m := by
  ext id
  refine ⟨?_, ?_⟩
  · rintro ⟨before, c, after, listed, named, r, hr, selects, told, -⟩
    exact ⟨c, by simp [listed], named, r, hr, selects, told⟩
  · rintro ⟨c, hc, named, r, hr, selects, told⟩
    obtain ⟨before, after, listed⟩ := List.append_of_mem hc
    exact ⟨before, c, after, listed, named, r, hr, selects, told,
      unambiguous before c after listed r hr selects told⟩

end

/-- A run over readable packets returns, makes of each candidate what the packets of its
window and the slots say, and changes nothing else. A packet speaks for the first channel
under which it decrypts; where there is no other, for each channel under which it decrypts. -/
theorem backfill_meets_specification (includeInferred : Bool) (messages : Messages)
    (stored : ∀ r ∈ packets.rows, 0 < r.id)
    (readable : Readable parser packets
      (scanWindow parser (messages.channelBackfillCandidates includeInferred))) :
    let targets := messages.channelBackfillCandidates includeInferred
    let window := scanWindow parser targets
    ∃ (outcome : MessageRow → Option (ℕ × Source)) (result : BackfillResult) (after : Messages),
      backfill P parser channels packets includeInferred messages = some (result, after) ∧
      (∀ m ∈ targets, Decides (m.channelIdx.bind channels.idAt)
        (saidFirstUnder P parser channels packets window m) (outcome m)) ∧
      (∀ m ∈ targets, Unambiguous P parser channels packets window m →
        Decides (m.channelIdx.bind channels.idAt)
          (saidUnder P parser channels packets window m) (outcome m)) ∧
      after.rows = messages.rows.map (fun m =>
        if m.isCandidate includeInferred then attributed m (outcome m) else m) ∧
      result.decrypted = targets.countP (fun m => (outcome m).any (·.2 == .decrypted)) ∧
      result.inferred = targets.countP (fun m => (outcome m).any (·.2 == .inferred)) ∧
      result.unresolved = targets.countP fun m => (outcome m).isNone := by
  intro targets window
  obtain ⟨outcome, after, returns, decides, rows⟩ :=
    backfill_decides P channels stored readable
  have first : ∀ m ∈ targets, Decides (m.channelIdx.bind channels.idAt)
      (saidFirstUnder P parser channels packets window m) (outcome m) := by
    intro m hm
    rw [← matchSet_eq]
    exact decides m hm
  refine ⟨outcome, _, after, returns, first, fun m hm unambiguous => ?_, rows, ?_⟩
  · rw [← saidFirstUnder_eq unambiguous]
    exact first m hm
  · simp only [foldl_count, Nat.zero_add]
    refine ⟨rfl, List.countP_congr fun m hm => ?_, rfl⟩
    have decided := decides m hm
    generalize outcome m = a at decided
    cases decided <;> simp

def threeMessages : Messages :=
  ((Messages.empty.insert ⟨.channel, "b: hi", some 0, none⟩ none 1000 0).insert
    ⟨.channel, "gone", some 0, some 9⟩ none 1000 1).insert
    ⟨.channel, "hi", some 5, none⟩ none 1000 2

def publicChannel : Channels :=
  ((Channels.empty.assignSlot 0 "Public" keyA 0).map Prod.snd).getD .empty

def storedPacket (ts : ℕ) : Packets := Packets.empty.insert true
  { ts := ts
    payloadType := some 5
    payloadHex := some "1500be93844e9bfe9251433934d85e5efc2ca66b39" }

/-- The parser as it is for a flooded packet that nobody has relayed. -/
def directParser : PacketParser where
  grpTxt := 5
  pktPayload packet := some (packet.drop 2)

theorem backfill_meets_specification_threeMessages :
    ∃ after, backfill recorded directParser publicChannel (storedPacket 1010) false threeMessages =
      some (⟨1, 1, 1⟩, after) := by
  obtain ⟨outcome, result, after, returns, -⟩ := backfill_meets_specification recorded directParser
    publicChannel (storedPacket 1010) false threeMessages (by decide)
    (by unfold Readable; decide +kernel)
  have counts : (backfill recorded directParser publicChannel (storedPacket 1010) false
      threeMessages).map Prod.fst = some ⟨1, 1, 1⟩ := by
    decide +kernel
  rw [returns, Option.map_some, Option.some.injEq] at counts
  exact ⟨after, by rw [returns, ← counts]⟩

def keyB : Secret := [0, 0, 0, 0, 0, 0, 0, 0, 0, 0, 0, 0, 0x01, 0x41, 0x7E, 0xD3]

/-- The primitives at the one block, under both secrets. -/
def collided : Primitives where
  sha256 secret :=
    if secret = keyB then
      #v[0xBE, 0xC5, 0x9B, 0x96, 0x4C, 0x3B, 0xAA, 0xA9, 0x1C, 0xB0, 0x0A, 0x1D, 0xFA, 0x7E, 0x51,
        0x9E, 0xD8, 0x81, 0x5E, 0xDF, 0xF6, 0x55, 0xB1, 0x1B, 0x04, 0x47, 0xE3, 0x58, 0xAD, 0x6F,
        0x82, 0x2F]
    else recorded.sha256 secret
  hmacSha256 secret msg :=
    if secret = keyB then
      #v[0x93, 0x84, 0xE6, 0x76, 0x6D, 0x19, 0x86, 0xFE, 0xBB, 0xCA, 0xC6, 0x1C, 0x7D, 0xD3, 0xA2,
        0x02, 0x9B, 0x29, 0x48, 0x78, 0x9F, 0x43, 0xAD, 0x60, 0xE0, 0x73, 0x06, 0x42, 0x04, 0x55,
        0xDE, 0x74]
    else recorded.hmacSha256 secret msg
  aesDecrypt secret block :=
    if secret = keyB ∧ block = cipherA then
      [0x26, 0xAC, 0x2D, 0x20, 0xCF, 0x17, 0x54, 0x98, 0xD0, 0x17, 0xEF, 0x2E, 0x08, 0x8C, 0xDB,
        0x9A]
    else recorded.aesDecrypt secret block

def collidingChannels : Channels :=
  ((((Channels.empty.assignSlot 0 "Other" keyB 0).map Prod.snd).getD .empty).assignSlot 1
    "Public" keyA 0).elim .empty Prod.snd

def onSlotOne : Messages := Messages.empty.insert ⟨.channel, "a: b: hi", some 1, none⟩ none 1000 0

/-- The message's packet decrypts under the channel of its slot, but under one listed before
it too, to other text. The run only infers the channel. -/
theorem collision_misleads :
    let targets := onSlotOne.channelBackfillCandidates false
    ¬ ∃ (outcome : MessageRow → Option (ℕ × Source)) (result : BackfillResult)
      (after : Messages),
      backfill collided directParser collidingChannels (storedPacket 1010) false onSlotOne =
        some (result, after) ∧
      (∀ m ∈ targets, Decides (m.channelIdx.bind collidingChannels.idAt)
        (saidUnder collided directParser collidingChannels (storedPacket 1010)
          (scanWindow directParser targets) m) (outcome m)) ∧
      after.rows = onSlotOne.rows.map fun m =>
        if m.isCandidate false then attributed m (outcome m) else m := by
  rintro targets ⟨outcome, result, after, returns, decides, rows⟩
  have message : onSlotOne.rows =
      [⟨1, 1000, .channel, some 1, none, none, none, "a: b: hi", 0⟩] := by decide
  have packet : (storedPacket 1010).rows =
      [{ id := 1, ts := 1010, payloadType := some 5
         payloadHex := some "1500be93844e9bfe9251433934d85e5efc2ca66b39" }] := by decide
  have listed : collidingChannels.list false =
      [⟨1, keyB, "Other", some 0, 0, 0⟩, ⟨2, keyA, "Public", some 1, 0, 0⟩] :=
    List.mergeSort_of_pairwise (by decide)
  have said : 2 ∈ saidUnder collided directParser collidingChannels (storedPacket 1010)
      (scanWindow directParser targets)
        ⟨1, 1000, .channel, some 1, none, none, none, "a: b: hi", 0⟩ := by
    refine ⟨⟨2, keyA, "Public", some 1, 0, 0⟩, by simp [listed], rfl, _,
      packet ▸ List.mem_singleton_self _, by decide +kernel, [0xBE, 0x93, 0x84] ++ cipherA,
      by decide +kernel, by decide +kernel, Or.inl (by decide +kernel), by decide +kernel⟩
  have decided := (decides ⟨1, 1000, .channel, some 1, none, none, none, "a: b: hi", 0⟩
    (by decide +kernel)).unique (Decides.slot (by decide +kernel) said)
  have sources : (backfill collided directParser collidingChannels (storedPacket 1010) false
      onSlotOne).map (fun x => x.2.rows.map (·.channelSource)) = some [some .inferred] := by
    simp only [backfill, scan, listed]
    decide +kernel
  rw [returns, Option.map_some, rows, message, List.map_singleton, if_pos (by decide), decided]
    at sources
  cases sources

end MeshwardenDaemon.BackfillRun
