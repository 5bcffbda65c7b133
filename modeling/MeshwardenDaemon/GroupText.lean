import MeshwardenDaemon.ChannelTable
import MeshwardenDaemon.FrameParser
import MeshwardenDaemon.Library.Text
import Mathlib.Logic.Function.Basic

/-! GRP_TXT payloads: `chan_hash | mac | ciphertext`. The hash byte picks the channels that
may have sent the payload, two bytes of an HMAC pick the one that did. -/
namespace MeshwardenDaemon.GroupText
open ChannelTable Framing Library.Text

structure Primitives where
  sha256 : List UInt8 → Vector UInt8 32
  hmacSha256 : (secret msg : List UInt8) → Vector UInt8 32
  /-- AES in ECB mode. -/
  aesDecrypt : (secret cipher : List UInt8) → List UInt8

variable (P : Primitives)

def channelHash (secret : Secret) : UInt8 := (P.sha256 secret)[0]

/-- `HMAC.new(secret, cipher, digestmod=SHA256).digest()[:2]`. -/
def macOf (secret : Secret) (cipher : List UInt8) : List UInt8 :=
  (P.hmacSha256 secret cipher).toList.take 2

/-- The channels by hash byte, as a `defaultdict(list)`. -/
abbrev Secrets := UInt8 → List (ℕ × Secret)

/-- The first loop of `_decrypt_packets`. -/
def secretsOf (channels : List ChannelRow) : Secrets :=
  channels.foldl (fun secrets c =>
    let hash := channelHash P c.secret
    Function.update secrets hash (secrets hash ++ [(c.id, c.secret)])) fun _ => []

def decryptGroupText (body : List UInt8) (secrets : Secrets) : Option (ℕ × ℕ × String) :=
  if body.length < 3 + 16 then none
  else
    let mac := (body.drop 1).take 2
    let cipher := body.drop 3
    if cipher.length % 16 ≠ 0 then none
    else (secrets (body.headD 0)).findSome? fun entry =>
      if macOf P entry.2 cipher ≠ mac then none
      else
        let plain := P.aesDecrypt entry.2 cipher
        let text := String.ofList (decodeIgnore (strip (· == 0) (plain.drop 5)))
        some (entry.1, fromBytesLittle (plain.take 4), text)

/-- The plaintext before encryption: the padding fills the last block. -/
def groupPlain (senderTimestamp : UInt32) (kind : UInt8) (text : String) : List UInt8 :=
  let plain := littleEndian 4 senderTimestamp.toNat ++ kind :: encode text.toList
  plain ++ List.replicate ((16 - plain.length % 16) % 16) 0

/-- The payload that a node sends, `encrypt` being AES in ECB mode. -/
def groupTextBody (encrypt : Secret → List UInt8 → List UInt8) (secret : Secret)
    (plain : List UInt8) : List UInt8 :=
  channelHash P secret :: macOf P secret (encrypt secret plain) ++ encrypt secret plain

/-- ECB keeps the length, and decryption inverts encryption. -/
structure Inverts (encrypt : Secret → List UInt8 → List UInt8) : Prop where
  length : ∀ secret plain, plain.length % 16 = 0 → (encrypt secret plain).length = plain.length
  decrypt : ∀ secret plain, plain.length % 16 = 0 →
    P.aesDecrypt secret (encrypt secret plain) = plain

variable {P}

theorem secretsOf_apply (channels : List ChannelRow) (hash : UInt8) :
    secretsOf P channels hash =
      (channels.filter fun c => channelHash P c.secret = hash).map fun c => (c.id, c.secret) := by
  have filled : ∀ (channels : List ChannelRow) (secrets : Secrets),
      channels.foldl (fun secrets c =>
        let hash := channelHash P c.secret
        Function.update secrets hash (secrets hash ++ [(c.id, c.secret)])) secrets hash =
      secrets hash ++
        (channels.filter fun c => channelHash P c.secret = hash).map fun c => (c.id, c.secret) := by
    intro channels
    induction channels with
    | nil => simp
    | cons c channels ih =>
      intro secrets
      rw [List.foldl_cons, ih]
      by_cases own : channelHash P c.secret = hash
      · subst own
        simp
      · simp [own, Ne.symm own]
  exact filled channels _

def Verifies (P : Primitives) (body : List UInt8) (c : ChannelRow) : Prop :=
  channelHash P c.secret = body.headD 0 ∧ macOf P c.secret (body.drop 3) = (body.drop 1).take 2

instance (body : List UInt8) (c : ChannelRow) : Decidable (Verifies P body c) :=
  inferInstanceAs (Decidable (_ ∧ _))

/-- What a channel's secret makes of a body. -/
def opened (P : Primitives) (body : List UInt8) (c : ChannelRow) : ℕ × ℕ × String :=
  let plain := P.aesDecrypt c.secret (body.drop 3)
  (c.id, fromBytesLittle (plain.take 4),
    String.ofList (decodeIgnore (strip (· == 0) (plain.drop 5))))

theorem decryptGroupText_eq (body : List UInt8) (channels : List ChannelRow) :
    decryptGroupText P body (secretsOf P channels) =
      if body.length < 19 ∨ (body.drop 3).length % 16 ≠ 0 then none
      else (channels.find? fun c => Verifies P body c).map (opened P body) := by
  have search : ∀ channels : List ChannelRow,
      ((channels.filter fun c => channelHash P c.secret = body.headD 0).map
        fun c => (c.id, c.secret)).findSome? (fun entry =>
          if macOf P entry.2 (body.drop 3) ≠ (body.drop 1).take 2 then none
          else
            let plain := P.aesDecrypt entry.2 (body.drop 3)
            let text := String.ofList (decodeIgnore (strip (· == 0) (plain.drop 5)))
            some (entry.1, fromBytesLittle (plain.take 4), text)) =
        (channels.find? fun c => Verifies P body c).map (opened P body) := by
    intro channels
    induction channels with
    | nil => rfl
    | cons c channels ih =>
      by_cases bucket : channelHash P c.secret = body.headD 0
      · by_cases mac : macOf P c.secret (body.drop 3) = (body.drop 1).take 2
        · simp [bucket, mac, Verifies, opened]
        · have other : ¬ Verifies P body c := fun verifies => mac verifies.2
          simp only [bucket, decide_true, List.filter_cons_of_pos, List.map_cons,
            List.findSome?_cons, mac, ne_eq, not_false_eq_true, if_true]
          rw [ih, List.find?_cons_of_neg (by rwa [decide_eq_true_eq])]
      · have other : ¬ Verifies P body c := fun verifies => bucket verifies.1
        rw [List.filter_cons_of_neg (by rwa [decide_eq_true_eq]), ih,
          List.find?_cons_of_neg (by rwa [decide_eq_true_eq])]
  unfold decryptGroupText
  simp only [secretsOf_apply, search]
  split_ifs <;> first | rfl | omega

/-- A whole body that carries the channel's hash byte and MAC. -/
def DecryptsUnder (P : Primitives) (body : List UInt8) (c : ChannelRow) : Prop :=
  19 ≤ body.length ∧ (body.drop 3).length % 16 = 0 ∧ Verifies P body c

instance (body : List UInt8) (c : ChannelRow) : Decidable (DecryptsUnder P body c) :=
  inferInstanceAs (Decidable (_ ∧ _ ∧ _))

theorem decryptGroupText_eq_some_iff {body : List UInt8} {channels : List ChannelRow}
    {result : ℕ × ℕ × String} :
    decryptGroupText P body (secretsOf P channels) = some result ↔
      ∃ before c after, channels = before ++ c :: after ∧ DecryptsUnder P body c ∧
        (∀ x ∈ before, ¬ DecryptsUnder P body x) ∧ opened P body c = result := by
  rw [decryptGroupText_eq]
  by_cases whole : 19 ≤ body.length ∧ (body.drop 3).length % 16 = 0
  · have verifies : ∀ c, DecryptsUnder P body c ↔ Verifies P body c := fun c =>
      ⟨fun h => h.2.2, fun h => ⟨whole.1, whole.2, h⟩⟩
    rw [if_neg (by omega), Option.map_eq_some_iff]
    simp only [List.find?_eq_some_iff_append, decide_eq_true_eq, Bool.not_eq_true',
      decide_eq_false_iff_not, verifies]
    refine ⟨?_, ?_⟩
    · rintro ⟨c, ⟨own, before, after, listed, first⟩, result⟩
      exact ⟨before, c, after, listed, own, first, result⟩
    · rintro ⟨before, c, after, listed, own, first, result⟩
      exact ⟨c, ⟨own, before, after, listed, first⟩, result⟩
  · rw [if_pos (by omega)]
    refine ⟨nofun, ?_⟩
    rintro ⟨-, c, -, -, ⟨long, blocks, -⟩, -⟩
    exact absurd ⟨long, blocks⟩ whole

theorem decryptGroupText_sound {body : List UInt8} {channels : List ChannelRow}
    {channelId senderTimestamp : ℕ} {text : String}
    (h : decryptGroupText P body (secretsOf P channels) =
      some (channelId, senderTimestamp, text)) :
    19 ≤ body.length ∧ (body.drop 3).length % 16 = 0 ∧
      ∃ c ∈ channels, c.id = channelId ∧ Verifies P body c := by
  obtain ⟨before, c, after, rfl, ⟨long, blocks, own⟩, -, result⟩ :=
    decryptGroupText_eq_some_iff.mp h
  exact ⟨long, blocks, c, by simp, congrArg Prod.fst result, own⟩

theorem length_groupPlain (senderTimestamp : UInt32) (kind : UInt8) (text : String) :
    (groupPlain senderTimestamp kind text).length % 16 = 0 ∧
      16 ≤ (groupPlain senderTimestamp kind text).length := by
  simp only [groupPlain, List.length_append, length_littleEndian, List.length_cons,
    List.length_replicate]
  omega

section groupTextBody
variable {encrypt : Secret → List UInt8 → List UInt8} (secret : Secret) (plain : List UInt8)

@[simp] theorem length_macOf (cipher : List UInt8) : (macOf P secret cipher).length = 2 := by
  simp [macOf]

theorem groupTextBody_mac : ((groupTextBody P encrypt secret plain).drop 1).take 2 =
    macOf P secret (encrypt secret plain) :=
  List.take_left' (length_macOf secret _)

theorem groupTextBody_cipher :
    (groupTextBody P encrypt secret plain).drop 3 = encrypt secret plain := by
  have front : (channelHash P secret :: macOf P secret (encrypt secret plain)).length = 3 := by
    simp
  exact List.drop_left' front

end groupTextBody

theorem opened_groupTextBody {encrypt : Secret → List UInt8 → List UInt8}
    (inverts : Inverts P encrypt) (c : ChannelRow) (senderTimestamp : UInt32) (kind : UInt8)
    (text : String) :
    opened P (groupTextBody P encrypt c.secret (groupPlain senderTimestamp kind text)) c =
      (c.id, senderTimestamp.toNat, String.ofList (strip (·.toNat == 0) text.toList)) := by
  have blocks := (length_groupPlain senderTimestamp kind text).1
  have stamp : (groupPlain senderTimestamp kind text).take 4 =
      littleEndian 4 senderTimestamp.toNat := by
    simp only [groupPlain, List.append_assoc]
    exact List.take_left' (length_littleEndian 4 _)
  have rest : (groupPlain senderTimestamp kind text).drop 5 = encode text.toList ++
      List.replicate ((16 - (littleEndian 4 senderTimestamp.toNat ++
        kind :: encode text.toList).length % 16) % 16) 0 := by
    have front : (littleEndian 4 senderTimestamp.toNat ++ [kind]).length = 5 := by simp
    simp only [groupPlain, List.append_assoc]
    exact List.drop_left' front
  simp only [opened, groupTextBody_cipher, inverts.decrypt c.secret _ blocks, stamp, rest]
  rw [fromBytesLittle_littleEndian senderTimestamp.toNat_lt,
    strip_append_replicate (by simp), strip_encode, decode_encode]

/-- A channel's payload is decrypted by the channel, unless the MAC of one before it in
its bucket verifies. -/
theorem decryptGroupText_groupTextBody {encrypt : Secret → List UInt8 → List UInt8}
    (inverts : Inverts P encrypt) {before after : List ChannelRow} {c : ChannelRow}
    (senderTimestamp : UInt32) (kind : UInt8) (text : String)
    (first : ∀ x ∈ before,
      ¬ Verifies P (groupTextBody P encrypt c.secret (groupPlain senderTimestamp kind text)) x) :
    decryptGroupText P
        (groupTextBody P encrypt c.secret (groupPlain senderTimestamp kind text))
        (secretsOf P (before ++ c :: after)) =
      some (c.id, senderTimestamp.toNat,
        String.ofList (strip (·.toNat == 0) text.toList)) := by
  have own : Verifies P (groupTextBody P encrypt c.secret
      (groupPlain senderTimestamp kind text)) c :=
    ⟨rfl, by rw [groupTextBody_mac, groupTextBody_cipher]⟩
  obtain ⟨blocks, long⟩ := length_groupPlain senderTimestamp kind text
  have size := inverts.length c.secret _ blocks
  have found : (before ++ c :: after).find? (fun x => Verifies P (groupTextBody P encrypt c.secret
      (groupPlain senderTimestamp kind text)) x) = some c := by
    rw [List.find?_append, List.find?_eq_none.mpr fun x hx => by simpa using first x hx]
    simp [own]
  rw [decryptGroupText_eq, if_neg, found, Option.map_some, opened_groupTextBody inverts]
  rw [groupTextBody_cipher, size, blocks]
  simp only [groupTextBody, List.cons_append, List.length_cons, List.length_append, length_macOf,
    size]
  omega

/-- Decryption undoes the encryption of any text without NULs at its ends, and what it
returns for any bytes names a channel of their bucket whose MAC verifies. -/
theorem decrypt_undoes_encryption (P : Primitives)
    (encrypt : Secret → List UInt8 → List UInt8) (inverts : Inverts P encrypt) :
    (∀ (before after : List ChannelRow) (c : ChannelRow) (senderTimestamp : UInt32)
      (kind : UInt8) (text : String),
      text.toList.head? ≠ some '\x00' → text.toList.getLast? ≠ some '\x00' →
      let body := groupTextBody P encrypt c.secret (groupPlain senderTimestamp kind text)
      (∀ x ∈ before, channelHash P x.secret = channelHash P c.secret →
        macOf P x.secret (body.drop 3) ≠ macOf P c.secret (body.drop 3)) →
      decryptGroupText P body (secretsOf P (before ++ c :: after)) =
        some (c.id, senderTimestamp.toNat, text)) ∧
    ∀ (channels : List ChannelRow) (body : List UInt8) (channelId senderTimestamp : ℕ)
      (text : String),
      decryptGroupText P body (secretsOf P channels) = some (channelId, senderTimestamp, text) →
      19 ≤ body.length ∧ (body.drop 3).length % 16 = 0 ∧
        ∃ c ∈ channels, c.id = channelId ∧ channelHash P c.secret = body.headD 0 ∧
          macOf P c.secret (body.drop 3) = (body.drop 1).take 2 := by
  refine ⟨?_, ?_⟩
  · intro before after c senderTimestamp kind text leading trailing body unique
    have first : ∀ x ∈ before, ¬ Verifies P body x := by
      rintro x hx ⟨bucket, mac⟩
      apply unique x hx bucket
      rw [mac]
      simp only [body, groupTextBody_mac, groupTextBody_cipher]
    rw [decryptGroupText_groupTextBody inverts senderTimestamp kind text first,
      strip_nul_eq_self leading trailing, String.ofList_toList]
  · intro channels body channelId senderTimestamp text h
    exact decryptGroupText_sound h

def keyA : Secret := [0, 1, 2, 3, 4, 5, 6, 7, 8, 9, 10, 11, 12, 13, 14, 15]

def plainA : List UInt8 :=
  [0x07, 0x00, 0x00, 0x00, 0x00, 0x61, 0x3A, 0x20, 0x62, 0x3A, 0x20, 0x68, 0x69, 0x00, 0x00, 0x00]

def cipherA : List UInt8 :=
  [0x4E, 0x9B, 0xFE, 0x92, 0x51, 0x43, 0x39, 0x34, 0xD8, 0x5E, 0x5E, 0xFC, 0x2C, 0xA6, 0x6B, 0x39]

/-- The primitives as they are at one block, which says "a: b: hi". -/
def recorded : Primitives where
  sha256 _ := #v[0xBE, 0x45, 0xCB, 0x26, 0x05, 0xBF, 0x36, 0xBE, 0xBD, 0xE6, 0x84, 0x84, 0x1A, 0x28,
    0xF0, 0xFD, 0x43, 0xC6, 0x98, 0x50, 0xA3, 0xDC, 0xE5, 0xFE, 0xDB, 0xA6, 0x99, 0x28, 0xEE, 0x3A,
    0x89, 0x91]
  hmacSha256 _ _ := #v[0x93, 0x84, 0x33, 0x65, 0xEC, 0x74, 0x23, 0x41, 0x06, 0x7E, 0x90, 0x81, 0x2F,
    0x63, 0x13, 0x54, 0xE7, 0x5E, 0xDA, 0x72, 0xD8, 0xE4, 0x25, 0xED, 0xF1, 0x71, 0xD1, 0x56, 0x50,
    0x5A, 0xE9, 0x79]
  aesDecrypt _ block :=
    if block = cipherA then plainA else if block = plainA then cipherA else block

theorem decrypt_undoes_encryption_recorded :
    decryptGroupText recorded ([0xBE, 0x93, 0x84] ++ cipherA)
        (secretsOf recorded [⟨1, keyA, "Public", none, 0, 0⟩]) = some (1, 7, "a: b: hi") := by
  have inverts : Inverts recorded recorded.aesDecrypt := by
    refine ⟨fun secret plain _ => ?_, fun secret plain _ => ?_⟩
    · simp only [recorded]
      split_ifs with cipher plain
      · rw [cipher]
        rfl
      · rw [plain]
        rfl
      · rfl
    · simp only [recorded]
      split_ifs with cipher plain <;> simp_all [cipherA, plainA]
  have body : groupTextBody recorded recorded.aesDecrypt keyA (groupPlain 7 0 "a: b: hi") =
      [0xBE, 0x93, 0x84] ++ cipherA := by
    decide +kernel
  have decrypted := (decrypt_undoes_encryption recorded recorded.aesDecrypt inverts).1 [] []
    ⟨1, keyA, "Public", none, 0, 0⟩ 7 0 "a: b: hi" (by decide) (by decide) (by simp)
  rwa [body] at decrypted

end MeshwardenDaemon.GroupText
