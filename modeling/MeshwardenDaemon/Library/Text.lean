import Mathlib.Data.List.DropRight

/-! Text as bytes: UTF-8 with a reader that passes over what is no character, and the
stripping of padding at both ends. Padding may be of any type. -/
namespace MeshwardenDaemon.Library.Text

variable {α : Type*}

def strip (pad : α → Bool) (l : List α) : List α := (l.dropWhile pad).rdropWhile pad

theorem rdropWhile_eq_self {pad : α → Bool} {l : List α}
    (last : ∀ x ∈ l.getLast?, pad x = false) : l.rdropWhile pad = l := by
  rw [List.rdropWhile_eq_self_iff]
  intro nonempty
  simp [last _ (List.getLast?_eq_some_getLast nonempty)]

theorem strip_eq_self {pad : α → Bool} {l : List α} (first : ∀ x ∈ l.head?, pad x = false)
    (last : ∀ x ∈ l.getLast?, pad x = false) : strip pad l = l := by
  have front : l.dropWhile pad = l := by
    cases l with
    | nil => rfl
    | cons x l => rw [List.dropWhile_cons_of_neg (by simp [first x rfl])]
  rw [strip, front, rdropWhile_eq_self last]

theorem strip_nul_eq_self {text : List Char} (leading : text.head? ≠ some '\x00')
    (trailing : text.getLast? ≠ some '\x00') : strip (·.toNat == 0) text = text := by
  have nul : ∀ c : Char, c ≠ '\x00' → (c.toNat == 0) = false := by
    intro c other
    rw [beq_eq_false_iff_ne]
    exact fun zero => other (Char.toNat_inj.mp zero)
  apply strip_eq_self
  · exact fun c hc => nul c fun same => leading (same ▸ hc)
  · exact fun c hc => nul c fun same => trailing (same ▸ hc)

theorem strip_append_replicate {pad : α → Bool} {x : α} (hx : pad x = true) (l : List α) (n : ℕ) :
    strip pad (l ++ List.replicate n x) = strip pad l := by
  have right : ∀ l : List α, (l ++ List.replicate n x).rdropWhile pad = l.rdropWhile pad := by
    intro l
    induction n with
    | zero => simp
    | succ n ih =>
      rw [List.replicate_succ', ← List.append_assoc, List.rdropWhile_concat_pos _ _ _ hx, ih]
  simp only [strip, List.dropWhile_append]
  split
  · rename_i all
    have nothing : (List.replicate n x).dropWhile pad = [] := by
      simp [hx]
    rw [nothing, List.isEmpty_iff.mp all]
  · exact right _

def encode (text : List Char) : List UInt8 := text.flatMap String.utf8EncodeChar

/-- Reads characters after `skip` bytes. Where no character starts, one byte is passed over:
the bytes of an incomplete sequence start none either. -/
def decodeFrom : ℕ → List UInt8 → List Char
  | _, [] => []
  | skip + 1, _ :: rest => decodeFrom skip rest
  | 0, b :: rest =>
    match (b :: rest).toByteArray.utf8DecodeChar? 0 with
    | some c => c :: decodeFrom (c.utf8Size - 1) rest
    | none => decodeFrom 0 rest

def decodeIgnore (bytes : List UInt8) : List Char := decodeFrom 0 bytes

@[simp] theorem encode_cons (c : Char) (text : List Char) :
    encode (c :: text) = String.utf8EncodeChar c ++ encode text := List.flatMap_cons

theorem encode_append (s t : List Char) : encode (s ++ t) = encode s ++ encode t :=
  List.flatMap_append

theorem decodeFrom_skip (skipped rest : List UInt8) :
    decodeFrom skipped.length (skipped ++ rest) = decodeFrom 0 rest := by
  induction skipped with
  | nil => rfl
  | cons b skipped ih => exact ih

theorem decode_encode (text : List Char) : decodeIgnore (encode text) = text := by
  unfold decodeIgnore
  induction text with
  | nil => rfl
  | cons c text ih =>
    have size := String.length_utf8EncodeChar c
    have reads : (String.utf8EncodeChar c ++ encode text).toByteArray.utf8DecodeChar? 0 =
        some c := by
      rw [List.toByteArray_append]
      exact ByteArray.utf8DecodeChar?_utf8EncodeChar_append
    rw [encode_cons]
    cases bytes : String.utf8EncodeChar c with
    | nil => exact absurd bytes String.utf8EncodeChar_ne_nil
    | cons b bytes' =>
      rw [bytes] at size reads
      have left : c.utf8Size - 1 = bytes'.length := by
        rw [← size]
        rfl
      simp only [List.cons_append] at reads ⊢
      simp only [decodeFrom, reads, left, decodeFrom_skip, ih]

/-- The byte 0 encodes NUL alone. -/
theorem zero_not_mem_encodeChar {c : Char} (h : c.toNat ≠ 0) : 0 ∉ String.utf8EncodeChar c := by
  have valid := c.valid
  have code : c.val.toNat ≠ 0 := h
  have bound : c.val.toNat < 0x110000 := by
    have := valid
    simp only [UInt32.isValidChar, Nat.isValidChar] at this
    omega
  have low : ∀ n, n % 256 ≠ 0 → (0 : UInt8) ≠ UInt8.ofNat n := by
    intro n hn same
    have values := congrArg UInt8.toNat same
    simp only [UInt8.toNat_ofNat'] at values
    apply hn
    simpa using values.symm
  simp only [String.utf8EncodeChar]
  split
  · simp only [List.mem_singleton]
    exact low _ (by omega)
  · split
    · simp only [List.mem_cons, List.not_mem_nil, or_false, not_or]
      exact ⟨low _ (by omega), low _ (by omega)⟩
    · split
      · simp only [List.mem_cons, List.not_mem_nil, or_false, not_or]
        exact ⟨low _ (by omega), low _ (by omega), low _ (by omega)⟩
      · simp only [List.mem_cons, List.not_mem_nil, or_false, not_or]
        exact ⟨low _ (by omega), low _ (by omega), low _ (by omega), low _ (by omega)⟩

theorem encodeChar_nul {c : Char} (h : c.toNat = 0) : String.utf8EncodeChar c = [0] := by
  have code : c.val.toNat = 0 := h
  simp [String.utf8EncodeChar, code]

theorem strip_encode (text : List Char) :
    strip (· == 0) (encode text) = encode (strip (·.toNat == 0) text) := by
  have front : ∀ text, (encode text).dropWhile (· == 0) =
      encode (text.dropWhile (·.toNat == 0)) := by
    intro text
    induction text with
    | nil => rfl
    | cons c text ih =>
      by_cases nul : c.toNat = 0
      · simp [encodeChar_nul nul, nul, ih]
      · have other := zero_not_mem_encodeChar nul
        rw [List.dropWhile_cons_of_neg (by simpa using nul), encode_cons]
        cases bytes : String.utf8EncodeChar c with
        | nil => exact absurd bytes String.utf8EncodeChar_ne_nil
        | cons b bytes' =>
          have keep : b ≠ 0 := by
            rintro rfl
            exact other (bytes ▸ List.mem_cons_self)
          rw [List.cons_append, List.dropWhile_cons_of_neg (by simpa using keep)]
  have back : ∀ text, (encode text).rdropWhile (· == 0) =
      encode (text.rdropWhile (·.toNat == 0)) := by
    intro text
    induction text using List.reverseRecOn with
    | nil => rfl
    | append_singleton text c ih =>
      have end_eq : encode (text ++ [c]) = encode text ++ String.utf8EncodeChar c := by
        rw [encode_append, encode_cons]
        simp [encode]
      by_cases nul : c.toNat = 0
      · rw [end_eq, encodeChar_nul nul, List.rdropWhile_concat_pos _ _ _ (by simp), ih,
          List.rdropWhile_concat_pos _ _ _ (by simpa using nul)]
      · have other := zero_not_mem_encodeChar nul
        rw [List.rdropWhile_concat_neg _ _ _ (by simpa using nul), end_eq]
        rcases List.eq_nil_or_concat (String.utf8EncodeChar c) with none | ⟨bytes, b, all⟩
        · exact absurd none String.utf8EncodeChar_ne_nil
        · rw [List.concat_eq_append] at all
          have keep : b ≠ 0 := by
            rintro rfl
            exact other (all ▸ by simp)
          rw [all, ← List.append_assoc, List.rdropWhile_concat_neg _ _ _ (by simpa using keep)]
  simp only [strip, front, back]

end MeshwardenDaemon.Library.Text
