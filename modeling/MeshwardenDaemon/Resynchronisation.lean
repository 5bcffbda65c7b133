import MeshwardenDaemon.FrameRoundTrip

/-! Bytes that are no frames. A start byte among them makes the parser take up to 302 bytes of
what follows for the rest of a frame, and then it may be in the middle of one. It finds its way
back by itself, where the start byte does not occur inside the frames. -/
namespace MeshwardenDaemon.Framing
open Protocol Library.Scanning

/-- The start byte is only where a frame begins. -/
structure Noisy.Clean (start : UInt8) (x : Noisy) : Prop extends Noisy.Sendable start x where
  clean : start ∉ littleEndian 2 x.frame.length ++ x.frame

def begins (start : UInt8) : List Noisy → ℕ → ℕ
  | [], _ => 0
  | x :: _, 0 => x.junk.length
  | x :: noisy, i + 1 =>
    x.junk.length + (packet start x.frame).length + begins start noisy i

section scan
variable {start : UInt8} {noisy : List Noisy} {tail : List UInt8}

theorem line_cons (x : Noisy) (noisy : List Noisy) (tail : List UInt8) :
    line start (x :: noisy) tail =
      x.junk ++ (packet start x.frame ++ line start noisy tail) := by
  simp only [line, List.flatMap_cons, List.append_assoc]

theorem begins_lt_length (start : UInt8) (tail : List UInt8) {i : ℕ} (hi : i < noisy.length) :
    begins start noisy i < (line start noisy tail).length := by
  induction noisy generalizing i with
  | nil => simp at hi
  | cons x noisy ih =>
    rw [line_cons, List.length_append, List.length_append]
    cases i with
    | zero =>
      have size : 0 < (packet start x.frame).length := by simp [packet]
      simp only [begins]
      omega
    | succ i =>
      have later := ih (Nat.lt_of_succ_lt_succ hi)
      simp only [begins]
      omega

/-- From anywhere on the line, the scan loses only the frames that have begun before. -/
theorem scan_drop (clean : ∀ x ∈ noisy, x.Clean start) (quiet : start ∉ tail) (k : ℕ) :
    ∃ lost ≤ noisy.length, ((wire start).scan ((line start noisy tail).drop k)).1 =
        (noisy.drop lost).map Noisy.frame ∧
      ∀ i < lost, begins start noisy i < k := by
  induction noisy generalizing k with
  | nil =>
    refine ⟨0, Nat.le_refl _, ?_, by simp⟩
    have rest : start ∉ tail.drop k := fun h => quiet (List.mem_of_mem_drop h)
    rw [line, List.flatMap_nil, List.nil_append, scan_no_start rest]
    rfl
  | cons x noisy ih =>
    have first := clean x List.mem_cons_self
    have later : ∀ y ∈ noisy, y.Clean start := fun y hy => clean y (List.mem_cons_of_mem x hy)
    rw [line_cons]
    by_cases inJunk : k ≤ x.junk.length
    · -- the frame is still to come
      refine ⟨0, Nat.zero_le _, ?_, by simp⟩
      have cut : (x.junk ++ (packet start x.frame ++ line start noisy tail)).drop k =
          line start (⟨x.junk.drop k, x.frame⟩ :: noisy) tail := by
        rw [line_cons, List.drop_append_of_le_length inJunk]
      rw [cut, scan_line ?_ quiet]
      · rfl
      · intro y hy
        rcases List.mem_cons.mp hy with rfl | hy
        · exact ⟨fun h => first.quiet (List.mem_of_mem_drop h), first.nonempty, first.fits⟩
        · exact (later y hy).toSendable
    · obtain ⟨m, rfl⟩ := Nat.exists_eq_add_of_lt (Nat.lt_of_not_le inJunk)
      rw [Nat.add_assoc, List.drop_length_add_append]
      by_cases inFrame : m + 1 ≤ (packet start x.frame).length
      · -- what is left of the frame is noise
        refine ⟨1, by simp, ?_, ?_⟩
        · have rest : start ∉ (packet start x.frame).drop (m + 1) :=
            fun h => first.clean (List.mem_of_mem_drop (i := m) h)
          rw [List.drop_append_of_le_length inFrame, scan_junk rest,
            scan_line (fun y hy => (later y hy).toSendable) quiet]
          rfl
        · intro i hi
          obtain rfl := Nat.lt_one_iff.mp hi
          simp only [begins]
          omega
      · obtain ⟨n, beyond⟩ := Nat.exists_eq_add_of_le (Nat.le_of_not_le inFrame)
        obtain ⟨lost, few, found, before⟩ := ih later n
        refine ⟨lost + 1, Nat.succ_le_succ few, ?_, ?_⟩
        · rw [beyond, List.drop_length_add_append, found]
          rfl
        · intro i hi
          cases i with
          | zero =>
            simp only [begins]
            omega
          | succ i =>
            have behind := before i (Nat.lt_of_succ_lt_succ hi)
            simp only [begins]
            omega

/-- The garbage is scanned step by step; only its last step can reach into the line. -/
theorem scan_garbage (clean : ∀ x ∈ noisy, x.Clean start) (quiet : start ∉ tail)
    (garbage : List UInt8) :
    ∃ found, ∃ lost ≤ noisy.length,
      ((wire start).scan (garbage ++ line start noisy tail)).1 =
        found ++ (noisy.drop lost).map Noisy.frame ∧
      ∀ i < lost, begins start noisy i < maxFrameSize + 2 := by
  induction hn : garbage.length using Nat.strong_induction_on generalizing garbage with
  | _ n ih =>
    cases garbage with
    | nil =>
      refine ⟨[], 0, Nat.zero_le _, ?_, by simp⟩
      rw [List.nil_append, scan_line (fun x hx => (clean x hx).toSendable) quiet]
      rfl
    | cons b garbage =>
      subst hn
      cases hs : wireNext start (b :: garbage ++ line start noisy tail) with
      | none =>
        refine ⟨[], noisy.length, Nat.le_refl _, ?_, fun i hi => ?_⟩
        · have waits : (wire start).next (b :: garbage ++ line start noisy tail) = none := hs
          rw [scan_of_none waits, List.drop_length]
          rfl
        · have short := FrameParser.length_of_waits hs
          have inside := begins_lt_length start tail hi
          rw [List.length_append] at short
          omega
      | some taken =>
        obtain ⟨e, rest⟩ := taken
        have takes : (wire start).next (b :: garbage ++ line start noisy tail) =
          some (e, rest) := hs
        rw [scan_of_some takes]
        have skipped : ∀ shorter : List UInt8, shorter.length < (b :: garbage).length →
            rest = shorter ++ line start noisy tail → ∃ found, ∃ lost ≤ noisy.length,
              e.toList ++ ((wire start).scan rest).1 =
                found ++ (noisy.drop lost).map Noisy.frame ∧
              ∀ i < lost, begins start noisy i < maxFrameSize + 2 := by
          rintro shorter fewer rfl
          obtain ⟨found, lost, few, scanned, before⟩ := ih shorter.length fewer shorter rfl
          exact ⟨e.toList ++ found, lost, few, by rw [scanned, List.append_assoc], before⟩
        rcases wireNext_cases hs with ⟨c, cut, -, -⟩ | ⟨lo, hi, body, cut, -, -, -⟩ |
          ⟨lo, hi, body, cut, good, complete, -, taken⟩
        · exact skipped garbage (Nat.lt_succ_self _) (List.cons.inj cut).2.symm
        · exact skipped garbage (Nat.lt_succ_self _) (List.cons.inj cut).2.symm
        · have size : fromBytesLittle [lo, hi] ≤ maxFrameSize := by
            simp only [BadSize] at good
            omega
          have whole : rest =
              (b :: garbage ++ line start noisy tail).drop (fromBytesLittle [lo, hi] + 3) := by
            rw [taken, cut]
            rfl
          by_cases inside : fromBytesLittle [lo, hi] + 3 ≤ (b :: garbage).length
          · refine skipped ((b :: garbage).drop (fromBytesLittle [lo, hi] + 3)) ?_ ?_
            · rw [List.length_drop]
              simp only [List.length_cons] at inside ⊢
              omega
            · rw [whole, List.drop_append_of_le_length inside]
          · obtain ⟨k, beyond⟩ := Nat.exists_eq_add_of_le (Nat.le_of_not_le inside)
            obtain ⟨lost, few, scanned, before⟩ := scan_drop clean quiet k
            refine ⟨e.toList, lost, few, ?_, fun i hi => Nat.lt_of_lt_of_le (before i hi) ?_⟩
            · rw [whole, beyond, List.drop_length_add_append, scanned]
            · simp only [List.length_cons] at beyond
              omega

end scan

/-- After any bytes whatever, and however the stream is cut, a parser finds all frames that
begin at least 302 bytes later, if the start byte does not occur inside them, nor in the noise
between them. -/
theorem parser_resynchronises (start : UInt8) (garbage : List UInt8) (noisy : List Noisy)
    (tail : List UInt8) (chunks : List (List UInt8)) (clean : ∀ x ∈ noisy, x.Clean start)
    (quiet : start ∉ tail) (cut : chunks.flatten = garbage ++ line start noisy tail) :
    ∃ found, ∃ lost ≤ noisy.length,
      ((FrameParser.init start).feedAll chunks).1 =
        found ++ (noisy.drop lost).map Noisy.frame ∧
      ∀ i < lost, begins start noisy i < 302 := by
  obtain ⟨found, lost, few, scanned, before⟩ := scan_garbage clean quiet garbage
  refine ⟨found, lost, few, ?_, before⟩
  have buffered : (FrameParser.init start).buf ++ chunks.flatten =
      garbage ++ line start noisy tail := cut
  rw [((FrameParser.init start).feedAll_eq chunks).1, buffered]
  exact scanned

/-- The garbage is taken for the header of six bytes, and with them goes the first frame. -/
theorem parser_resynchronises_header : ∃ found, ∃ lost ≤ 2,
    ((FrameParser.init 0x3C).feedAll
      [[7, 0x3C, 6], [0, 9, 0x3C, 2, 0, 5, 5, 1], [0x3C, 1, 0, 8]]).1 =
      found ++ ([⟨[], [5, 5]⟩, ⟨[1], [8]⟩].drop lost).map Noisy.frame ∧
    ∀ i < lost, begins 0x3C [⟨[], [5, 5]⟩, ⟨[1], [8]⟩] i < 302 :=
  parser_resynchronises 0x3C [7, 0x3C, 6, 0, 9] [⟨[], [5, 5]⟩, ⟨[1], [8]⟩] []
    [[7, 0x3C, 6], [0, 9, 0x3C, 2, 0, 5, 5, 1], [0x3C, 1, 0, 8]]
    (by
      intro x hx
      simp only [List.mem_cons, List.not_mem_nil, or_false] at hx
      rcases hx with rfl | rfl <;>
        exact ⟨⟨by decide, by decide, by decide⟩, by decide⟩)
    (by decide) (by decide)

end MeshwardenDaemon.Framing
