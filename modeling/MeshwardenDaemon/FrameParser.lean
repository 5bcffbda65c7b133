import MeshwardenDaemon.Protocol
import MeshwardenDaemon.Library.Scanning
import Mathlib.Algebra.GroupWithZero.Nat

/-! The framing of the TCP side, `start_byte + len(LE16) + payload`, and the parser
that takes it apart as the bytes come in. What the parser should find is said first,
by a scan of the whole stream from left to right. -/
namespace MeshwardenDaemon.Framing
open Protocol Library.Scanning

def frameToNode : UInt8 := 0x3C
def frameFromNode : UInt8 := 0x3E
def maxFrameSize : ℕ := 300

def fromBytesLittle (bytes : List UInt8) : ℕ :=
  bytes.foldr (fun b n => b.toNat + 256 * n) 0

def littleEndian : ℕ → ℕ → List UInt8
  | 0, _ => []
  | length + 1, n => UInt8.ofNat n :: littleEndian length (n / 256)

def toBytesLittle (length n : ℕ) : Option (List UInt8) :=
  if n < 256 ^ length then some (littleEndian length n) else none

@[simp] theorem length_littleEndian (length n : ℕ) : (littleEndian length n).length = length := by
  induction length generalizing n with
  | zero => rfl
  | succ length ih => simp only [littleEndian, List.length_cons, ih]

theorem fromBytesLittle_littleEndian {length n : ℕ} (fits : n < 256 ^ length) :
    fromBytesLittle (littleEndian length n) = n := by
  induction length generalizing n with
  | zero =>
    rw [pow_zero, Nat.lt_one_iff] at fits
    rw [fits]
    rfl
  | succ length ih =>
    have higher : n / 256 < 256 ^ length := by
      rw [pow_succ] at fits
      exact Nat.div_lt_of_lt_mul (by rwa [Nat.mul_comm])
    have low : (UInt8.ofNat n).toNat = n % 256 := by simp
    change (UInt8.ofNat n).toNat + 256 * fromBytesLittle (littleEndian length (n / 256)) = n
    rw [ih higher, low]
    omega

def BadSize (size : ℕ) : Prop := size = 0 ∨ maxFrameSize < size

instance (size : ℕ) : Decidable (BadSize size) := inferInstanceAs (Decidable (_ ∨ _))

/-- One step of the scan: skip a byte that is not the start byte, or the start byte of
a bad header; wait for a header or a payload that is not complete; else take a frame. -/
def wireNext (start : UInt8) : List UInt8 → Option (Option Frame × List UInt8)
  | [] => none
  | b :: rest =>
    if b ≠ start then some (none, rest)
    else match rest with
      | lo :: hi :: body =>
        let size := fromBytesLittle [lo, hi]
        if BadSize size then some (none, rest)
        else if body.length < size then none
        else some (some (body.take size), body.drop size)
      | _ => none

section wireNext
variable {start b lo hi : UInt8} {rest body : List UInt8}

theorem wireNext_junk (h : b ≠ start) : wireNext start (b :: rest) = some (none, rest) := by
  simp only [wireNext, if_pos h]

theorem wireNext_short (h : rest.length < 2) : wireNext start (start :: rest) = none := by
  match rest, h with
  | [], _ => simp [wireNext]
  | [_], _ => simp [wireNext]

theorem wireNext_header :
    wireNext start (start :: lo :: hi :: body) =
      if BadSize (fromBytesLittle [lo, hi]) then some (none, lo :: hi :: body)
      else if body.length < fromBytesLittle [lo, hi] then none
      else some (some (body.take (fromBytesLittle [lo, hi])),
        body.drop (fromBytesLittle [lo, hi])) := by
  simp [wireNext]

theorem wireNext_cases {bs : List UInt8} {e : Option Frame}
    (h : wireNext start bs = some (e, rest)) :
    (∃ b, bs = b :: rest ∧ b ≠ start ∧ e = none) ∨
    (∃ lo hi body, bs = start :: rest ∧ rest = lo :: hi :: body ∧
      BadSize (fromBytesLittle [lo, hi]) ∧ e = none) ∨
    ∃ lo hi body, bs = start :: lo :: hi :: body ∧ ¬ BadSize (fromBytesLittle [lo, hi]) ∧
      fromBytesLittle [lo, hi] ≤ body.length ∧ e = some (body.take (fromBytesLittle [lo, hi])) ∧
      rest = body.drop (fromBytesLittle [lo, hi]) := by
  cases bs with
  | nil => cases h
  | cons b tail =>
    by_cases junk : b ≠ start
    · rw [wireNext_junk junk, Option.some.injEq, Prod.mk.injEq] at h
      obtain ⟨rfl, rfl⟩ := h
      exact Or.inl ⟨b, rfl, junk, rfl⟩
    obtain rfl := not_not.mp junk
    match tail with
    | [] | [_] =>
      rw [wireNext_short (by simp)] at h
      cases h
    | lo :: hi :: body =>
      rw [wireNext_header] at h
      split at h
      · rename_i bad
        rw [Option.some.injEq, Prod.mk.injEq] at h
        obtain ⟨rfl, rfl⟩ := h
        exact Or.inr (Or.inl ⟨lo, hi, body, rfl, rfl, bad, rfl⟩)
      · rename_i good
        split at h
        · cases h
        · rename_i complete
          rw [Option.some.injEq, Prod.mk.injEq] at h
          obtain ⟨rfl, rfl⟩ := h
          exact Or.inr (Or.inr ⟨lo, hi, body, rfl, good, Nat.le_of_not_lt complete, rfl, rfl⟩)

theorem wireNext_shorter {bs : List UInt8} {e : Option Frame}
    (h : wireNext start bs = some (e, rest)) : rest.length < bs.length := by
  rcases wireNext_cases h with ⟨b, rfl, _⟩ | ⟨lo, hi, body, rfl, _⟩ |
    ⟨lo, hi, body, rfl, _, _, _, rfl⟩
  · simp
  · simp
  · simp only [List.length_drop, List.length_cons]
    omega

theorem wireNext_append {bs : List UInt8} {e : Option Frame}
    (h : wireNext start bs = some (e, rest)) (more : List UInt8) :
    wireNext start (bs ++ more) = some (e, rest ++ more) := by
  rcases wireNext_cases h with ⟨b, rfl, junk, rfl⟩ | ⟨lo, hi, body, rfl, rfl, bad, rfl⟩ |
    ⟨lo, hi, body, rfl, good, complete, rfl, rfl⟩
  · rw [List.cons_append, wireNext_junk junk]
  · simp only [List.cons_append]
    rw [wireNext_header, if_pos bad]
  · simp only [List.cons_append]
    rw [wireNext_header, if_neg good, if_neg (by rw [List.length_append]; omega),
      List.take_append_of_le_length complete, List.drop_append_of_le_length complete]

end wireNext

def wire (start : UInt8) : Scanner UInt8 Frame where
  next := wireNext start
  shorter := wireNext_shorter
  append := wireNext_append

/-- The `while` loop of `feed`: the frames found so far and the buffer it leaves. -/
def feedLoop (start : UInt8) (buf : List UInt8) (frames : List Frame) :
    List Frame × List UInt8 :=
  match buf.idxOf? start with
  | none => (frames, [])
  | some idx =>
    let kept := buf.drop idx
    if _short : kept.length < 3 then (frames, kept)
    else
      let size := fromBytesLittle ((kept.drop 1).take 2)
      if size = 0 ∨ maxFrameSize < size then feedLoop start (kept.drop 1) frames
      else if kept.length < 3 + size then (frames, kept)
      else feedLoop start (kept.drop (3 + size)) (frames ++ [(kept.drop 3).take size])
termination_by buf.length
decreasing_by
  all_goals
    simp only [kept, List.length_drop] at _short ⊢
    omega

theorem scan_no_start {start : UInt8} {buf : List UInt8} (h : start ∉ buf) :
    (wire start).scan buf = ([], []) := by
  induction buf with
  | nil => exact scan_of_none rfl
  | cons b rest ih =>
    rw [List.mem_cons, not_or] at h
    have junk : (wire start).next (b :: rest) = some (none, rest) := wireNext_junk (Ne.symm h.1)
    rw [scan_of_some junk, ih h.2]
    rfl

theorem scan_from_start {start : UInt8} {buf : List UInt8} {idx : ℕ}
    (h : buf.idxOf? start = some idx) :
    ∃ rest, buf.drop idx = start :: rest ∧
      (wire start).scan buf = (wire start).scan (start :: rest) := by
  induction buf generalizing idx with
  | nil => cases h
  | cons b tail ih =>
    rw [List.idxOf?_cons] at h
    by_cases same : b = start
    · subst same
      simp only [BEq.rfl, if_true, Option.some.injEq] at h
      subst h
      exact ⟨tail, rfl, rfl⟩
    · simp only [beq_iff_eq, same, if_false, Option.map_eq_some_iff] at h
      obtain ⟨k, hk, rfl⟩ := h
      obtain ⟨rest, hdrop, hscan⟩ := ih hk
      have junk : (wire start).next (b :: tail) = some (none, tail) := wireNext_junk same
      refine ⟨rest, hdrop, ?_⟩
      rw [scan_of_some junk, hscan]
      rfl

/-- A step from a start byte with a whole header, in the slices of `feed`. -/
theorem wireNext_kept {start : UInt8} {kept rest : List UInt8} (hkept : kept = start :: rest)
    (long : ¬ kept.length < 3) :
    wireNext start kept =
      let size := fromBytesLittle ((kept.drop 1).take 2)
      if BadSize size then some (none, kept.drop 1)
      else if kept.length < 3 + size then none
      else some (some ((kept.drop 3).take size), kept.drop (3 + size)) := by
  subst hkept
  match rest, long with
  | lo :: hi :: body, _ =>
    have short : ∀ n, (start :: lo :: hi :: body).length < 3 + n ↔ body.length < n := by
      intro n
      simp only [List.length_cons]
      omega
    have after : ∀ n, (start :: lo :: hi :: body).drop (3 + n) = body.drop n := by
      intro n
      rw [Nat.add_comm]
      rfl
    simp only [wireNext_header, short, after]
    rfl
  | [], long | [_], long => simp at long

theorem feedLoop_eq (start : UInt8) (buf : List UInt8) (frames : List Frame) :
    feedLoop start buf frames =
      (frames ++ ((wire start).scan buf).1, ((wire start).scan buf).2) := by
  fun_induction feedLoop start buf frames with
  | case1 buf frames none =>
    rw [scan_no_start (List.idxOf?_eq_none_iff.mp none), List.append_nil]
  | case2 buf frames idx found kept short =>
    obtain ⟨rest, hkept, hscan⟩ := scan_from_start found
    have waits : (wire start).next kept = none := by
      rw [show kept = start :: rest from hkept] at short ⊢
      exact wireNext_short (Nat.lt_of_succ_lt_succ short)
    rw [hscan, ← hkept, scan_of_none waits, List.append_nil]
  | case3 buf frames idx found kept long size bad ih =>
    obtain ⟨rest, hkept, hscan⟩ := scan_from_start found
    have skips : (wire start).next kept = some (none, kept.drop 1) :=
      (wireNext_kept hkept long).trans (if_pos bad)
    rw [ih, hscan, ← hkept, scan_of_some skips]
    rfl
  | case4 buf frames idx found kept long size good short =>
    obtain ⟨rest, hkept, hscan⟩ := scan_from_start found
    have waits : (wire start).next kept = none :=
      (wireNext_kept hkept long).trans ((if_neg good).trans (if_pos short))
    rw [hscan, ← hkept, scan_of_none waits, List.append_nil]
  | case5 buf frames idx found kept long size good complete ih =>
    obtain ⟨rest, hkept, hscan⟩ := scan_from_start found
    have takes : (wire start).next kept =
        some (some ((kept.drop 3).take size), kept.drop (3 + size)) :=
      (wireNext_kept hkept long).trans ((if_neg good).trans (if_neg complete))
    rw [ih, hscan, ← hkept, scan_of_some takes]
    simp only [Option.toList_some, List.append_assoc]

structure FrameParser where
  start : UInt8
  buf : List UInt8
  waits : wireNext start buf = none

def FrameParser.init (start : UInt8) : FrameParser := ⟨start, [], rfl⟩

def FrameParser.feed (p : FrameParser) (data : List UInt8) : List Frame × FrameParser :=
  let fed := feedLoop p.start (p.buf ++ data) []
  have waits : wireNext p.start fed.2 = none := by
    simp only [fed, feedLoop_eq]
    exact next_scan (S := wire p.start) _
  (fed.1, ⟨p.start, fed.2, waits⟩)

def FrameParser.feedAll : FrameParser → List (List UInt8) → List Frame × FrameParser
  | p, [] => ([], p)
  | p, data :: chunks =>
    let fed := p.feed data
    let later := fed.2.feedAll chunks
    (fed.1 ++ later.1, later.2)

/-- The read loop of `_handle_client`: the frames that reach `_handle_command`. -/
def FrameParser.readLoop : FrameParser → List (List UInt8) → List Frame
  | _, [] => []
  | p, data :: reads =>
    if data.isEmpty then []
    else (p.feed data).1 ++ (p.feed data).2.readLoop reads

namespace FrameParser
variable (p : FrameParser)

theorem feed_eq (data : List UInt8) :
    (p.feed data).1 = ((wire p.start).scan (p.buf ++ data)).1 ∧
      (p.feed data).2.buf = ((wire p.start).scan (p.buf ++ data)).2 ∧
      (p.feed data).2.start = p.start := by
  simp only [feed, feedLoop_eq, List.nil_append, and_self]

theorem feedAll_scanChunks (chunks : List (List UInt8)) :
    (p.feedAll chunks).1 = ((wire p.start).scanChunks p.buf chunks).1 ∧
      (p.feedAll chunks).2.buf = ((wire p.start).scanChunks p.buf chunks).2 := by
  induction chunks generalizing p with
  | nil => exact ⟨rfl, rfl⟩
  | cons data chunks ih =>
    obtain ⟨frames, buf, start⟩ := p.feed_eq data
    have later := ih (p.feed data).2
    rw [buf, start] at later
    simp only [feedAll, Scanner.scanChunks, frames, later, and_self]

theorem feedAll_eq (chunks : List (List UInt8)) :
    (p.feedAll chunks).1 = ((wire p.start).scan (p.buf ++ chunks.flatten)).1 ∧
      (p.feedAll chunks).2.buf = ((wire p.start).scan (p.buf ++ chunks.flatten)).2 := by
  rw [← scanChunks_eq p.waits]
  exact p.feedAll_scanChunks chunks

/-- Bytes that wait are an incomplete frame, at most two header bytes short of 303. -/
theorem length_of_waits {start : UInt8} {bs : List UInt8} (h : wireNext start bs = none) :
    bs.length ≤ maxFrameSize + 2 := by
  match bs with
  | [] | [_] | [_, _] => simp [maxFrameSize]
  | b :: lo :: hi :: body =>
    by_cases junk : b ≠ start
    · rw [wireNext_junk junk] at h
      cases h
    obtain rfl := not_not.mp junk
    rw [wireNext_header] at h
    split at h
    · cases h
    · rename_i good
      split at h
      · rename_i short
        simp only [BadSize, not_or, Nat.not_lt] at good
        simp only [List.length_cons]
        omega
      · cases h

theorem buf_length_le : p.buf.length ≤ 302 := length_of_waits p.waits

/-- However a stream is cut, the parser finds the frames of the scan from left to right
and keeps what it would keep of the whole, never more than 302 bytes. -/
theorem chunked_feed_is_scan (start : UInt8) (chunks : List (List UInt8)) :
    ((init start).feedAll chunks).1 = ((wire start).scan chunks.flatten).1 ∧
      ((init start).feedAll chunks).2.buf = ((init start).feed chunks.flatten).2.buf ∧
      ∀ k, ((init start).feedAll (chunks.take k)).2.buf.length ≤ 302 := by
  obtain ⟨frames, buf⟩ := (init start).feedAll_eq chunks
  obtain ⟨_, whole, _⟩ := (init start).feed_eq chunks.flatten
  exact ⟨frames, buf.trans whole.symm, fun k => buf_length_le _⟩

/-- A start byte inside a payload is payload; one after a frame waits for its header. -/
example :
    ((init frameToNode).feedAll [[0x3C, 2], [0, 7], [], [0x3C, 9, 0x3C]]).1 = [[7, 0x3C]] := by
  decide +kernel

/-- What a client's commands are does not depend on how TCP cuts them; the first empty
read ends the stream. -/
theorem readLoop_eq (reads : List (List UInt8)) :
    p.readLoop reads = (p.feedAll (reads.takeWhile fun data => !data.isEmpty)).1 := by
  induction reads generalizing p with
  | nil => rfl
  | cons data reads ih =>
    cases h : data.isEmpty <;> simp [readLoop, h, feedAll, ih]

end FrameParser

end MeshwardenDaemon.Framing
