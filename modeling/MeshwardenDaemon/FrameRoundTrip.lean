import MeshwardenDaemon.FrameParser

/-! What `_Client.send_frame` writes, and what a parser at the other end of the line makes
of it when noise comes between the frames. -/
namespace MeshwardenDaemon.Framing
open Protocol Library.Scanning

def packet (start : UInt8) (frame : Frame) : List UInt8 :=
  start :: littleEndian 2 frame.length ++ frame

/-- The bytes of `send_frame`; a frame of 65536 bytes or more has no length field. -/
def sendFrame (frame : Frame) : Option (List UInt8) :=
  (toBytesLittle 2 frame.length).map fun size => frameFromNode :: size ++ frame

theorem sendFrame_eq {frame : Frame} (fits : frame.length < 65536) :
    sendFrame frame = some (packet frameFromNode frame) := by
  simp [sendFrame, toBytesLittle, packet, fits]

structure Noisy where
  junk : List UInt8
  frame : Frame

def line (start : UInt8) (noisy : List Noisy) (tail : List UInt8) : List UInt8 :=
  noisy.flatMap (fun x => x.junk ++ packet start x.frame) ++ tail

/-- The noise has no start byte, the frame a size that the parser takes. -/
structure Noisy.Sendable (start : UInt8) (x : Noisy) : Prop where
  quiet : start ∉ x.junk
  nonempty : 1 ≤ x.frame.length
  fits : x.frame.length ≤ maxFrameSize

section scan
variable {start : UInt8}

theorem scan_junk {junk : List UInt8} (quiet : start ∉ junk) (rest : List UInt8) :
    (wire start).scan (junk ++ rest) = (wire start).scan rest := by
  induction junk with
  | nil => rfl
  | cons b junk ih =>
    rw [List.mem_cons, not_or] at quiet
    have skips : (wire start).next (b :: (junk ++ rest)) = some (none, junk ++ rest) :=
      wireNext_junk (Ne.symm quiet.1)
    rw [List.cons_append, scan_of_some skips, ih quiet.2]
    rfl

/-- Whatever the payload is, the length field steps over it. -/
theorem wireNext_packet {frame : Frame} (nonempty : 1 ≤ frame.length)
    (fits : frame.length ≤ maxFrameSize) (rest : List UInt8) :
    wireNext start (packet start frame ++ rest) = some (some frame, rest) := by
  have size : fromBytesLittle (littleEndian 2 frame.length) = frame.length := by
    apply fromBytesLittle_littleEndian
    simp only [maxFrameSize] at fits
    omega
  have good : ¬ BadSize frame.length := by
    simp only [BadSize]
    omega
  change wireNext start (start :: UInt8.ofNat frame.length ::
    UInt8.ofNat (frame.length / 256) :: (frame ++ rest)) = some (some frame, rest)
  rw [wireNext_header]
  simp only [littleEndian] at size
  rw [size, if_neg good, if_neg (by simp), List.take_left, List.drop_left]

theorem scan_packet {frame : Frame} (nonempty : 1 ≤ frame.length)
    (fits : frame.length ≤ maxFrameSize) (rest : List UInt8) :
    (wire start).scan (packet start frame ++ rest) =
      (frame :: ((wire start).scan rest).1, ((wire start).scan rest).2) := by
  have takes : (wire start).next (packet start frame ++ rest) = some (some frame, rest) :=
    wireNext_packet nonempty fits rest
  rw [scan_of_some takes]
  rfl

theorem scan_line {noisy : List Noisy} {tail : List UInt8}
    (sendable : ∀ x ∈ noisy, x.Sendable start) (quiet : start ∉ tail) :
    (wire start).scan (line start noisy tail) = (noisy.map Noisy.frame, []) := by
  induction noisy with
  | nil => exact scan_no_start quiet
  | cons x noisy ih =>
    have first := sendable x List.mem_cons_self
    have later := ih fun y hy => sendable y (List.mem_cons_of_mem x hy)
    have cut : line start (x :: noisy) tail =
        x.junk ++ (packet start x.frame ++ line start noisy tail) := by
      simp only [line, List.flatMap_cons, List.append_assoc]
    rw [cut, scan_junk first.quiet, scan_packet first.nonempty first.fits, later]
    rfl

end scan

/-- A parser gets back the frames that were sent, in order, however the line is cut and
whatever noise without a start byte comes between them, and keeps nothing. -/
theorem framing_round_trip (start : UInt8) (noisy : List Noisy) (tail : List UInt8)
    (chunks : List (List UInt8)) (sendable : ∀ x ∈ noisy, x.Sendable start)
    (quiet : start ∉ tail) (cut : chunks.flatten = line start noisy tail) :
    ((FrameParser.init start).feedAll chunks).1 = noisy.map Noisy.frame ∧
      ((FrameParser.init start).feedAll chunks).2.buf = [] := by
  obtain ⟨frames, buf⟩ := (FrameParser.init start).feedAll_eq chunks
  have whole : (FrameParser.init start).buf ++ chunks.flatten = line start noisy tail := cut
  have scanned : (wire (FrameParser.init start).start).scan (line start noisy tail) =
      (noisy.map Noisy.frame, []) := scan_line sendable quiet
  rw [whole, scanned] at frames buf
  exact ⟨frames, buf⟩

/-- The first payload looks like a header; the chunks cut headers and payloads. -/
theorem framing_round_trip_headerInside :
    ((FrameParser.init 0x3E).feedAll [[7, 0x3E, 3], [0, 0x3E, 1, 0, 0, 0x3E, 1], [0, 9, 5]]).1 =
        [[0x3E, 1, 0], [9]] ∧
      ((FrameParser.init 0x3E).feedAll
        [[7, 0x3E, 3], [0, 0x3E, 1, 0, 0, 0x3E, 1], [0, 9, 5]]).2.buf = [] :=
  framing_round_trip 0x3E [⟨[7], [0x3E, 1, 0]⟩, ⟨[0], [9]⟩] [5]
    [[7, 0x3E, 3], [0, 0x3E, 1, 0, 0, 0x3E, 1], [0, 9, 5]]
    (by
      intro x hx
      simp only [List.mem_cons, List.not_mem_nil, or_false] at hx
      rcases hx with rfl | rfl <;> exact ⟨by decide, by decide, by decide⟩)
    (by decide) (by decide)

end MeshwardenDaemon.Framing
