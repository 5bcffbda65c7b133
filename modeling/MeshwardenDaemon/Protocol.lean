import Mathlib.Data.List.Basic

/-! Companion-protocol frames, the command numbering and the two command sets of
the proxy. The numbering is an enumeration of the meshcore library; all the
daemon relies on is that its members are distinct and that REBOOT is 19, the
byte `Reboot` writes out literally. -/
namespace MeshwardenDaemon.Protocol

abbrev Frame := List UInt8

def pushCodeMin : UInt8 := 0x80

def respError : UInt8 := 0x01
def respContactStart : UInt8 := 0x02
def respContact : UInt8 := 0x03

/-- `frame[0]`; the source only reads it behind an `if frame` guard. -/
def code (frame : Frame) : UInt8 := frame.headD 0

def isResponse (frame : Frame) : Bool :=
  !frame.isEmpty && decide (code frame < pushCodeMin)

def isPush (frame : Frame) : Bool :=
  !frame.isEmpty && decide (pushCodeMin ≤ code frame)

theorem isPush_not_response {frame : Frame} (h : isPush frame = true) :
    isResponse frame = false := by
  simp only [isPush, Bool.and_eq_true, decide_eq_true_eq] at h
  simp only [isResponse, Bool.and_eq_false_iff, decide_eq_false_iff_not]
  exact Or.inr (UInt8.not_lt.mpr h.2)

inductive CommandType
  | appStart | sendTxtMsg | sendChannelTxtMsg | getContacts | setAdvertName
  | addUpdateContact | setRadioParams | setRadioTxPower | resetPath | setAdvertLatlon
  | removeContact | importContact | reboot | getBattAndStorage | setTuningParams
  | deviceQeury | importPrivateKey | getChannel | setChannel | setDevicePin
  | setOtherParams | setCustomVar | factoryReset | setFloodScope | setAutoaddConfig
  | setPathHashMode | setDefaultFloodScope
  deriving DecidableEq

structure CommandCodes where
  value : CommandType → UInt8
  injective : Function.Injective value
  value_reboot : value .reboot = 19

def companionCodes : CommandCodes where
  value
    | .appStart => 1 | .sendTxtMsg => 2 | .sendChannelTxtMsg => 3 | .getContacts => 4
    | .setAdvertName => 8 | .addUpdateContact => 9 | .setRadioParams => 11
    | .setRadioTxPower => 12 | .resetPath => 13 | .setAdvertLatlon => 14
    | .removeContact => 15 | .importContact => 18 | .reboot => 19
    | .getBattAndStorage => 20 | .setTuningParams => 21 | .deviceQeury => 22
    | .importPrivateKey => 24 | .getChannel => 31 | .setChannel => 32
    | .setDevicePin => 37 | .setOtherParams => 38 | .setCustomVar => 41
    | .factoryReset => 51 | .setFloodScope => 54 | .setAutoaddConfig => 58
    | .setPathHashMode => 61 | .setDefaultFloodScope => 63
  injective := by
    intro a b h
    cases a <;> cases b <;> first | rfl | exact absurd h (by decide)
  value_reboot := rfl

def cacheableCommands : List CommandType :=
  [.appStart, .getContacts, .deviceQeury, .getBattAndStorage, .getChannel]

def mutatingCommands : List CommandType :=
  [.setAdvertName, .addUpdateContact, .setRadioParams, .setRadioTxPower, .resetPath,
    .setAdvertLatlon, .removeContact, .importContact, .setTuningParams,
    .importPrivateKey, .setChannel, .setDevicePin, .setOtherParams, .setCustomVar,
    .factoryReset, .setFloodScope, .setAutoaddConfig, .setPathHashMode,
    .setDefaultFloodScope, .reboot]

variable (codes : CommandCodes)

def isCacheable (cmd : UInt8) : Bool := (cacheableCommands.map codes.value).contains cmd

def isMutating (cmd : UInt8) : Bool := (mutatingCommands.map codes.value).contains cmd

theorem isMutating_value (c : CommandType) :
    isMutating codes (codes.value c) = decide (c ∈ mutatingCommands) := by
  simp only [isMutating, List.contains_eq_mem, List.mem_map_of_injective codes.injective]

theorem isMutating_of_isCacheable {cmd : UInt8} (h : isCacheable codes cmd = true) :
    isMutating codes cmd = false := by
  rw [isCacheable, List.contains_eq_mem, decide_eq_true_eq, List.mem_map] at h
  obtain ⟨c, hc, rfl⟩ := h
  have disjoint : ∀ c ∈ cacheableCommands, c ∉ mutatingCommands := by decide
  rw [isMutating_value, decide_eq_false_iff_not]
  exact disjoint c hc

/-- `DeviceManager._is_terminal`: a contact list streams CONTACT_START and
CONTACT frames before its last frame; any other command has one response. -/
def isTerminal (cmd respCode : UInt8) : Bool :=
  if cmd = codes.value .getContacts then
    !(respCode == respContactStart || respCode == respContact)
  else true

/-- What the node may answer to a command frame. -/
def Answers (frame : Frame) (reply : List Frame) : Prop :=
  if code frame = codes.value .reboot then reply = []
  else if code frame = codes.value .getContacts then
    ∃ last ∈ reply.getLast?, isResponse last = true ∧
      (code last ≠ respContactStart ∧ code last ≠ respContact) ∧
      ∀ r ∈ reply.dropLast, code r = respContactStart ∨ code r = respContact
  else ∃ last ∈ reply.getLast?, isResponse last = true ∧ reply.dropLast = []

instance (frame : Frame) (reply : List Frame) : Decidable (Answers codes frame reply) := by
  unfold Answers
  infer_instance

variable {codes}

theorem answers_reboot {frame : Frame} {reply : List Frame}
    (h : Answers codes frame reply) (hr : code frame = codes.value .reboot) : reply = [] := by
  rwa [Answers, if_pos hr] at h

theorem answers_nil {frame : Frame} (hr : code frame = codes.value .reboot) :
    Answers codes frame [] := by
  rw [Answers, if_pos hr]

theorem answers_terminal_iff {frame r : Frame} {xs ys : List Frame}
    (h : Answers codes frame (xs ++ r :: ys)) :
    isTerminal codes (code frame) (code r) = true ↔ ys = [] := by
  have hr : code frame ≠ codes.value .reboot := by
    intro hr
    simpa using answers_reboot h hr
  rw [Answers, if_neg hr] at h
  rcases List.eq_nil_or_concat ys with rfl | ⟨zs, last, rfl⟩
  · -- `r` is the last frame
    split_ifs at h with hc
    · simp only [List.getLast?_append, List.getLast?_singleton, Option.some_or,
        Option.mem_def, Option.some.injEq, exists_eq_left'] at h
      simp [isTerminal, hc, h.2.1]
    · simp [isTerminal, hc]
  · have hdrop : (xs ++ r :: (zs ++ [last])).dropLast = xs ++ r :: zs := by
      rw [← List.cons_append, ← List.append_assoc, List.dropLast_concat]
    rw [List.concat_eq_append, hdrop] at h
    split_ifs at h with hc
    · obtain ⟨_, _, _, _, hall⟩ := h
      have := hall r (by simp)
      simpa [isTerminal, hc, or_iff_not_imp_left] using this
    · obtain ⟨_, _, _, hnil⟩ := h
      simp at hnil

theorem answers_isResponse {frame r : Frame} {reply : List Frame}
    (h : Answers codes frame reply) (hr : r ∈ reply) : isResponse r = true := by
  have stream : code r = respContactStart ∨ code r = respContact → isResponse r = true := by
    intro hs
    have hne : r ≠ [] := by
      rintro rfl
      rcases hs with hs | hs <;> exact absurd hs (by decide)
    rcases hs with hs | hs <;> simp [isResponse, hne, hs] <;> decide
  unfold Answers at h
  split_ifs at h with hb hc
  · simp [h] at hr
  · obtain ⟨last, hlast, hresp, _, hall⟩ := h
    rw [← List.dropLast_append_getLast? last hlast, List.mem_append, List.mem_singleton] at hr
    rcases hr with hr | rfl
    · exact stream (hall r hr)
    · exact hresp
  · obtain ⟨last, hlast, hresp, hnil⟩ := h
    rw [← List.dropLast_append_getLast? last hlast, hnil, List.nil_append,
      List.mem_singleton] at hr
    exact hr ▸ hresp

theorem answers_ne_nil {frame : Frame} {reply : List Frame} (h : Answers codes frame reply)
    (hr : code frame ≠ codes.value .reboot) : reply ≠ [] := by
  rintro rfl
  rw [Answers, if_neg hr] at h
  split_ifs at h <;> simp at h

def leastAnswer (codes : CommandCodes) (frame : Frame) : List Frame :=
  if code frame = codes.value .reboot then [] else [[0]]

theorem leastAnswer_answers (frame : Frame) :
    Answers codes frame (leastAnswer codes frame) := by
  have ok : isResponse [0] = true := by decide
  have last : code [0] ≠ respContactStart ∧ code [0] ≠ respContact := by decide
  unfold Answers leastAnswer
  split_ifs with reboot contacts
  · rfl
  · simp [ok, last]
  · simp [ok]

theorem leastAnswer_length (frame : Frame) : (leastAnswer codes frame).length ≤ 1 := by
  unfold leastAnswer
  split_ifs <;> simp

end MeshwardenDaemon.Protocol
