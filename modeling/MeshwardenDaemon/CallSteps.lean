import MeshwardenDaemon.SlotInvariant

/-! Which call an action carries on. The other calls keep all that they have, but for what
a dispatch puts into their queue. -/
namespace MeshwardenDaemon.CommandSlot
open Protocol ResponseCache

def caller : Action → Option CallId
  | .handleCommand i _ _ | .sendRawCommand i _ | .command i _ | .logged i | .writeCached i
  | .writeError i | .acquire i | .transmit i | .sendReturns i | .receive i | .forwarded i
  | .librarySend i _ | .libraryReturns i | .fail i _ => some i
  | _ => none

theorem dispatchFrame_call (s : State) (r : Rx) (j : CallId) :
    ∃ queue, (s.dispatchFrame r).calls j = { s.calls j with queue := queue } := by
  rcases dispatchFrame_cases s r with same | ⟨q, -, -, queued⟩
  · exact ⟨(s.calls j).queue, by rw [same]⟩
  · rw [queued]
    by_cases hj : j = q
    · subst hj
      exact ⟨_, setCall_calls_self _ _ _⟩
    · exact ⟨(s.calls j).queue, setCall_calls_ne hj _ _⟩

theorem enter_call (s : State) (c : Call) :
    ∃ p losses, s.enter c = { c with phase := p, losses := losses } ∧ p ≠ .idle := by
  unfold State.enter
  split
  · exact ⟨_, _, rfl, nofun⟩
  · refine ⟨_, c.losses, rfl, ?_⟩
    split <;> exact nofun

theorem lookup_shape (P : Settings) (s : State) (i : CallId) :
    ∃ (u : State) (p : Phase) (losses : ℕ), u.calls = s.calls ∧ p ≠ .idle ∧
      s.lookup P i = u.setCall i { s.calls i with phase := p, losses := losses } := by
  obtain ⟨p, losses, entered, begun⟩ := enter_call s (s.calls i)
  unfold State.lookup
  simp only
  split
  · split
    · exact ⟨_, .replaying _, _, by rfl, nofun, rfl⟩
    · rename_i cache hget
      exact ⟨{ s with cache := cache }, p, losses, rfl, begun, by rw [entered]⟩
  · exact ⟨_, p, losses, rfl, begun, by rw [entered]⟩

theorem consumed_shape (P : Settings) (s : State) (i : CallId) (c : Call) (resp : Frame) :
    ∃ (u : State) (p : Phase), u.calls = s.calls ∧ p ≠ .idle ∧
      s.consumed P i c resp = u.setCall i { c with phase := p } := by
  unfold State.consumed
  split
  · exact ⟨_, .returned _, by rfl, nofun, rfl⟩
  · exact ⟨_, .collecting, rfl, nofun, rfl⟩

theorem call_of_other {P : Settings} {s t : State} {a : Action} {j : CallId}
    (hs : step P s a = some t) (other : caller a ≠ some j) :
    ∃ queue, t.calls j = { s.calls j with queue := queue } := by
  have still : ∀ {u : State}, u.calls = s.calls →
      ∃ queue, u.calls j = { s.calls j with queue := queue } := by
    intro u calls
    exact ⟨(s.calls j).queue, by rw [calls]⟩
  have aside : ∀ {u : State} {i : CallId} {d : Call}, u.calls = s.calls →
      some i ≠ some j → ∃ queue, (u.setCall i d).calls j = { s.calls j with queue := queue } := by
    intro u i d calls hij
    rw [setCall_calls_ne (by rintro rfl; exact hij rfl)]
    exact still calls
  cases a with
  | advance | connect | lose | close | librarySend =>
    simp only [step, Option.ite_none_right_eq_some, Option.some.injEq] at hs
    obtain ⟨-, rfl⟩ := hs
    exact still rfl
  | handleCommand | sendRawCommand | command | writeError | transmit | fail | libraryReturns =>
    simp only [step, Option.ite_none_right_eq_some, Option.some.injEq] at hs
    obtain ⟨-, rfl⟩ := hs
    exact aside rfl other
  | logged i =>
    simp only [step, Option.ite_none_right_eq_some, Option.some.injEq] at hs
    obtain ⟨-, rfl⟩ := hs
    obtain ⟨u, p, losses, calls, -, shape⟩ := lookup_shape P s i
    rw [shape]
    exact aside calls other
  | writeCached i =>
    simp only [step] at hs
    split at hs
    · cases hs
      exact aside rfl other
    · cases hs
  | acquire i =>
    simp only [step] at hs
    split at hs
    · cases hs
      exact aside rfl other
    · cases hs
  | sendReturns i =>
    simp only [step, Option.ite_none_right_eq_some, Option.some.injEq] at hs
    obtain ⟨-, rfl⟩ := hs
    split
    · exact aside (by rfl) other
    · exact aside rfl other
  | receive i =>
    simp only [step] at hs
    split at hs
    · cases hs
      split
      · exact aside rfl other
      · obtain ⟨u, p, calls, -, shape⟩ := consumed_shape P s i _ _
        rw [shape]
        exact aside calls other
    · cases hs
  | forwarded i =>
    simp only [step] at hs
    split at hs
    · cases hs
      obtain ⟨u, p, calls, -, shape⟩ := consumed_shape P s i _ _
      rw [shape]
      exact aside calls other
    · cases hs
  | answer reply =>
    simp only [step] at hs
    split at hs
    · simp only [Option.ite_none_right_eq_some, Option.some.injEq] at hs
      obtain ⟨-, rfl⟩ := hs
      exact still rfl
    · cases hs
  | dispatch =>
    simp only [step] at hs
    split at hs
    · cases hs
      exact dispatchFrame_call _ _ j
    · cases hs
  | push frame =>
    simp only [step, Option.ite_none_right_eq_some, Option.some.injEq] at hs
    obtain ⟨-, rfl⟩ := hs
    exact dispatchFrame_call _ _ j

def Phase.over : Phase → Bool
  | .returned _ | .raised _ | .replaying [] => true
  | _ => false

structure Carries (c d : Call) : Prop where
  unfinished : c.phase.over = false
  begun : d.phase ≠ .idle
  origin : d.origin = c.origin
  frame : d.frame = c.frame
  written : c.written <+: d.written

section caller
variable {P : Settings} {s t : State} {i : CallId}

theorem logged_carries (hs : step P s (.logged i) = some t) :
    Carries (s.calls i) (t.calls i) := by
  simp only [step, Option.ite_none_right_eq_some, Option.some.injEq] at hs
  obtain ⟨phase, rfl⟩ := hs
  obtain ⟨u, p, losses, calls, begun, shape⟩ := lookup_shape P s i
  rw [shape, setCall_calls_self]
  exact ⟨by simp [phase, Phase.over], begun, rfl, rfl, List.prefix_rfl⟩

theorem acquire_carries (hs : step P s (.acquire i) = some t) :
    Carries (s.calls i) (t.calls i) := by
  simp only [step] at hs
  split at hs
  · rename_i phase
    cases hs
    rw [State.takeSlot, setCall_calls_self]
    refine ⟨by simp [phase, Phase.over], ?_, rfl, rfl, List.prefix_rfl⟩
    cases (s.calls i).origin.isLibrary <;> simp
  · cases hs

theorem sendReturns_carries (hs : step P s (.sendReturns i) = some t) :
    Carries (s.calls i) (t.calls i) := by
  simp only [step, Option.ite_none_right_eq_some, Option.some.injEq] at hs
  obtain ⟨⟨phase, -⟩, rfl⟩ := hs
  have unfinished : (s.calls i).phase.over = false := by simp [phase, Phase.over]
  split
  · rw [State.finish, setCall_calls_self]
    exact ⟨unfinished, by simp, rfl, rfl, List.prefix_rfl⟩
  · rw [setCall_calls_self]
    exact ⟨unfinished, by simp, rfl, rfl, List.prefix_rfl⟩

theorem receive_carries (hs : step P s (.receive i) = some t) :
    Carries (s.calls i) (t.calls i) := by
  simp only [step] at hs
  split at hs
  · rename_i phase queue
    have unfinished : (s.calls i).phase.over = false := by simp [phase, Phase.over]
    cases hs
    split
    · rw [setCall_calls_self]
      exact ⟨unfinished, by simp, rfl, rfl, List.prefix_rfl⟩
    · obtain ⟨u, p, calls, begun, shape⟩ := consumed_shape P s i _ _
      rw [shape, setCall_calls_self]
      exact ⟨unfinished, begun, rfl, rfl, List.prefix_rfl⟩
  · cases hs

theorem forwarded_carries (hs : step P s (.forwarded i) = some t) :
    Carries (s.calls i) (t.calls i) := by
  simp only [step] at hs
  split at hs
  · rename_i phase
    cases hs
    obtain ⟨u, p, calls, begun, shape⟩ := consumed_shape P s i _ _
    rw [shape, setCall_calls_self]
    exact ⟨by simp [phase, Phase.over], begun, rfl, rfl, List.prefix_append _ _⟩
  · cases hs

theorem fail_carries {e : Fault} (hs : step P s (.fail i e) = some t) :
    Carries (s.calls i) (t.calls i) := by
  simp only [step, Option.ite_none_right_eq_some, Option.some.injEq] at hs
  obtain ⟨raises, rfl⟩ := hs
  rw [State.abandon, setCall_calls_self]
  refine ⟨?_, by simp, rfl, rfl, List.prefix_rfl⟩
  cases phase : (s.calls i).phase with
  | replaying rest =>
    cases rest with
    | nil => cases e <;> simp [phase, Phase.canRaise, Phase.suspended] at raises
    | cons frame rest => rfl
  | returned | raised => cases e <;> simp [phase, Phase.canRaise, Phase.suspended] at raises
  | _ => rfl

theorem call_of_caller {a : Action} (hs : step P s a = some t) (own : caller a = some i)
    (begun : (s.calls i).phase ≠ .idle) : Carries (s.calls i) (t.calls i) := by
  cases a with
  | handleCommand j | sendRawCommand j | command j =>
    obtain rfl := Option.some.inj own
    simp only [step, Option.ite_none_right_eq_some] at hs
    simp_all
  | logged j => exact Option.some.inj own ▸ logged_carries hs
  | acquire j => exact Option.some.inj own ▸ acquire_carries hs
  | sendReturns j => exact Option.some.inj own ▸ sendReturns_carries hs
  | receive j => exact Option.some.inj own ▸ receive_carries hs
  | forwarded j => exact Option.some.inj own ▸ forwarded_carries hs
  | fail j e => exact Option.some.inj own ▸ fail_carries hs
  | writeCached j =>
    obtain rfl := Option.some.inj own
    simp only [step] at hs
    split at hs
    · rename_i phase
      cases hs
      rw [setCall_calls_self]
      exact ⟨by simp [phase, Phase.over], by simp, rfl, rfl, List.prefix_append _ _⟩
    · cases hs
  | writeError j =>
    obtain rfl := Option.some.inj own
    simp only [step, Option.ite_none_right_eq_some, Option.some.injEq] at hs
    obtain ⟨phase, rfl⟩ := hs
    rw [setCall_calls_self]
    exact ⟨by simp [phase, Phase.over], by simp, rfl, rfl, List.prefix_append _ _⟩
  | transmit j =>
    obtain rfl := Option.some.inj own
    simp only [step, Option.ite_none_right_eq_some, Option.some.injEq] at hs
    obtain ⟨⟨phase, -, -⟩, rfl⟩ := hs
    rw [setCall_calls_self]
    exact ⟨by simp [phase, Phase.over], begun, rfl, rfl, List.prefix_rfl⟩
  | librarySend j =>
    obtain rfl := Option.some.inj own
    simp only [step, Option.ite_none_right_eq_some, Option.some.injEq] at hs
    obtain ⟨⟨phase, -⟩, rfl⟩ := hs
    exact ⟨by simp [phase, Phase.over], begun, rfl, rfl, List.prefix_rfl⟩
  | libraryReturns j =>
    obtain rfl := Option.some.inj own
    simp only [step, Option.ite_none_right_eq_some, Option.some.injEq] at hs
    obtain ⟨⟨phase, -⟩, rfl⟩ := hs
    rw [setCall_calls_self]
    exact ⟨by simp [phase, Phase.over], by simp, rfl, rfl, List.prefix_rfl⟩
  | _ => cases own

end caller

theorem call_of_idle {P : Settings} {s t : State} {a : Action} {i : CallId}
    (hs : step P s a = some t) (own : caller a = some i) (idle : (s.calls i).phase = .idle) :
    (t.calls i).phase ≠ .idle ∧ (t.calls i).written = (s.calls i).written ∧
      ((∃ client frame, a = .handleCommand i client frame ∧
          (t.calls i).origin = .proxy client ∧ (t.calls i).frame = frame) ∨
        (t.calls i).origin = (s.calls i).origin ∨ (t.calls i).origin.isProxy = false) := by
  cases a with
  | handleCommand j client frame =>
    obtain rfl := Option.some.inj own
    simp only [step, Option.ite_none_right_eq_some, Option.some.injEq] at hs
    obtain ⟨-, rfl⟩ := hs
    rw [setCall_calls_self]
    exact ⟨by simp, rfl, Or.inl ⟨client, frame, rfl, rfl, rfl⟩⟩
  | sendRawCommand j frame =>
    obtain rfl := Option.some.inj own
    simp only [step, Option.ite_none_right_eq_some, Option.some.injEq] at hs
    obtain ⟨-, rfl⟩ := hs
    rw [setCall_calls_self]
    split
    · exact ⟨by simp, rfl, Or.inr (Or.inl rfl)⟩
    · obtain ⟨p, losses, entered, begun⟩ :=
        enter_call s { s.calls j with origin := .raw, frame := frame }
      rw [entered]
      exact ⟨begun, rfl, Or.inr (Or.inr rfl)⟩
  | command j name =>
    obtain rfl := Option.some.inj own
    simp only [step, Option.ite_none_right_eq_some, Option.some.injEq] at hs
    obtain ⟨-, rfl⟩ := hs
    obtain ⟨p, losses, entered, begun⟩ := enter_call s { s.calls j with origin := .library name }
    rw [setCall_calls_self, entered]
    exact ⟨begun, rfl, Or.inr (Or.inr rfl)⟩
  | logged j | writeCached j | writeError j | acquire j | transmit j | sendReturns j | receive j
  | forwarded j | librarySend j | libraryReturns j =>
    obtain rfl := Option.some.inj own
    simp [step, idle] at hs
  | fail j e =>
    obtain rfl := Option.some.inj own
    cases e <;> simp [step, idle, Phase.canRaise, Phase.suspended] at hs
  | _ => cases own

end MeshwardenDaemon.CommandSlot
