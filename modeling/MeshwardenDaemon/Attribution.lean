import MeshwardenDaemon.CommandProgress

/-! Which responses a raw command gets. Responses are attributed by their order
alone: while no command gives up the slot, everything under way belongs to its
holder; once one does, its late responses must not meet the queue of a later
command. -/
namespace MeshwardenDaemon.CommandSlot
open Protocol ResponseCache Library

/-- What the raw commands of a state have got is the node's answer to their own
frames: collected and forwarded in order, complete on return. -/
def OwnResponses (P : Settings) (s : State) : Prop :=
  ∀ i, (s.calls i).origin.isLibrary = false →
    (∀ r ∈ (s.calls i).frames, r.cmd = some i) ∧
    ((s.calls i).sentOn ≠ none →
      (s.calls i).written <+: (s.calls i).frames.map Rx.frame) ∧
    ∀ fs, (s.calls i).phase = .returned fs →
      fs = (s.calls i).frames.map Rx.frame ∧
      (code (s.calls i).frame = P.codes.value .reboot → fs = []) ∧
      (code (s.calls i).frame ≠ P.codes.value .reboot → s.reply i = some fs)

theorem Conversing.ownResponses {P : Settings} {s : State} (h : Conversing P s) :
    OwnResponses P s := by
  intro i raw
  have conv := h i (Or.inr raw)
  refine ⟨fun r hr => conv.own r (List.mem_append_left _ hr), conv.prefixed, fun fs hp => ?_⟩
  obtain ⟨result, _, reboot, answer⟩ := conv.returned fs hp
  exact ⟨result, reboot, answer⟩

/-- In a run in which no command gives up the slot, every raw command returns the
node's answer to its own frame, a proxied one having forwarded it, and `_raw_queue`
is set only for the one call inside the slot. If the connection is not lost either,
every command that has come to the slot can still return. -/
theorem raw_command_attribution (P : Settings) (acts : List Action) (s : State)
    (normal : Runs.Along (step P) NoneAbandoned (init P) acts)
    (hrun : Runs.run (step P) (init P) acts = some s) :
    (∀ i fs, (s.calls i).origin.isLibrary = false → (s.calls i).phase = .returned fs →
      Answers P.codes (s.calls i).frame fs ∧
      (code (s.calls i).frame ≠ P.codes.value .reboot → s.reply i = some fs) ∧
      fs = (s.calls i).frames.map Rx.frame ∧
      (∀ r ∈ (s.calls i).frames, r.cmd = some i ∧ isPush r.frame = false) ∧
      ((s.calls i).origin.isProxy = true → (s.calls i).written = fs)) ∧
    (∀ q, s.rawQueue = some q → s.commandLock = some q ∧
      (s.calls q).origin.isLibrary = false ∧
      ∀ j, (s.calls j).phase.inSlot = true → j = q) ∧
    (Runs.Along (step P) Calm (init P) acts →
      ∀ i, (s.calls i).phase.inSlot = true ∨ (∃ mc, (s.calls i).phase = .waiting mc) →
      ∃ more t, Runs.Along (step P) Calm s more ∧ Runs.run (step P) s more = some t ∧
        ∃ fs, (t.calls i).phase = .returned fs) := by
  obtain ⟨ok, conversing, _⟩ := normal_run normal hrun
  refine ⟨?_, ?_, fun calm i begun => command_returns (steady_run calm hrun) begun⟩
  · intro i fs raw hp
    have conv := conversing i (Or.inr raw)
    obtain ⟨result, told, reboot, answer⟩ := conv.returned fs hp
    have answers : Answers P.codes (s.calls i).frame fs := by
      by_cases hr : code (s.calls i).frame = P.codes.value .reboot
      · exact reboot hr ▸ answers_nil hr
      · exact conv.answers (answer hr)
    refine ⟨answers, answer, result, fun r hr => ⟨conv.own r (List.mem_append_left _ hr), ?_⟩,
      told⟩
    have resp := answers_isResponse answers (result ▸ List.mem_map_of_mem hr)
    by_contra push
    simp [isPush_not_response (by simpa using push)] at resp
  · intro q hq
    obtain ⟨lock, raw⟩ := (ok.owner q).mp hq
    refine ⟨lock, raw, fun j hj => ?_⟩
    exact Option.some.inj (((ok.holder j).mp hj).symm.trans lock)

def sampleSettings : Settings := ⟨companionCodes, 30⟩

def sharedSlotRun : List Action :=
  [.connect, .handleCommand 0 0 [4], .handleCommand 1 1 [1, 3], .command 2 .getBat,
    .logged 0, .logged 1, .acquire 0, .transmit 0, .answer [[2, 0], [4, 0]], .dispatch,
    .push [0x80, 7], .sendReturns 0, .receive 0, .dispatch, .forwarded 0, .receive 0,
    .forwarded 0, .acquire 2, .librarySend 2 [20], .answer [[12, 1]], .dispatch,
    .libraryReturns 2, .acquire 1, .transmit 1, .sendReturns 1, .answer [[5, 9]],
    .dispatch, .receive 1, .forwarded 1]

theorem raw_command_attribution_shared :
    ∃ s, Runs.run (step sampleSettings) (init sampleSettings) sharedSlotRun = some s ∧
      (s.calls 0).phase = .returned [[2, 0], [4, 0]] ∧
      (s.calls 0).written = [[2, 0], [4, 0]] ∧ s.reply 1 = some [[5, 9]] := by
  obtain ⟨s, hs⟩ := Option.isSome_iff_exists.mp
    (by decide +kernel : (Runs.run (step sampleSettings) (init sampleSettings)
      sharedSlotRun).isSome = true)
  have phases : (Runs.run (step sampleSettings) (init sampleSettings) sharedSlotRun).map
      (fun s => ((s.calls 0).phase, (s.calls 0).origin, (s.calls 1).phase,
        (s.calls 1).origin, (s.calls 1).frame)) =
      some (.returned [[2, 0], [4, 0]], .proxy 0, .returned [[5, 9]], .proxy 1, [1, 3]) := by
    decide +kernel
  simp only [hs, Option.map_some, Option.some.injEq, Prod.mk.injEq] at phases
  obtain ⟨phase0, origin0, phase1, origin1, frame1⟩ := phases
  obtain ⟨attributed, _⟩ := raw_command_attribution sampleSettings sharedSlotRun s
    (by decide +kernel) hs
  obtain ⟨_, _, _, _, told⟩ := attributed 0 _ (by rw [origin0]; rfl) phase0
  obtain ⟨_, answer, _⟩ := attributed 1 _ (by rw [origin1]; rfl) phase1
  exact ⟨s, hs, phase0, told (by rw [origin0]; rfl), answer (by rw [frame1]; decide)⟩

/-- Along every run in which no left-over response is dispatched while a later raw
command has its queue installed, every raw command keeps to its own responses,
whatever commands were given up before. -/
theorem abandoned_never_pollutes (P : Settings) (acts : List Action) (s : State)
    (clean : Runs.Along (step P) Clean (init P) acts)
    (hrun : Runs.run (step P) (init P) acts = some s) : OwnResponses P s :=
  (clean_run clean hrun).2.ownResponses

def lateInTimeRun : List Action :=
  [.connect, .handleCommand 0 0 [1], .logged 0, .acquire 0, .transmit 0, .sendReturns 0,
    .fail 0 .timeout, .answer [[5]], .dispatch, .handleCommand 1 1 [20], .logged 1,
    .acquire 1, .transmit 1, .sendReturns 1, .answer [[12]], .dispatch, .receive 1,
    .forwarded 1]

theorem abandoned_never_pollutes_late_in_time :
    ∃ s, Runs.run (step sampleSettings) (init sampleSettings) lateInTimeRun = some s ∧
      OwnResponses sampleSettings s := by
  obtain ⟨s, hs⟩ := Option.isSome_iff_exists.mp
    (by decide +kernel : (Runs.run (step sampleSettings) (init sampleSettings)
      lateInTimeRun).isSome = true)
  exact ⟨s, hs, abandoned_never_pollutes sampleSettings lateInTimeRun s
    (by decide +kernel) hs⟩

def tooLateRun : List Action :=
  [.connect, .handleCommand 0 0 [1], .logged 0, .acquire 0, .transmit 0, .sendReturns 0,
    .fail 0 .timeout, .handleCommand 1 1 [20], .logged 1, .acquire 1, .transmit 1,
    .sendReturns 1, .answer [[5]], .dispatch, .receive 1, .forwarded 1]

/-- Client 1 is given the answer to client 0's command. -/
theorem late_response_pollutes :
    ¬ ∀ s, Runs.run (step sampleSettings) (init sampleSettings) tooLateRun = some s →
      OwnResponses sampleSettings s := by
  intro supposed
  obtain ⟨s, hs⟩ := Option.isSome_iff_exists.mp
    (by decide +kernel : (Runs.run (step sampleSettings) (init sampleSettings)
      tooLateRun).isSome = true)
  have got : (Runs.run (step sampleSettings) (init sampleSettings) tooLateRun).map
      (fun s => ((s.calls 1).frames, (s.calls 1).origin)) =
      some ([⟨[5], some 0⟩], .proxy 1) := by
    decide +kernel
  simp only [hs, Option.map_some, Option.some.injEq, Prod.mk.injEq] at got
  obtain ⟨own, _⟩ := supposed s hs 1 (by rw [got.2]; rfl)
  exact absurd (own ⟨[5], some 0⟩ (by rw [got.1]; exact List.mem_singleton_self _)) (by decide)

end MeshwardenDaemon.CommandSlot
