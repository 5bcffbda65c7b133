import MeshwardenDaemon.PushOrder

/-! The frame tap. `handle_rx` awaits the daemon's listeners before it hands a frame to the
library's reader, and one of them is the broadcast to the clients: a push reaches the library
after its way through the clients, a response waits for nobody. -/
namespace MeshwardenDaemon.ReaderTap
open Protocol Library PushFanout

structure State where
  fanout : PushFanout.State
  /-- The frames that the library's reader was given, by number. -/
  read : List ℕ

def init : State := ⟨PushFanout.init, []⟩

def passed (s t : PushFanout.State) : Action → Option ℕ
  | .dispatch _ => if t.remaining s.frames.length = [] then some s.frames.length else none
  | .drained c =>
    match (s.client c).holder with
    | some (.broadcast push) => if t.remaining push.number = [] then some push.number else none
    | _ => none
  | _ => none

def step (proxyMaxClients : ℕ) (s : State) (a : Action) : Option State :=
  (PushFanout.step proxyMaxClients s.fanout a).map fun t =>
    ⟨t, s.read ++ (passed s.fanout t a).toList⟩

def response (s : PushFanout.State) (i : ℕ) : Bool := s.frames[i]?.any fun frame => !isPush frame

def atLock (s : PushFanout.State) (c : ClientId) : List Push :=
  ((s.client c).holder.toList ++ (s.client c).waiters).filterMap Writer.push?

structure Tapped (s : State) (loose : Option ℕ) : Prop where
  unstarted : ∀ i, s.fanout.frames.length ≤ i → s.fanout.remaining i = []
  standing : ∀ c, ∀ p ∈ atLock s.fanout c,
    loose ≠ some p.number ∧ (s.fanout.remaining p.number).head? = some c
  distinct : ∀ c, ((atLock s.fanout c).map Push.number).Nodup
  genuine : ∀ c, ∀ p ∈ atLock s.fanout c,
    s.fanout.frames[p.number]? = some p.frame ∧ isPush p.frame = true
  nodup : s.read.Nodup
  mem_read : ∀ i, i ∈ s.read ↔
    i < s.fanout.frames.length ∧ loose ≠ some i ∧ s.fanout.remaining i = []
  responses : s.read.filter (response s.fanout) =
    (List.range s.fanout.frames.length).filter fun i =>
      response s.fanout i && decide (loose ≠ some i)

theorem init_tapped : Tapped init none := by
  constructor <;> simp [init, PushFanout.init, atLock]

section Tapped
variable {s t : PushFanout.State} {read : List ℕ} {p : Push} {i : ℕ}

theorem response_of_push (known : s.frames[p.number]? = some p.frame)
    (push : isPush p.frame = true) : response s p.number = false := by
  simp [response, known, push]

theorem Tapped.congr (h : Tapped ⟨s, read⟩ none) (frames : t.frames = s.frames)
    (remaining : t.remaining = s.remaining) (locks : ∀ c, atLock t c = atLock s c) :
    Tapped ⟨t, read⟩ none := by
  have same : response t = response s := by
    funext i
    rw [response, response, frames]
  refine ⟨?_, ?_, ?_, ?_, h.nodup, ?_, ?_⟩
  · simpa only [frames, remaining] using h.unstarted
  · simpa only [locks, remaining] using h.standing
  · simpa only [locks] using h.distinct
  · simpa only [locks, frames] using h.genuine
  · simpa only [frames, remaining] using h.mem_read
  · simpa only [same, frames] using h.responses

theorem Tapped.receive (h : Tapped ⟨s, read⟩ none) (frame : Frame) :
    Tapped ⟨{ s with frames := s.frames ++ [frame] }, read⟩ (some s.frames.length) := by
  have before : ∀ j, j < s.frames.length →
      response { s with frames := s.frames ++ [frame] } j = response s j := by
    intro j hj
    simp [response, List.getElem?_append_left hj]
  have started : ∀ j ∈ read, j < s.frames.length := fun j hj => ((h.mem_read j).mp hj).1
  refine ⟨fun j hj => ?_, fun c q hq => ?_, h.distinct, fun c q hq => ?_, h.nodup,
    fun j => ?_, ?_⟩
  · simp only [List.length_append, List.length_singleton] at hj
    exact h.unstarted j (Nat.le_of_succ_le hj)
  · have known := (List.getElem?_eq_some_iff.mp (h.genuine c q hq).1).1
    refine ⟨?_, (h.standing c q hq).2⟩
    rw [ne_eq, Option.some.injEq]
    exact known.ne'
  · obtain ⟨known, push⟩ := h.genuine c q hq
    refine ⟨?_, push⟩
    simp only
    rw [List.getElem?_append_left (List.getElem?_eq_some_iff.mp known).1, known]
  · have := h.mem_read j
    simp only [List.length_append, List.length_singleton, ne_eq, Option.some.injEq,
      reduceCtorEq, not_false_eq_true, true_and] at this ⊢
    rw [this]
    refine ⟨fun h => ⟨by omega, by omega, h.2⟩, fun h => ⟨by omega, h.2.2⟩⟩
  · have old : read.filter (response { s with frames := s.frames ++ [frame] }) =
        read.filter (response s) := List.filter_congr fun j hj => before j (started j hj)
    simp only [List.length_append, List.length_singleton, List.range_succ, List.filter_append]
    rw [old, h.responses]
    have last : ([s.frames.length].filter fun j =>
        response { s with frames := s.frames ++ [frame] } j &&
          decide (some s.frames.length ≠ some j)) = [] := by
      simp
    rw [last, List.append_nil]
    refine List.filter_congr fun j hj => ?_
    have lt := List.mem_range.mp hj
    simp [before j lt, lt.ne']

theorem Tapped.pass (h : Tapped ⟨s, read⟩ (some i)) (known : i < s.frames.length)
    (through : s.remaining i = []) (last : response s i = true → i + 1 = s.frames.length) :
    Tapped ⟨s, read ++ [i]⟩ none := by
  have unread : i ∉ read := fun hi => ((h.mem_read i).mp hi).2.1 rfl
  refine ⟨h.unstarted, fun c q hq => ⟨nofun, (h.standing c q hq).2⟩, h.distinct, h.genuine,
    ?_, fun j => ?_, ?_⟩
  · simpa [List.nodup_append] using ⟨h.nodup, fun j hj => ne_of_mem_of_not_mem hj unread⟩
  · have := h.mem_read j
    simp only [List.mem_append, List.mem_singleton, this, ne_eq, Option.some.injEq,
      reduceCtorEq, not_false_eq_true, true_and]
    by_cases own : j = i
    · subst own
      simp [known, through]
    · simp [own, Ne.symm own]
  · have old := h.responses
    simp only [List.filter_append, ne_eq, reduceCtorEq, not_false_eq_true, decide_true,
      Bool.and_true] at old ⊢
    rw [old]
    cases own : response s i with
    | false =>
      have none : [i].filter (response s) = [] := by simp [own]
      rw [none, List.append_nil]
      refine List.filter_congr fun j _ => ?_
      by_cases same : j = i
      · simp [same, own]
      · simp [Ne.symm same]
    | true =>
      have one : [i].filter (response s) = [i] := by simp [own]
      have none : ([i].filter fun j => response s j && decide (¬some i = some j)) = [] := by
        simp
      rw [one, ← last own, List.range_succ, List.filter_append, List.filter_append, one, none,
        List.append_nil]
      refine congrArg (· ++ [i]) (List.filter_congr fun j hj => ?_)
      simp [(List.mem_range.mp hj).ne']

theorem atLock_broadcast (route : List ClientId) (c : ClientId) :
    atLock (s.broadcast p route) c =
      atLock s c ++ if route.head? = some c then [p] else [] := by
  simp only [atLock, broadcast_holder, broadcast_waiters, ← List.append_assoc,
    List.filterMap_append]
  split <;> rfl

theorem Tapped.broadcast (h : Tapped ⟨s, read⟩ (some p.number))
    (known : s.frames[p.number]? = some p.frame) (push : isPush p.frame = true)
    (route : List ClientId) :
    Tapped ⟨s.broadcast p route, read⟩ (if route = [] then some p.number else none) := by
  have tied : ∀ j, some p.number ≠ some j →
      (if route = [] then some p.number else none) ≠ some j := by
    intro j other
    split
    · exact other
    · exact nofun
  have other_remaining : ∀ j, some p.number ≠ some j →
      (s.broadcast p route).remaining j = s.remaining j := by
    intro j other
    rw [broadcast_remaining, Function.update_of_ne]
    rintro rfl
    exact other rfl
  have same : response (s.broadcast p route) = response s := by
    funext j
    rw [response, response, broadcast_frames]
  have lt := (List.getElem?_eq_some_iff.mp known).1
  refine ⟨fun j hj => ?_, fun c q hq => ?_, fun c => ?_, fun c q hq => ?_, h.nodup,
    fun j => ?_, ?_⟩
  · rw [broadcast_frames] at hj
    rw [other_remaining j (by simp; omega)]
    exact h.unstarted j hj
  · rw [atLock_broadcast, List.mem_append] at hq
    rcases hq with old | new
    · obtain ⟨other, head⟩ := h.standing c q old
      exact ⟨tied _ other, other_remaining _ other ▸ head⟩
    · split at new
      · rename_i head
        obtain rfl := List.mem_singleton.mp new
        refine ⟨?_, by simpa using head⟩
        cases route with
        | nil => cases head
        | cons => simp
      · cases new
  · rw [atLock_broadcast]
    split
    · rw [List.map_append, List.nodup_append]
      refine ⟨h.distinct c, by simp, fun n hn m hm => ?_⟩
      obtain ⟨q, hq, rfl⟩ := List.mem_map.mp hn
      obtain rfl : m = p.number := by simpa using hm
      exact fun same => (h.standing c q hq).1 (congrArg some same.symm)
    · simpa using h.distinct c
  · rw [atLock_broadcast, List.mem_append] at hq
    rw [broadcast_frames]
    rcases hq with old | new
    · exact h.genuine c q old
    · split at new
      · obtain rfl := List.mem_singleton.mp new
        exact ⟨known, push⟩
      · cases new
  · rw [h.mem_read j, broadcast_frames]
    by_cases own : j = p.number
    · subst own
      simp
    · have other : some p.number ≠ some j := fun same => own (Option.some.inj same).symm
      rw [other_remaining j other]
      simp [other, tied j other]
  · have old := h.responses
    simp only [same, broadcast_frames] at old ⊢
    rw [old]
    refine List.filter_congr fun j _ => ?_
    by_cases own : j = p.number
    · simp [own, response_of_push known push]
    · have other : some p.number ≠ some j := fun same => own (Option.some.inj same).symm
      simp only [decide_eq_true other, decide_eq_true (tied j other)]

theorem Tapped.goOn (h : Tapped ⟨s, read⟩ (some p.number))
    (known : s.frames[p.number]? = some p.frame) (push : isPush p.frame = true)
    (route : List ClientId) :
    Tapped ⟨s.broadcast p route, read ++ (if (s.broadcast p route).remaining p.number = []
      then some p.number else none).toList⟩ none := by
  have moved := h.broadcast known push route
  rw [broadcast_remaining, Function.update_self]
  split at moved
  · rename_i none
    rw [if_pos none]
    refine moved.pass ?_ (by simpa using none) fun resp => ?_
    · rw [broadcast_frames]
      exact (List.getElem?_eq_some_iff.mp known).1
    · rw [response_of_push (by simpa using known) push] at resp
      cases resp
  · rename_i some
    rw [if_neg some]
    simpa using moved

theorem Tapped.release (h : Tapped ⟨s, read⟩ none) {c : ClientId}
    (holds : (s.client c).holder = some (.broadcast p)) :
    Tapped ⟨s.setClient c { s.client c with holder := none }, read⟩ (some p.number) := by
  have locked : atLock s c =
      p :: atLock (s.setClient c { s.client c with holder := none }) c := by
    simp [atLock, State.setClient, holds, Writer.push?]
  have others : ∀ d, d ≠ c →
      atLock (s.setClient c { s.client c with holder := none }) d = atLock s d := by
    intro d hd
    simp [atLock, State.setClient, hd]
  have mine : p ∈ atLock s c := by simp [locked]
  have stood := (h.standing c p mine).2
  obtain ⟨known, push⟩ := h.genuine c p mine
  have subset : ∀ d, ∀ q ∈ atLock (s.setClient c { s.client c with holder := none }) d,
      q ∈ atLock s d := by
    intro d q hq
    by_cases hd : d = c
    · subst hd
      rw [locked]
      exact List.mem_cons_of_mem _ hq
    · rwa [others d hd] at hq
  refine ⟨h.unstarted, fun d q hq => ⟨?_, (h.standing d q (subset d q hq)).2⟩, fun d => ?_,
    fun d q hq => h.genuine d q (subset d q hq), h.nodup, fun j => ?_, ?_⟩
  · rw [ne_eq, Option.some.injEq]
    intro same
    by_cases hd : d = c
    · subst hd
      have distinct := h.distinct d
      rw [locked, List.map_cons, List.nodup_cons] at distinct
      exact distinct.1 (same ▸ List.mem_map_of_mem hq)
    · -- a task stands at one client at a time
      have elsewhere := (h.standing d q (subset d q hq)).2
      rw [← same, stood] at elsewhere
      exact hd (Option.some.inj elsewhere).symm
  · by_cases hd : d = c
    · subst hd
      have distinct := h.distinct d
      rw [locked, List.map_cons, List.nodup_cons] at distinct
      exact distinct.2
    · rw [others d hd]
      exact h.distinct d
  · have := h.mem_read j
    simp only [ne_eq, reduceCtorEq, not_false_eq_true, true_and, Option.some.injEq] at this ⊢
    refine this.trans (and_congr_right fun _ => (and_iff_right_of_imp fun through same => ?_).symm)
    rw [same, through] at stood
    cases stood
  · have old := h.responses
    simp only [ne_eq, reduceCtorEq, not_false_eq_true, decide_true, Bool.and_true] at old
    refine old.trans (List.filter_congr fun j _ => ?_)
    change response s j = (response s j && decide (some p.number ≠ some j))
    by_cases own : j = p.number
    · simp [own, response_of_push known push]
    · simp [Ne.symm own]

theorem Tapped.step {proxyMaxClients : ℕ} {s t : State} {a : Action} (h : Tapped s none)
    (hs : ReaderTap.step proxyMaxClients s a = some t) : Tapped t none := by
  rw [ReaderTap.step, Option.map_eq_some_iff] at hs
  obtain ⟨u, hu, rfl⟩ := hs
  cases a with
  | join c order =>
    simp only [PushFanout.step, Option.ite_none_right_eq_some, Option.some.injEq] at hu
    obtain ⟨-, rfl⟩ := hu
    simp only [passed, Option.toList_none, List.append_nil]
    exact h.congr rfl rfl fun _ => rfl
  | leave c =>
    simp only [PushFanout.step, Option.ite_none_right_eq_some, Option.some.injEq] at hu
    obtain ⟨-, rfl⟩ := hu
    simp only [passed, Option.toList_none, List.append_nil]
    exact h.congr rfl rfl fun _ => rfl
  | dispatch frame =>
    have received := h.receive frame
    have known : (s.fanout.frames ++ [frame])[s.fanout.frames.length]? = some frame := by simp
    simp only [PushFanout.step] at hu
    split at hu <;> cases hu
    · rename_i push
      exact Tapped.goOn (p := ⟨frame, s.fanout.frames.length⟩) received known push _
    · have idle := h.unstarted _ le_rfl
      simp only [passed, idle, if_true, Option.toList_some]
      exact received.pass (by simp) idle fun _ => by simp
  | respond c frame =>
    simp only [PushFanout.step, Option.ite_none_right_eq_some, Option.some.injEq] at hu
    obtain ⟨-, rfl⟩ := hu
    have locks : ∀ d, atLock (s.fanout.lineUp c (.response frame)) d = atLock s.fanout d := by
      intro d
      by_cases hd : d = c
      · subst hd
        simp [atLock, State.lineUp, State.setClient, Writer.push?]
      · simp [atLock, State.lineUp, State.setClient, hd]
    simp only [passed, Option.toList_none, List.append_nil]
    exact h.congr rfl rfl locks
  | write c =>
    simp only [PushFanout.step] at hu
    split at hu
    · rename_i w rest free waiters
      cases hu
      have locks : ∀ d, atLock (s.fanout.setClient c
          ⟨some w, rest, (s.fanout.client c).written ++ [w]⟩) d = atLock s.fanout d := by
        intro d
        by_cases hd : d = c
        · subst hd
          simp [atLock, State.setClient, free, waiters]
        · simp [atLock, State.setClient, hd]
      simp only [passed, Option.toList_none, List.append_nil]
      exact h.congr rfl rfl locks
    · cases hu
  | drained c =>
    simp only [PushFanout.step] at hu
    split at hu
    · rename_i w holds
      cases w with
      | broadcast push =>
        cases hu
        obtain ⟨known, genuine⟩ := h.genuine c push (by simp [atLock, holds, Writer.push?])
        simp only [passed, holds]
        exact (h.release holds).goOn known genuine _
      | response frame =>
        cases hu
        have locks : ∀ d, atLock (s.fanout.setClient c
            { s.fanout.client c with holder := none }) d = atLock s.fanout d := by
          intro d
          by_cases hd : d = c
          · subst hd
            simp [atLock, State.setClient, holds, List.filterMap_cons, Writer.push?]
          · simp [atLock, State.setClient, hd]
        simp only [passed, holds, Option.toList_none, List.append_nil]
        exact h.congr rfl rfl locks
    · cases hu

end Tapped

/-- Whatever the clients do, and however long they take: no frame from the node reaches the
library twice, those that are still missing are pushes on their way through the clients, and
the responses have all arrived, in the order of the node. When every broadcast is through,
the library has had every frame once. -/
theorem library_reads_each_frame_once (proxyMaxClients : ℕ) (acts : List Action) (s : State)
    (hrun : Runs.run (step proxyMaxClients) init acts = some s) :
    s.read.Nodup ∧
    (∀ i, i ∈ s.read ↔ i < s.fanout.frames.length ∧ s.fanout.remaining i = []) ∧
    (∀ i < s.fanout.frames.length, i ∉ s.read → response s.fanout i = false) ∧
    s.read.filter (response s.fanout) =
      (List.range s.fanout.frames.length).filter (response s.fanout) ∧
    (s.fanout.Quiet → s.read.Perm (List.range s.fanout.frames.length)) := by
  have tapped : Tapped s none := Runs.reachable (I := fun s => Tapped s none)
    (fun _ _ _ h hs => h.step hs) init_tapped hrun
  have mem_read : ∀ i, i ∈ s.read ↔
      i < s.fanout.frames.length ∧ s.fanout.remaining i = [] := by
    simpa using tapped.mem_read
  have responses : s.read.filter (response s.fanout) =
      (List.range s.fanout.frames.length).filter (response s.fanout) := by
    simpa using tapped.responses
  refine ⟨tapped.nodup, mem_read, fun i lt missing => ?_, responses, fun quiet => ?_⟩
  · by_contra resp
    rw [Bool.not_eq_false] at resp
    have due : i ∈ (List.range s.fanout.frames.length).filter (response s.fanout) :=
      List.mem_filter.mpr ⟨List.mem_range.mpr lt, resp⟩
    rw [← responses] at due
    exact missing (List.mem_filter.mp due).1
  · refine (List.perm_ext_iff_of_nodup tapped.nodup List.nodup_range).mpr fun i => ?_
    rw [mem_read, List.mem_range]
    exact ⟨fun h => h.1, fun lt => ⟨lt, quiet i lt⟩⟩

/-- Client 1 is slow: the response behind the first push is read before it. -/
theorem library_reads_each_frame_once_slowClient :
    ∃ s, Runs.run (step 4) init slowClient = some s ∧ s.read = [2, 0, 1] ∧
      s.read.Perm (List.range 3) := by
  have ran : (Runs.run (step 4) init slowClient).map (fun s =>
      (s.read, s.fanout.frames.length, decide s.fanout.Quiet)) = some ([2, 0, 1], 3, true) := by
    decide +kernel
  simp only [Option.map_eq_some_iff, Prod.mk.injEq, decide_eq_true_eq] at ran
  obtain ⟨s, hs, read, frames, quiet⟩ := ran
  have law := library_reads_each_frame_once 4 slowClient s hs
  exact ⟨s, hs, read, frames ▸ law.2.2.2.2 quiet⟩

end MeshwardenDaemon.ReaderTap
