import MeshwardenDaemon.PushFanout

/-! The order of the pushes at each client. As long as every task leads the tasks that
start after it, no push lines up at a client before an earlier one, and the locks keep
the order; a client of every copy of the set gets every push once. -/
namespace MeshwardenDaemon.PushFanout
open Protocol Library Convoy

def State.At (s : State) (c : ClientId) (p : Push) : Prop :=
  (s.client c).holder = some (.broadcast p) ∨ .broadcast p ∈ (s.client c).waiters

structure Convoyed (s : State) (loose : Option ℕ) : Prop where
  nodup : ∀ i, (s.remaining i).Nodup
  clients_nodup : s.clients.Nodup
  unstarted : ∀ i, s.frames.length ≤ i → s.remaining i = []
  known_clients : s.clients ⊆ s.known
  known_remaining : ∀ i, s.remaining i ⊆ s.known
  since_le : ∀ c, s.since c ≤ s.frames.length
  since_remaining : ∀ i, ∀ c ∈ s.remaining i, s.since c ≤ i
  unknown : ∀ c, c ∉ s.known → s.lined c = []
  leads : ∀ i j, i < j → Leads (s.remaining i) (s.remaining j)
  /-- No push is written to a client before one whose task has yet to come there. -/
  ahead : ∀ i c, c ∈ (s.remaining i).tail → ∀ p ∈ s.lined c, p.number < i
  ordered : ∀ c, (s.lined c).Pairwise fun p q => p.number < q.number
  holder : ∀ c w, (s.client c).holder = some w → w ∈ (s.client c).written
  standing : ∀ c p, s.At c p →
    loose ≠ some p.number ∧ (s.remaining p.number).head? = some c
  stands : ∀ i c, loose ≠ some i → (s.remaining i).head? = some c →
    ∃ p : Push, p.number = i ∧ s.At c p
  genuine : ∀ c, ∀ p ∈ s.lined c, s.frames[p.number]? = some p.frame ∧
    isPush p.frame = true ∧ s.since c ≤ p.number
  complete : ∀ c ∈ s.clients, ∀ p : Push, loose ≠ some p.number →
    s.frames[p.number]? = some p.frame → isPush p.frame = true → s.since c ≤ p.number →
    p ∈ s.lined c ∨ c ∈ (s.remaining p.number).tail

theorem init_convoyed : Convoyed init none := by
  constructor <;> simp [init, State.At, State.lined, Leads]

section Convoyed
variable {proxyMaxClients : ℕ} {s t : State} {loose : Option ℕ} {a : Action}

theorem Convoyed.join (h : Convoyed s loose) {c : ClientId} {order : List ClientId}
    (new : c ∉ s.known) (perm : order.Perm (c :: s.clients)) :
    Convoyed { s with
      clients := order, known := c :: s.known
      since := Function.update s.since c s.frames.length } loose := by
  have fresh : c ∉ s.clients := fun hc => new (h.known_clients hc)
  refine ⟨h.nodup, perm.nodup_iff.mpr (List.nodup_cons.mpr ⟨fresh, h.clients_nodup⟩),
    h.unstarted, ?_, fun i => List.subset_cons_of_subset _ (h.known_remaining i), ?_, ?_,
    ?_, h.leads, h.ahead, h.ordered, h.holder, h.standing, h.stands, ?_, ?_⟩
  · intro d hd
    exact List.mem_cons.mpr ((List.mem_cons.mp (perm.mem_iff.mp hd)).imp_right
      fun old => h.known_clients old)
  · intro d
    simp only [Function.update_apply]
    split
    · exact Nat.le_refl _
    · exact h.since_le d
  · intro i d hd
    have other : d ≠ c := by
      rintro rfl
      exact new (h.known_remaining i hd)
    simpa only [Function.update_of_ne other] using h.since_remaining i d hd
  · intro d hd
    exact h.unknown d fun old => hd (List.mem_cons_of_mem _ old)
  · intro d p hp
    have other : d ≠ c := by
      rintro rfl
      exact absurd (h.unknown d new ▸ hp : p ∈ []) List.not_mem_nil
    simpa only [Function.update_of_ne other] using h.genuine d p hp
  · intro d hd p tied frame push since
    by_cases own : d = c
    · -- it has seen no frame yet
      subst own
      simp only [Function.update_self] at since
      have := (List.getElem?_eq_some_iff.mp frame).1
      exact absurd since (Nat.not_le.mpr this)
    · simp only [Function.update_of_ne own] at since
      have old := (List.mem_cons.mp (perm.mem_iff.mp hd)).resolve_left own
      exact h.complete d old p tied frame push since

theorem Convoyed.leave (h : Convoyed s loose) (c : ClientId) :
    Convoyed { s with clients := s.clients.erase c } loose :=
  ⟨h.nodup, h.clients_nodup.erase c, h.unstarted,
    List.Subset.trans List.erase_subset h.known_clients, h.known_remaining, h.since_le,
    h.since_remaining, h.unknown, h.leads, h.ahead, h.ordered, h.holder, h.standing, h.stands,
    h.genuine, fun d hd => h.complete d (List.mem_of_mem_erase hd)⟩

theorem Convoyed.setClient (h : Convoyed s none) {c : ClientId} {client : Client}
    (lined : (s.setClient c client).lined c = s.lined c)
    (holder : ∀ w, client.holder = some w → w ∈ client.written)
    (standing : ∀ p, (s.setClient c client).At c p ↔ s.At c p ∧ loose ≠ some p.number)
    (left : ∀ i, loose = some i → (s.remaining i).head? = some c) :
    Convoyed (s.setClient c client) loose := by
  have client_eq : ∀ d, (s.setClient c client).client d =
      if d = c then client else s.client d := fun d => Function.update_apply _ _ _ _
  have same : ∀ d, (s.setClient c client).lined d = s.lined d := by
    intro d
    by_cases own : d = c
    · rw [own, lined]
    · simp only [State.lined, client_eq, if_neg own]
  have at_iff : ∀ d p, (s.setClient c client).At d p ↔ s.At d p ∧ loose ≠ some p.number := by
    intro d p
    by_cases own : d = c
    · rw [own, standing]
    · simp only [State.At, client_eq, if_neg own]
      refine (and_iff_left_of_imp fun elsewhere free => own ?_).symm
      exact Option.some.inj ((h.standing d p elsewhere).2.symm.trans (left _ free))
  refine ⟨h.nodup, h.clients_nodup, h.unstarted, h.known_clients, h.known_remaining, h.since_le,
    h.since_remaining, ?_, h.leads, ?_, ?_, ?_, ?_, ?_, ?_, ?_⟩
  · simp only [same]
    exact h.unknown
  · simp only [same]
    exact h.ahead
  · simp only [same]
    exact h.ordered
  · intro d w hw
    rw [client_eq] at hw ⊢
    split at hw
    · rename_i own
      rw [if_pos own]
      exact holder w hw
    · rename_i own
      rw [if_neg own]
      exact h.holder d w hw
  · intro d p hp
    obtain ⟨before, tied⟩ := (at_iff d p).mp hp
    exact ⟨tied, (h.standing d p before).2⟩
  · intro i d tied hd
    obtain ⟨p, rfl, at_d⟩ := h.stands i d (by simp) hd
    exact ⟨p, rfl, (at_iff d p).mpr ⟨at_d, tied⟩⟩
  · simp only [same]
    exact h.genuine
  · simp only [same]
    exact fun d hd p _ => h.complete d hd p (by simp)

theorem mem_broadcast_lined {p q : Push} {route : List ClientId} {c : ClientId} :
    q ∈ (s.broadcast p route).lined c ↔ q ∈ s.lined c ∨ q = p ∧ route.head? = some c := by
  rw [broadcast_lined, List.mem_append]
  split <;> simp [*]

theorem broadcast_at {p q : Push} {route : List ClientId} {c : ClientId} :
    (s.broadcast p route).At c q ↔ s.At c q ∨ q = p ∧ route.head? = some c := by
  simp only [State.At, broadcast_holder, broadcast_waiters, List.mem_append, or_assoc]
  split <;> simp [*]

theorem Convoyed.broadcast_ahead {p : Push} {route : List ClientId}
    (h : Convoyed s (some p.number)) (nodup : route.Nodup)
    (before : ∀ i < p.number, Leads (s.remaining i) route)
    (unwritten : ∀ c ∈ route, ∀ q ∈ s.lined c, q.number < p.number) (i : ℕ) (c : ClientId)
    (hc : c ∈ ((s.broadcast p route).remaining i).tail) (q : Push)
    (hq : q ∈ (s.broadcast p route).lined c) : q.number < i := by
  by_cases own : i = p.number
  · subst own
    rw [broadcast_remaining, Function.update_self] at hc
    rcases mem_broadcast_lined.mp hq with old | ⟨-, head⟩
    · exact unwritten c (List.mem_of_mem_tail hc) q old
    · exact absurd hc (head_not_mem_tail nodup head)
  · rw [broadcast_remaining, Function.update_of_ne own] at hc
    rcases mem_broadcast_lined.mp hq with old | ⟨rfl, head⟩
    · exact h.ahead i c hc q old
    · -- an earlier task would still have to come where this one lines up
      refine lt_of_not_ge fun earlier => ?_
      have leads := before i (lt_of_le_of_ne earlier own)
      obtain ⟨rest, rfl⟩ := List.head?_eq_some_iff.mp head
      exact leads.not_mem_tail (h.nodup i) hc

theorem Convoyed.broadcast_complete {p : Push} {route : List ClientId}
    (h : Convoyed s (some p.number)) (frame : s.frames[p.number]? = some p.frame)
    (complete : ∀ c ∈ s.clients, s.since c ≤ p.number → p ∈ s.lined c ∨ c ∈ route)
    (c : ClientId) (hc : c ∈ (s.broadcast p route).clients) (q : Push)
    (hframe : (s.broadcast p route).frames[q.number]? = some q.frame)
    (hpush : isPush q.frame = true) (hsince : (s.broadcast p route).since c ≤ q.number) :
    q ∈ (s.broadcast p route).lined c ∨ c ∈ ((s.broadcast p route).remaining q.number).tail := by
  rw [broadcast_clients] at hc
  rw [broadcast_frames] at hframe
  rw [broadcast_since] at hsince
  rw [mem_broadcast_lined, broadcast_remaining]
  by_cases own : q.number = p.number
  · obtain rfl : q = p := Push.ext (Option.some.inj (hframe.symm.trans (own ▸ frame))) own
    rw [Function.update_self]
    rcases complete c hc hsince with old | coming
    · exact Or.inl (Or.inl old)
    · cases route with
      | nil => cases coming
      | cons d rest =>
        rcases List.mem_cons.mp coming with rfl | later
        · exact Or.inl (Or.inr ⟨rfl, rfl⟩)
        · exact Or.inr later
  · rw [Function.update_of_ne own]
    exact (h.complete c hc q (fun same => own (Option.some.inj same).symm) hframe hpush
      hsince).imp_left Or.inl

theorem Convoyed.broadcast_since_remaining {p : Push} {route : List ClientId}
    (h : Convoyed s loose) (since : ∀ c ∈ route, s.since c ≤ p.number) (i : ℕ) (c : ClientId)
    (hc : c ∈ (s.broadcast p route).remaining i) : (s.broadcast p route).since c ≤ i := by
  rw [broadcast_since]
  rw [broadcast_remaining] at hc
  by_cases own : i = p.number
  · subst own
    rw [Function.update_self] at hc
    exact since c hc
  · rw [Function.update_of_ne own] at hc
    exact h.since_remaining i c hc

theorem Convoyed.broadcast_leads {p : Push} {route : List ClientId} (h : Convoyed s loose)
    (before : ∀ i < p.number, Leads (s.remaining i) route)
    (after : ∀ i > p.number, Leads route (s.remaining i)) (i j : ℕ) (hij : i < j) :
    Leads ((s.broadcast p route).remaining i) ((s.broadcast p route).remaining j) := by
  rw [broadcast_remaining]
  by_cases first : i = p.number
  · subst first
    rw [Function.update_self, Function.update_of_ne hij.ne']
    exact after j hij
  · rw [Function.update_of_ne first]
    by_cases second : j = p.number
    · subst second
      rw [Function.update_self]
      exact before i hij
    · rw [Function.update_of_ne second]
      exact h.leads i j hij

theorem Convoyed.broadcast_ordered {p : Push} {route : List ClientId} (h : Convoyed s loose)
    (unwritten : ∀ c ∈ route, ∀ q ∈ s.lined c, q.number < p.number) (c : ClientId) :
    ((s.broadcast p route).lined c).Pairwise fun q r => q.number < r.number := by
  rw [broadcast_lined]
  split
  · rename_i head
    refine List.pairwise_append.mpr ⟨h.ordered c, List.pairwise_singleton _ _, ?_⟩
    intro q hq r hr
    obtain rfl := List.mem_singleton.mp hr
    exact unwritten c (List.mem_of_mem_head? head) q hq
  · simpa using h.ordered c

theorem Convoyed.broadcast_standing {p : Push} {route : List ClientId}
    (h : Convoyed s (some p.number)) (c : ClientId) (q : Push)
    (hq : (s.broadcast p route).At c q) :
    ((s.broadcast p route).remaining q.number).head? = some c := by
  rw [broadcast_remaining]
  rcases broadcast_at.mp hq with old | ⟨rfl, head⟩
  · obtain ⟨tied, stood⟩ := h.standing c q old
    rwa [Function.update_of_ne fun same => tied (congrArg some same.symm)]
  · rwa [Function.update_self]

theorem Convoyed.broadcast_stands {p : Push} {route : List ClientId}
    (h : Convoyed s (some p.number)) (i : ℕ) (c : ClientId)
    (hc : ((s.broadcast p route).remaining i).head? = some c) :
    ∃ q : Push, q.number = i ∧ (s.broadcast p route).At c q := by
  rw [broadcast_remaining] at hc
  by_cases own : i = p.number
  · subst own
    rw [Function.update_self] at hc
    exact ⟨p, rfl, broadcast_at.mpr (Or.inr ⟨rfl, hc⟩)⟩
  · rw [Function.update_of_ne own] at hc
    obtain ⟨q, number, stood⟩ := h.stands i c (fun same => own (Option.some.inj same).symm) hc
    exact ⟨q, number, broadcast_at.mpr (Or.inl stood)⟩

theorem Convoyed.broadcast {p : Push} {route : List ClientId}
    (h : Convoyed s (some p.number)) (nodup : route.Nodup) (known : route ⊆ s.known)
    (frame : s.frames[p.number]? = some p.frame) (push : isPush p.frame = true)
    (before : ∀ i < p.number, Leads (s.remaining i) route)
    (after : ∀ i > p.number, Leads route (s.remaining i))
    (unwritten : ∀ c ∈ route, s.since c ≤ p.number ∧ ∀ q ∈ s.lined c, q.number < p.number)
    (complete : ∀ c ∈ s.clients, s.since c ≤ p.number → p ∈ s.lined c ∨ c ∈ route) :
    Convoyed (s.broadcast p route) none := by
  have started : p.number < s.frames.length := (List.getElem?_eq_some_iff.mp frame).1
  have remaining_self : (s.broadcast p route).remaining p.number = route := by simp
  have remaining_ne : ∀ i, i ≠ p.number → (s.broadcast p route).remaining i = s.remaining i :=
    fun i hi => by simp [hi]
  constructor
  case nodup =>
    intro i
    by_cases own : i = p.number
    · rwa [own, remaining_self]
    · rw [remaining_ne i own]
      exact h.nodup i
  case clients_nodup =>
    simpa using h.clients_nodup
  case unstarted =>
    intro i hi
    rw [broadcast_frames] at hi
    rw [remaining_ne i (started.trans_le hi).ne']
    exact h.unstarted i hi
  case known_clients =>
    simpa using h.known_clients
  case known_remaining =>
    intro i
    rw [broadcast_known]
    by_cases own : i = p.number
    · rwa [own, remaining_self]
    · rw [remaining_ne i own]
      exact h.known_remaining i
  case since_le =>
    simpa using h.since_le
  case since_remaining => exact h.broadcast_since_remaining fun c hc => (unwritten c hc).1
  case unknown =>
    intro c hc
    rw [broadcast_known] at hc
    refine List.eq_nil_iff_forall_not_mem.mpr fun q hq => ?_
    rcases mem_broadcast_lined.mp hq with old | ⟨-, head⟩
    · exact absurd (h.unknown c hc ▸ old) List.not_mem_nil
    · exact hc (known (List.mem_of_mem_head? head))
  case leads => exact h.broadcast_leads before after
  case ahead => exact h.broadcast_ahead nodup before fun c hc => (unwritten c hc).2
  case ordered => exact h.broadcast_ordered fun c hc => (unwritten c hc).2
  case holder =>
    simpa using h.holder
  case standing => exact fun c q hq => ⟨by simp, h.broadcast_standing c q hq⟩
  case stands => exact fun i c _ hc => h.broadcast_stands i c hc
  case genuine =>
    intro c q hq
    rw [broadcast_frames, broadcast_since]
    rcases mem_broadcast_lined.mp hq with old | ⟨rfl, head⟩
    · exact h.genuine c q old
    · exact ⟨frame, push, (unwritten c (List.mem_of_mem_head? head)).1⟩
  case complete => exact fun c hc q _ => h.broadcast_complete frame complete c hc q

theorem Convoyed.receive (h : Convoyed s none) {frame : Frame}
    (tied : isPush frame = true → loose = some s.frames.length)
    (free : ∀ i, loose = some i → s.frames.length ≤ i) :
    Convoyed { s with frames := s.frames ++ [frame] } loose := by
  have grown : s.frames.length ≤ (s.frames ++ [frame]).length := by simp
  have running : ∀ i c, (s.remaining i).head? = some c → loose ≠ some i := by
    intro i c hc none
    rw [h.unstarted i (free i none)] at hc
    cases hc
  refine ⟨h.nodup, h.clients_nodup, fun i hi => h.unstarted i (grown.trans hi), h.known_clients,
    h.known_remaining, fun c => (h.since_le c).trans grown, h.since_remaining, h.unknown,
    h.leads, h.ahead, h.ordered, h.holder, fun c p hp => ?_,
    fun i c _ hc => h.stands i c (by simp) hc, fun c p hp => ?_, ?_⟩
  · have stood := (h.standing c p hp).2
    exact ⟨running _ c stood, stood⟩
  · obtain ⟨known, rest⟩ := h.genuine c p hp
    exact ⟨List.getElem?_append_left (List.getElem?_eq_some_iff.mp known).1 ▸ known, rest⟩
  · intro c hc p loose_ne known push since
    simp only [List.getElem?_append] at known
    split at known
    · exact h.complete c hc p (by simp) known push since
    · rename_i last
      obtain rfl := List.mem_singleton.mp (List.mem_of_getElem? known)
      have first := (List.getElem?_eq_some_iff.mp known).1
      rw [List.length_singleton] at first
      refine absurd ?_ loose_ne
      rw [tied push]
      congr 1
      omega

theorem Convoyed.dispatch (h : Convoyed s none) {frame : Frame} (push : isPush frame = true)
    (inStep : ∀ i < s.frames.length, Leads (s.remaining i) s.clients) :
    Convoyed ({ s with frames := s.frames ++ [frame] }.broadcast ⟨frame, s.frames.length⟩
      s.clients) none := by
  have received : Convoyed { s with frames := s.frames ++ [frame] } (some s.frames.length) :=
    h.receive (fun _ => rfl) fun i hi => (Option.some.inj hi).le
  refine Convoyed.broadcast (p := ⟨frame, s.frames.length⟩) received h.clients_nodup
    h.known_clients (by simp) push inStep (fun i hi => ?_) (fun c _ => ⟨h.since_le c, ?_⟩)
    fun c hc _ => Or.inr hc
  · simp only [h.unstarted i (Nat.le_of_lt hi)]
    exact leads_nil_right _
  · intro q hq
    exact (List.getElem?_eq_some_iff.mp (h.genuine c q hq).1).1

theorem mem_lined_of_written {c : ClientId} {p : Push}
    (hp : .broadcast p ∈ (s.client c).written) : p ∈ s.lined c :=
  List.mem_append_left _ (List.mem_filterMap.mpr ⟨_, hp, rfl⟩)

theorem Convoyed.holder_lt (h : Convoyed s none) {c : ClientId} {p q : Push}
    (holds : (s.client c).holder = some (.broadcast p))
    (waits : .broadcast q ∈ (s.client c).waiters) : p.number < q.number :=
  (List.pairwise_append.mp (h.ordered c)).2.2 p
    (List.mem_filterMap.mpr ⟨_, h.holder c _ holds, rfl⟩) q
    (List.mem_filterMap.mpr ⟨_, waits, rfl⟩)

theorem Convoyed.drained (h : Convoyed s none) {c : ClientId} {p : Push}
    (holds : (s.client c).holder = some (.broadcast p)) :
    Convoyed ((s.setClient c { s.client c with holder := none }).broadcast p
      (s.remaining p.number).tail) none := by
  have stood := (h.standing c p (Or.inl holds)).2
  have left : Convoyed (s.setClient c { s.client c with holder := none }) (some p.number) := by
    refine h.setClient (lined_release _ _ _ _) (by simp) (fun q => ?_) ?_
    · simp only [State.At, State.setClient, Function.update_self, reduceCtorEq, false_or, holds,
        Option.some.injEq, Writer.broadcast.injEq, ne_eq]
      refine ⟨fun waits => ⟨Or.inr waits, (h.holder_lt holds waits).ne⟩, ?_⟩
      rintro ⟨rfl | waits, other⟩
      · exact absurd rfl other
      · exact waits
    · intro i hi
      rwa [← Option.some.inj hi]
  obtain ⟨known, push, -⟩ := h.genuine c p (mem_lined_of_written (h.holder c _ holds))
  obtain ⟨rest, route⟩ := List.head?_eq_some_iff.mp stood
  refine left.broadcast ((h.nodup _).sublist (List.tail_sublist _))
    (List.Subset.trans (List.tail_sublist _).subset (h.known_remaining _)) known push
    (fun i hi => ?_) (fun i hi => (h.leads _ i hi).tail (h.nodup _)) (fun d hd => ?_)
    fun d hd since => ?_
  · -- an earlier task would have had the lock of this client before
    have leads := route ▸ h.leads i p.number hi
    rw [route]
    refine leads.follow fun hc => ?_
    obtain ⟨q, rfl, holds' | waits⟩ := h.stands i c (by simp) (leads.head hc)
    · rw [holds, Option.some.injEq, Writer.broadcast.injEq] at holds'
      exact absurd hi (by simp [holds'])
    · exact absurd (h.holder_lt holds waits) hi.not_gt
  · refine ⟨h.since_remaining _ d (List.mem_of_mem_tail hd), fun q hq => ?_⟩
    rw [lined_release] at hq
    exact h.ahead p.number d hd q hq
  · rw [lined_release]
    exact h.complete d hd p (by simp) known push since

theorem Convoyed.step (h : Convoyed s none) (inStep : InStep s a)
    (hs : PushFanout.step proxyMaxClients s a = some t) : Convoyed t none := by
  cases a with
  | join c order =>
    simp only [PushFanout.step, Option.ite_none_right_eq_some, Option.some.injEq] at hs
    obtain ⟨⟨new, -, perm⟩, rfl⟩ := hs
    exact h.join new perm
  | leave c =>
    simp only [PushFanout.step, Option.ite_none_right_eq_some, Option.some.injEq] at hs
    obtain ⟨-, rfl⟩ := hs
    exact h.leave c
  | dispatch frame =>
    simp only [PushFanout.step] at hs
    split at hs <;> cases hs
    · rename_i push
      exact h.dispatch push (inStep push)
    · rename_i response
      exact h.receive (fun push => absurd push response) (by simp)
  | respond c frame =>
    simp only [PushFanout.step, Option.ite_none_right_eq_some, Option.some.injEq] at hs
    obtain ⟨-, rfl⟩ := hs
    refine h.setClient ?_ (h.holder c) (fun p => ?_) (by simp)
    · simp [State.lined, State.setClient, Writer.push?]
    · simp [State.At, State.setClient]
  | write c =>
    simp only [PushFanout.step] at hs
    split at hs
    · rename_i w rest free waiters
      cases hs
      refine h.setClient ?_ (by simp) (fun p => ?_) (by simp)
      · simp only [State.lined, State.setClient, Function.update_self, waiters, List.append_assoc,
          ← List.filterMap_append, List.singleton_append]
      · simp [State.At, State.setClient, free, waiters, eq_comm]
    · cases hs
  | drained c =>
    simp only [PushFanout.step] at hs
    split at hs
    · rename_i w holds
      cases w with
      | broadcast p =>
        cases hs
        exact h.drained holds
      | response frame =>
        cases hs
        refine h.setClient (lined_release _ _ _ _) (by simp) (fun p => ?_) (by simp)
        simp [State.At, State.setClient, holds]
    · cases hs

end Convoyed

section Order
variable {s : State} {c : ClientId}

theorem mem_pushesSince {p : Push} : p ∈ s.pushesSince c ↔
    s.frames[p.number]? = some p.frame ∧ isPush p.frame = true ∧ s.since c ≤ p.number := by
  have numbered : p ∈ (s.frames.zipIdx.map fun x => (⟨x.1, x.2⟩ : Push)) ↔
      s.frames[p.number]? = some p.frame := by
    refine List.mem_map.trans ⟨?_, fun hp => ?_⟩
    · rintro ⟨x, hx, rfl⟩
      exact List.mem_zipIdx_iff_getElem?.mp hx
    · exact ⟨(p.frame, p.number), List.mem_zipIdx_iff_getElem?.mpr hp, rfl⟩
  simp only [State.pushesSince, List.mem_filter, numbered, Bool.and_eq_true, decide_eq_true_eq]

theorem pushesSince_ordered : (s.pushesSince c).Pairwise fun p q => p.number < q.number := by
  have numbers : (s.frames.zipIdx.map Prod.snd).Pairwise (· < ·) := by
    rw [List.zipIdx_map_snd]
    exact List.pairwise_lt_range'
  refine List.Pairwise.filter _ (List.pairwise_map.mpr ?_)
  exact List.pairwise_map.mp numbers

/-- What lined up at a client is the beginning of what it is due. -/
theorem Convoyed.lined_begins_since (h : Convoyed s none) (hc : c ∈ s.clients) :
    s.lined c <+: s.pushesSince c := by
  refine prefix_of_closed (h.ordered c) pushesSince_ordered
    (fun p hp => mem_pushesSince.mpr (h.genuine c p hp)) fun p hp q hq earlier => ?_
  obtain ⟨known, push, since⟩ := mem_pushesSince.mp hq
  refine (h.complete c hc q (by simp) known push since).resolve_right fun coming => ?_
  exact absurd (h.ahead q.number c coming p hp) earlier.not_gt

theorem pushesTo_begins_lined : s.pushesTo c <+: s.lined c := List.prefix_append _ _

theorem Convoyed.quiet (h : Convoyed s none) (hc : c ∈ s.clients) (quiet : s.Quiet) :
    s.pushesTo c = s.pushesSince c := by
  have finished : ∀ i, s.remaining i = [] := by
    intro i
    rcases Nat.lt_or_ge i s.frames.length with started | later
    · exact quiet i started
    · exact h.unstarted i later
  have reached : s.pushesSince c ⊆ s.lined c := by
    intro p hp
    obtain ⟨known, push, since⟩ := mem_pushesSince.mp hp
    refine (h.complete c hc p (by simp) known push since).resolve_right ?_
    rw [finished]
    exact List.not_mem_nil
  have whole : s.pushesSince c <+: s.lined c :=
    prefix_of_closed pushesSince_ordered (h.ordered c) reached
      fun _ _ q hq _ => (h.lined_begins_since hc).subset hq
  have nobody : (s.client c).waiters.filterMap Writer.push? = [] := by
    refine List.filterMap_eq_nil_iff.mpr fun w hw => ?_
    cases w with
    | broadcast p =>
      have stood := (h.standing c p (Or.inr hw)).2
      rw [finished] at stood
      cases stood
    | response frame => rfl
  rw [← (h.lined_begins_since hc).eq_of_length_le whole.length_le, State.lined, nobody,
    List.append_nil, State.pushesTo]

end Order

/-- In every run in which each push starts in step with the tasks under way, what a
connected client has got through the broadcast is the beginning of the pushes since it
connected, in the order of the node, and all of them once every task is through; nothing
else is broadcast to anybody. -/
theorem pushes_in_order_once (proxyMaxClients : ℕ) (acts : List Action) (s : State)
    (hrun : Runs.run (step proxyMaxClients) init acts = some s)
    (inStep : Runs.Along (step proxyMaxClients) InStep init acts) :
    (∀ c ∈ s.clients, s.pushesTo c <+: s.pushesSince c ∧
      (s.Quiet → s.pushesTo c = s.pushesSince c)) ∧
    ∀ c, ∀ p ∈ s.pushesTo c, isPush p.frame = true := by
  have convoyed : Convoyed s none :=
    Runs.invariant (I := fun s => Convoyed s none) (fun _ _ _ h inStep hs => h.step inStep hs)
      init_convoyed inStep hrun
  refine ⟨fun c hc => ⟨pushesTo_begins_lined.trans (convoyed.lined_begins_since hc),
    convoyed.quiet hc⟩, fun c p hp => ?_⟩
  exact (convoyed.genuine c p (pushesTo_begins_lined.subset hp)).2.1

def firstPush : Frame := [0x80, 1]
def secondPush : Frame := [0x80, 2]

def slowClient : List Action :=
  [.join 1 [1], .join 2 [1, 2], .dispatch firstPush, .write 1, .join 3 [1, 2, 3],
    .dispatch secondPush, .dispatch [0x05], .respond 2 [0x05], .write 2, .drained 1, .write 1,
    .drained 2, .write 2, .drained 1, .drained 2, .write 2, .drained 2, .write 3, .drained 3]

theorem pushes_in_order_once_slowClient :
    ∃ s, Runs.run (step 4) init slowClient = some s ∧ s.Quiet ∧
      s.pushesTo 2 = [⟨firstPush, 0⟩, ⟨secondPush, 1⟩] := by
  have got : (Runs.run (step 4) init slowClient).map (fun s =>
      (decide s.Quiet, s.clients, s.pushesSince 2)) =
        some (true, [1, 2, 3], [⟨firstPush, 0⟩, ⟨secondPush, 1⟩]) := by
    decide +kernel
  simp only [Option.map_eq_some_iff, Prod.mk.injEq, decide_eq_true_eq] at got
  obtain ⟨s, hs, quiet, clients, pushes⟩ := got
  have law := pushes_in_order_once 4 slowClient s hs (by decide +kernel)
  exact ⟨s, hs, quiet, ((law.1 2 (by simp [clients])).2 quiet).trans pushes⟩

/-- Client 1 stalls while the first push is written to it, and leaves; the second push is
no longer for it and reaches client 2 first. -/
def overtaking : List Action :=
  [.join 1 [1], .join 2 [1, 2], .dispatch firstPush, .write 1, .leave 1, .dispatch secondPush,
    .write 2, .drained 2, .drained 1, .write 2, .drained 2]

theorem second_push_first :
    ¬ ∀ s, Runs.run (step 4) init overtaking = some s → s.Quiet →
      ∀ c ∈ s.clients, s.pushesTo c = s.pushesSince c := by
  intro supposed
  have got : (Runs.run (step 4) init overtaking).map (fun s =>
      (decide s.Quiet, s.clients, decide (s.pushesTo 2 = s.pushesSince 2))) =
        some (true, [2], false) := by
    decide +kernel
  simp only [Option.map_eq_some_iff, Prod.mk.injEq, decide_eq_true_eq,
    decide_eq_false_iff_not] at got
  obtain ⟨s, hs, quiet, clients, swapped⟩ := got
  exact swapped (supposed s hs quiet 2 (by simp [clients]))

end MeshwardenDaemon.PushFanout
