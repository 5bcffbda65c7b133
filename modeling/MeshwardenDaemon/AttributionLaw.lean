import MeshwardenDaemon.ChannelBackfill

/-! The law of channel attribution: it only improves, and only on channel messages
whose channel is not settled. A backfill writes by row id long after it has read its
candidates, so the law rests on the id still standing for the candidate. -/
namespace MeshwardenDaemon.ChannelBackfill
open ChannelTable MessageTable Library Library.KeyedTable

def SameAttribution (r r' : MessageRow) : Prop :=
  r'.channelId = r.channelId ∧ r'.channelSource = r.channelSource

/-- What a step may do to the attribution of a stored message. -/
structure Improves (r r' : MessageRow) : Prop where
  contact : r.scope = .contact → SameAttribution r r'
  settled : r.channelSource = some .slot ∨ r.channelSource = some .decrypted →
    SameAttribution r r'
  moves : SameAttribution r r' ∨ r'.channelSource = some .inferred ∨
    r'.channelSource = some .decrypted

theorem Improves.refl (r : MessageRow) : Improves r r :=
  ⟨fun _ => ⟨rfl, rfl⟩, fun _ => ⟨rfl, rfl⟩, Or.inl ⟨rfl, rfl⟩⟩

/-- The step improves what it changes; pointing slots elsewhere changes nothing. -/
def Lawful (s : State) (a : Action) : Prop :=
  ∀ t, step s a = some t →
    (∀ r ∈ s.messages.rows, ∀ r' ∈ t.messages.rows, r.id = r'.id → Improves r r') ∧
    (a.repoints = true → t.messages.rows = s.messages.rows)

def Coherent (r : MessageRow) : Prop := r.channelId = none ↔ r.channelSource = none

structure Marked (s : State) : Prop where
  coherent : ∀ r ∈ s.messages.rows, Coherent r
  born_lt : ∀ r ∈ s.messages.rows, r.born < s.born
  adds : ∀ a ∈ s.adds, a.message.scope = .contact → a.channelId = none
  marks_lt : ∀ m ∈ Progress.marks s.run, m.2 < s.born
  marks_unique : (Progress.marks s.run).Pairwise fun m m' => m.1 ≠ m'.1
  /-- A row that is still the candidate is still open. -/
  candidate : ∀ m ∈ Progress.marks s.run, ∀ r ∈ s.messages.rows, r.id = m.1 → r.born = m.2 →
    r.scope = .channel ∧ (r.channelSource = none ∨ r.channelSource = some .inferred)
  /-- A row that has taken a candidate's id is as it was inserted. -/
  reused : ∀ m ∈ Progress.marks s.run, ∀ r ∈ s.messages.rows, r.id = m.1 → r.born ≠ m.2 →
    (r.channelSource = none ∨ r.channelSource = some .slot) ∧
    (r.scope = .contact → r.channelSource = none)
  sources : ∀ us, s.run = some (.writing us) → ∀ u ∈ us,
    u.source = .inferred ∨ u.source = .decrypted

theorem init_marked {channels : Channels} {messages : Messages}
    (coherent : ∀ r ∈ messages.rows, Coherent r) :
    Marked (init channels messages) where
  coherent := coherent
  born_lt r hr := key_lt_nextKey hr
  adds := by simp [init]
  marks_lt := by simp [init, Progress.marks]
  marks_unique := by simp [init, Progress.marks]
  candidate := by simp [init, Progress.marks]
  reused := by simp [init, Progress.marks]
  sources := by simp [init]

theorem open_of_isCandidate {includeInferred : Bool} {r : MessageRow}
    (h : r.isCandidate includeInferred = true) :
    r.scope = .channel ∧ (r.channelSource = none ∨ r.channelSource = some .inferred) := by
  simp only [MessageRow.isCandidate, Bool.and_eq_true, Bool.or_eq_true, decide_eq_true_eq] at h
  exact ⟨h.1, h.2.imp_right And.right⟩

section Marked
variable {s t : State} {a : Action}

theorem Marked.shrink (h : Marked s) (rows : ∀ r ∈ t.messages.rows, r ∈ s.messages.rows)
    (born : t.born = s.born) (adds : ∀ a ∈ t.adds, a.message.scope = .contact → a.channelId = none)
    (marks : (Progress.marks t.run).Sublist (Progress.marks s.run))
    (sources : ∀ us, t.run = some (.writing us) → ∀ u ∈ us,
      u.source = .inferred ∨ u.source = .decrypted) : Marked t where
  coherent r hr := h.coherent r (rows r hr)
  born_lt r hr := born ▸ h.born_lt r (rows r hr)
  adds := adds
  marks_lt m hm := born ▸ h.marks_lt m (marks.subset hm)
  marks_unique := h.marks_unique.sublist marks
  candidate m hm r hr := h.candidate m (marks.subset hm) r (rows r hr)
  reused m hm r hr := h.reused m (marks.subset hm) r (rows r hr)
  sources := sources

theorem Marked.insert {k ts : ℕ} {a : Pending} (h : Marked s) (adds : s.adds[k]? = some a) :
    Marked { s with
      adds := s.adds.eraseIdx k
      messages := s.messages.insert a.message a.channelId ts s.born
      born := s.born + 1 } where
  coherent r hr := by
    rcases mem_insert.mp hr with old | rfl
    · exact h.coherent r old
    · exact row_unset_iff a.message a.channelId _ ts s.born
  born_lt r hr := by
    rcases mem_insert.mp hr with old | rfl
    · exact (h.born_lt r old).trans (Nat.lt_succ_self _)
    · exact Nat.lt_succ_self _
  adds x hx := h.adds x (List.mem_of_mem_eraseIdx hx)
  marks_lt m hm := (h.marks_lt m hm).trans (Nat.lt_succ_self _)
  marks_unique := h.marks_unique
  candidate m hm r hr hid hborn := by
    rcases mem_insert.mp hr with old | rfl
    · exact h.candidate m hm r old hid hborn
    · exact absurd hborn (h.marks_lt m hm).ne'
  reused m hm r hr hid hborn := by
    rcases mem_insert.mp hr with old | rfl
    · exact h.reused m hm r old hid hborn
    · refine ⟨?_, ?_⟩
      · cases hc : a.channelId <;> simp [NewMessage.row]
      · intro contact
        simp [NewMessage.row, h.adds a (List.mem_of_getElem? adds) contact]
  sources := h.sources

theorem Marked.select {includeInferred : Bool} {run : Option Progress} (h : Marked s)
    (marks : (Progress.marks run).Sublist
      ((s.messages.channelBackfillCandidates includeInferred).map fun m => (m.id, m.born)))
    (updates : ∀ us, run ≠ some (.writing us)) : Marked { s with run := run } := by
  have found : ∀ m ∈ Progress.marks run, ∃ c ∈ s.messages.rows,
      c.isCandidate includeInferred = true ∧ (c.id, c.born) = m := by
    intro m hm
    obtain ⟨c, hc, rfl⟩ := List.mem_map.mp (marks.subset hm)
    obtain ⟨hrow, hopen⟩ := List.mem_filter.mp hc
    exact ⟨c, hrow, hopen, rfl⟩
  refine ⟨h.coherent, h.born_lt, h.adds, fun m hm => ?_, ?_, fun m hm r hr hid hborn => ?_,
    fun m hm r hr hid hborn => ?_, fun us hus => absurd hus (updates us)⟩
  · obtain ⟨c, hc, _, rfl⟩ := found m hm
    exact h.born_lt c hc
  · refine List.Pairwise.sublist marks (List.pairwise_map.mpr ?_)
    refine (s.messages.id_unique.filter (MessageRow.isCandidate includeInferred)).imp ?_
    exact fun hne heq => hne _ rfl (congrArg some heq.symm)
  · obtain ⟨c, hc, hopen, rfl⟩ := found m hm
    obtain rfl := eq_of_id hr hc hid
    exact open_of_isCandidate hopen
  · obtain ⟨c, hc, _, rfl⟩ := found m hm
    obtain rfl := eq_of_id hr hc hid
    exact absurd rfl hborn

theorem Marked.write {u : Update} {rest : List Update} (h : Marked s)
    (run : s.run = some (.writing (u :: rest))) :
    Marked { s with
      messages := s.messages.setChannel u.channelId u.source u.messageId
      run := some (.writing rest) } := by
  have marks : Progress.marks s.run = (u.messageId, u.born) ::
      Progress.marks (some (.writing rest)) := by
    rw [run]
    rfl
  have unique := h.marks_unique
  rw [marks, List.pairwise_cons] at unique
  have later : ∀ m ∈ Progress.marks (some (.writing rest)), m ∈ Progress.marks s.run :=
    fun m hm => marks ▸ List.mem_cons_of_mem _ hm
  -- the row being written is not marked any more
  have old : ∀ m ∈ Progress.marks (some (.writing rest)),
      ∀ r ∈ (s.messages.setChannel u.channelId u.source u.messageId).rows, r.id = m.1 →
      r ∈ s.messages.rows := by
    intro m hm r hr hid
    rcases mem_setChannel.mp hr with ⟨kept, _⟩ | ⟨x, _, hx, rfl⟩
    · exact kept
    · exact absurd (hx.symm.trans hid) (unique.1 m hm)
  refine ⟨fun r hr => ?_, fun r hr => ?_, h.adds, fun m hm => h.marks_lt m (later m hm),
    unique.2, fun m hm r hr hid => h.candidate m (later m hm) r (old m hm r hr hid) hid,
    fun m hm r hr hid => h.reused m (later m hm) r (old m hm r hr hid) hid, ?_⟩
  · rcases mem_setChannel.mp hr with ⟨kept, _⟩ | ⟨x, _, _, rfl⟩
    · exact h.coherent r kept
    · simp [Coherent]
  · rcases mem_setChannel.mp hr with ⟨kept, _⟩ | ⟨x, hx, _, rfl⟩
    · exact h.born_lt r kept
    · exact h.born_lt x hx
  · rintro us ⟨⟩ v hv
    exact h.sources _ run v (List.mem_cons_of_mem u hv)

theorem Marked.move (h : Marked s) (m : Move s a t) : Marked t := by
  cases m with
  | channels =>
    exact h.shrink (fun _ hr => hr) rfl h.adds (List.Sublist.refl _) h.sources
  | @looksUp m =>
    refine h.shrink (fun _ hr => hr) rfl (fun x hx contact => ?_) (List.Sublist.refl _) h.sources
    rcases List.mem_append.mp hx with old | new
    · exact h.adds x old contact
    · obtain rfl := List.mem_singleton.mp new
      exact lookup_contact s.channels contact
  | inserts adds => exact h.insert adds
  | prunes =>
    exact h.shrink (fun _ hr => (mem_prune.mp hr).1) rfl h.adds (List.Sublist.refl _) h.sources
  | selects marks updates => exact h.select marks updates
  | proceeds idle marks updates => exact h.shrink (fun _ hr => hr) rfl h.adds marks updates
  | writes run => exact h.write run

theorem Marked.step (h : Marked s) (hs : ChannelBackfill.step s a = some t) : Marked t :=
  h.move (move_of_step hs)

end Marked

def Progress.nextUpdate : Option Progress → Option Update
  | some (.writing (u :: _)) => some u
  | _ => none

/-- The row about to be written is the candidate that was read, or another channel
message without a channel that has taken its id. -/
def SameCandidate (s : State) : Action → Prop
  | .backfillWrite => ∀ u ∈ Progress.nextUpdate s.run, ∀ r ∈ s.messages.rows,
      r.id = u.messageId → r.born = u.born ∨ (r.scope = .channel ∧ r.channelSource = none)
  | _ => True

instance (s : State) (a : Action) : Decidable (SameCandidate s a) := by
  unfold SameCandidate
  induction a using Action.casesOn <;> infer_instance

section Lawful
variable {s t : State} {a : Action}

theorem write_lawful_iff {u : Update} {rest : List Update} (h : Marked s)
    (run : s.run = some (.writing (u :: rest))) :
    (∀ r ∈ s.messages.rows,
      ∀ r' ∈ (s.messages.setChannel u.channelId u.source u.messageId).rows,
      r.id = r'.id → Improves r r') ↔
    ∀ r ∈ s.messages.rows, r.id = u.messageId →
      r.born = u.born ∨ (r.scope = .channel ∧ r.channelSource = none) := by
  have mark : (u.messageId, u.born) ∈ Progress.marks s.run := by
    rw [run]
    exact List.mem_cons_self
  have source := h.sources _ run u List.mem_cons_self
  refine ⟨?_, ?_⟩
  · intro improves r hr hid
    by_cases hborn : r.born = u.born
    · exact Or.inl hborn
    right
    obtain ⟨asInserted, contact⟩ := h.reused _ mark r hr hid hborn
    have better := improves r hr _ (mem_setChannel.mpr (Or.inr ⟨r, hr, hid, rfl⟩)) rfl
    have noSource : r.channelSource = none := by
      refine asInserted.resolve_right fun slot => ?_
      have same := (better.settled (Or.inl slot)).2.trans slot
      rcases source with inferred | decrypted
      · simp [inferred] at same
      · simp [decrypted] at same
    refine ⟨?_, noSource⟩
    cases hscope : r.scope with
    | channel => rfl
    | contact =>
      have same := (better.contact hscope).2.trans noSource
      cases same
  · intro still r hr r' hr' hid
    rcases mem_setChannel.mp hr' with ⟨kept, _⟩ | ⟨x, hx, hxid, rfl⟩
    · obtain rfl := eq_of_id hr kept hid
      exact Improves.refl r
    · obtain rfl := eq_of_id hr hx hid
      have isOpen : r.scope = .channel ∧
          (r.channelSource = none ∨ r.channelSource = some .inferred) := by
        rcases still r hr hxid with hborn | ⟨channel, noSource⟩
        · exact h.candidate _ mark r hr hxid hborn
        · exact ⟨channel, Or.inl noSource⟩
      obtain ⟨channel, none | inferred⟩ := isOpen
      · refine ⟨fun contact => ?_, fun settled => ?_, Or.inr (source.imp (congrArg some)
          (congrArg some))⟩
        · simp [channel] at contact
        · simp [none] at settled
      · refine ⟨fun contact => ?_, fun settled => ?_, Or.inr (source.imp (congrArg some)
          (congrArg some))⟩
        · simp [channel] at contact
        · simp [inferred] at settled

theorem same_rows_improve (rows : ∀ r ∈ t.messages.rows, r ∈ s.messages.rows) :
    ∀ r ∈ s.messages.rows, ∀ r' ∈ t.messages.rows, r.id = r'.id → Improves r r' := by
  intro r hr r' hr' hid
  obtain rfl := eq_of_id hr (rows r' hr') hid
  exact Improves.refl r

theorem lawful_iff (h : Marked s) (hs : step s a = some t) :
    Lawful s a ↔ SameCandidate s a := by
  have body : Lawful s a ↔
      (∀ r ∈ s.messages.rows, ∀ r' ∈ t.messages.rows, r.id = r'.id → Improves r r') ∧
      (a.repoints = true → t.messages.rows = s.messages.rows) := by
    simp only [Lawful, hs, Option.some.injEq, forall_eq']
  rw [body]
  cases move_of_step hs with
  | channels repoints =>
    refine iff_of_true ⟨same_rows_improve fun _ hr => hr, fun _ => rfl⟩ ?_
    cases a <;> trivial
  | looksUp => exact iff_of_true ⟨same_rows_improve fun _ hr => hr, fun _ => rfl⟩ trivial
  | selects => exact iff_of_true ⟨same_rows_improve fun _ hr => hr, fun _ => rfl⟩ trivial
  | inserts =>
    refine iff_of_true ⟨fun r hr r' hr' hid => ?_, nofun⟩ trivial
    rcases mem_insert.mp hr' with old | rfl
    · obtain rfl := eq_of_id hr old hid
      exact Improves.refl r
    · exact absurd hid (id_ne_nextId hr)
  | prunes =>
    exact iff_of_true ⟨same_rows_improve fun _ hr => (mem_prune.mp hr).1, nofun⟩ trivial
  | proceeds idle =>
    refine iff_of_true ⟨same_rows_improve fun _ hr => hr, fun _ => rfl⟩ ?_
    cases a with
    | backfillWrite => simp [SameCandidate, Progress.nextUpdate, idle rfl]
    | _ => trivial
  | writes run =>
    simp only [SameCandidate, run, Progress.nextUpdate, Option.mem_def, Option.some.injEq,
      forall_eq']
    rw [← write_lawful_iff h run]
    exact and_iff_left nofun

theorem contact_step (h : Marked s) (same : SameCandidate s a)
    (contact : ∀ r ∈ s.messages.rows, r.scope = .contact → r.channelId = none)
    (hs : step s a = some t) :
    ∀ r ∈ t.messages.rows, r.scope = .contact → r.channelId = none := by
  intro r hr hscope
  cases move_of_step hs with
  | inserts adds =>
    rcases mem_insert.mp hr with old | rfl
    · exact contact r old hscope
    · exact h.adds _ (List.mem_of_getElem? adds) hscope
  | prunes => exact contact r (mem_prune.mp hr).1 hscope
  | @writes u rest run =>
    rcases mem_setChannel.mp hr with ⟨kept, _⟩ | ⟨x, hx, hxid, rfl⟩
    · exact contact r kept hscope
    · have mark : (u.messageId, u.born) ∈ Progress.marks s.run := by
        rw [run]
        exact List.mem_cons_self
      have channel : x.scope = .channel := by
        rcases same u (by rw [run]; rfl) x hx hxid with hborn | ⟨channel, _⟩
        · exact (h.candidate _ mark x hx hxid hborn).1
        · exact channel
      exact absurd (channel.symm.trans hscope) nofun
  | channels | looksUp | selects | proceeds => exact contact r hr hscope

end Lawful

/-- In every run, every row has a channel exactly when it has a source, and: contact
rows have none and every step is lawful, exactly when each write of a backfill finds
the candidate it was decided for, or an unattributed channel message in its place. -/
theorem attribution_lawful_iff (channels : Channels) (messages : Messages)
    (coherent : ∀ r ∈ messages.rows, Coherent r)
    (contact : ∀ r ∈ messages.rows, r.scope = .contact → r.channelId = none)
    (acts : List Action) (s : State)
    (hrun : Runs.run step (init channels messages) acts = some s) :
    (∀ r ∈ s.messages.rows, Coherent r) ∧
    (((∀ r ∈ s.messages.rows, r.scope = .contact → r.channelId = none) ∧
        Runs.Along step Lawful (init channels messages) acts) ↔
      Runs.Along step SameCandidate (init channels messages) acts) := by
  have start : Marked (init channels messages) := init_marked coherent
  have marked : ∀ s a t, Marked s → step s a = some t → Marked t := fun _ _ _ h hs => h.step hs
  have lawful := Runs.along_congr (C := Lawful) (D := SameCandidate) marked
    (fun _ _ _ h hs => lawful_iff h hs) start hrun
  refine ⟨?_, ?_⟩
  · exact (Runs.reachable marked start hrun).coherent
  · refine ⟨fun h => lawful.mp h.2, fun same => ⟨?_, lawful.mpr same⟩⟩
    have both := Runs.invariant (I := fun s => Marked s ∧
      ∀ r ∈ s.messages.rows, r.scope = .contact → r.channelId = none) ?_ ⟨start, contact⟩ same hrun
    · exact both.2
    · rintro s a t ⟨h, hc⟩ hsame hs
      exact ⟨h.step hs, contact_step h hsame hc hs⟩

def candidateRun : List Action :=
  [.lookupChannel { scope := .channel, text := "hi", channelIdx := some 0 },
    .insertMessage 0 100, .upsert "ops" [7] 5, .setSlot 0 1, .backfillSelect false,
    .backfillList, .backfillScan []]

def contactMessage : NewMessage := { scope := .contact, text := "yo" }

theorem attribution_lawful_beside_add :
    ∃ s, Runs.run step (init .empty .empty) (candidateRun ++
        [.lookupChannel contactMessage, .insertMessage 0 200, .backfillWrite]) = some s ∧
      ∀ r ∈ s.messages.rows, r.scope = .contact → r.channelId = none := by
  obtain ⟨s, hs⟩ := Option.isSome_iff_exists.mp
    (by decide +kernel : (Runs.run step (init .empty .empty) (candidateRun ++
      [.lookupChannel contactMessage, .insertMessage 0 200, .backfillWrite])).isSome = true)
  obtain ⟨_, lawful⟩ := attribution_lawful_iff .empty .empty (by simp [Messages.empty])
    (by simp [Messages.empty]) _ s hs
  exact ⟨s, hs, (lawful.mpr (by decide +kernel)).1⟩

/-- Retention removes the candidate, the newest row, while its packets are scanned;
the next message, from a contact, takes its id and then its channel. -/
theorem reused_id_attributed :
    ¬ ∀ s, Runs.run step (init .empty .empty) (candidateRun ++ [.prune 150,
        .lookupChannel contactMessage, .insertMessage 0 200, .backfillWrite]) = some s →
      ∀ r ∈ s.messages.rows, r.scope = .contact → r.channelId = none := by
  intro supposed
  have got : (Runs.run step (init .empty .empty) (candidateRun ++ [.prune 150,
      .lookupChannel contactMessage, .insertMessage 0 200, .backfillWrite])).map
        (fun s => s.messages.rows) =
      some [⟨1, 200, .contact, none, some 1, some .inferred, none, "yo", 2⟩] := by
    decide +kernel
  rw [Option.map_eq_some_iff] at got
  obtain ⟨s, hs, rows⟩ := got
  have unset := supposed s hs ⟨1, 200, .contact, none, some 1, some .inferred, none, "yo", 2⟩
    (by simp [rows]) rfl
  cases unset

end MeshwardenDaemon.ChannelBackfill
