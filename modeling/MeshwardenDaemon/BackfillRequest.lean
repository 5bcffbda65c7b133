import MeshwardenDaemon.BackfillSpecification
import MeshwardenDaemon.Interruption

/-! `BackfillMessageChannels`: one loop checks the channels of the request and stores
them, and then the backfill runs. -/
namespace MeshwardenDaemon.BackfillRequest
open Library KeyedTable ChannelTable MessageTable GroupText PacketTable PacketScan BackfillRun
  Interruption

structure ChannelSecret where
  name : String
  secret : Secret
  now : ℕ
  deriving DecidableEq

def ChannelSecret.valid (extra : ChannelSecret) : Bool := extra.secret.length = 16

inductive Answer
  /-- `context.abort` with INVALID_ARGUMENT. -/
  | invalidArgument (details : String)
  | response (result : BackfillResult)
  /-- The backfill raises. -/
  | raised
  deriving DecidableEq

/-- The details of the abort; `repr` is the `!r` of a format string. -/
def ChannelSecret.details (repr : String → String) (extra : ChannelSecret) : String :=
  "channel " ++ repr extra.name ++ ": secret must be 16 bytes"

def upsertExtra (t : Channels) (extra : ChannelSecret) : Channels :=
  (t.upsert extra.name extra.secret extra.now).2

def upsertExtras : List ChannelSecret → Channels → Channels × Option ChannelSecret
  | [], t => (t, none)
  | extra :: rest, t =>
    if extra.valid then upsertExtras rest (upsertExtra t extra) else (t, some extra)

def backfillMessageChannels (P : Primitives) (parser : PacketParser) (repr : String → String)
    (packets : Packets) (extras : List ChannelSecret) (t : Channels) (messages : Messages) :
    Answer × Channels × Messages :=
  match upsertExtras extras t with
  | (u, some extra) => (.invalidArgument (extra.details repr), u, messages)
  | (u, none) =>
    match backfill P parser u packets true messages with
    | some (result, after) => (.response result, u, after)
    | none => (.raised, u, messages)

def lastEntry (extras : List ChannelSecret) (secret : Secret) : Option ChannelSecret :=
  extras.findRev? (·.secret = secret)

def accepted (extras : List ChannelSecret) : List ChannelSecret :=
  extras.takeWhile ChannelSecret.valid

def renamed (extras : List ChannelSecret) (r : ChannelRow) : ChannelRow :=
  match lastEntry extras r.secret with
  | some extra => { r with name := extra.name, lastSeen := extra.now }
  | none => r

section upserts
variable {extras : List ChannelSecret} {t u : Channels}

theorem upsertExtras_eq : upsertExtras extras t =
    ((accepted extras).foldl upsertExtra t, extras.find? fun x => !x.valid) := by
  induction extras generalizing t with
  | nil => rfl
  | cons extra rest ih =>
    cases valid : extra.valid with
    | true => simp [upsertExtras, accepted, valid, ih]
    | false => simp [upsertExtras, accepted, valid]

theorem lastEntry_cons (extra : ChannelSecret) (rest : List ChannelSecret) (secret : Secret) :
    lastEntry (extra :: rest) secret =
      (lastEntry rest secret).or (if extra.secret = secret then some extra else none) := by
  simp only [lastEntry, List.findRev?]
  cases rest.findRev? (·.secret = secret) with
  | none => by_cases own : extra.secret = secret <;> simp [own]
  | some last => rfl

theorem lastEntry_eq_none {secret : Secret} :
    lastEntry extras secret = none ↔ ∀ x ∈ extras, x.secret ≠ secret := by
  induction extras with
  | nil => simp [lastEntry, List.findRev?]
  | cons extra rest ih => simp [lastEntry_cons, Option.or_eq_none_iff, ih, and_comm]

@[simp] theorem renamed_secret (r : ChannelRow) : (renamed extras r).secret = r.secret := by
  unfold renamed
  split <;> rfl

theorem renamed_cons (extra : ChannelSecret) (rest : List ChannelSecret) (r : ChannelRow) :
    renamed (extra :: rest) r =
      renamed rest (if r.secret = extra.secret then
        { r with name := extra.name, lastSeen := extra.now } else r) := by
  by_cases own : r.secret = extra.secret
  · rw [if_pos own]
    unfold renamed
    rw [lastEntry_cons, if_pos own.symm]
    cases lastEntry rest r.secret <;> rfl
  · rw [if_neg own]
    unfold renamed
    rw [lastEntry_cons, if_neg (Ne.symm own), Option.or_none]

theorem upsertExtra_rows (t : Channels) (extra : ChannelSecret) :
    ((∃ r ∈ t.rows, r.secret = extra.secret) ∧
      (upsertExtra t extra).rows = t.rows.map fun r => if r.secret = extra.secret then
        { r with name := extra.name, lastSeen := extra.now } else r) ∨
    (∀ r ∈ t.rows, r.secret ≠ extra.secret) ∧ ∃ row : ChannelRow,
      row.secret = extra.secret ∧ row.name = extra.name ∧
        (upsertExtra t extra).rows = t.rows ++ [row] := by
  simp only [upsertExtra, Channels.upsert]
  split
  · rename_i r found
    refine Or.inl ⟨⟨r, List.mem_of_find?_eq_some found, by simpa using List.find?_some found⟩, ?_⟩
    simp [updateWhere]
  · rename_i absent
    exact Or.inr ⟨by simpa using absent, _, rfl, rfl, rfl⟩

structure UpsertedAll (extras : List ChannelSecret) (before after added : List ChannelRow) :
    Prop where
  rows : after = before.map (renamed extras) ++ added
  fresh : ∀ r ∈ added, (∀ x ∈ before, x.secret ≠ r.secret) ∧
    ∃ last ∈ lastEntry extras r.secret, r.name = last.name
  listed : ∀ x ∈ extras, ∃ r ∈ after, r.secret = x.secret

section first
variable {extra : ChannelSecret} {rest : List ChannelSecret}
  {before next after added : List ChannelRow}

theorem UpsertedAll.kept (h : UpsertedAll rest next after added) {row : ChannelRow}
    (hrow : row ∈ next) : ∃ r ∈ after, r.secret = row.secret := by
  rw [h.rows]
  exact ⟨_, List.mem_append_left _ (List.mem_map_of_mem hrow), renamed_secret row⟩

theorem UpsertedAll.known (h : UpsertedAll rest next after added)
    (old : ∃ r ∈ before, r.secret = extra.secret)
    (first : next = before.map fun r => if r.secret = extra.secret then
      { r with name := extra.name, lastSeen := extra.now } else r) :
    UpsertedAll (extra :: rest) before after added := by
  have kept : ∀ x ∈ before, ∃ y ∈ next, y.secret = x.secret := by
    intro x hx
    rw [first]
    exact ⟨_, List.mem_map_of_mem hx, by split <;> rfl⟩
  refine ⟨?_, fun r hr => ⟨fun x hx => ?_, ?_⟩, fun x hx => ?_⟩
  · rw [h.rows, first, List.map_map]
    congr 1
    exact List.map_congr_left fun r _ => (renamed_cons extra rest r).symm
  · obtain ⟨y, hy, secret⟩ := kept x hx
    exact secret ▸ (h.fresh r hr).1 y hy
  · obtain ⟨last, found, name⟩ := (h.fresh r hr).2
    exact ⟨last, by rw [lastEntry_cons, found]; rfl, name⟩
  · rcases List.mem_cons.mp hx with rfl | hx
    · obtain ⟨r, hr, same⟩ := old
      obtain ⟨y, hy, secret⟩ := kept r hr
      obtain ⟨z, hz, own⟩ := h.kept hy
      exact ⟨z, hz, own.trans (secret.trans same)⟩
    · exact h.listed x hx

theorem UpsertedAll.new (h : UpsertedAll rest next after added) {row : ChannelRow}
    (unknown : ∀ r ∈ before, r.secret ≠ extra.secret) (same : row.secret = extra.secret)
    (named : row.name = extra.name) (first : next = before ++ [row]) :
    UpsertedAll (extra :: rest) before after (renamed rest row :: added) := by
  have untouched : before.map (renamed rest) = before.map (renamed (extra :: rest)) := by
    refine List.map_congr_left fun r hr => ?_
    rw [renamed_cons, if_neg (unknown r hr)]
  refine ⟨?_, fun r hr => ?_, fun x hx => ?_⟩
  · rw [h.rows, first, ← untouched, List.map_append, List.append_assoc]
    rfl
  · rcases List.mem_cons.mp hr with rfl | hr
    · refine ⟨fun x hx => ?_, ?_⟩
      · rw [renamed_secret, same]
        exact unknown x hx
      · rw [renamed_secret, lastEntry_cons, if_pos same.symm]
        unfold renamed
        cases lastEntry rest row.secret with
        | none => exact ⟨extra, rfl, named⟩
        | some last => exact ⟨last, rfl, rfl⟩
    · obtain ⟨other, last, found, name⟩ := h.fresh r hr
      refine ⟨fun x hx => other x ?_, last, by rw [lastEntry_cons, found]; rfl, name⟩
      rw [first]
      exact List.mem_append_left _ hx
  · rcases List.mem_cons.mp hx with rfl | hx
    · have stored : row ∈ next := by
        rw [first]
        exact List.mem_append_right _ (List.mem_singleton_self row)
      obtain ⟨r, hr, secret⟩ := h.kept stored
      exact ⟨r, hr, secret.trans same⟩
    · exact h.listed x hx

end first

theorem foldl_upsertExtra_rows (extras : List ChannelSecret) (t : Channels) :
    ∃ added, UpsertedAll extras t.rows (extras.foldl upsertExtra t).rows added := by
  induction extras generalizing t with
  | nil => exact ⟨[], by rw [List.append_nil]; exact (List.map_id _).symm, by simp, by simp⟩
  | cons extra rest ih =>
    obtain ⟨added, later⟩ := ih (upsertExtra t extra)
    rcases upsertExtra_rows t extra with ⟨old, first⟩ | ⟨unknown, row, same, named, first⟩
    · exact ⟨added, later.known old first⟩
    · exact ⟨_, later.new unknown same named first⟩

theorem lastEntry_mem {secret : Secret} {last : ChannelSecret}
    (h : lastEntry extras secret = some last) : last ∈ extras ∧ last.secret = secret := by
  rw [lastEntry, List.findRev?_eq_find?_reverse] at h
  exact ⟨List.mem_reverse.mp (List.mem_of_find?_eq_some h), by simpa using List.find?_some h⟩

theorem exists_lastEntry {x : ChannelSecret} (hx : x ∈ extras) :
    ∃ last, lastEntry extras x.secret = some last := by
  cases found : lastEntry extras x.secret with
  | none => exact absurd rfl (lastEntry_eq_none.mp found x hx)
  | some last => exact ⟨last, rfl⟩

theorem foldl_upsertExtra_eq_iff : extras.foldl upsertExtra t = t ↔
    ∀ x ∈ extras, ∃ last ∈ lastEntry extras x.secret, Known t last.name x.secret last.now := by
  obtain ⟨added, ⟨rows, fresh, listed⟩⟩ := foldl_upsertExtra_rows extras t
  refine ⟨fun same x hx => ?_, fun stored => ?_⟩
  · rw [same] at rows listed
    have none_added : added = [] := by
      have length := congrArg List.length rows
      rw [List.length_append, List.length_map] at length
      exact List.length_eq_zero_iff.mp (by omega)
    rw [none_added, List.append_nil] at rows
    have fixed : ∀ r ∈ t.rows, renamed extras r = r :=
      List.map_inj_left.mp (rows.symm.trans (List.map_id _).symm)
    obtain ⟨last, found⟩ := exists_lastEntry hx
    obtain ⟨r, hr, own⟩ := listed x hx
    have as_is := fixed r hr
    rw [renamed, own, found] at as_is
    exact ⟨last, found, r, hr, own, (congrArg ChannelRow.name as_is).symm,
      (congrArg ChannelRow.lastSeen as_is).symm⟩
  · have none_added : added = [] := by
      refine List.eq_nil_iff_forall_not_mem.mpr fun r hr => ?_
      obtain ⟨other, last, found, -⟩ := fresh r hr
      obtain ⟨mem, own⟩ := lastEntry_mem found
      obtain ⟨-, -, x, hx, secret, -⟩ := stored last mem
      exact other x hx (secret.trans own)
    apply Channels.ext_rows
    rw [rows, none_added, List.append_nil]
    refine (List.map_congr_left fun r hr => ?_).trans (List.map_id _)
    cases found : lastEntry extras r.secret with
    | none => rw [renamed, found]; rfl
    | some last =>
      obtain ⟨mem, own⟩ := lastEntry_mem found
      obtain ⟨last', found', x, hx, secret, named, seen⟩ := stored last mem
      rw [own, found] at found'
      obtain rfl := Option.some.inj found'
      obtain rfl := t.secret_unique.eq_of_mem hx hr (congrArg some (secret.trans own)) rfl
      rw [renamed, found]
      simp only [← named, ← seen]
      rfl

theorem foldl_upsertExtra_listed {x : ChannelSecret} (hx : x ∈ extras) :
    ∃ last ∈ lastEntry extras x.secret, ∃ r,
      (extras.foldl upsertExtra t).rows.filter (·.secret = x.secret) = [r] ∧
        r.name = last.name := by
  obtain ⟨added, ⟨rows, fresh, listed⟩⟩ := foldl_upsertExtra_rows extras t
  obtain ⟨last, found⟩ := exists_lastEntry hx
  obtain ⟨r, hr, own⟩ := listed x hx
  refine ⟨last, found, r, Unique.filter_eq_singleton (Channels.secret_unique _) hr
    (congrArg some own), ?_⟩
  rw [rows] at hr
  rcases List.mem_append.mp hr with old | new
  · obtain ⟨y, -, rfl⟩ := List.mem_map.mp old
    rw [renamed_secret] at own
    rw [renamed, own, found]
  · obtain ⟨-, last', found', named⟩ := fresh r new
    rw [own, found] at found'
    rw [named, Option.some.inj found']

theorem foldl_upsertExtra_unlisted :
    (extras.foldl upsertExtra t).rows.filter (fun r => ∀ x ∈ extras, x.secret ≠ r.secret) =
      t.rows.filter fun r => ∀ x ∈ extras, x.secret ≠ r.secret := by
  obtain ⟨added, ⟨rows, fresh, -⟩⟩ := foldl_upsertExtra_rows extras t
  have none_added : added.filter (fun r => ∀ x ∈ extras, x.secret ≠ r.secret) = [] := by
    refine List.filter_eq_nil_iff.mpr fun r hr => ?_
    obtain ⟨-, last, found, -⟩ := fresh r hr
    obtain ⟨mem, own⟩ := lastEntry_mem found
    simpa using ⟨last, mem, own⟩
  rw [rows, List.filter_append, none_added, List.append_nil, List.filter_map]
  simp only [Function.comp_def, renamed_secret]
  refine (List.map_congr_left fun r hr => ?_).trans (List.map_id _)
  have unlisted : lastEntry extras r.secret = none :=
    lastEntry_eq_none.mpr (by simpa using (List.mem_filter.mp hr).2)
  rw [renamed, unlisted]
  rfl

end upserts

/-- A request with a bad secret is rejected, and leaves the messages as they are; it leaves
the channels as they are exactly if each entry before the first bad one is stored as the
last of these entries of its secret would store it. Any other request stores the listed
channels under their last names and no others before the backfill runs. -/
theorem rejected_request_iff (P : Primitives) (parser : PacketParser) (repr : String → String)
    (packets : Packets) (extras : List ChannelSecret) (t : Channels) (messages : Messages) :
    ((∃ x ∈ extras, x.secret.length ≠ 16) → ∃ bad u,
      extras.find? (fun x => !x.valid) = some bad ∧
      backfillMessageChannels P parser repr packets extras t messages =
        (.invalidArgument (bad.details repr), u, messages) ∧
      (u = t ↔ ∀ x ∈ accepted extras, ∃ last ∈ lastEntry (accepted extras) x.secret,
        Known t last.name x.secret last.now)) ∧
    ((∀ x ∈ extras, x.secret.length = 16) → ∃ u,
      backfillMessageChannels P parser repr packets extras t messages =
        (match backfill P parser u packets true messages with
          | some (result, after) => (.response result, u, after)
          | none => (.raised, u, messages)) ∧
      (∀ x ∈ extras, ∃ last ∈ lastEntry extras x.secret, ∃ r,
        u.rows.filter (·.secret = x.secret) = [r] ∧ r.name = last.name) ∧
      u.rows.filter (fun r => ∀ x ∈ extras, x.secret ≠ r.secret) =
        t.rows.filter fun r => ∀ x ∈ extras, x.secret ≠ r.secret) := by
  refine ⟨fun some_bad => ?_, fun all_valid => ?_⟩
  · have found : (extras.find? fun x => !x.valid).isSome = true := by
      rw [List.find?_isSome]
      simpa [ChannelSecret.valid] using some_bad
    obtain ⟨bad, found⟩ := Option.isSome_iff_exists.mp found
    refine ⟨bad, _, found, ?_, foldl_upsertExtra_eq_iff⟩
    rw [backfillMessageChannels, upsertExtras_eq, found]
  · have none_bad : (extras.find? fun x => !x.valid) = none := by
      rw [List.find?_eq_none]
      simpa [ChannelSecret.valid] using all_valid
    have all_accepted : accepted extras = extras := by
      rw [accepted, List.takeWhile_eq_self_iff]
      simpa [ChannelSecret.valid] using all_valid
    refine ⟨extras.foldl upsertExtra t, ?_, fun x hx => foldl_upsertExtra_listed hx,
      foldl_upsertExtra_unlisted⟩
    rw [backfillMessageChannels, upsertExtras_eq, none_bad, all_accepted]

def quoted (name : String) : String := "'" ++ name ++ "'"

def shortSecond : List ChannelSecret :=
  [⟨"x", List.replicate 16 7, 5⟩, ⟨"y", [7], 6⟩]

def storedX : Channels := (Channels.empty.upsert "x" (List.replicate 16 7) 5).2

theorem rejected_request_iff_storedX :
    backfillMessageChannels recorded directParser quoted .empty shortSecond storedX .empty =
      (.invalidArgument "channel 'y': secret must be 16 bytes", storedX, .empty) := by
  obtain ⟨bad, u, found, call, same⟩ := (rejected_request_iff recorded directParser quoted .empty
    shortSecond storedX .empty).1 (by decide)
  obtain rfl : (⟨"y", [7], 6⟩ : ChannelSecret) = bad := by
    simpa [shortSecond, ChannelSecret.valid] using found
  rw [call, same.mpr (by unfold Known; decide)]
  rfl

/-- The first channel stays in a table that did not have it. -/
theorem rejected_request_stored :
    ¬ ∃ answer, backfillMessageChannels recorded directParser quoted .empty shortSecond .empty
      .empty = (answer, .empty, .empty) := by
  rintro ⟨answer, unchanged⟩
  have stored : (backfillMessageChannels recorded directParser quoted .empty shortSecond .empty
      .empty).2.1.rows.length = 1 := by
    decide +kernel
  rw [unchanged] at stored
  cases stored

end MeshwardenDaemon.BackfillRequest
