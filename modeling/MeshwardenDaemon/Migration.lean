import MeshwardenDaemon.Library.Runs
import Mathlib.Data.List.Basic
import Mathlib.Control.Monad.Basic

/-! Opening the database: the statements of SCHEMA one by one, then the migrations the
recorded version asks for, each in one transaction with the version it leads to. The
process may die between any two statements and open the file again. -/
namespace MeshwardenDaemon.Migration
open Library

structure SchemaObject where
  name : String
  columns : List String
  deriving DecidableEq

/-- What the file holds besides the recorded version: its tables and indexes, and the
rows, whatever they are. -/
structure Content (ρ : Type*) where
  objects : List SchemaObject
  rows : ρ
  deriving DecidableEq

/-- A migration script; it fails as a whole where one of its statements fails. -/
abbrev Script (ρ : Type*) := Content ρ → Option (Content ρ)

variable {ρ : Type*}

def Content.has (c : Content ρ) (name : String) : Bool := c.objects.any (·.name = name)

/-- `CREATE TABLE` and `CREATE INDEX`. -/
def Content.create (o : SchemaObject) (c : Content ρ) : Option (Content ρ) :=
  if c.has o.name then none else some { c with objects := c.objects ++ [o] }

/-- `CREATE … IF NOT EXISTS`. -/
def Content.createIfNotExists (o : SchemaObject) (c : Content ρ) : Content ρ :=
  if c.has o.name then c else { c with objects := c.objects ++ [o] }

/-- `ALTER TABLE … ADD COLUMN`; the table has to be there, and not the column. -/
def Content.addColumn (table column : String) (c : Content ρ) : Option (Content ρ) :=
  if c.has table && !(c.objects.any fun o => o.name = table && o.columns.contains column) then
    some { c with objects := c.objects.map fun o =>
      if o.name = table then { o with columns := o.columns ++ [column] } else o }
  else none

def Content.dropObject (name : String) (c : Content ρ) : Option (Content ρ) :=
  if c.has name then some { c with objects := c.objects.filter (·.name ≠ name) } else none

def schema : List SchemaObject :=
  [⟨"meta", ["key", "value"]⟩,
   ⟨"packets", ["id", "ts", "kind", "snr", "rssi", "route_type", "payload_type", "path_len",
      "path", "payload_len", "payload_hex"]⟩,
   ⟨"idx_packets_ts", ["ts"]⟩,
   ⟨"idx_packets_type_ts", ["payload_type", "ts"]⟩,
   ⟨"packet_stats_hourly", ["bucket", "payload_type", "route_type", "count", "total_bytes",
      "sum_snr", "sum_rssi", "min_snr", "max_snr"]⟩,
   ⟨"contacts", ["public_key", "adv_name", "type", "flags", "out_path", "out_path_len",
      "adv_lat", "adv_lon", "last_advert", "lastmod", "first_seen", "last_seen", "on_device",
      "raw_json"]⟩,
   ⟨"idx_contacts_name", ["adv_name"]⟩,
   ⟨"messages", ["id", "ts", "direction", "scope", "peer", "channel_idx", "txt_type",
      "sender_timestamp", "text", "snr", "path_len", "expected_ack", "acked", "origin"]⟩,
   ⟨"idx_messages_ts", ["ts"]⟩,
   ⟨"idx_messages_peer", ["peer", "ts"]⟩,
   ⟨"idx_messages_ack", ["expected_ack"]⟩]

/-- MIGRATIONS; what v3 does to the rows of `contacts` is a parameter. -/
def migrations (repairLastSeen : ρ → ρ) : List (Script ρ) :=
  [fun c => do
    let c ← c.create ⟨"channels", ["id", "secret", "name", "slot", "first_seen", "last_seen"]⟩
    let c ← c.addColumn "messages" "channel_id"
    let c ← c.addColumn "messages" "channel_source"
    c.create ⟨"idx_messages_channel", ["channel_id", "ts"]⟩,
   fun c => some { c with rows := repairLastSeen c.rows }]

structure Database (ρ : Type*) where
  content : Content ρ
  /-- The row `schema_version` of `meta`. -/
  schemaVersion : Option ℕ
  deriving DecidableEq

def Database.version (db : Database ρ) : ℕ := db.schemaVersion.getD 1

/-- `MIGRATIONS[version - 1 :]`; the slice of version 0 begins at the last entry. -/
def pending (scripts : List (Script ρ)) (version : ℕ) : List (Script ρ) :=
  if version = 0 then scripts.drop (scripts.length - 1) else scripts.drop (version - 1)

/-- Where an `open` stands. The pragmas change nothing that is modelled. -/
inductive Session (ρ : Type*)
  | creating (statements : List SchemaObject)
  | migrating (scripts : List (Script ρ × ℕ))
  | opened

structure State (ρ : Type*) where
  db : Database ρ
  session : Option (Session ρ)

inductive Action
  | open
  | statement
  /-- The process dies, or closes the file. -/
  | kill
  deriving DecidableEq

/-- A transaction that fails is rolled back and `open` raises. -/
def step (scripts : List (Script ρ)) (s : State ρ) : Action → Option (State ρ)
  | .open =>
    match s.session with
    | none => some { s with session := some (.creating schema) }
    | some _ => none
  | .statement =>
    match s.session with
    | some (.creating (o :: rest)) => some
        ⟨{ s.db with content := s.db.content.createIfNotExists o }, some (.creating rest)⟩
    | some (.creating []) =>
      let version := s.db.version
      some ⟨s.db, some (.migrating ((pending scripts version).zipIdx (version + 1)))⟩
    | some (.migrating ((script, target) :: rest)) =>
      match script s.db.content with
      | some c => some ⟨⟨c, some target⟩, some (.migrating rest)⟩
      | none => some { s with session := none }
    | some (.migrating []) => some { s with session := some .opened }
    | _ => none
  | .kill => some { s with session := none }

/-- SCHEMA over some rows, and then the first `k` scripts. -/
def upTo (scripts : List (Script ρ)) (rows : ρ) (k : ℕ) : Option (Content ρ) :=
  (scripts.take k).foldlM (fun c script => script c) ⟨schema, rows⟩

/-- The file is SCHEMA followed by the migrations its version names. -/
def Migrated (scripts : List (Script ρ)) (rows : ρ) (db : Database ρ) : Prop :=
  upTo scripts rows (db.version - 1) = some db.content

instance [DecidableEq ρ] (scripts : List (Script ρ)) (rows : ρ) (db : Database ρ) :
    Decidable (Migrated scripts rows db) :=
  inferInstanceAs (Decidable (_ = _))

/-- No migration takes away a table or an index of SCHEMA. -/
def KeepsSchema (scripts : List (Script ρ)) (rows : ρ) : Prop :=
  ∀ k c, upTo scripts rows k = some c → ∀ o ∈ schema, c.has o.name = true

theorem upTo_succ {scripts : List (Script ρ)} {rows : ρ} {k : ℕ} {c : Content ρ}
    {script : Script ρ} (before : upTo scripts rows k = some c)
    (at_k : scripts[k]? = some script) : upTo scripts rows (k + 1) = script c := by
  unfold upTo at before ⊢
  rw [List.take_add_one, at_k, List.foldlM_append, before]
  simp

@[simp] theorem createIfNotExists_of_has {o : SchemaObject} {c : Content ρ}
    (h : c.has o.name = true) :
    c.createIfNotExists o = c := if_pos h

def KeepsNames (script : Script ρ) : Prop :=
  ∀ c d, script c = some d → ∀ name, c.has name = true → d.has name = true

theorem keepsNames_create (o : SchemaObject) : KeepsNames (ρ := ρ) (Content.create o) := by
  intro c d h name hname
  simp only [Content.create, Option.ite_none_left_eq_some, Option.some.injEq] at h
  obtain ⟨-, rfl⟩ := h
  simp only [Content.has, List.any_append] at hname ⊢
  rw [hname, Bool.true_or]

theorem keepsNames_addColumn (table column : String) :
    KeepsNames (ρ := ρ) (Content.addColumn table column) := by
  intro c d h name hname
  simp only [Content.addColumn, Option.ite_none_right_eq_some, Option.some.injEq] at h
  obtain ⟨-, rfl⟩ := h
  simp only [Content.has, List.any_map, List.any_eq_true] at hname ⊢
  obtain ⟨o, ho, same⟩ := hname
  refine ⟨o, ho, ?_⟩
  simp only [Function.comp_apply]
  split <;> exact same

theorem KeepsNames.bind {script next : Script ρ} (h : KeepsNames script) (hn : KeepsNames next) :
    KeepsNames fun c => script c >>= next := by
  intro c e hce name hname
  obtain ⟨d, hd, he⟩ := Option.bind_eq_some_iff.mp hce
  exact hn d e he name (h c d hd name hname)

theorem keepsSchema_of_keepsNames {scripts : List (Script ρ)} {rows : ρ}
    (h : ∀ script ∈ scripts, KeepsNames script) : KeepsSchema scripts rows := by
  have folds : ∀ (l : List (Script ρ)) (c d : Content ρ), (∀ script ∈ l, KeepsNames script) →
      l.foldlM (fun c script => script c) c = some d →
        ∀ name, c.has name = true → d.has name = true := by
    intro l
    induction l with
    | nil =>
      intro c d _ hd name hname
      cases hd
      exact hname
    | cons script l ih =>
      intro c e hl he name hname
      obtain ⟨d, hd, he⟩ := Option.bind_eq_some_iff.mp he
      exact ih d e (fun x hx => hl x (List.mem_cons_of_mem script hx)) he name
        (hl script List.mem_cons_self c d hd name hname)
  intro k c hc o ho
  refine folds _ _ _ (fun script hs => h script (List.mem_of_mem_take hs)) hc o.name ?_
  exact List.any_eq_true.mpr ⟨o, ho, by simp⟩

theorem migrations_keepSchema (repairLastSeen : ρ → ρ) (rows : ρ) :
    KeepsSchema (migrations repairLastSeen) rows := by
  refine keepsSchema_of_keepsNames fun script hs => ?_
  simp only [migrations, List.mem_cons, List.not_mem_nil, or_false] at hs
  rcases hs with rfl | rfl
  · exact (keepsNames_create _).bind ((keepsNames_addColumn _ _).bind
      ((keepsNames_addColumn _ _).bind (keepsNames_create _)))
  · intro c d h name hname
    cases h
    exact hname

/-- What an `open` may count on between two statements: the scripts still to run are
those the recorded version asks for, numbered on. -/
def Session.Fits (scripts : List (Script ρ)) (version : ℕ) : Option (Session ρ) → Prop
  | none => True
  | some (.creating rest) => ∀ o ∈ rest, o ∈ schema
  | some (.migrating rest) => rest = (scripts.drop (version - 1)).zipIdx (version + 1)
  | some .opened => version = scripts.length + 1

structure Sound (scripts : List (Script ρ)) (rows : ρ) (s : State ρ) : Prop where
  migrated : Migrated scripts rows s.db
  version_pos : 1 ≤ s.db.version
  version_le : s.db.version ≤ scripts.length + 1
  fits : Session.Fits scripts s.db.version s.session

section Sound
variable {scripts : List (Script ρ)} {rows : ρ} {s t : State ρ} {a : Action}

theorem pending_of_pos {version : ℕ} (h : 1 ≤ version) :
    pending scripts version = scripts.drop (version - 1) :=
  if_neg (Nat.ne_of_gt h)

theorem Sound.withSession (h : Sound scripts rows s) {session : Option (Session ρ)}
    (fits : Session.Fits scripts s.db.version session) : Sound scripts rows ⟨s.db, session⟩ :=
  ⟨h.migrated, h.version_pos, h.version_le, fits⟩

theorem Sound.migrate (h : Sound scripts rows s) {script : Script ρ} {target : ℕ}
    {rest : List (Script ρ × ℕ)} {c : Content ρ}
    (at_script : s.session = some (.migrating ((script, target) :: rest)))
    (runs : script s.db.content = some c) :
    Sound scripts rows ⟨⟨c, some target⟩, some (.migrating rest)⟩ := by
  have fits := h.fits
  rw [at_script] at fits
  have pos := h.version_pos
  obtain ⟨next, later⟩ : scripts[s.db.version - 1]? = some script ∧
      target = s.db.version + 1 ∧
      rest = (scripts.drop s.db.version).zipIdx (s.db.version + 2) := by
    simp only [Session.Fits] at fits
    cases hdrop : scripts.drop (s.db.version - 1) with
    | nil => rw [hdrop] at fits; simp at fits
    | cons x xs =>
      rw [hdrop, List.zipIdx_cons, List.cons.injEq, Prod.mk.injEq] at fits
      obtain ⟨⟨rfl, rfl⟩, rfl⟩ := fits
      have found : scripts[s.db.version - 1]? = some script := by
        rw [← List.head?_drop, hdrop, List.head?_cons]
      have tail : xs = scripts.drop s.db.version := by
        have := congrArg List.tail hdrop
        rw [List.tail_drop, Nat.sub_add_cancel pos] at this
        exact this.symm
      exact ⟨found, rfl, by rw [tail]⟩
  obtain ⟨rfl, rfl⟩ := later
  have inside : s.db.version - 1 < scripts.length := (List.getElem?_eq_some_iff.mp next).1
  refine ⟨?_, ?_, ?_, ?_⟩
  · have := upTo_succ h.migrated next
    rw [Nat.sub_add_cancel pos, runs] at this
    exact this
  · exact Nat.le_add_left 1 s.db.version
  · simp only [Database.version, Option.getD_some] at inside pos ⊢
    omega
  · rfl

inductive Move (scripts : List (Script ρ)) (s : State ρ) : State ρ → Prop
  | begins : Move scripts s ⟨s.db, some (.creating schema)⟩
  | creates {o : SchemaObject} {rest : List SchemaObject}
      (at_create : s.session = some (.creating (o :: rest))) :
      Move scripts s
        ⟨{ s.db with content := s.db.content.createIfNotExists o }, some (.creating rest)⟩
  | reads : Move scripts s ⟨s.db, some (.migrating
      ((pending scripts s.db.version).zipIdx (s.db.version + 1)))⟩
  | migrates {script : Script ρ} {target : ℕ} {rest : List (Script ρ × ℕ)} {c : Content ρ}
      (at_script : s.session = some (.migrating ((script, target) :: rest)))
      (runs : script s.db.content = some c) :
      Move scripts s ⟨⟨c, some target⟩, some (.migrating rest)⟩
  | ends (at_end : s.session = some (.migrating [])) : Move scripts s ⟨s.db, some .opened⟩
  | leaves : Move scripts s ⟨s.db, none⟩

theorem move_of_step (hs : step scripts s a = some t) : Move scripts s t := by
  cases a with
  | «open» =>
    simp only [step] at hs
    split at hs <;> cases hs
    exact .begins
  | kill =>
    cases hs
    exact .leaves
  | statement =>
    simp only [step] at hs
    split at hs
    · rename_i at_create
      cases hs
      exact .creates at_create
    · cases hs
      exact .reads
    · rename_i at_script
      split at hs
      · rename_i runs
        cases hs
        exact .migrates at_script runs
      · cases hs
        exact .leaves
    · rename_i at_end
      cases hs
      exact .ends at_end
    · cases hs

theorem Sound.create_eq (keeps : KeepsSchema scripts rows) (h : Sound scripts rows s)
    {o : SchemaObject} {rest : List SchemaObject}
    (at_create : s.session = some (.creating (o :: rest))) :
    s.db.content.createIfNotExists o = s.db.content ∧ ∀ x ∈ rest, x ∈ schema := by
  have fits := h.fits
  rw [at_create] at fits
  exact ⟨createIfNotExists_of_has (keeps _ _ h.migrated o (fits o List.mem_cons_self)),
    fun x hx => fits x (List.mem_cons_of_mem o hx)⟩

theorem Sound.step (keeps : KeepsSchema scripts rows) (h : Sound scripts rows s)
    (hs : Migration.step scripts s a = some t) : Sound scripts rows t := by
  cases move_of_step hs with
  | begins => exact h.withSession fun o ho => ho
  | creates at_create =>
    obtain ⟨same, rest⟩ := h.create_eq keeps at_create
    rw [same]
    exact h.withSession rest
  | reads => exact h.withSession (by rw [pending_of_pos h.version_pos]; rfl)
  | migrates at_script runs => exact h.migrate at_script runs
  | ends at_end =>
    refine h.withSession ?_
    -- nothing is left to run, so the version is past the last script
    have fits := h.fits
    rw [at_end] at fits
    have none_left : scripts.drop (s.db.version - 1) = [] := by
      simpa [Session.Fits, List.zipIdx_eq_nil_iff] using fits.symm
    have := List.drop_eq_nil_iff.mp none_left
    have pos := h.version_pos
    have le := h.version_le
    simp only [Session.Fits]
    omega
  | leaves => exact h.withSession trivial

/-- Once the version is past the last script, opening changes nothing. -/
theorem Sound.unchanged (keeps : KeepsSchema scripts rows) (h : Sound scripts rows s)
    (full : s.db.version = scripts.length + 1) (hs : Migration.step scripts s a = some t) :
    t.db = s.db := by
  cases move_of_step hs with
  | creates at_create => rw [(h.create_eq keeps at_create).1]
  | migrates at_script runs =>
    have fits := h.fits
    rw [at_script] at fits
    simp only [Session.Fits] at fits
    rw [full, Nat.add_sub_cancel, List.drop_length] at fits
    cases fits
  | _ => rfl

end Sound

/-- Where no migration takes away an object of SCHEMA, the file is SCHEMA followed by
the migrations its version names, each once, wherever an open is killed; an open that
completes has run them all, and further opens change nothing. -/
theorem migrations_exactly_once (scripts : List (Script ρ)) (rows : ρ)
    (keeps : KeepsSchema scripts rows) (db : Database ρ) (version_pos : 1 ≤ db.version)
    (version_le : db.version ≤ scripts.length + 1) (migrated : Migrated scripts rows db)
    (acts : List Action) (s : State ρ)
    (hrun : Runs.run (step scripts) ⟨db, none⟩ acts = some s) :
    Migrated scripts rows s.db ∧ 1 ≤ s.db.version ∧ s.db.version ≤ scripts.length + 1 ∧
      (s.session = some .opened → s.db.version = scripts.length + 1 ∧
        ∀ more t, Runs.run (step scripts) s more = some t → t.db = s.db) := by
  have start : Sound scripts rows ⟨db, none⟩ := ⟨migrated, version_pos, version_le, trivial⟩
  have sound := Runs.reachable (fun _ _ _ h hs => h.step keeps hs) start hrun
  refine ⟨sound.migrated, sound.version_pos, sound.version_le, fun opened => ?_⟩
  have full : s.db.version = scripts.length + 1 := by
    have fits := sound.fits
    rwa [opened] at fits
  refine ⟨full, fun more t hmore => ?_⟩
  have kept : ∀ u a v, Sound scripts rows u ∧ u.db = s.db → step scripts u a = some v →
      Sound scripts rows v ∧ v.db = s.db := by
    rintro u a v ⟨hu, same⟩ hs
    exact ⟨hu.step keeps hs, (hu.unchanged keeps (by rw [same, full]) hs).trans same⟩
  exact (Runs.reachable kept ⟨sound, rfl⟩ hmore).2

def killedOpen : List Action :=
  .open :: List.replicate 13 .statement ++ [.kill, .open] ++ List.replicate 14 .statement

theorem migrations_exactly_once_killed :
    ∃ s, Runs.run (step (migrations (· + 1))) ⟨⟨⟨schema, 0⟩, none⟩, none⟩ killedOpen = some s ∧
      Migrated (migrations (· + 1)) 0 s.db ∧ s.db.version = 3 := by
  obtain ⟨s, hs⟩ := Option.isSome_iff_exists.mp (by decide +kernel :
    (Runs.run (step (migrations (· + 1))) ⟨⟨⟨schema, 0⟩, none⟩, none⟩ killedOpen).isSome = true)
  have once := migrations_exactly_once (migrations (· + 1)) 0 (migrations_keepSchema _ _)
    ⟨⟨schema, 0⟩, none⟩ (by decide) (by decide) rfl killedOpen s hs
  have got : (Runs.run (step (migrations (· + 1))) ⟨⟨⟨schema, 0⟩, none⟩, none⟩ killedOpen).map
      (fun s => s.db.version) = some 3 := by
    decide +kernel
  rw [hs, Option.map_some, Option.some.injEq] at got
  exact ⟨s, hs, once.1, got⟩

def droppedTable : List Action :=
  .open :: List.replicate 14 .statement ++ [.kill, .open] ++ List.replicate 11 .statement

theorem dropped_table_comes_back :
    ¬ ∀ (scripts : List (Script ℕ)) (db : Database ℕ), 1 ≤ db.version →
      db.version ≤ scripts.length + 1 → Migrated scripts 0 db → ∀ acts s,
        Runs.run (step scripts) ⟨db, none⟩ acts = some s → Migrated scripts 0 s.db := by
  intro supposed
  have got : (Runs.run (step [Content.dropObject "contacts"])
      (⟨⟨⟨schema, 0⟩, none⟩, none⟩ : State ℕ) droppedTable).map
        (fun s => decide (Migrated [Content.dropObject "contacts"] 0 s.db)) = some false := by
    decide +kernel
  rw [Option.map_eq_some_iff] at got
  obtain ⟨s, hs, notMigrated⟩ := got
  exact of_decide_eq_false notMigrated (supposed _ ⟨⟨schema, 0⟩, none⟩ (by decide) (by decide) rfl
    droppedTable s hs)

end MeshwardenDaemon.Migration
