import MeshwardenDaemon.Library.Paging
import MeshwardenDaemon.Library.Runs

/-! Walks over the pages of a listing whose table does not stand still: statements go on
between the queries, and between the two halves of one. A walk passes over no row that
stays and that no row ahead of it leaves. -/
namespace MeshwardenDaemon.Library.LivePaging
open Paging Runs

/-- The queries of a listing: a count, and one page of the rows in an order that tells them
apart. A row goes by a key that outlives changes to the rest of it. -/
structure Listing (τ γ ρ κ : Type*) where
  le : ρ → ρ → Bool
  key : ρ → κ
  rows : τ → List ρ
  size : γ → ℕ
  count : τ → ℕ
  fetch : τ → γ → ℕ → List ρ
  order : Preorders le
  antisymm : ∀ t, ∀ a ∈ rows t, ∀ b ∈ rows t, le a b = true → le b a = true → a = b
  nodup : ∀ t, (rows t).Nodup
  count_eq : ∀ t, count t = (rows t).length
  fetch_eq : ∀ t g offset, ∃ A : Arrangement le (rows t), fetch t g offset = A.page (size g) offset

/-- The rows, each of them inserted where it belongs. -/
def insertion {ρ : Type*} {le : ρ → ρ → Bool} (order : Preorders le) (rows : List ρ) :
    Arrangement le rows where
  list := rows.insertionSort fun a b => le a b = true
  perm := List.perm_insertionSort _ _
  ordered := by
    have total : Std.Total fun a b : ρ => le a b = true :=
      ⟨fun a b => by simpa using order.total a b⟩
    have trans : IsTrans ρ fun a b => le a b = true := ⟨order.trans⟩
    exact List.pairwise_insertionSort _ rows

/-- An answer: the page, with what was asked for and the total it came with. -/
structure Page (ρ : Type*) where
  offset : ℕ
  size : ℕ
  total : ℕ
  rows : List ρ
  /-- Ghost: a row was added between the count and the page. -/
  overtaken : Bool
  deriving DecidableEq

structure State (τ ρ : Type*) where
  table : τ
  offset : ℕ
  counted : Option ℕ
  pages : List (Page ρ)
  /-- Ghost: a row was added since the count. -/
  overtaken : Bool

def State.start {τ ρ : Type*} (table : τ) : State τ ρ := ⟨table, 0, none, [], false⟩

inductive Action (α γ : Type*)
  | statement (a : α)
  | count
  | page (g : γ)
  deriving DecidableEq

variable {τ α γ ρ κ : Type*} (L : Listing τ γ ρ κ) (statement : τ → α → Option τ)
  (adds : α → Bool)

def step (s : State τ ρ) : Action α γ → Option (State τ ρ)
  | .statement a => (statement s.table a).map fun table =>
      { s with table := table, overtaken := s.overtaken || adds a }
  | .count =>
    match s.counted with
    | none => some { s with counted := some (L.count s.table), overtaken := false }
    | some _ => none
  | .page g =>
    match s.counted with
    | some total => some { s with
        offset := s.offset + (L.fetch s.table g s.offset).length
        counted := none
        pages := s.pages ++
          [⟨s.offset, L.size g, total, L.fetch s.table g s.offset, s.overtaken⟩] }
    | none => none

/-- The row is there, behind at least so many others. -/
def Behind (t : τ) (k : κ) (n : ℕ) : Prop :=
  ∃ x ∈ L.rows t, L.key x = k ∧ n ≤ ahead L.le (L.rows t) x

/-- A statement takes neither the row nor one ahead of it. -/
def Keeps (k : κ) (t : τ) (a : α) : Prop :=
  ∀ u, statement t a = some u → ∀ n, Behind L t k n → Behind L u k n

def AddsNone (t : τ) (a : α) : Prop :=
  ∀ u, statement t a = some u → (L.rows u).length ≤ (L.rows t).length

def Stating (C : State τ ρ → α → Prop) (s : State τ ρ) : Action α γ → Prop
  | .statement a => C s a
  | _ => True

instance (C : State τ ρ → α → Prop) [∀ s a, Decidable (C s a)] (s : State τ ρ)
    (a : Action α γ) : Decidable (Stating C s a) := by
  unfold Stating
  induction a using Action.casesOn <;> infer_instance

theorem stating_mono {C D : State τ ρ → α → Prop} (mono : ∀ s a, C s a → D s a) :
    ∀ (s : State τ ρ) (a : Action α γ), Stating C s a → Stating D s a
  | s, .statement a => mono s a
  | _, .count => id
  | _, .page _ => id

theorem along_stating {C : State τ ρ → α → Prop} {as : List (Action α γ)}
    (h : ∀ a, .statement a ∈ as → ∀ s, C s a) (s : State τ ρ) :
    Along (step L statement adds) (Stating C) s as := by
  refine along_mono ?_ (along_of_forall (A := fun a => ∀ s, Stating C s a) ?_ s)
  · exact fun s a always => always s
  · intro a ha s
    cases a with
    | statement a => exact h a ha s
    | count => trivial
    | page g => trivial

def Seen (pages : List (Page ρ)) (k : κ) : Prop := ∃ p ∈ pages, ∃ x ∈ p.rows, L.key x = k

section page

theorem le_ahead {le : ρ → ρ → Bool} {rows : List ρ} (A : Arrangement le rows)
    (antisymm : ∀ a ∈ rows, ∀ b ∈ rows, le a b = true → le b a = true → a = b)
    (nodup : rows.Nodup) {m : ℕ} {x : ρ} (hx : x ∈ A.list.drop m) : m ≤ ahead le rows x := by
  have all : (A.list.take m).countP (fun y => !le x y) = (A.list.take m).length := by
    refine List.countP_eq_length.mpr fun y hy => ?_
    by_contra equal
    have same : x = y := antisymm x (A.perm.mem_iff.mp (List.mem_of_mem_drop hx))
      y (A.perm.mem_iff.mp (List.mem_of_mem_take hy)) (by simpa using equal) (le_across A hy hx)
    have parts := A.nodup nodup
    rw [← List.take_append_drop m A.list, List.nodup_append] at parts
    exact parts.2.2 y hy x hx same.symm
  have inside : m < A.list.length := by
    by_contra outside
    rw [List.drop_eq_nil_of_le (by omega)] at hx
    exact absurd hx List.not_mem_nil
  rw [ahead, countP_rows A (m := m), all, List.length_take]
  omega

theorem ahead_lt_length {le : ρ → ρ → Bool} {rows : List ρ} (order : Preorders le) {x : ρ}
    (hx : x ∈ rows) : ahead le rows x < rows.length := by
  refine lt_of_le_of_ne List.countP_le_length fun all => ?_
  have own := List.countP_eq_length.mp all x hx
  simp [order.refl] at own

theorem countP_kept {p keep : ρ → Bool} {rows : List ρ}
    (kept : ∀ y ∈ rows, p y = true → keep y = true) :
    (rows.filter keep).countP p = rows.countP p := by
  rw [List.countP_filter]
  refine List.countP_congr fun y hy => ?_
  rw [Bool.and_eq_true]
  exact and_iff_left_of_imp (kept y hy)

variable {L} {t : τ} {g : γ} {k : κ} {offset : ℕ}

theorem length_fetch (t : τ) (g : γ) (offset : ℕ) :
    (L.fetch t g offset).length = min (L.size g) ((L.rows t).length - offset) := by
  obtain ⟨A, page⟩ := L.fetch_eq t g offset
  rw [page, A.length_page]

theorem Behind.fetch (behind : Behind L t k offset) :
    (∃ x ∈ L.fetch t g offset, L.key x = k) ∨
      (L.fetch t g offset).length = L.size g ∧
        Behind L t k (offset + (L.fetch t g offset).length) := by
  obtain ⟨x, hx, rfl, far⟩ := behind
  obtain ⟨A, page⟩ := L.fetch_eq t g offset
  have present := A.perm.mem_iff.mpr hx
  have late : x ∈ A.list.drop offset := by
    rw [← List.take_append_drop offset A.list, List.mem_append] at present
    refine present.resolve_left fun early => ?_
    exact absurd (ahead_lt L.order A early) (by omega)
  rw [← List.take_append_drop (L.size g) (A.list.drop offset), List.mem_append] at late
  rcases late with here | after
  · exact Or.inl ⟨x, page ▸ here, rfl⟩
  · rw [List.drop_drop] at after
    have before := le_ahead A (L.antisymm t) (L.nodup t) after
    have inside := ahead_lt_length L.order hx
    have length : (L.fetch t g offset).length = L.size g := by
      rw [length_fetch]
      omega
    exact Or.inr ⟨length, x, hx, rfl, length ▸ before⟩

end page

section walk
variable {L} {statement} {adds}

/-- The walk has not passed the row over. -/
def Waits (k : κ) (s : State τ ρ) : Prop :=
  Seen L s.pages k ∨ Behind L s.table k s.offset ∧ ∀ p ∈ s.pages, p.size ≤ p.rows.length

theorem Waits.step {k : κ} {s t : State τ ρ} {a : Action α γ} (h : Waits (L := L) k s)
    (keeps : Stating (fun s => Keeps L statement k s.table) s a)
    (hs : step L statement adds s a = some t) : Waits (L := L) k t := by
  cases a with
  | statement a =>
    obtain ⟨table, moved, rfl⟩ := Option.map_eq_some_iff.mp hs
    exact h.imp_right fun waits => ⟨keeps table moved _ waits.1, waits.2⟩
  | count =>
    simp only [LivePaging.step] at hs
    split at hs
    · cases hs
      exact h
    · cases hs
  | page g =>
    simp only [LivePaging.step] at hs
    split at hs
    · cases hs
      rcases h with ⟨p, hp, seen⟩ | ⟨behind, full⟩
      · exact Or.inl ⟨p, List.mem_append_left _ hp, seen⟩
      · rcases behind.fetch (g := g) with here | ⟨length, farther⟩
        · exact Or.inl ⟨_, List.mem_append_right _ (List.mem_singleton_self _), here⟩
        · refine Or.inr ⟨farther, fun p hp => ?_⟩
          rcases List.mem_append.mp hp with old | new
          · exact full p old
          · obtain rfl := List.mem_singleton.mp new
            exact length.ge
    · cases hs

/-- A walk that has had a page with fewer rows than it asked for has seen every row that
the statements kept. -/
theorem short_page_seen {k : κ} {table : τ} (present : Behind L table k 0)
    {as : List (Action α γ)} {t : State τ ρ}
    (keeps : Along (step L statement adds) (Stating fun s => Keeps L statement k s.table)
      (.start table) as)
    (hr : run (step L statement adds) (.start table) as = some t)
    (short : ∃ p ∈ t.pages, p.rows.length < p.size) : Seen L t.pages k := by
  have waits : Waits (L := L) k t :=
    Runs.invariant (fun _ _ _ h hc hs => Waits.step h hc hs)
      (Or.inr ⟨present, fun _ hp => absurd hp List.not_mem_nil⟩) keeps hr
  obtain ⟨p, hp, less⟩ := short
  refine waits.resolve_right fun behind => ?_
  exact absurd (behind.2 p hp) (by omega)

/-- The walk has not passed the row over, and has not come to a total that still held. -/
structure Remains (k : κ) (s : State τ ρ) : Prop where
  counted : s.overtaken = false → ∀ n ∈ s.counted, (L.rows s.table).length ≤ n
  waits : Seen L s.pages k ∨ Behind L s.table k s.offset ∧
    ∀ p ∈ s.pages, p.overtaken = false → p.offset + p.rows.length < p.total

theorem Remains.step {k : κ} {s t : State τ ρ} {a : Action α γ} (h : Remains (L := L) k s)
    (keeps : Stating (fun s => Keeps L statement k s.table) s a)
    (calm : ∀ t a, adds a = false → AddsNone L statement t a)
    (hs : step L statement adds s a = some t) : Remains (L := L) k t := by
  cases a with
  | statement a =>
    obtain ⟨table, moved, rfl⟩ := Option.map_eq_some_iff.mp hs
    refine ⟨fun still n hn => ?_, ?_⟩
    · obtain ⟨before, other⟩ := Bool.or_eq_false_iff.mp still
      exact (calm s.table a other table moved).trans (h.counted before n hn)
    · exact h.waits.imp_right fun waits => ⟨keeps table moved _ waits.1, waits.2⟩
  | count =>
    simp only [LivePaging.step] at hs
    split at hs
    · cases hs
      refine ⟨fun _ n hn => ?_, h.waits⟩
      rw [← Option.some.inj (Option.mem_def.mp hn), L.count_eq]
    · cases hs
  | page g =>
    simp only [LivePaging.step] at hs
    split at hs
    · rename_i total counting
      cases hs
      refine ⟨fun _ => nofun, ?_⟩
      rcases h.waits with ⟨p, hp, seen⟩ | ⟨behind, open_⟩
      · exact Or.inl ⟨p, List.mem_append_left _ hp, seen⟩
      · rcases behind.fetch (g := g) with here | ⟨_, farther⟩
        · exact Or.inl ⟨_, List.mem_append_right _ (List.mem_singleton_self _), here⟩
        · refine Or.inr ⟨farther, fun p hp still => ?_⟩
          rcases List.mem_append.mp hp with old | new
          · exact open_ p old still
          · obtain rfl := List.mem_singleton.mp new
            obtain ⟨x, hx, _, far⟩ := farther
            have held := h.counted still total counting
            exact far.trans_lt ((ahead_lt_length L.order hx).trans_le held)
    · cases hs

/-- A walk that has come to the total of one of its pages has seen every row that the
statements kept, if no statement added a row between that count and its page. -/
theorem total_reached_seen {k : κ} {table : τ} (present : Behind L table k 0)
    {as : List (Action α γ)} {t : State τ ρ}
    (keeps : Along (step L statement adds) (Stating fun s => Keeps L statement k s.table)
      (.start table) as)
    (calm : ∀ t a, adds a = false → AddsNone L statement t a)
    (hr : run (step L statement adds) (.start table) as = some t)
    (reached : ∃ p ∈ t.pages, p.overtaken = false ∧ p.total ≤ p.offset + p.rows.length) :
    Seen L t.pages k := by
  have remains : Remains (L := L) k t :=
    Runs.invariant (fun _ _ _ h hc hs => Remains.step h hc calm hs)
      ⟨fun _ _ hn => absurd hn (by simp [State.start]),
        Or.inr ⟨present, fun _ hp => absurd hp List.not_mem_nil⟩⟩ keeps hr
  obtain ⟨p, hp, still, all⟩ := reached
  refine remains.waits.resolve_right fun behind => ?_
  exact absurd (behind.2 p hp still) (by omega)

end walk

end MeshwardenDaemon.Library.LivePaging
