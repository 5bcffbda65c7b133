import Mathlib.Data.List.Pairwise
import Mathlib.Tactic.SplitIfs

/-! Tables of rows the way SQLite keeps them: UPDATE and DELETE by a condition,
UNIQUE columns in which NULLs do not clash, and an integer key that a new row
takes one above the largest. The rows may be of any type. -/
namespace MeshwardenDaemon.Library.KeyedTable

variable {ρ κ : Type*}

/-- The key of a new row: one above the largest key, 1 in an empty table. -/
def nextKey (key : ρ → ℕ) (rows : List ρ) : ℕ := (rows.map key).foldr max 0 + 1

theorem key_lt_nextKey {key : ρ → ℕ} {rows : List ρ} {r : ρ} (h : r ∈ rows) :
    key r < nextKey key rows := by
  induction rows with
  | nil => cases h
  | cons x xs ih =>
    simp only [nextKey, List.map_cons, List.foldr_cons] at ih ⊢
    rcases List.mem_cons.mp h with rfl | h
    · omega
    · have := ih h
      omega

theorem key_ne_nextKey {key : ρ → ℕ} {rows : List ρ} {r : ρ} (h : r ∈ rows) :
    key r ≠ nextKey key rows :=
  Nat.ne_of_lt (key_lt_nextKey h)

def updateWhere (p : ρ → Bool) (f : ρ → ρ) (rows : List ρ) : List ρ :=
  rows.map fun r => if p r then f r else r

theorem mem_updateWhere {p : ρ → Bool} {f : ρ → ρ} {rows : List ρ} {r : ρ} :
    r ∈ updateWhere p f rows ↔
      (r ∈ rows ∧ p r = false) ∨ ∃ x ∈ rows, p x = true ∧ f x = r := by
  unfold updateWhere
  rw [List.mem_map]
  refine ⟨?_, ?_⟩
  · rintro ⟨x, hx, rfl⟩
    by_cases hp : p x = true
    · exact Or.inr ⟨x, hx, hp, by simp [hp]⟩
    · exact Or.inl (by simpa [hp] using hx)
  · rintro (⟨hr, hp⟩ | ⟨x, hx, hp, rfl⟩)
    · exact ⟨r, hr, by simp [hp]⟩
    · exact ⟨x, hx, by simp [hp]⟩

theorem map_updateWhere {β : Type*} (col : ρ → β) {p : ρ → Bool} {f : ρ → ρ} {rows : List ρ}
    (keeps : ∀ r, col (f r) = col r) : (updateWhere p f rows).map col = rows.map col := by
  simp only [updateWhere, List.map_map, List.map_inj_left, Function.comp_apply]
  intro r _
  split_ifs
  · exact keeps r
  · rfl

theorem find?_updateWhere [DecidableEq κ] {key : ρ → κ} {f : ρ → ρ} {rows : List ρ}
    (keeps : ∀ r, key (f r) = key r) (k k' : κ) :
    (updateWhere (fun r => key r = k') f rows).find? (fun r => key r = k) =
      if k = k' then (rows.find? fun r => key r = k).map f
      else rows.find? fun r => key r = k := by
  induction rows with
  | nil => simp [updateWhere]
  | cons x xs ih =>
    simp only [updateWhere, List.map_cons] at ih ⊢
    by_cases here : key x = k
    · subst here
      by_cases hit : key x = k' <;> simp [hit, keeps]
    · have apart : key (if decide (key x = k') = true then f x else x) ≠ k := by
        split
        · rwa [keeps]
        · exact here
      rw [List.find?_cons_of_neg (by simpa using apart),
        List.find?_cons_of_neg (by simpa using here), ih]

/-- A UNIQUE column: no value but NULL stands in two rows. -/
def Unique (col : ρ → Option κ) (rows : List ρ) : Prop :=
  rows.Pairwise fun a b => ∀ k, col a = some k → col b ≠ some k

theorem unique_nil (col : ρ → Option κ) : Unique col [] := List.Pairwise.nil

theorem Unique.symm (col : ρ → Option κ) :
    Std.Symm fun a b : ρ => ∀ k, col a = some k → col b ≠ some k :=
  ⟨fun _ _ hab k hb ha => hab k ha hb⟩

theorem Unique.eq_of_mem {col : ρ → Option κ} {rows : List ρ} (h : Unique col rows)
    {a b : ρ} (ha : a ∈ rows) (hb : b ∈ rows) {k : κ} (hak : col a = some k)
    (hbk : col b = some k) : a = b := by
  by_contra hne
  have symm := Unique.symm col
  exact h.forall ha hb hne k hak hbk

theorem Unique.insert {col : ρ → Option κ} {rows : List ρ} (h : Unique col rows) {x : ρ}
    (hx : ∀ r ∈ rows, ∀ k, col r = some k → col x ≠ some k) : Unique col (rows ++ [x]) := by
  refine List.pairwise_append.mpr ⟨h, List.pairwise_singleton _ _, fun a ha b hb => ?_⟩
  obtain rfl := List.mem_singleton.mp hb
  exact hx a ha

theorem Unique.updateWhere {col : ρ → Option κ} {rows : List ρ} (h : Unique col rows)
    {p : ρ → Bool} {f : ρ → ρ} (hf : ∀ r k, col (f r) = some k → col r = some k) :
    Unique col (updateWhere p f rows) := by
  have keeps : ∀ r k, col (if p r then f r else r) = some k → col r = some k := by
    intro r k hk
    split at hk
    · exact hf r k hk
    · exact hk
  refine List.pairwise_map.mpr (List.Pairwise.imp ?_ h)
  exact fun hab k ha hb => hab k (keeps _ k ha) (keeps _ k hb)

theorem Unique.assign {col : ρ → Option κ} {key : ρ → ℕ} {rows : List ρ} {id : ℕ} {v : κ}
    (h : Unique col rows) (hkey : Unique (fun r => some (key r)) rows) {f : ρ → ρ}
    (hf : ∀ r, col (f r) = some v)
    (free : ∀ r ∈ rows, col r = some v → key r = id) :
    Unique col (KeyedTable.updateWhere (fun r => key r = id) f rows) := by
  refine List.pairwise_map.mpr (List.Pairwise.imp_of_mem ?_ (List.Pairwise.and h hkey))
  rintro a b ha hb ⟨hab, hne⟩ k hak hbk
  simp only [decide_eq_true_eq] at hak hbk
  have differ : key a ≠ key b := fun same => hne (key a) rfl (congrArg some same.symm)
  split_ifs at hak hbk with hia hib hib
  · exact differ (hia.trans hib.symm)
  · obtain rfl := Option.some.inj ((hf a).symm.trans hak)
    exact hib (free b hb hbk)
  · obtain rfl := Option.some.inj ((hf b).symm.trans hbk)
    exact hia (free a ha hak)
  · exact hab k hak hbk

theorem Unique.perm {col : ρ → Option κ} {rows rows' : List ρ} (h : Unique col rows)
    (p : rows.Perm rows') : Unique col rows' :=
  (p.pairwise_iff fun {a b} => (Unique.symm col).symm a b).mp h

theorem Unique.filter_eq_singleton [DecidableEq κ] {val : ρ → κ} {rows : List ρ}
    (h : Unique (fun r => some (val r)) rows) {r : ρ} {k : κ} (hr : r ∈ rows)
    (hk : some (val r) = some k) : rows.filter (fun x => val x = k) = [r] := by
  induction rows with
  | nil => cases hr
  | cons x xs ih =>
    obtain ⟨first, rest⟩ := List.pairwise_cons.mp h
    obtain rfl := Option.some.inj hk
    by_cases here : val x = val r
    · have none : xs.filter (fun y => val y = val r) = [] := by
        apply List.filter_eq_nil_iff.mpr
        intro y hy
        have differ := first y hy (val r) (congrArg some here)
        simpa using differ
      have same : x = r := h.eq_of_mem List.mem_cons_self hr (congrArg some here) rfl
      rw [List.filter_cons_of_pos (by simpa using here), none, same]
    · have tail : r ∈ xs := by
        refine (List.mem_cons.mp hr).resolve_left ?_
        rintro rfl
        exact here rfl
      rw [List.filter_cons_of_neg (by simpa using here)]
      exact ih rest tail

theorem Unique.nodup_map {val : ρ → κ} {rows : List ρ}
    (h : Unique (fun r => some (val r)) rows) : (rows.map val).Nodup := by
  refine List.pairwise_map.mpr (List.Pairwise.imp (fun apart same => ?_) h)
  exact apart _ rfl (congrArg some same.symm)

theorem Unique.filter {col : ρ → Option κ} {rows : List ρ} (h : Unique col rows)
    (p : ρ → Bool) : Unique col (rows.filter p) :=
  List.Pairwise.filter p h

theorem Unique.find?_eq_some [DecidableEq κ] {col : ρ → Option κ} {rows : List ρ}
    (h : Unique col rows) {r : ρ} {k : κ} :
    rows.find? (fun x => col x = some k) = some r ↔ r ∈ rows ∧ col r = some k := by
  refine ⟨?_, ?_⟩
  · intro hfind
    exact ⟨List.mem_of_find?_eq_some hfind, by simpa using List.find?_some hfind⟩
  · rintro ⟨hr, hk⟩
    have found : (rows.find? fun x => col x = some k).isSome = true :=
      List.find?_isSome.mpr ⟨r, hr, by simpa using hk⟩
    obtain ⟨r', hr'⟩ := Option.isSome_iff_exists.mp found
    have hk' : col r' = some k := by simpa using List.find?_some hr'
    rw [hr', h.eq_of_mem (List.mem_of_find?_eq_some hr') hr hk' hk]

/-- LEFT JOIN on a key, which is UNIQUE on the right or not: a row that finds none stays. -/
def leftJoin {σ : Type*} [DecidableEq κ] (key : ρ → Option κ) (val : σ → κ) (rows : List ρ)
    (right : List σ) : List (ρ × Option σ) :=
  rows.flatMap fun r =>
    match right.filter fun x => some (val x) = key r with
    | [] => [(r, none)]
    | found => found.map fun x => (r, some x)

/-- Where the key is UNIQUE on the right, every row comes out once. -/
theorem Unique.leftJoin_eq_map {σ : Type*} [DecidableEq κ] {key : ρ → Option κ} {val : σ → κ}
    {rows : List ρ} {right : List σ} (h : Unique (fun x => some (val x)) right) :
    leftJoin key val rows right =
      rows.map fun r => (r, right.find? fun x => some (val x) = key r) := by
  rw [List.map_eq_flatMap, leftJoin]
  congr 1
  funext r
  cases found : right.find? fun x => some (val x) = key r with
  | none =>
    have none : right.filter (fun x => some (val x) = key r) = [] :=
      List.filter_eq_nil_iff.mpr (List.find?_eq_none.mp found)
    simp only [none]
  | some x =>
    have hit : some (val x) = key r := by simpa using List.find?_some found
    have one := h.filter_eq_singleton (List.mem_of_find?_eq_some found) rfl
    rw [← hit]
    simp only [Option.some.injEq, one, List.map_singleton]

end MeshwardenDaemon.Library.KeyedTable
