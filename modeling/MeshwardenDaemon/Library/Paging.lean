import Mathlib.Data.List.Sort
import Mathlib.Logic.Equiv.Basic

/-! Queries that return their rows page by page. Each of them sorts the rows anew, and rows
that are equal for its order may come in another order each time. Rows may be of any type. -/
namespace MeshwardenDaemon.Library.Paging

variable {ρ : Type*}

/-- The rows as one query may sort them. -/
structure Arrangement (le : ρ → ρ → Bool) (rows : List ρ) where
  list : List ρ
  perm : list.Perm rows
  ordered : list.Pairwise fun a b => le a b = true

variable {le : ρ → ρ → Bool} {rows : List ρ}

def Arrangement.page (A : Arrangement le rows) (limit offset : ℕ) : List ρ :=
  (A.list.drop offset).take limit

theorem Arrangement.length (A : Arrangement le rows) : A.list.length = rows.length :=
  A.perm.length_eq

theorem Arrangement.nodup (A : Arrangement le rows) (nodup : rows.Nodup) : A.list.Nodup :=
  A.perm.nodup_iff.mpr nodup

theorem Arrangement.length_page (A : Arrangement le rows) (limit offset : ℕ) :
    (A.page limit offset).length = min limit (rows.length - offset) := by
  simp only [Arrangement.page, List.length_take, List.length_drop, A.length]

theorem exists_mem_page (A : Arrangement le rows) {limit : ℕ} (positive : 1 ≤ limit) {r : ρ} :
    (∃ offset, r ∈ A.page limit offset) ↔ r ∈ rows := by
  rw [← A.perm.mem_iff]
  refine ⟨?_, fun hr => ?_⟩
  · rintro ⟨offset, hr⟩
    exact List.mem_of_mem_drop (List.mem_of_mem_take hr)
  · obtain ⟨before, after, split⟩ := List.append_of_mem hr
    obtain ⟨size, rfl⟩ := Nat.exists_eq_add_of_le positive
    refine ⟨before.length, ?_⟩
    simp [Arrangement.page, split, Nat.add_comm 1]

theorem take_perm_iff (A B : Arrangement le rows) (m : ℕ) :
    (A.list.take m).Perm (B.list.take m) ↔ (A.list.drop m).Perm (B.list.drop m) := by
  have whole : (A.list.take m ++ A.list.drop m).Perm (B.list.take m ++ B.list.drop m) := by
    rw [List.take_append_drop, List.take_append_drop]
    exact A.perm.trans B.perm.symm
  refine ⟨fun begins => ?_, fun ends => ?_⟩
  · exact (List.perm_append_left_iff _).mp ((begins.symm.append_right _).trans whole)
  · exact (List.perm_append_right_iff _).mp (whole.trans (ends.symm.append_left _))

/-- Queries for the page at an offset, numbered, and the total that they report. -/
structure Pager (ρ : Type*) where
  fetch : ℕ → ℕ → List ρ
  total : ℕ
  within : ∀ n offset, fetch n offset = [] ∨ offset + (fetch n offset).length ≤ total

/-- The pages that a client sees who moves on by the rows of each page, from the n-th query
on, until a page is empty. -/
def Pager.visit (P : Pager ρ) (n offset : ℕ) : List (List ρ) :=
  if (P.fetch n offset).length = 0 then []
  else P.fetch n offset :: P.visit (n + 1) (offset + (P.fetch n offset).length)
termination_by P.total - offset
decreasing_by
  rename_i some
  rcases P.within n offset with none | inside
  · simp [none] at some
  · omega

def Pager.sorted (limit : ℕ) (arrange : ℕ → Arrangement le rows) : Pager ρ where
  fetch n offset := (arrange n).page limit offset
  total := rows.length
  within n offset := by
    by_cases done : rows.length ≤ offset
    · refine Or.inl (List.length_eq_zero_iff.mp ?_)
      rw [Arrangement.length_page]
      omega
    · refine Or.inr ?_
      rw [Arrangement.length_page]
      omega

section visit
variable {limit : ℕ} (positive : 1 ≤ limit) (arrange : ℕ → Arrangement le rows)

def visited (limit : ℕ) (arrange : ℕ → Arrangement le rows) (n : ℕ) : List ρ :=
  ((Pager.sorted limit arrange).visit n (min (n * limit) rows.length)).flatten

theorem visited_done {n : ℕ} (done : rows.length ≤ n * limit) : visited limit arrange n = [] := by
  have empty : ((Pager.sorted limit arrange).fetch n (min (n * limit) rows.length)).length = 0 := by
    simp only [Pager.sorted, Arrangement.length_page]
    omega
  rw [visited, Pager.visit, if_pos empty, List.flatten_nil]

include positive

theorem visited_step (n : ℕ) : visited limit arrange n =
    (arrange n).page limit (n * limit) ++ visited limit arrange (n + 1) := by
  by_cases done : rows.length ≤ n * limit
  · have page : (arrange n).page limit (n * limit) = [] := by
      rw [← List.length_eq_zero_iff, Arrangement.length_page]
      omega
    rw [visited_done arrange done, visited_done arrange (by rw [Nat.add_mul]; omega), page,
      List.nil_append]
  · have offset : min (n * limit) rows.length = n * limit := by omega
    have size := (arrange n).length_page limit (n * limit)
    have next : n * limit + ((arrange n).page limit (n * limit)).length =
        min ((n + 1) * limit) rows.length := by
      rw [size, Nat.add_mul]
      omega
    rw [visited, offset, Pager.visit, if_neg]
    · simp only [Pager.sorted, List.flatten_cons, next]
      rfl
    · simp only [Pager.sorted, size]
      omega

/-- An induction over the pages, backwards from where no rows are left. -/
theorem pages_induction (rows : List ρ) {P : ℕ → Prop} (done : ∀ n, rows.length ≤ n * limit → P n)
    (more : ∀ n, P (n + 1) → P n) (n : ℕ) : P n := by
  have far : rows.length ≤ (n + rows.length) * limit := by
    have := Nat.le_mul_of_pos_right (n + rows.length) positive
    omega
  have back : ∀ m, P (n + m) → P n := by
    intro m
    induction m with
    | zero => exact id
    | succ m ih => exact fun h => ih (more (n + m) h)
  exact back rows.length (done _ far)

theorem visited_eq_drop (A : Arrangement le rows) {k : ℕ} (same : ∀ n, k ≤ n → arrange n = A)
    (n : ℕ) (from_k : k ≤ n) : visited limit arrange n = A.list.drop (n * limit) := by
  induction n using pages_induction positive rows with
  | done n done =>
    rw [visited_done arrange done, List.drop_eq_nil_of_le]
    rw [A.length]
    exact done
  | more n ih =>
    rw [visited_step positive, ih (by omega), same n from_k, Arrangement.page, Nat.add_mul,
      Nat.one_mul, ← List.drop_drop, List.take_append_drop]

theorem visited_eq_take (A : Arrangement le rows) (k : ℕ) (same : ∀ n, n < k → arrange n = A) :
    visited limit arrange 0 = A.list.take (k * limit) ++ visited limit arrange k := by
  induction k with
  | zero => simp
  | succ k ih =>
    rw [ih fun n hn => same n (by omega), visited_step positive, same k (by omega),
      Arrangement.page, ← List.append_assoc, ← List.take_add, Nat.add_mul, Nat.one_mul]

/-- The walks return all rows exactly when every page boundary cuts off the same rows,
whatever the order of equal rows. -/
theorem visits_iff : (∀ arrange : ℕ → Arrangement le rows, (visited limit arrange 0).Perm rows) ↔
    ∀ k, ∀ A B : Arrangement le rows,
      (A.list.take (k * limit)).Perm (B.list.take (k * limit)) := by
  refine ⟨fun visits k A B => ?_, fun agree arrange => ?_⟩
  · let arrange : ℕ → Arrangement le rows := fun n => if n < k then A else B
    have switched : visited limit arrange 0 =
        A.list.take (k * limit) ++ B.list.drop (k * limit) := by
      rw [visited_eq_take positive arrange A k fun n hn => if_pos hn,
        visited_eq_drop positive arrange B (fun n hn => if_neg (by omega)) k le_rfl]
    have all : (A.list.take (k * limit) ++ B.list.drop (k * limit)).Perm
        (B.list.take (k * limit) ++ B.list.drop (k * limit)) := by
      rw [← switched, List.take_append_drop]
      exact (visits arrange).trans B.perm.symm
    exact (List.perm_append_right_iff _).mp all
  · have rest : ∀ n, ∀ A : Arrangement le rows,
        (visited limit arrange n).Perm (A.list.drop (n * limit)) := by
      intro n
      induction n using pages_induction positive rows with
      | done n done =>
        intro A
        rw [visited_done arrange done, List.drop_eq_nil_of_le]
        rw [A.length]
        exact done
      | more n ih =>
        intro A
        have cut : (arrange n).list.drop (n * limit) =
            (arrange n).page limit (n * limit) ++ (arrange n).list.drop ((n + 1) * limit) := by
          rw [Arrangement.page, Nat.add_mul, Nat.one_mul, ← List.drop_drop,
            List.take_append_drop]
        rw [visited_step positive]
        refine ((ih (arrange n)).append_left _).trans ?_
        rw [← cut]
        exact (take_perm_iff (arrange n) A _).mp (agree n _ _)
    exact (rest 0 (arrange 0)).trans (by simpa using (arrange 0).perm)

end visit

section ties

/-- How many rows every query returns before `a`. -/
def ahead (le : ρ → ρ → Bool) (rows : List ρ) (a : ρ) : ℕ := rows.countP fun x => !le a x

/-- How many rows come before `a` or are equal to it for the order. -/
def upTo (le : ρ → ρ → Bool) (rows : List ρ) (a : ρ) : ℕ := rows.countP fun x => le x a

/-- The first `m` rows are cut off in the middle of the rows equal to `a`. -/
def Straddles (le : ρ → ρ → Bool) (rows : List ρ) (m : ℕ) (a : ρ) : Prop :=
  ahead le rows a < m ∧ m < upTo le rows a

/-- The order is total on the rows but need not tell them all apart. -/
structure Preorders (le : ρ → ρ → Bool) : Prop where
  trans : ∀ a b c, le a b = true → le b c = true → le a c = true
  total : ∀ a b, (le a b || le b a) = true

theorem Preorders.refl (order : Preorders le) (a : ρ) : le a a = true := by
  simpa using order.total a a

def Preorders.arrangement (order : Preorders le) (rows : List ρ) : Arrangement le rows where
  list := rows.mergeSort le
  perm := List.mergeSort_perm _ _
  ordered := List.pairwise_mergeSort order.trans order.total rows

variable (order : Preorders le) (A : Arrangement le rows) {m : ℕ} {a x y : ρ}

theorem countP_rows (p : ρ → Bool) :
    rows.countP p = (A.list.take m).countP p + (A.list.drop m).countP p := by
  rw [← List.countP_append, List.take_append_drop, A.perm.countP_eq]

theorem le_across (hx : x ∈ A.list.take m) (hy : y ∈ A.list.drop m) : le x y = true := by
  have ordered := A.ordered
  rw [← List.take_append_drop m A.list, List.pairwise_append] at ordered
  exact ordered.2.2 x hx y hy

include order

theorem ahead_lt (ha : a ∈ A.list.take m) : ahead le rows a < m := by
  have after : (A.list.drop m).countP (fun x => !le a x) = 0 := by
    refine List.countP_eq_zero.mpr fun y hy => ?_
    simp [le_across A ha hy]
  have before : (A.list.take m).countP (fun x => !le a x) < (A.list.take m).length := by
    refine lt_of_le_of_ne List.countP_le_length fun all => ?_
    have own := List.countP_eq_length.mp all a ha
    simp [order.refl] at own
  have size := List.length_take_le m A.list
  rw [ahead, countP_rows A, after]
  omega

theorem lt_upTo (ha : a ∈ A.list.drop m) : m < upTo le rows a := by
  have some : 0 < (A.list.drop m).countP fun x => le x a :=
    List.countP_pos_iff.mpr ⟨a, ha, order.refl a⟩
  have all : (A.list.take m).countP (fun x => le x a) = (A.list.take m).length :=
    List.countP_eq_length.mpr fun x hx => le_across A hx ha
  have inside : m < A.list.length := by
    by_contra outside
    rw [List.drop_eq_nil_of_le (by omega)] at ha
    exact absurd ha List.not_mem_nil
  rw [upTo, countP_rows A (m := m), all, List.length_take]
  omega

theorem exists_across (cut : Straddles le rows m a) :
    ∃ x ∈ A.list.take m, ∃ y ∈ A.list.drop m, le x y = true ∧ le y x = true := by
  obtain ⟨low, high⟩ := cut
  have inside : m < A.list.length := by
    rw [A.length]
    exact lt_of_lt_of_le high List.countP_le_length
  obtain ⟨x, hx, ax⟩ : ∃ x ∈ A.list.take m, le a x = true := by
    by_contra none
    have all : (A.list.take m).countP (fun x => !le a x) = (A.list.take m).length :=
      List.countP_eq_length.mpr fun x hx => by
        by_contra reached
        exact none ⟨x, hx, by simpa using reached⟩
    rw [ahead, countP_rows A (m := m), all, List.length_take] at low
    omega
  obtain ⟨y, hy, ya⟩ : ∃ y ∈ A.list.drop m, le y a = true := by
    by_contra none
    have zero : (A.list.drop m).countP (fun x => le x a) = 0 :=
      List.countP_eq_zero.mpr fun y hy ya => none ⟨y, hy, ya⟩
    have size := List.countP_le_length (l := A.list.take m) (p := fun x => le x a)
    rw [upTo, countP_rows A (m := m), zero] at high
    rw [List.length_take] at size
    omega
  exact ⟨x, hx, y, hy, le_across A hx hy, order.trans _ _ _ ya ax⟩

variable [DecidableEq ρ] (nodup : rows.Nodup)

include nodup

theorem exists_swapped (hx : x ∈ rows) (hy : y ∈ rows) (xy : le x y = true) (yx : le y x = true) :
    ∃ B : Arrangement le rows, B.list = A.list.map (Equiv.swap x y) := by
  have equal : ∀ z, le z (Equiv.swap x y z) = true ∧ le (Equiv.swap x y z) z = true := by
    intro z
    rw [Equiv.swap_apply_def]
    split_ifs with isX isY
    · exact isX ▸ ⟨xy, yx⟩
    · exact isY ▸ ⟨yx, xy⟩
    · exact ⟨order.refl z, order.refl z⟩
  refine ⟨⟨A.list.map (Equiv.swap x y), ?_, ?_⟩, rfl⟩
  · have distinct := (A.nodup nodup).map (Equiv.swap x y).injective
    refine (List.perm_ext_iff_of_nodup distinct nodup).mpr fun z => ?_
    have back : z ∈ A.list.map (Equiv.swap x y) ↔ Equiv.swap x y z ∈ rows := by
      rw [List.mem_map, ← A.perm.mem_iff]
      refine ⟨?_, fun hz => ⟨_, hz, Equiv.swap_apply_self x y z⟩⟩
      rintro ⟨w, hw, rfl⟩
      rwa [Equiv.swap_apply_self]
    rw [back, Equiv.swap_apply_def]
    split_ifs with isX isY
    · exact isX ▸ iff_of_true hy hx
    · exact isY ▸ iff_of_true hx hy
    · rfl
  · refine List.pairwise_map.mpr (A.ordered.imp fun {u v} uv => ?_)
    exact order.trans _ _ _ (equal u).2 (order.trans _ _ _ uv (equal v).1)

theorem agree_iff : (∀ A B : Arrangement le rows, (A.list.take m).Perm (B.list.take m)) ↔
    ∀ a ∈ rows, ¬ Straddles le rows m a := by
  refine ⟨fun agree a _ cut => ?_, fun none A B => ?_⟩
  · let A := order.arrangement rows
    obtain ⟨x, hx, y, hy, xy, yx⟩ := exists_across order A cut
    obtain ⟨B, swapped⟩ := exists_swapped order A nodup
      (A.perm.mem_iff.mp (List.mem_of_mem_take hx)) (A.perm.mem_iff.mp (List.mem_of_mem_drop hy))
      xy yx
    have moved : y ∈ B.list.take m := by
      rw [swapped, ← List.map_take]
      exact List.mem_map.mpr ⟨x, hx, Equiv.swap_apply_left x y⟩
    have parts := A.nodup nodup
    rw [← List.take_append_drop m A.list, List.nodup_append] at parts
    exact parts.2.2 y ((agree B A).mem_iff.mp moved) y hy rfl
  · have mem_take : ∀ A : Arrangement le rows, ∀ a,
        a ∈ A.list.take m ↔ a ∈ rows ∧ upTo le rows a ≤ m := by
      intro A a
      refine ⟨fun ha => ?_, fun ⟨ha, early⟩ => ?_⟩
      · have row := A.perm.mem_iff.mp (List.mem_of_mem_take ha)
        have low := ahead_lt order A ha
        exact ⟨row, not_lt.mp fun high => none a row ⟨low, high⟩⟩
      · have ends := A.perm.mem_iff.mpr ha
        rw [← List.take_append_drop m A.list, List.mem_append] at ends
        refine ends.resolve_right fun late => ?_
        exact absurd (lt_upTo order A late) (by omega)
    refine (List.perm_ext_iff_of_nodup ((A.nodup nodup).take) ((B.nodup nodup).take)).mpr ?_
    intro a
    rw [mem_take, mem_take]

/-- Walks over the pages return every row once, however equal rows are sorted, exactly when
no page boundary parts rows that are equal for the order. -/
theorem visits_iff_straddles {limit : ℕ} (positive : 1 ≤ limit) :
    (∀ arrange : ℕ → Arrangement le rows, (visited limit arrange 0).Perm rows) ↔
      ∀ a ∈ rows, ∀ k, ¬ Straddles le rows (k * limit) a := by
  simp only [visits_iff positive, agree_iff order nodup]
  exact ⟨fun h a ha k => h k a ha, fun h k a ha => h a ha k⟩

end ties

/-- An order that tells all rows apart leaves one way to sort them. -/
theorem Arrangement.eq (A B : Arrangement le rows)
    (antisymm : ∀ a ∈ rows, ∀ b ∈ rows, le a b = true → le b a = true → a = b) :
    A.list = B.list := by
  refine List.Perm.eq_of_pairwise ?_ A.ordered B.ordered (A.perm.trans B.perm.symm)
  intro a b ha hb
  exact antisymm a (A.perm.mem_iff.mp ha) b (B.perm.mem_iff.mp hb)

theorem visited_of_antisymm {limit : ℕ} (positive : 1 ≤ limit)
    (antisymm : ∀ a ∈ rows, ∀ b ∈ rows, le a b = true → le b a = true → a = b)
    (arrange : ℕ → Arrangement le rows) : visited limit arrange 0 = (arrange 0).list := by
  have one : ∀ n, arrange n = arrange 0 := by
    intro n
    have lists := (arrange n).eq (arrange 0) antisymm
    cases h : arrange n
    cases h' : arrange 0
    simp only [h, h'] at lists
    subst lists
    rfl
  simpa using visited_eq_drop positive arrange (arrange 0) (fun n _ => one n) 0 le_rfl

end MeshwardenDaemon.Library.Paging
