import Mathlib.Data.List.ReduceOption
import Mathlib.Data.List.Induction
import Mathlib.Order.MinMax
import Mathlib.Order.OrderDual
import Mathlib.Order.Bounds.Basic

/-! Least and greatest elements of lists, and of the readings in a list of optional ones.
A running extreme that forgets everything at a missing reading knows the readings since
the last missing one. The readings may be of any linear order. -/
namespace MeshwardenDaemon.Library.Extremes

variable {α ρ : Type*} [LinearOrder α]

theorem min?_eq_min?_iff {xs ys : List α} :
    xs.min? = ys.min? ↔ (∀ x ∈ xs, ∃ y ∈ ys, y ≤ x) ∧ ∀ y ∈ ys, ∃ x ∈ xs, x ≤ y := by
  have below : ∀ {xs ys : List α}, xs.min? = ys.min? → ∀ x ∈ xs, ∃ y ∈ ys, y ≤ x := by
    intro xs ys same x hx
    cases least : xs.min? with
    | none => simp [List.min?_eq_none_iff.mp least] at hx
    | some m =>
      have bound := (List.min?_eq_some_iff.mp least).2 x hx
      exact ⟨m, (List.min?_eq_some_iff.mp (same.symm.trans least)).1, bound⟩
  refine ⟨fun same => ⟨below same, below same.symm⟩, ?_⟩
  rintro ⟨fromXs, fromYs⟩
  cases least : xs.min? with
  | none =>
    have empty : ys = [] := by
      apply List.eq_nil_iff_forall_not_mem.mpr
      intro y hy
      obtain ⟨x, hx, -⟩ := fromYs y hy
      simp [List.min?_eq_none_iff.mp least] at hx
    simp [empty]
  | some m =>
    obtain ⟨hm, bound⟩ := List.min?_eq_some_iff.mp least
    obtain ⟨y, hy, le⟩ := fromXs m hm
    obtain ⟨x, hx, ge⟩ := fromYs y hy
    have same : m = y := le_antisymm ((bound x hx).trans ge) le
    symm
    apply List.min?_eq_some_iff.mpr
    refine ⟨same ▸ hy, fun z hz => ?_⟩
    obtain ⟨w, hw, above⟩ := fromYs z hz
    exact (bound w hw).trans above

theorem max?_eq_max?_iff {xs ys : List α} :
    xs.max? = ys.max? ↔ (∀ x ∈ xs, ∃ y ∈ ys, x ≤ y) ∧ ∀ y ∈ ys, ∃ x ∈ xs, y ≤ x :=
  @min?_eq_min?_iff αᵒᵈ _ xs ys

theorem min?_filterMap {rows : List ρ} {least : ρ → Option α} {part : ρ → List α}
    (own : ∀ r ∈ rows, least r = (part r).min?) {all : List α}
    (parts : ∀ x, x ∈ all ↔ ∃ r ∈ rows, x ∈ part r) :
    (rows.filterMap least).min? = all.min? := by
  refine min?_eq_min?_iff.mpr ⟨?_, ?_⟩
  · intro x hx
    obtain ⟨r, hr, found⟩ := List.mem_filterMap.mp hx
    rw [own r hr] at found
    exact ⟨x, (parts x).mpr ⟨r, hr, (List.min?_eq_some_iff.mp found).1⟩, le_rfl⟩
  · intro x hx
    obtain ⟨r, hr, mem⟩ := (parts x).mp hx
    obtain ⟨m, found⟩ := Option.isSome_iff_exists.mp
      (List.isSome_min?_iff.mpr (List.ne_nil_of_mem mem))
    exact ⟨m, List.mem_filterMap.mpr ⟨r, hr, (own r hr).trans found⟩,
      (List.min?_eq_some_iff.mp found).2 x mem⟩

theorem max?_filterMap {rows : List ρ} {greatest : ρ → Option α} {part : ρ → List α}
    (own : ∀ r ∈ rows, greatest r = (part r).max?) {all : List α}
    (parts : ∀ x, x ∈ all ↔ ∃ r ∈ rows, x ∈ part r) :
    (rows.filterMap greatest).max? = all.max? :=
  @min?_filterMap αᵒᵈ ρ _ rows greatest part own all parts

omit [LinearOrder α] in
theorem min?_concat [Min α] (xs : List α) (x : α) :
    (xs ++ [x]).min? = some ((xs.min?.map fun m => min m x).getD x) := by
  cases xs with
  | nil => rfl
  | cons y ys => simp [List.min?, List.foldl_append]

omit [LinearOrder α] in
theorem max?_concat [Max α] (xs : List α) (x : α) :
    (xs ++ [x]).max? = some ((xs.max?.map fun m => max m x).getD x) := by
  cases xs with
  | nil => rfl
  | cons y ys => simp [List.max?, List.foldl_append]

section lastRun
omit [LinearOrder α]

def lastRun (xs : List (Option α)) : List α :=
  xs.foldl (fun run x => x.elim [] fun v => run ++ [v]) []

@[simp] theorem lastRun_concat_none (xs : List (Option α)) : lastRun (xs ++ [none]) = [] := by
  simp [lastRun, List.foldl_append]

@[simp] theorem lastRun_concat_some (xs : List (Option α)) (v : α) :
    lastRun (xs ++ [some v]) = lastRun xs ++ [v] := by
  simp [lastRun, List.foldl_append]

theorem lastRun_append (early : List (Option α)) (late : List α) :
    lastRun (early ++ late.map some) = lastRun early ++ late := by
  induction late using List.reverseRecOn with
  | nil => simp
  | append_singleton late v ih =>
    rw [List.map_append, List.map_singleton, ← List.append_assoc, lastRun_concat_some, ih,
      List.append_assoc]

theorem eq_append_lastRun (xs : List (Option α)) :
    ∃ early, xs = early ++ (lastRun xs).map some := by
  induction xs using List.reverseRecOn with
  | nil => exact ⟨[], rfl⟩
  | append_singleton xs x ih =>
    cases x with
    | none => exact ⟨xs ++ [none], by simp⟩
    | some v =>
      obtain ⟨early, split⟩ := ih
      refine ⟨early, ?_⟩
      rw [lastRun_concat_some, List.map_append, ← List.append_assoc, ← split, List.map_singleton]

theorem some_mem_of_mem_lastRun {xs : List (Option α)} {v : α} (hv : v ∈ lastRun xs) :
    some v ∈ xs := by
  obtain ⟨early, split⟩ := eq_append_lastRun xs
  rw [split]
  exact List.mem_append_right _ (List.mem_map_of_mem hv)

end lastRun

/-- From some item on there is a reading in each, and these have a least and a greatest
reading of all. -/
def Recovered (xs : List (Option α)) : Prop :=
  ∃ (early : List (Option α)) (late : List α), xs = early ++ late.map some ∧
    ∀ v, some v ∈ xs → (∃ w ∈ late, w ≤ v) ∧ ∃ w ∈ late, v ≤ w

/-- What is known since the last missing reading has the true extremes exactly if they
have come again since. -/
theorem lastRun_extremes_iff {xs : List (Option α)} :
    ((lastRun xs).min? = xs.reduceOption.min? ∧ (lastRun xs).max? = xs.reduceOption.max?) ↔
      Recovered xs := by
  rw [min?_eq_min?_iff, max?_eq_max?_iff]
  have inside : ∀ v ∈ lastRun xs, v ∈ xs.reduceOption := fun v hv =>
    List.reduceOption_mem_iff.mpr (some_mem_of_mem_lastRun hv)
  refine ⟨?_, ?_⟩
  · rintro ⟨⟨-, least⟩, -, greatest⟩
    obtain ⟨early, split⟩ := eq_append_lastRun xs
    refine ⟨early, lastRun xs, split, fun v hv => ?_⟩
    have known := List.reduceOption_mem_iff.mpr hv
    exact ⟨least v known, greatest v known⟩
  · rintro ⟨early, late, split, extremes⟩
    have tail : ∀ w ∈ late, w ∈ lastRun xs := by
      intro w hw
      rw [split, lastRun_append]
      exact List.mem_append_right _ hw
    refine ⟨⟨fun v hv => ⟨v, inside v hv, le_rfl⟩, fun v hv => ?_⟩,
      fun v hv => ⟨v, inside v hv, le_rfl⟩, fun v hv => ?_⟩
    · obtain ⟨⟨w, hw, le⟩, -⟩ := extremes v (List.reduceOption_mem_iff.mp hv)
      exact ⟨w, tail w hw, le⟩
    · obtain ⟨-, w, hw, ge⟩ := extremes v (List.reduceOption_mem_iff.mp hv)
      exact ⟨w, tail w hw, ge⟩

theorem recovered_of_all {xs : List (Option α)}
    (pure : (∀ x ∈ xs, x ≠ none) ∨ ∀ x ∈ xs, x = none) : Recovered xs := by
  rcases pure with every | no
  · refine ⟨[], xs.reduceOption, ?_, fun v hv => ?_⟩
    · rw [List.nil_append]
      induction xs with
      | nil => rfl
      | cons x xs ih =>
        cases x with
        | none => exact absurd rfl (every none List.mem_cons_self)
        | some v =>
          rw [List.reduceOption_cons_of_some, List.map_cons,
            ← ih fun x hx => every x (List.mem_cons_of_mem _ hx)]
    · have known := List.reduceOption_mem_iff.mpr hv
      exact ⟨⟨v, known, le_rfl⟩, v, known, le_rfl⟩
  · refine ⟨xs, [], (List.append_nil xs).symm, fun v hv => ?_⟩
    cases no (some v) hv

theorem isGreatest_foldr_max (xs : List α) (least : α) :
    IsGreatest (insert least {x | x ∈ xs}) (xs.foldr max least) := by
  induction xs with
  | nil => simp
  | cons x xs ih =>
    obtain ⟨attained, bound⟩ := ih
    refine ⟨?_, ?_⟩
    · rw [List.foldr_cons]
      rcases max_choice x (xs.foldr max least) with same | same
      · rw [same]
        exact Or.inr List.mem_cons_self
      · rw [same]
        exact attained.imp_right (List.mem_cons_of_mem x)
    · rintro y (rfl | hy)
      · exact (bound (Or.inl rfl)).trans (le_max_right _ _)
      · rcases List.mem_cons.mp hy with rfl | hy
        · exact le_max_left _ _
        · exact (bound (Or.inr hy)).trans (le_max_right _ _)

end MeshwardenDaemon.Library.Extremes
