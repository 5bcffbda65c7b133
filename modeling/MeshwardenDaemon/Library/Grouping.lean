import MeshwardenDaemon.Library.KeyedTable
import Mathlib.Data.List.Dedup
import Mathlib.Algebra.BigOperators.Group.List.Basic

/-! Roll-up tables and GROUP BY. A roll-up keeps one row for each key and merges every
new item into the row of its key (`INSERT … ON CONFLICT DO UPDATE`); a query groups
rows by a key and adds them up. Items, rows and keys may be of any type. -/
namespace MeshwardenDaemon.Library.Grouping
open KeyedTable

variable {α ρ κ γ M : Type*} [DecidableEq κ] [DecidableEq γ]

def upsert (key : ρ → κ) (merge : ρ → ρ → ρ) (rows : List ρ) (new : ρ) : List ρ :=
  if rows.any (fun r => key r = key new) then
    updateWhere (fun r => key r = key new) (fun r => merge r new) rows
  else rows ++ [new]

theorem mem_upsert {key : ρ → κ} {merge : ρ → ρ → ρ} {rows : List ρ} {new r : ρ} :
    r ∈ upsert key merge rows new ↔ (r ∈ rows ∧ key r ≠ key new) ∨
      (∃ x ∈ rows, key x = key new ∧ merge x new = r) ∨
      (∀ x ∈ rows, key x ≠ key new) ∧ r = new := by
  unfold upsert
  split
  · rename_i found
    simp only [List.any_eq_true, decide_eq_true_eq] at found
    have taken : ¬ ∀ x ∈ rows, key x ≠ key new := by
      obtain ⟨x, hx, same⟩ := found
      exact fun absent => absent x hx same
    simp only [mem_updateWhere, decide_eq_false_iff_not, decide_eq_true_eq, taken, false_and,
      or_false, ne_eq]
  · rename_i found
    simp only [List.any_eq_true, decide_eq_true_eq, not_exists, not_and] at found
    rw [List.mem_append, List.mem_singleton]
    refine ⟨?_, ?_⟩
    · rintro (old | rfl)
      · exact Or.inl ⟨old, found r old⟩
      · exact Or.inr (Or.inr ⟨found, rfl⟩)
    · rintro (⟨old, -⟩ | ⟨x, hx, same, -⟩ | ⟨-, rfl⟩)
      · exact Or.inl old
      · exact absurd same (found x hx)
      · exact Or.inr rfl

theorem exists_key_upsert {key : ρ → κ} {merge : ρ → ρ → ρ} {rows : List ρ} {new : ρ}
    (keeps : ∀ r new, key (merge r new) = key r) {k : κ} :
    (∃ r ∈ upsert key merge rows new, key r = k) ↔ (∃ r ∈ rows, key r = k) ∨ key new = k := by
  simp only [mem_upsert]
  refine ⟨?_, ?_⟩
  · rintro ⟨r, ⟨hr, -⟩ | ⟨x, hx, -, rfl⟩ | ⟨-, rfl⟩, same⟩
    · exact Or.inl ⟨r, hr, same⟩
    · exact Or.inl ⟨x, hx, (keeps x new).symm.trans same⟩
    · exact Or.inr same
  · rintro (⟨r, hr, same⟩ | same)
    · by_cases hit : key r = key new
      · exact ⟨merge r new, Or.inr (Or.inl ⟨r, hr, hit, rfl⟩), (keeps r new).trans same⟩
      · exact ⟨r, Or.inl ⟨hr, hit⟩, same⟩
    · by_cases found : ∃ x ∈ rows, key x = key new
      · obtain ⟨x, hx, hit⟩ := found
        exact ⟨merge x new, Or.inr (Or.inl ⟨x, hx, hit, rfl⟩),
          (keeps x new).trans (hit.trans same)⟩
      · exact ⟨new, Or.inr (Or.inr ⟨fun x hx hit => found ⟨x, hx, hit⟩, rfl⟩), same⟩

theorem unique_upsert {key : ρ → κ} {merge : ρ → ρ → ρ} {rows : List ρ}
    (h : Unique (fun r => some (key r)) rows) (keeps : ∀ r new, key (merge r new) = key r)
    (new : ρ) : Unique (fun r => some (key r)) (upsert key merge rows new) := by
  unfold upsert
  split
  · exact h.updateWhere fun r k hk => by rwa [keeps] at hk
  · rename_i found
    simp only [List.any_eq_true, decide_eq_true_eq, not_exists, not_and] at found
    refine h.insert fun r hr k hk hnew => found r hr ?_
    exact Option.some.inj (hk.trans hnew.symm)

theorem find?_upsert {key : ρ → κ} {merge : ρ → ρ → ρ} {rows : List ρ}
    (keeps : ∀ r new, key (merge r new) = key r) (new : ρ) (k : κ) :
    (upsert key merge rows new).find? (fun r => key r = k) =
      if k = key new then
        some (((rows.find? fun r => key r = k).map fun r => merge r new).getD new)
      else rows.find? fun r => key r = k := by
  unfold upsert
  split
  · rename_i found
    rw [find?_updateWhere fun r => keeps r new]
    split
    · rename_i own
      subst own
      obtain ⟨r, hr⟩ := Option.isSome_iff_exists.mp
        (List.find?_isSome.mpr (by simpa using found) :
          (rows.find? fun r => key r = key new).isSome = true)
      rw [hr]
      rfl
    · rfl
  · rename_i found
    simp only [List.any_eq_true, decide_eq_true_eq, not_exists, not_and] at found
    rw [List.find?_append]
    split
    · rename_i own
      subst own
      have none : rows.find? (fun r => key r = key new) = none :=
        List.find?_eq_none.mpr (by simpa using found)
      simp [none]
    · rename_i other
      simp [Ne.symm other]

def rollup (merge : ρ → ρ → ρ) : List ρ → Option ρ
  | [] => none
  | first :: rest => some (rest.foldl merge first)

theorem rollup_concat (merge : ρ → ρ → ρ) (items : List ρ) (new : ρ) :
    rollup merge (items ++ [new]) =
      some (((rollup merge items).map fun r => merge r new).getD new) := by
  cases items with
  | nil => rfl
  | cons first rest => simp [rollup, List.foldl_append]

/-- The table has, for each key, the roll-up of the items with that key. -/
structure IsRollup (key : ρ → κ) (merge : ρ → ρ → ρ) (rows items : List ρ) : Prop where
  keys : (rows.map key).Nodup
  row : ∀ k r, r ∈ rows → key r = k → rollup merge (items.filter fun i => key i = k) = some r
  covers : ∀ i ∈ items, key i ∈ rows.map key

theorem isRollup_nil (key : ρ → κ) (merge : ρ → ρ → ρ) : IsRollup key merge [] [] :=
  ⟨List.nodup_nil, by simp, by simp⟩

section IsRollup
variable {key : ρ → κ} {merge : ρ → ρ → ρ} {rows items : List ρ} {new : ρ}

theorem IsRollup.hit (h : IsRollup key merge rows items)
    (keeps : ∀ a b, key a = key b → key (merge a b) = key a) (found : ∃ r ∈ rows, key r = key new) :
    IsRollup key merge
      (updateWhere (fun r => key r = key new) (fun r => merge r new) rows) (items ++ [new]) := by
  have keys : (updateWhere (fun r => key r = key new) (fun r => merge r new) rows).map key =
      rows.map key := by
    simp only [updateWhere, List.map_map]
    refine List.map_congr_left fun r _ => ?_
    simp only [Function.comp_apply, decide_eq_true_eq]
    split
    · rename_i hr
      exact keeps r new hr
    · rfl
  refine ⟨keys ▸ h.keys, ?_, ?_⟩
  · intro k r hr hk
    rw [List.filter_append, List.filter_singleton]
    rcases mem_updateWhere.mp hr with ⟨hr, other⟩ | ⟨x, hx, hit, rfl⟩
    · have apart : key new ≠ k := by
        rintro rfl
        simp [hk] at other
      simpa [apart] using h.row k r hr hk
    · simp only [decide_eq_true_eq] at hit
      rw [keeps x new hit] at hk
      simp only [hit.symm.trans hk, decide_true, cond_true, rollup_concat, h.row k x hx hk,
        Option.map_some, Option.getD_some]
  · intro i hi
    rw [keys]
    rcases List.mem_append.mp hi with old | last
    · exact h.covers i old
    · obtain rfl := List.mem_singleton.mp last
      obtain ⟨r, hr, hk⟩ := found
      exact List.mem_map.mpr ⟨r, hr, hk⟩

theorem IsRollup.miss (h : IsRollup key merge rows items)
    (absent : ∀ r ∈ rows, key r ≠ key new) :
    IsRollup key merge (rows ++ [new]) (items ++ [new]) := by
  refine ⟨?_, ?_, ?_⟩
  · rw [List.map_append, List.map_singleton]
    refine List.Nodup.append h.keys (List.nodup_singleton _) ?_
    rw [List.disjoint_singleton]
    intro hmem
    obtain ⟨r, hr, hk⟩ := List.mem_map.mp hmem
    exact absent r hr hk
  · intro k r hr hk
    rw [List.filter_append, List.filter_singleton]
    rcases List.mem_append.mp hr with old | last
    · have apart : key new ≠ k := fun same => absent r old (hk.trans same.symm)
      simpa [apart] using h.row k r old hk
    · obtain rfl := List.mem_singleton.mp last
      have fresh : items.filter (fun i => key i = k) = [] := by
        refine List.filter_eq_nil_iff.mpr fun i hi => ?_
        obtain ⟨x, hx, hxk⟩ := List.mem_map.mp (h.covers i hi)
        simpa [← hxk, ← hk] using absent x hx
      simp [fresh, hk, rollup]
  · intro i hi
    rw [List.map_append, List.mem_append]
    rcases List.mem_append.mp hi with old | last
    · exact Or.inl (h.covers i old)
    · obtain rfl := List.mem_singleton.mp last
      exact Or.inr (by simp)

theorem IsRollup.upsert (h : IsRollup key merge rows items)
    (keeps : ∀ a b, key a = key b → key (merge a b) = key a) (new : ρ) :
    IsRollup key merge (Grouping.upsert key merge rows new) (items ++ [new]) := by
  unfold Grouping.upsert
  split
  · rename_i found
    exact h.hit keeps (by simpa using found)
  · rename_i absent
    exact h.miss (by simpa using absent)

theorem IsRollup.exists_item (h : IsRollup key merge rows items) {r : ρ} (hr : r ∈ rows) :
    ∃ i ∈ items, key i = key r := by
  have row := h.row (key r) r hr rfl
  cases members : items.filter fun i => key i = key r with
  | nil =>
    rw [members] at row
    cases row
  | cons i rest =>
    have hi : i ∈ items.filter fun i => key i = key r := members ▸ List.mem_cons_self
    obtain ⟨hi, same⟩ := List.mem_filter.mp hi
    exact ⟨i, hi, of_decide_eq_true same⟩

end IsRollup

def groupBy (key : ρ → γ) (rows : List ρ) : List (γ × List ρ) :=
  (rows.map key).dedup.map fun k => (k, rows.filter fun r => key r = k)

theorem groupBy_keys (key : ρ → γ) (rows : List ρ) :
    (groupBy key rows).map Prod.fst = (rows.map key).dedup := by
  simp [groupBy, Function.comp_def]

theorem mem_groupBy {key : ρ → γ} {rows : List ρ} {g : γ × List ρ} :
    g ∈ groupBy key rows ↔ (∃ r ∈ rows, key r = g.1) ∧ g.2 = rows.filter fun r => key r = g.1 := by
  obtain ⟨k, members⟩ := g
  simp only [groupBy, List.mem_map, List.mem_dedup, Prod.mk.injEq]
  refine ⟨?_, ?_⟩
  · rintro ⟨_, hk, rfl, rfl⟩
    exact ⟨hk, rfl⟩
  · rintro ⟨hk, same⟩
    exact ⟨k, hk, rfl, same.symm⟩

section Sums
variable [AddCommMonoid M]

theorem sum_indicator {keys : List κ} (nodup : keys.Nodup) (P : κ → Bool) (k : κ)
    (hk : k ∈ keys) (w : M) :
    ((keys.filter P).map fun x => if k = x then w else 0).sum = if P k then w else 0 := by
  induction keys with
  | nil => cases hk
  | cons x xs ih =>
    rw [List.nodup_cons] at nodup
    have none_in : ∀ ys : List κ, k ∉ ys → (ys.map fun y => if k = y then w else 0).sum = 0 := by
      intro ys hys
      refine List.sum_eq_zero fun m hm => ?_
      obtain ⟨y, hy, rfl⟩ := List.mem_map.mp hm
      exact if_neg fun same : k = y => hys (same ▸ hy)
    by_cases same : k = x
    · subst same
      have rest := none_in (xs.filter P) fun h => nodup.1 (List.mem_of_mem_filter h)
      cases hP : P k <;> simp [hP, rest]
    · have hk := (List.mem_cons.mp hk).resolve_left same
      cases hP : P x <;> simp [hP, same, ih nodup.2 hk]

/-- Adding up over keys what each key's items weigh is adding up over the items: the
regrouping of a sum. -/
theorem sum_regroup {keys : List κ} (nodup : keys.Nodup) (key : α → κ) (w : α → M)
    (P : κ → Bool) (items : List α) (covers : ∀ i ∈ items, key i ∈ keys) :
    ((keys.filter P).map fun k => ((items.filter fun i => key i = k).map w).sum).sum =
      ((items.filter fun i => P (key i)).map w).sum := by
  induction items with
  | nil => simp
  | cons i items ih =>
    have split : ∀ k, (((i :: items).filter fun j => key j = k).map w).sum =
        (if key i = k then w i else 0) + ((items.filter fun j => key j = k).map w).sum := by
      intro k
      by_cases hk : key i = k <;> simp [hk]
    simp only [split, List.sum_map_add, ih fun j hj => covers j (List.mem_cons_of_mem i hj),
      sum_indicator nodup P (key i) (covers i List.mem_cons_self) (w i)]
    cases hP : P (key i) <;> simp [hP]

theorem rollup_sum {merge : ρ → ρ → ρ} {f : ρ → M} {items : List ρ}
    (hf : ∀ a, ∀ b ∈ items, f (merge a b) = f a + f b) {r : ρ}
    (h : rollup merge items = some r) : f r = (items.map f).sum := by
  have fold : ∀ (l : List ρ) (a : ρ), (∀ b ∈ l, b ∈ items) →
      f (l.foldl merge a) = f a + (l.map f).sum := by
    intro l
    induction l with
    | nil => simp
    | cons b l ih =>
      intro a hl
      have rest := ih (merge a b) fun x hx => hl x (List.mem_cons_of_mem b hx)
      rw [List.foldl_cons, rest, hf a b (hl b List.mem_cons_self), List.map_cons, List.sum_cons,
        add_assoc]
  cases items with
  | nil => cases h
  | cons first rest =>
    simp only [rollup, Option.some.injEq] at h
    rw [← h, fold rest first fun b hb => List.mem_cons_of_mem first hb, List.map_cons,
      List.sum_cons]

theorem IsRollup.sum {key : ρ → κ} {merge : ρ → ρ → ρ} {rows items : List ρ}
    (h : IsRollup key merge rows items) {f : ρ → M}
    (hf : ∀ a, ∀ b ∈ items, f (merge a b) = f a + f b) (P : κ → Bool) :
    ((rows.filter fun r => P (key r)).map f).sum =
      ((items.filter fun i => P (key i)).map f).sum := by
  rw [← sum_regroup h.keys key f P items h.covers, List.filter_map, List.map_map]
  refine congrArg List.sum (List.map_congr_left fun r hr => ?_)
  exact rollup_sum (fun a b hb => hf a b (List.mem_of_mem_filter hb))
    (h.row (key r) r (List.mem_of_mem_filter hr) rfl)

theorem sum_groupBy (key : ρ → γ) (w : ρ → M) (rows : List ρ) :
    ((groupBy key rows).map fun g => (g.2.map w).sum).sum = (rows.map w).sum := by
  have all := sum_regroup (List.nodup_dedup (rows.map key)) key w (fun _ => true)
    rows fun r hr => List.mem_dedup.mpr (List.mem_map_of_mem hr)
  simpa [groupBy, Function.comp_def] using all

end Sums

end MeshwardenDaemon.Library.Grouping
