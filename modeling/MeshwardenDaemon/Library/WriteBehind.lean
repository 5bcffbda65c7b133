import Mathlib.Data.List.Basic

/-! Writers that work side by side on a register. Each has a list of writes before it; a
write may say nothing of the register. What the register comes to hold is the last value
that is still to be written, as long as no writer gets ahead of an earlier one. -/
namespace MeshwardenDaemon.Library.WriteBehind

variable {β α : Type*} {said : β → Option α} {writers : List (List β)} {held : Option α}

/-- What the register comes to hold when the writers go on one after the other. -/
def settled (said : β → Option α) (writers : List (List β)) (held : Option α) : Option α :=
  (writers.flatten.filterMap said).getLast?.or held

theorem settled_silent (silent : ∀ writer ∈ writers, ∀ w ∈ writer, said w = none) :
    settled said writers held = held := by
  have nothing : writers.flatten.filterMap said = [] := by
    refine List.filterMap_eq_nil_iff.mpr fun w hw => ?_
    obtain ⟨writer, hwriter, inside⟩ := List.mem_flatten.mp hw
    exact silent writer hwriter w inside
  rw [settled, nothing]
  rfl

theorem settled_append (more : List (List β)) :
    settled said (writers ++ more) held =
      (more.flatten.filterMap said).getLast?.or (settled said writers held) := by
  rw [settled, settled, List.flatten_append, List.filterMap_append, List.getLast?_append,
    Option.or_assoc]

theorem settled_proceed {k : ℕ} {w : β} {rest : List β} (waits : writers[k]? = some (w :: rest))
    (turn : said w = none ∨ ∀ writer ∈ writers.take k, ∀ v ∈ writer, said v = none) :
    settled said (writers.set k rest) ((said w).or held) = settled said writers held := by
  obtain ⟨inside, now⟩ := List.getElem?_eq_some_iff.mp waits
  have split : writers = writers.take k ++ (w :: rest) :: writers.drop (k + 1) := by
    rw [← now, List.getElem_cons_drop, List.take_append_drop]
  have after : writers.set k rest = writers.take k ++ rest :: writers.drop (k + 1) :=
    List.set_eq_take_append_cons_drop.trans (if_pos inside)
  rw [after]
  conv_rhs => rw [split]
  simp only [settled, List.flatten_append, List.flatten_cons, List.filterMap_append,
    List.cons_append, List.filterMap_cons]
  rcases turn with silent | first
  · simp only [silent, Option.none_or]
  · have before : (writers.take k).flatten.filterMap said = [] := by
      refine List.filterMap_eq_nil_iff.mpr fun v hv => ?_
      obtain ⟨writer, hwriter, inside⟩ := List.mem_flatten.mp hv
      exact first writer hwriter v inside
    cases said w with
    | none => simp only [Option.none_or]
    | some a =>
      simp only [before, List.nil_append, List.getLast?_cons, Option.some_or]
      cases (rest.filterMap said ++ (writers.drop (k + 1)).flatten.filterMap said).getLast? <;> rfl

theorem getLast?_of_forall {l : List α} {a : α} (h : a ∈ l) (only : ∀ b ∈ l, b = a) :
    l.getLast? = some a := by
  rw [List.getLast?_eq_some_getLast (List.ne_nil_of_mem h)]
  exact congrArg some (only _ (List.getLast_mem _))

end MeshwardenDaemon.Library.WriteBehind
