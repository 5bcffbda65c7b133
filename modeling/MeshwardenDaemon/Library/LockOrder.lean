import MeshwardenDaemon.Library.Runs
import Mathlib.Data.List.MinMax
import Mathlib.Order.Nat

/-! Tasks that take locks in a fixed order. A task is what it has still to do: take a lock, give
back the one it took last, or wait for something that comes by itself. If every task takes its
locks in the order of a rank, the tasks cannot block each other for ever: whatever their order,
all of them come to their end. -/
namespace MeshwardenDaemon.Library.LockOrder

inductive Op (ℓ : Type*)
  | acquire (l : ℓ)
  | release (l : ℓ)
  | await
  deriving DecidableEq

structure Worker (ℓ : Type*) where
  /-- The locks it holds, the latest first. -/
  held : List ℓ
  rest : List (Op ℓ)
  deriving DecidableEq

def locked {ℓ : Type*} (l : ℓ) (body : List (Op ℓ)) : List (Op ℓ) :=
  .acquire l :: (body ++ [.release l])

/-- Every lock is taken above those that are held, given back before them, and none is kept. -/
def Ordered {ℓ : Type*} (rank : ℓ → ℕ) : List ℓ → List (Op ℓ) → Prop
  | held, [] => held = []
  | held, .acquire l :: rest => (∀ h ∈ held, rank h < rank l) ∧ Ordered rank (l :: held) rest
  | held, .release l :: rest => ∃ outer, held = l :: outer ∧ Ordered rank outer rest
  | held, .await :: rest => Ordered rank held rest

def Block {ℓ : Type*} (rank : ℓ → ℕ) (held : List ℓ) (body : List (Op ℓ)) : Prop :=
  ∀ rest, Ordered rank held rest → Ordered rank held (body ++ rest)

section blocks
variable {ℓ : Type*} {rank : ℓ → ℕ} {held : List ℓ} {first second : List (Op ℓ)}

theorem Block.nil : Block rank held [] := fun _ h => h

theorem Block.await (h : Block rank held second) : Block rank held (.await :: second) :=
  fun rest hr => h rest hr

theorem Block.append (hf : Block rank held first) (hs : Block rank held second) :
    Block rank held (first ++ second) := by
  intro rest h
  rw [List.append_assoc]
  exact hf _ (hs rest h)

theorem Block.flatten {bodies : List (List (Op ℓ))} (h : ∀ body ∈ bodies, Block rank held body) :
    Block rank held bodies.flatten := by
  induction bodies with
  | nil => exact Block.nil
  | cons body bodies ih =>
    exact (h body List.mem_cons_self).append (ih fun b hb => h b (List.mem_cons_of_mem _ hb))

theorem Block.locked {l : ℓ} (above : ∀ h ∈ held, rank h < rank l)
    (body : Block rank (l :: held) first) : Block rank held (locked l first) := by
  intro rest h
  refine ⟨above, ?_⟩
  change Ordered rank (l :: held) ((first ++ [.release l]) ++ rest)
  rw [List.append_assoc]
  exact body _ ⟨held, rfl, h⟩

theorem Block.ordered (h : Block rank [] first) : Ordered rank [] first := by
  have whole := h [] rfl
  rwa [List.append_nil] at whole

theorem ordered_unwound (held : List ℓ) {handler : List (Op ℓ)} (h : Ordered rank [] handler) :
    Ordered rank held (held.map .release ++ handler) := by
  induction held with
  | nil => exact h
  | cons l held ih => exact ⟨held, rfl, ih⟩

end blocks

section system
variable {ℓ τ : Type*} [DecidableEq ℓ]

inductive Action (τ : Type*)
  | start (work : τ)
  /-- The k-th task makes its next statement. -/
  | go (k : ℕ)
  /-- The next statement of the k-th task raises. -/
  | raise (k : ℕ) (handler : τ)
  deriving DecidableEq

/-- The k-th task goes on; a lock is taken only if nobody holds it. -/
def go (s : List (Worker ℓ)) (k : ℕ) : Option (List (Worker ℓ)) :=
  match s[k]? with
  | some ⟨held, .acquire l :: rest⟩ =>
    if ∀ task ∈ s, l ∉ task.held then some (s.set k ⟨l :: held, rest⟩) else none
  | some ⟨held, .release l :: rest⟩ => some (s.set k ⟨held.erase l, rest⟩)
  | some ⟨held, .await :: rest⟩ => some (s.set k ⟨held, rest⟩)
  | _ => none

def step (script : τ → List (Op ℓ)) (s : List (Worker ℓ)) : Action τ → Option (List (Worker ℓ))
  | .start work => some (s ++ [⟨[], script work⟩])
  | .go k => go s k
  | .raise k handler =>
    match s[k]? with
    | some ⟨held, _ :: _⟩ => some (s.set k ⟨held, held.map .release ++ script handler⟩)
    | _ => none

def pending (s : List (Worker ℓ)) : ℕ := (s.flatMap Worker.rest).length

def Goes (_ : List (Worker ℓ)) : Action τ → Prop
  | .go _ => True
  | _ => False

instance (s : List (Worker ℓ)) (a : Action τ) : Decidable (Goes s a) := by
  unfold Goes
  cases a <;> infer_instance

def AllOrdered (rank : ℓ → ℕ) (s : List (Worker ℓ)) : Prop :=
  ∀ task ∈ s, Ordered rank task.held task.rest

variable {rank : ℓ → ℕ} {script : τ → List (Op ℓ)} {s t : List (Worker ℓ)} {a : Action τ} {k : ℕ}

theorem go_cases (hs : go s k = some t) : ∃ held op rest held',
    s[k]? = some ⟨held, op :: rest⟩ ∧ t = s.set k ⟨held', rest⟩ ∧
      ∀ rank : ℓ → ℕ, Ordered rank held (op :: rest) → Ordered rank held' rest := by
  rw [go] at hs
  split at hs
  · rename_i held l rest waits
    simp only [Option.ite_none_right_eq_some, Option.some.injEq] at hs
    exact ⟨held, _, rest, _, waits, hs.2.symm, fun _ h => h.2⟩
  · rename_i held l rest waits
    refine ⟨held, _, rest, _, waits, (Option.some.inj hs).symm, ?_⟩
    rintro rank ⟨outer, rfl, h⟩
    rwa [List.erase_cons_head]
  · rename_i held rest waits
    exact ⟨held, _, rest, _, waits, (Option.some.inj hs).symm, fun _ => id⟩
  · cases hs

omit [DecidableEq ℓ] in
theorem AllOrdered.set (h : AllOrdered rank s) {task : Worker ℓ}
    (ordered : Ordered rank task.held task.rest) : AllOrdered rank (s.set k task) := by
  intro x hx
  rcases List.mem_or_eq_of_mem_set hx with old | rfl
  · exact h x old
  · exact ordered

theorem AllOrdered.step (h : AllOrdered rank s) (scripts : ∀ work, Ordered rank [] (script work))
    (hs : LockOrder.step script s a = some t) : AllOrdered rank t := by
  cases a with
  | start work =>
    cases hs
    intro task ht
    rcases List.mem_append.mp ht with old | new
    · exact h task old
    · obtain rfl := List.mem_singleton.mp new
      exact scripts work
  | go k =>
    obtain ⟨held, op, rest, held', waits, rfl, keeps⟩ := go_cases hs
    exact h.set (keeps rank (h _ (List.mem_of_getElem? waits)))
  | raise k handler =>
    simp only [LockOrder.step] at hs
    split at hs
    · rename_i held op rest waits
      cases hs
      exact h.set (ordered_unwound held (scripts handler))
    · cases hs

theorem pending_go (hs : go s k = some t) : pending t + 1 = pending s := by
  obtain ⟨held, op, rest, held', waits, rfl, -⟩ := go_cases hs
  obtain ⟨inside, now⟩ := List.getElem?_eq_some_iff.mp waits
  have split : s = s.take k ++ ⟨held, op :: rest⟩ :: s.drop (k + 1) := by
    rw [← now, List.getElem_cons_drop, List.take_append_drop]
  have after : s.set k ⟨held', rest⟩ = s.take k ++ ⟨held', rest⟩ :: s.drop (k + 1) :=
    List.set_eq_take_append_cons_drop.trans (if_pos inside)
  rw [after]
  conv_rhs => rw [split]
  simp only [pending, List.flatMap_append, List.flatMap_cons, List.length_append, List.length_cons]
  omega

def Worker.wants (task : Worker ℓ) : Option ℓ :=
  match task.rest with
  | .acquire l :: _ => some l
  | _ => none

/-- A task that cannot go on wants a lock that a task with more to do holds, which wants one of
a higher rank or can go on. -/
theorem blocked (h : AllOrdered rank s) (stuck : ∀ k, go s k = none) {task : Worker ℓ}
    (ht : task ∈ s) (unfinished : task.rest ≠ []) :
    ∃ l, task.wants = some l ∧ (∀ l' ∈ task.held, rank l' < rank l) ∧
      ∃ other ∈ s, l ∈ other.held := by
  obtain ⟨k, waits⟩ := List.mem_iff_getElem?.mp ht
  have still := stuck k
  obtain ⟨held, rest⟩ := task
  have ordered := h _ ht
  rw [go, waits] at still
  cases rest with
  | nil => exact absurd rfl unfinished
  | cons op rest =>
    cases op with
    | acquire l =>
      simp only [ite_eq_right_iff, reduceCtorEq, imp_false, not_forall, not_not] at still
      obtain ⟨other, ho, holds⟩ := still
      exact ⟨l, rfl, ordered.1, other, ho, holds⟩
    | release l => cases still
    | await => cases still

/-- Of all the locks that are waited for, one has the highest rank; who holds it can go on. -/
theorem finished_of_stuck (h : AllOrdered rank s) (stuck : ∀ k, go s k = none) :
    ∀ task ∈ s, task.rest = [] ∧ task.held = [] := by
  have done : ∀ task ∈ s, task.rest = [] := by
    by_contra some_left
    push Not at some_left
    obtain ⟨task, ht, unfinished⟩ := some_left
    have waiting : (s.filter fun task => decide (task.rest ≠ [])) ≠ [] :=
      List.ne_nil_of_mem (List.mem_filter.mpr ⟨ht, by simpa using unfinished⟩)
    obtain ⟨top, htop⟩ := Option.ne_none_iff_exists'.mp
      (mt (List.argmax_eq_none
        (f := fun task : Worker ℓ => (task.wants.map rank).getD 0)).mp waiting)
    have unfinished_iff : ∀ task, task ∈ s.filter (fun task => decide (task.rest ≠ [])) ↔
        task ∈ s ∧ task.rest ≠ [] := by
      simp
    obtain ⟨inside, more⟩ := (unfinished_iff top).mp (List.argmax_mem htop)
    obtain ⟨l, wants, -, other, ho, holds⟩ := blocked h stuck inside more
    have busy : other.rest ≠ [] := by
      intro none
      have ordered := h other ho
      rw [none] at ordered
      rw [show other.held = [] from ordered] at holds
      cases holds
    obtain ⟨l', wants', above, -⟩ := blocked h stuck ho busy
    have highest := List.le_of_mem_argmax ((unfinished_iff other).mpr ⟨ho, busy⟩) htop
    simp only [wants, wants', Option.map_some, Option.getD_some] at highest
    exact absurd (above l holds) (Nat.not_lt.mpr highest)
  refine fun task ht => ⟨done task ht, ?_⟩
  have ordered := h task ht
  rwa [done task ht] at ordered

theorem tasks_finish (scripts : ∀ work, Ordered rank [] (script work)) {acts more : List (Action τ)}
    (hrun : Runs.run (step script) [] acts = some s) (goes : Runs.Along (step script) Goes s more)
    (hmore : Runs.run (step script) s more = some t) :
    more.length + pending t ≤ pending s ∧
      ((∀ k, go t k = none) → ∀ task ∈ t, task.rest = [] ∧ task.held = []) := by
  have keeps : ∀ s a t, AllOrdered rank s → step script s a = some t → AllOrdered rank t :=
    fun _ _ _ h hs => h.step scripts hs
  have ordered : AllOrdered rank s := Runs.reachable keeps (by simp [AllOrdered]) hrun
  refine ⟨Runs.length_le (I := AllOrdered rank) pending (fun s a t h goes hs => ?_) ordered goes
    hmore, finished_of_stuck (Runs.reachable keeps ordered hmore)⟩
  refine ⟨keeps s a t h hs, ?_⟩
  cases a with
  | go k => exact Nat.lt_of_succ_le (pending_go hs).le
  | start work => exact goes.elim
  | raise k handler => exact goes.elim

end system

end MeshwardenDaemon.Library.LockOrder
