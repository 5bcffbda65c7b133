import Mathlib.Data.List.Basic

/-! Calls of several statements, each of which is committed on its own. A call that is
stopped leaves what the statements before have made; so does one whose next statement
fails. States and statements may be of any type. -/
namespace MeshwardenDaemon.Library.Statements

variable {σ δ : Type*}

def complete : List (σ → Option σ) → σ → Option σ
  | [], s => some s
  | f :: rest, s => (f s).bind (complete rest)

/-- What a call leaves that is stopped after its first `k` statements. -/
def Leaves (statements : List (σ → Option σ)) (s u : σ) : Prop :=
  ∃ k ≤ statements.length, complete (statements.take k) s = some u

/-- The part of the state that the caller sees is as before the call or as after all of it. -/
def AllOrNothing (db : σ → δ) (statements : List (σ → Option σ)) (s : σ) : Prop :=
  ∀ u, Leaves statements s u → db u = db s ∨ ∃ t ∈ complete statements s, db u = db t

variable {f : σ → Option σ} {rest statements : List (σ → Option σ)} {s u : σ}

@[simp] theorem leaves_nil : Leaves [] s u ↔ u = s := by
  simp [Leaves, complete, eq_comm]

@[simp] theorem leaves_cons :
    Leaves (f :: rest) s u ↔ u = s ∨ ∃ t, f s = some t ∧ Leaves rest t u := by
  refine ⟨?_, ?_⟩
  · rintro ⟨k, bound, made⟩
    cases k with
    | zero => exact Or.inl (Option.some.inj made).symm
    | succ k =>
      obtain ⟨t, first, later⟩ := Option.bind_eq_some_iff.mp made
      exact Or.inr ⟨t, first, k, Nat.le_of_succ_le_succ bound, later⟩
  · rintro (rfl | ⟨t, first, k, bound, later⟩)
    · exact ⟨0, Nat.zero_le _, rfl⟩
    · exact ⟨k + 1, Nat.succ_le_succ bound, Option.bind_eq_some_iff.mpr ⟨t, first, later⟩⟩

theorem not_allOrNothing {db : σ → δ} (left : Leaves statements s u) (before : db u ≠ db s)
    (after : ∀ t ∈ complete statements s, db u ≠ db t) : ¬ AllOrNothing db statements s := by
  intro atomic
  rcases atomic u left with same | ⟨t, done, same⟩
  · exact before same
  · exact after t done same

end MeshwardenDaemon.Library.Statements
