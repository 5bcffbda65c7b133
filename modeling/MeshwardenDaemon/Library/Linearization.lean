import Mathlib.Data.List.Basic

/-! Linearizability of a shared object. The requests of several callers overlap in time;
they are linearized by one sequence in which the object serves them one at a time, such
that every completed request was told what it is told there, and no request stands before
one that had ended when it began. Nothing here is about a particular program. -/
namespace MeshwardenDaemon.Library.Linearization

structure Served (ι ρ υ : Type*) where
  caller : ι
  request : ρ
  response : υ
  deriving DecidableEq

variable {ι ν ρ υ : Type*}

def requests (log : List (Served ι ρ υ)) : List (ι × ρ) :=
  log.map fun e => (e.caller, e.request)

theorem not_reversed {number : ι → ℕ} {l : List ι}
    (sorted : l.Pairwise fun a b => number a ≤ number b) {i j : ι}
    (lt : number i < number j) : ¬ [j, i].Sublist l := fun reversed =>
  absurd (sorted.forall_sublist reversed) (by omega)

end MeshwardenDaemon.Library.Linearization
