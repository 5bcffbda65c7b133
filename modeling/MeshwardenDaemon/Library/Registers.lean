import MeshwardenDaemon.Library.Runs

/-! Families of registers. An action touches some of them, and works on each as it would on
that one alone; then what a register holds after a run is due to the actions that touch it.
States, keys and contents may be of any type. -/
namespace MeshwardenDaemon.Library.Registers

variable {σ α κ ρ : Type*} {step : σ → α → Option σ} {look : σ → κ → ρ}
  {touches : κ → α → Bool} {act : ρ → α → ρ}

structure Family (step : σ → α → Option σ) (look : σ → κ → ρ) (touches : κ → α → Bool)
    (act : ρ → α → ρ) : Prop where
  own : ∀ {s t a k}, step s a = some t → touches k a = true → look t k = act (look s k) a
  other : ∀ {s t a k}, step s a = some t → touches k a = false → look t k = look s k

theorem Family.run (h : Family step look touches act) {s t : σ} {as : List α} (k : κ)
    (hr : Runs.run step s as = some t) :
    look t k = (as.filter (touches k)).foldl act (look s k) := by
  induction as generalizing s with
  | nil =>
    obtain rfl := Option.some.inj hr
    rfl
  | cons a as ih =>
    obtain ⟨u, hu, hr⟩ := Runs.run_cons.mp hr
    rw [ih hr]
    cases touched : touches k a with
    | true => rw [List.filter_cons_of_pos touched, List.foldl_cons, h.own hu touched]
    | false => rw [List.filter_cons_of_neg (by simp [touched]), h.other hu touched]

end MeshwardenDaemon.Library.Registers
