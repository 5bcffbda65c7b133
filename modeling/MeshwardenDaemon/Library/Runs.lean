import Mathlib.Data.Nat.Init

/-! Finite runs of a partial step function, and the induction rules for them.
A system is a function `step : σ → α → Option σ`; an action that is not enabled
has no successor. Nothing here is about a particular program. -/
namespace MeshwardenDaemon.Library.Runs

variable {σ α : Type*}

def run (step : σ → α → Option σ) : σ → List α → Option σ
  | s, [] => some s
  | s, a :: rest => (step s a).bind fun t => run step t rest

/-- Every action of the run meets `C` in the state it is taken from. -/
def Along (step : σ → α → Option σ) (C : σ → α → Prop) : σ → List α → Prop
  | _, [] => True
  | s, a :: rest => C s a ∧ ∀ t ∈ step s a, Along step C t rest

instance decidableAlong (step : σ → α → Option σ) (C : σ → α → Prop)
    [∀ s a, Decidable (C s a)] : ∀ s as, Decidable (Along step C s as)
  | _, [] => isTrue trivial
  | s, a :: rest =>
    haveI := fun t => decidableAlong step C t rest
    inferInstanceAs (Decidable (C s a ∧ ∀ t ∈ step s a, Along step C t rest))

variable {step : σ → α → Option σ} {C D : σ → α → Prop} {I : σ → Prop}

@[simp] theorem run_nil (s : σ) : run step s [] = some s := rfl

theorem run_cons {s t : σ} {a : α} {rest : List α} :
    run step s (a :: rest) = some t ↔
      ∃ u, step s a = some u ∧ run step u rest = some t := by
  simp only [run, Option.bind_eq_some_iff]

theorem run_append {s t : σ} {as bs : List α} :
    run step s (as ++ bs) = some t ↔
      ∃ u, run step s as = some u ∧ run step u bs = some t := by
  induction as generalizing s with
  | nil => simp
  | cons a as ih =>
    simp only [List.cons_append, run_cons, ih]
    refine ⟨?_, ?_⟩
    · rintro ⟨u, hu, v, hv, ht⟩
      exact ⟨v, ⟨u, hu, hv⟩, ht⟩
    · rintro ⟨v, ⟨u, hu, hv⟩, ht⟩
      exact ⟨u, hu, v, hv, ht⟩

@[simp] theorem along_nil (s : σ) : Along step C s [] := trivial

theorem along_cons {s t : σ} {a : α} {rest : List α} (h : step s a = some t) :
    Along step C s (a :: rest) ↔ C s a ∧ Along step C t rest := by
  simp only [Along, h, Option.mem_def, Option.some.injEq]
  refine ⟨?_, ?_⟩
  · rintro ⟨hc, hr⟩
    exact ⟨hc, hr t rfl⟩
  · rintro ⟨hc, hr⟩
    exact ⟨hc, fun u hu => hu ▸ hr⟩

theorem along_of_always (h : ∀ s a, C s a) (s : σ) (as : List α) : Along step C s as := by
  induction as generalizing s with
  | nil => trivial
  | cons a as ih => exact ⟨h s a, fun t _ => ih t⟩

theorem along_of_forall {A : α → Prop} {as : List α} (h : ∀ a ∈ as, A a) (s : σ) :
    Along step (fun _ a => A a) s as := by
  induction as generalizing s with
  | nil => trivial
  | cons a as ih =>
    exact ⟨h a List.mem_cons_self, fun t _ => ih (fun b hb => h b (List.mem_cons_of_mem _ hb)) t⟩

theorem along_append {s t : σ} {as bs : List α} (hr : run step s as = some t)
    (ha : Along step C s as) (hb : Along step C t bs) : Along step C s (as ++ bs) := by
  induction as generalizing s with
  | nil =>
    rw [run_nil, Option.some.injEq] at hr
    exact hr ▸ hb
  | cons a as ih =>
    obtain ⟨u, hu, hr⟩ := run_cons.mp hr
    obtain ⟨hc, ha⟩ := (along_cons hu).mp ha
    exact (along_cons hu).mpr ⟨hc, ih hr ha⟩

/-- The invariant rule: what holds at the start and is kept by every allowed
step holds at the end of every allowed run. -/
theorem invariant (hstep : ∀ s a t, I s → C s a → step s a = some t → I t)
    {s t : σ} {as : List α} (hs : I s) (hc : Along step C s as)
    (hr : run step s as = some t) : I t := by
  induction as generalizing s with
  | nil =>
    rw [run_nil, Option.some.injEq] at hr
    exact hr ▸ hs
  | cons a as ih =>
    obtain ⟨u, hu, hr⟩ := run_cons.mp hr
    obtain ⟨ha, hc⟩ := (along_cons hu).mp hc
    exact ih (hstep s a u hs ha hu) hc hr

theorem reachable (hstep : ∀ s a t, I s → step s a = some t → I t)
    {s t : σ} {as : List α} (hs : I s) (hr : run step s as = some t) : I t :=
  invariant (fun s a t h _ hst => hstep s a t h hst) hs
    (along_of_always (fun _ _ => trivial) s as) hr

/-- The history rule: what holds of the empty history and is kept by every step, the
history growing at its end, holds of every run. -/
theorem history {H : List α → σ → Prop}
    (hstep : ∀ as s a t, H as s → step s a = some t → H (as ++ [a]) t)
    {s t : σ} {as : List α} (hs : H [] s) (hr : run step s as = some t) : H as t := by
  have extend : ∀ (rest before : List α) (u : σ), H before u → run step u rest = some t →
      H (before ++ rest) t := by
    intro rest
    induction rest with
    | nil =>
      intro before u hu hr
      rw [run_nil, Option.some.injEq] at hr
      rwa [List.append_nil, ← hr]
    | cons a rest ih =>
      intro before u hu hr
      obtain ⟨v, hv, hr⟩ := run_cons.mp hr
      have grown := ih (before ++ [a]) v (hstep before u a v hu hv) hr
      rwa [List.append_assoc] at grown
  exact extend as [] s hs hr

/-- The projection rule: a part of the state that only some actions touch, each of them as
the part alone prescribes, is where the run of these actions on the part leads. -/
theorem project {τ : Type*} (view : σ → τ) {part : τ → α → Option τ} {mine : α → Bool}
    (hstep : ∀ s a t, I s → step s a = some t → I t)
    (own : ∀ s a t, I s → step s a = some t → mine a = true → part (view s) a = some (view t))
    (other : ∀ s a t, I s → step s a = some t → mine a = false → view t = view s)
    {s t : σ} {as : List α} (hs : I s) (hr : run step s as = some t) :
    run part (view s) (as.filter mine) = some (view t) := by
  induction as generalizing s with
  | nil =>
    rw [run_nil, Option.some.injEq] at hr
    exact hr ▸ rfl
  | cons a as ih =>
    obtain ⟨u, hu, hr⟩ := run_cons.mp hr
    have rest := ih (hstep s a u hs hu) hr
    by_cases touched : mine a = true
    · rw [List.filter_cons_of_pos touched]
      exact run_cons.mpr ⟨view u, own s a u hs hu touched, rest⟩
    · rw [List.filter_cons_of_neg touched, ← other s a u hs hu (by simpa using touched)]
      exact rest

/-- The actions of a run, each with the state that it is taken from. -/
def trace (step : σ → α → Option σ) : σ → List α → List (σ × α)
  | _, [] => []
  | s, a :: rest => (s, a) :: ((step s a).map fun t => trace step t rest).getD []

theorem trace_cons {s t : σ} {a : α} {rest : List α} (h : step s a = some t) :
    trace step s (a :: rest) = (s, a) :: trace step t rest := by
  simp [trace, h]

theorem trace_actions {s t : σ} {as : List α} (hr : run step s as = some t) :
    (trace step s as).map Prod.snd = as := by
  induction as generalizing s with
  | nil => rfl
  | cons a as ih =>
    obtain ⟨u, hu, hr⟩ := run_cons.mp hr
    rw [trace_cons hu, List.map_cons, ih hr]

/-- The recording rule: what holds of the empty record and is kept by every allowed step,
the action and the state it is taken from added at the end, holds of every allowed run. -/
theorem recorded {H : List (σ × α) → σ → Prop}
    (hstep : ∀ record s a t, H record s → C s a → step s a = some t → H (record ++ [(s, a)]) t)
    {s t : σ} {as : List α} (hs : H [] s) (hc : Along step C s as)
    (hr : run step s as = some t) : H (trace step s as) t := by
  have extend : ∀ (rest : List α) (record : List (σ × α)) (u : σ), H record u →
      Along step C u rest → run step u rest = some t → H (record ++ trace step u rest) t := by
    intro rest
    induction rest with
    | nil =>
      intro record u hu _ hr
      rw [run_nil, Option.some.injEq] at hr
      simpa [trace, ← hr] using hu
    | cons a rest ih =>
      intro record u hu hc hr
      obtain ⟨v, hv, hr⟩ := run_cons.mp hr
      obtain ⟨ha, hc⟩ := (along_cons hv).mp hc
      have grown := ih (record ++ [(u, a)]) v (hstep record u a v hu ha hv) hc hr
      rwa [List.append_assoc, List.singleton_append, ← trace_cons hv] at grown
  simpa using extend as [] s hs hc hr

theorem along_mono (mono : ∀ s a, C s a → D s a) {s : σ} {as : List α}
    (h : Along step C s as) : Along step D s as := by
  induction as generalizing s with
  | nil => trivial
  | cons a as ih => exact ⟨mono s a h.1, fun t ht => ih (h.2 t ht)⟩

theorem along_and {s : σ} {as : List α} (hc : Along step C s as)
    (hd : Along step D s as) : Along step (fun s a => C s a ∧ D s a) s as := by
  induction as generalizing s with
  | nil => trivial
  | cons a as ih =>
    exact ⟨⟨hc.1, hd.1⟩, fun t ht => ih (hc.2 t ht) (hd.2 t ht)⟩

/-- The ranking rule: where every state of `I` has an allowed step that reaches `G`,
or stays in `I` and lowers the rank, an allowed run reaches `G`. -/
theorem reaches {G : σ → Prop} (rank : σ → ℕ)
    (hstep : ∀ s, I s → ∃ a t, C s a ∧ step s a = some t ∧ (G t ∨ I t ∧ rank t < rank s))
    {s : σ} (hs : I s) : ∃ as t, Along step C s as ∧ run step s as = some t ∧ G t := by
  induction hn : rank s using Nat.strong_induction_on generalizing s with
  | _ n ih =>
    obtain ⟨a, t, hc, ht, goal | ⟨inv, lower⟩⟩ := hstep s hs
    · exact ⟨[a], t, (along_cons ht).mpr ⟨hc, trivial⟩, run_cons.mpr ⟨t, ht, rfl⟩, goal⟩
    · obtain ⟨as, u, along, hu, goal⟩ := ih (rank t) (hn ▸ lower) inv rfl
      exact ⟨a :: as, u, (along_cons ht).mpr ⟨hc, along⟩, run_cons.mpr ⟨t, ht, hu⟩, goal⟩

/-- The bounding rule: where no allowed step raises the rank, and those that count lower it, no
more of them count than the rank that a run starts from. -/
theorem countP_le (counts : α → Bool) (rank : σ → ℕ)
    (hstep : ∀ s a t, I s → C s a → step s a = some t →
      I t ∧ rank t + (if counts a then 1 else 0) ≤ rank s)
    {s t : σ} {as : List α} (hs : I s) (hc : Along step C s as) (hr : run step s as = some t) :
    as.countP counts + rank t ≤ rank s := by
  induction as generalizing s with
  | nil =>
    rw [run_nil, Option.some.injEq] at hr
    simp [hr]
  | cons a as ih =>
    obtain ⟨u, hu, hr⟩ := run_cons.mp hr
    obtain ⟨ha, hc⟩ := (along_cons hu).mp hc
    obtain ⟨inv, lower⟩ := hstep s a u hs ha hu
    have shorter := ih inv hc hr
    rw [List.countP_cons]
    omega

theorem length_le (rank : σ → ℕ)
    (hstep : ∀ s a t, I s → C s a → step s a = some t → I t ∧ rank t < rank s)
    {s t : σ} {as : List α} (hs : I s) (hc : Along step C s as) (hr : run step s as = some t) :
    as.length + rank t ≤ rank s := by
  have counted := countP_le (fun _ => true) rank
    (fun s a t h ha hst => by simpa only [if_true, Nat.succ_le_iff] using hstep s a t h ha hst)
    hs hc hr
  rwa [List.countP_true] at counted

theorem along_of_step (hstep : ∀ s a t, I s → C s a → step s a = some t → I t ∧ D s a)
    {s t : σ} {as : List α} (hs : I s) (hc : Along step C s as) (hr : run step s as = some t) :
    Along step D s as := by
  induction as generalizing s with
  | nil => trivial
  | cons a as ih =>
    obtain ⟨u, hu, hr⟩ := run_cons.mp hr
    obtain ⟨ha, hc⟩ := (along_cons hu).mp hc
    obtain ⟨inv, does⟩ := hstep s a u hs ha hu
    exact (along_cons hu).mpr ⟨does, ih inv hc hr⟩

theorem along_congr (hstep : ∀ s a t, I s → step s a = some t → I t)
    (hcongr : ∀ s a t, I s → step s a = some t → (C s a ↔ D s a))
    {s t : σ} {as : List α} (hs : I s) (hr : run step s as = some t) :
    Along step C s as ↔ Along step D s as := by
  induction as generalizing s with
  | nil => exact Iff.rfl
  | cons a as ih =>
    obtain ⟨u, hu, hr⟩ := run_cons.mp hr
    rw [along_cons hu, along_cons hu, hcongr s a u hs hu, ih (hstep s a u hs hu) hr]

/-- A property that a step keeps exactly when it meets `C` holds at the end of a
run exactly when it held at the start and `C` holds along the run. -/
theorem run_iff_along {Q : σ → Prop} (hstep : ∀ s a t, I s → step s a = some t → I t)
    (hiff : ∀ s a t, I s → step s a = some t → (Q t ↔ Q s ∧ C s a))
    {s t : σ} {as : List α} (hs : I s) (hr : run step s as = some t) :
    Q t ↔ Q s ∧ Along step C s as := by
  induction as generalizing s with
  | nil =>
    rw [run_nil, Option.some.injEq] at hr
    simp [hr]
  | cons a as ih =>
    obtain ⟨u, hu, hr⟩ := run_cons.mp hr
    rw [ih (hstep s a u hs hu) hr, hiff s a u hs hu, along_cons hu, and_assoc]

theorem along_kept_iff {Q : σ → Prop} (hstep : ∀ s a t, I s → step s a = some t → I t)
    (hiff : ∀ s a t, I s → Q s → step s a = some t → (Q t ↔ C s a))
    {s t : σ} {as : List α} (hs : I s) (hq : Q s) (hr : run step s as = some t) :
    Along step (fun s a => ∀ t ∈ step s a, Q t) s as ↔ Along step C s as := by
  induction as generalizing s with
  | nil => exact Iff.rfl
  | cons a as ih =>
    obtain ⟨u, hu, hr⟩ := run_cons.mp hr
    have first : (∀ t ∈ step s a, Q t) ↔ C s a := by
      rw [← hiff s a u hs hq hu, hu]
      simp
    rw [along_cons hu, along_cons hu, first]
    refine and_congr_right fun hc => ?_
    exact ih (hstep s a u hs hu) ((hiff s a u hs hq hu).mpr hc) hr

end MeshwardenDaemon.Library.Runs
