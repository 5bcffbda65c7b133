import Mathlib.Data.List.Basic
import Mathlib.Order.Nat

/-! Walks along lists of places. One walk leads another when it has every common place
before it no later than the other has: whatever it visits before the place, the other
visits before it too. The leader may then walk on freely, and the follower wherever it
does not stand with the leader; it never comes to a place that the leader has yet to reach. -/
namespace MeshwardenDaemon.Library.Convoy

variable {α : Type*} [DecidableEq α]

def upTo (c : α) (walk : List α) : List α := walk.takeWhile (· ≠ c)

def Leads (first second : List α) : Prop :=
  ∀ c ∈ first, c ∈ second → upTo c first ⊆ upTo c second

instance (first second : List α) : Decidable (Leads first second) :=
  inferInstanceAs (Decidable (∀ c ∈ first, c ∈ second → ∀ x ∈ upTo c first, x ∈ upTo c second))

@[simp] theorem upTo_cons_self (c : α) (walk : List α) : upTo c (c :: walk) = [] := by
  simp [upTo]

theorem upTo_cons_of_ne {c x : α} (h : x ≠ c) (walk : List α) :
    upTo c (x :: walk) = x :: upTo c walk := by
  simp [upTo, h]

theorem mem_of_mem_upTo {c x : α} {walk : List α} (h : x ∈ upTo c walk) : x ∈ walk :=
  (List.takeWhile_sublist _).subset h

theorem leads_nil_right (walk : List α) : Leads walk [] := by
  intro c _ hc
  cases hc

theorem Leads.head {first rest : List α} {c : α} (h : Leads first (c :: rest))
    (hc : c ∈ first) : first.head? = some c := by
  cases first with
  | nil => cases hc
  | cons x walk =>
    by_cases same : x = c
    · exact congrArg some same
    · have sub := h c hc List.mem_cons_self
      rw [upTo_cons_self, upTo_cons_of_ne same] at sub
      exact absurd (sub List.mem_cons_self) List.not_mem_nil

omit [DecidableEq α] in
theorem head_not_mem_tail {walk : List α} {c : α} (nodup : walk.Nodup)
    (head : walk.head? = some c) : c ∉ walk.tail := by
  obtain ⟨rest, rfl⟩ := List.head?_eq_some_iff.mp head
  exact (List.nodup_cons.mp nodup).1

theorem Leads.not_mem_tail {first rest : List α} {c : α} (h : Leads first (c :: rest))
    (nodup : first.Nodup) : c ∉ first.tail :=
  fun hc => head_not_mem_tail nodup (h.head (List.mem_of_mem_tail hc)) hc

theorem Leads.tail {first second : List α} (h : Leads first second) (nodup : first.Nodup) :
    Leads first.tail second := by
  cases first with
  | nil => exact h
  | cons x walk =>
    intro c hc hs y hy
    have other : x ≠ c := by
      rintro rfl
      exact (List.nodup_cons.mp nodup).1 hc
    refine h c (List.mem_cons_of_mem _ hc) hs ?_
    rw [upTo_cons_of_ne other]
    exact List.mem_cons_of_mem _ hy

theorem Leads.follow {first second : List α} {c : α} (h : Leads first (c :: second))
    (apart : c ∉ first) : Leads first second := by
  intro d hd hs y hy
  have other : c ≠ d := by
    rintro rfl
    exact apart hd
  have before := h d hd (List.mem_cons_of_mem _ hs) hy
  rw [upTo_cons_of_ne other] at before
  refine (List.mem_cons.mp before).resolve_left ?_
  rintro rfl
  exact apart (mem_of_mem_upTo hy)

omit [DecidableEq α] in
/-- Of two lists in the order of a key, one is a prefix of the other when with each of its
items it has all that come before it there. -/
theorem prefix_of_closed {key : α → ℕ} {l e : List α}
    (hl : l.Pairwise fun a b => key a < key b) (he : e.Pairwise fun a b => key a < key b)
    (sub : l ⊆ e) (closed : ∀ x ∈ l, ∀ y ∈ e, key y < key x → y ∈ l) : l <+: e := by
  induction l generalizing e with
  | nil => exact List.nil_prefix
  | cons x l ih =>
    cases e with
    | nil => exact absurd (sub List.mem_cons_self) List.not_mem_nil
    | cons y e =>
      obtain ⟨hx, restl⟩ := List.pairwise_cons.mp hl
      obtain ⟨hy, reste⟩ := List.pairwise_cons.mp he
      -- the first items are the same: neither can come before the other
      obtain rfl : x = y := by
        by_contra differ
        have later := (List.mem_cons.mp (sub List.mem_cons_self)).resolve_left differ
        have less := hy x later
        have found := closed x List.mem_cons_self y List.mem_cons_self less
        have := hx y ((List.mem_cons.mp found).resolve_left (Ne.symm differ))
        omega
      refine List.cons_prefix_cons.mpr ⟨rfl, ih restl reste ?_ ?_⟩
      · intro z hz
        have := hx z hz
        refine (List.mem_cons.mp (sub (List.mem_cons_of_mem _ hz))).resolve_left ?_
        rintro rfl
        omega
      · intro z hz w hw less
        have := hy w hw
        have found := closed z (List.mem_cons_of_mem _ hz) w (List.mem_cons_of_mem _ hw) less
        refine (List.mem_cons.mp found).resolve_left ?_
        rintro rfl
        omega

end MeshwardenDaemon.Library.Convoy
