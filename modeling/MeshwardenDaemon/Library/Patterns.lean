import Mathlib.Computability.Language

/-! Patterns of elements that stand for themselves, of wildcards for one element and of
wildcards for a run of any length: the words they mean, a matcher that decides them, and
the three readings of a word as a pattern. Elements may be of any type. -/
namespace MeshwardenDaemon.Library.Patterns

variable {α : Type*}

inductive Token (α : Type*)
  | run | one
  | lit (a : α)
  deriving DecidableEq

def Token.words : Token α → Language α
  | .run => Set.univ
  | .one => {w | ∃ x, w = [x]}
  | .lit a => {[a]}

def words (pattern : List (Token α)) : Language α := (pattern.map Token.words).prod

def accepts [DecidableEq α] : List (Token α) → List α → Bool
  | [], rest => rest.isEmpty
  | .lit a :: pattern, x :: rest => x = a && accepts pattern rest
  | .one :: pattern, _ :: rest => accepts pattern rest
  | .lit _ :: _, [] => false
  | .one :: _, [] => false
  | .run :: pattern, rest => rest.tails.any (accepts pattern)

@[simp] theorem mem_run (w : List α) : w ∈ (Token.run : Token α).words := trivial

@[simp] theorem mem_one {w : List α} : w ∈ (Token.one : Token α).words ↔ ∃ x, w = [x] := Iff.rfl

@[simp] theorem mem_lit {a : α} {w : List α} : w ∈ (Token.lit a).words ↔ w = [a] := Iff.rfl

theorem words_append (p q : List (Token α)) : words (p ++ q) = words p * words q := by
  simp only [words, List.map_append, List.prod_append]

theorem mem_words_nil {w : List α} : w ∈ words ([] : List (Token α)) ↔ w = [] := Iff.rfl

theorem mem_words_cons {k : Token α} {pattern : List (Token α)} {w : List α} :
    w ∈ words (k :: pattern) ↔ ∃ a ∈ k.words, ∃ b ∈ words pattern, a ++ b = w := by
  simp only [words, List.map_cons, List.prod_cons, Language.mem_mul]

theorem accepts_iff [DecidableEq α] {pattern : List (Token α)} {w : List α} :
    accepts pattern w = true ↔ w ∈ words pattern := by
  induction pattern generalizing w with
  | nil => rw [mem_words_nil, accepts, List.isEmpty_iff]
  | cons k pattern ih =>
    rw [mem_words_cons]
    cases k with
    | run =>
      simp only [accepts, List.any_eq_true, List.mem_tails, mem_run, true_and, ih]
      refine ⟨?_, ?_⟩
      · rintro ⟨b, ⟨a, same⟩, hb⟩
        exact ⟨a, b, hb, same⟩
      · rintro ⟨a, b, hb, same⟩
        exact ⟨b, ⟨a, same⟩, hb⟩
    | one =>
      cases w with
      | nil => simp [accepts]
      | cons x rest =>
        rw [accepts, ih]
        simp
    | lit a =>
      cases w with
      | nil => simp [accepts]
      | cons x rest =>
        simp only [accepts, Bool.and_eq_true, decide_eq_true_eq, ih]
        simp [@eq_comm _ x, and_comm]

section readings
variable (text : List α)

theorem mem_words_lit {w : List α} : w ∈ words (text.map Token.lit) ↔ w = text := by
  induction text generalizing w with
  | nil => exact mem_words_nil
  | cons a text ih => simp [mem_words_cons, ih, @eq_comm _ w]

variable [DecidableEq α] {w : List α}

theorem accepts_prefix : accepts (text.map .lit ++ [.run]) w = true ↔ text <+: w := by
  rw [accepts_iff, words_append, Language.mem_mul]
  refine ⟨?_, ?_⟩
  · rintro ⟨before, plain, rest, -, same⟩
    rw [mem_words_lit] at plain
    exact ⟨rest, plain ▸ same⟩
  · rintro ⟨rest, same⟩
    refine ⟨text, (mem_words_lit text).mpr rfl, rest, ?_, same⟩
    exact mem_words_cons.mpr ⟨rest, mem_run _, [], rfl, by simp⟩

theorem accepts_infix : accepts (.run :: (text.map .lit ++ [.run])) w = true ↔ text <:+: w := by
  rw [accepts_iff, mem_words_cons]
  simp only [mem_run, true_and, ← accepts_iff, accepts_prefix]
  refine ⟨?_, ?_⟩
  · rintro ⟨before, _, ⟨after, rfl⟩, rfl⟩
    exact ⟨before, after, by simp⟩
  · rintro ⟨before, after, rfl⟩
    exact ⟨before, text ++ after, ⟨after, rfl⟩, by simp⟩

end readings

def Token.fill (x : α) : Token α → List α
  | .run => []
  | .one => [x]
  | .lit a => [a]

theorem Token.fill_mem (x : α) (k : Token α) : k.fill x ∈ k.words := by
  cases k with
  | run => trivial
  | one => exact ⟨x, rfl⟩
  | lit a => rfl

theorem fill_mem_words (x : α) (pattern : List (Token α)) :
    pattern.flatMap (Token.fill x) ∈ words pattern := by
  induction pattern with
  | nil => exact mem_words_nil.mpr rfl
  | cons k pattern ih => exact mem_words_cons.mpr ⟨_, k.fill_mem x, _, ih, rfl⟩

/-- A pattern has words with any run before and after where the pattern allows them. -/
theorem fill_mem_run {pattern : List (Token α)} {w : List α} (h : w ∈ words pattern) :
    w ∈ words (pattern ++ [.run]) := by
  rw [words_append]
  exact Language.mem_mul.mpr ⟨w, h, [], mem_words_cons.mpr ⟨[], mem_run _, [], rfl, rfl⟩, by simp⟩

end MeshwardenDaemon.Library.Patterns
