import Mathlib.Data.List.Basic
import Mathlib.Data.Nat.Init

/-! Scanners over a stream that arrives in pieces. One step looks at the front of the
bytes at hand; it either waits for more or takes some of them, and what it decided
stays decided when more bytes follow. Then the cuts between the pieces do not matter.
Tokens and bytes may be of any type. -/
namespace MeshwardenDaemon.Library.Scanning

variable {β φ : Type*}

structure Scanner (β φ : Type*) where
  /-- Nothing where the bytes do not decide yet, else a token or none, and the rest. -/
  next : List β → Option (Option φ × List β)
  shorter : ∀ {bs e rest}, next bs = some (e, rest) → rest.length < bs.length
  append : ∀ {bs e rest}, next bs = some (e, rest) →
    ∀ more, next (bs ++ more) = some (e, rest ++ more)

def Scanner.scan (S : Scanner β φ) (bs : List β) : List φ × List β :=
  match h : S.next bs with
  | none => ([], bs)
  | some (e, rest) =>
    have := S.shorter h
    (e.toList ++ (S.scan rest).1, (S.scan rest).2)
termination_by bs.length

variable {S : Scanner β φ} {bs rest : List β} {e : Option φ}

theorem scan_of_none (h : S.next bs = none) : S.scan bs = ([], bs) := by
  rw [Scanner.scan]
  split
  · rfl
  · rename_i found
    rw [h] at found
    cases found

theorem scan_of_some (h : S.next bs = some (e, rest)) :
    S.scan bs = (e.toList ++ (S.scan rest).1, (S.scan rest).2) := by
  rw [Scanner.scan]
  split
  · rename_i found
    rw [h] at found
    cases found
  · rename_i found
    rw [h, Option.some.injEq, Prod.mk.injEq] at found
    obtain ⟨rfl, rfl⟩ := found
    rfl

theorem scan_induction {P : List β → Prop} (waits : ∀ bs, S.next bs = none → P bs)
    (takes : ∀ bs e rest, S.next bs = some (e, rest) → P rest → P bs) (bs : List β) : P bs := by
  induction hn : bs.length using Nat.strong_induction_on generalizing bs with
  | _ n ih =>
    cases hs : S.next bs with
    | none => exact waits bs hs
    | some step =>
      obtain ⟨e, rest⟩ := step
      exact takes bs e rest hs (ih rest.length (hn ▸ S.shorter hs) rest rfl)

theorem next_scan (bs : List β) : S.next (S.scan bs).2 = none := by
  induction bs using scan_induction (S := S) with
  | waits bs hs => rw [scan_of_none hs, hs]
  | takes bs e rest hs ih => rw [scan_of_some hs, ih]

theorem scan_append (bs more : List β) :
    S.scan (bs ++ more) =
      ((S.scan bs).1 ++ (S.scan ((S.scan bs).2 ++ more)).1,
        (S.scan ((S.scan bs).2 ++ more)).2) := by
  induction bs using scan_induction (S := S) with
  | waits bs hs => rw [scan_of_none hs, List.nil_append]
  | takes bs e rest hs ih =>
    rw [scan_of_some hs, scan_of_some (S.append hs more), ih]
    simp only [List.append_assoc]

def Scanner.scanChunks (S : Scanner β φ) : List β → List (List β) → List φ × List β
  | kept, [] => ([], kept)
  | kept, chunk :: chunks =>
    let now := S.scan (kept ++ chunk)
    let later := S.scanChunks now.2 chunks
    (now.1 ++ later.1, later.2)

/-- The cuts of a stream do not change its tokens, nor what is kept at the end. -/
theorem scanChunks_eq {kept : List β} (waits : S.next kept = none) (chunks : List (List β)) :
    S.scanChunks kept chunks = S.scan (kept ++ chunks.flatten) := by
  induction chunks generalizing kept with
  | nil => rw [List.flatten_nil, List.append_nil, scan_of_none waits, Scanner.scanChunks]
  | cons chunk chunks ih =>
    simp only [Scanner.scanChunks, List.flatten_cons]
    rw [ih (next_scan _), ← List.append_assoc, scan_append (kept ++ chunk)]

end MeshwardenDaemon.Library.Scanning
