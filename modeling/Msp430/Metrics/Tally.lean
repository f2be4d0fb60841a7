/-!
# Tallies

A tally counts events by key. A key appears once it has been counted.
-/

namespace Msp430

structure Tally (κ : Type) where
  entries : List (κ × Nat) := []
deriving DecidableEq, Repr

namespace Tally

instance : Inhabited (Tally κ) := ⟨{}⟩

/-- The number of events counted under all keys. -/
def total (t : Tally κ) : Nat := t.entries.foldr (fun e n => e.2 + n) 0

@[simp] theorem total_empty : ({} : Tally κ).total = 0 := rfl

variable [DecidableEq κ]

def bumpIn (k : κ) : List (κ × Nat) → List (κ × Nat)
  | [] => [(k, 1)]
  | (k', n) :: rest => if k' = k then (k', n + 1) :: rest else (k', n) :: bumpIn k rest

def countIn (k : κ) : List (κ × Nat) → Nat
  | [] => 0
  | (k', n) :: rest => if k' = k then n else countIn k rest

/-- Counts one event. -/
def bump (t : Tally κ) (k : κ) : Tally κ := ⟨bumpIn k t.entries⟩

/-- The number of events counted under a key. -/
def count (t : Tally κ) (k : κ) : Nat := countIn k t.entries

@[simp] theorem count_empty (k : κ) : ({} : Tally κ).count k = 0 := rfl

@[grind =] theorem count_bump (t : Tally κ) (k k' : κ) :
    (t.bump k).count k' = t.count k' + if k = k' then 1 else 0 := by
  obtain ⟨entries⟩ := t
  simp only [count, bump]
  induction entries with
  | nil => by_cases h : k = k' <;> simp [bumpIn, countIn, h]
  | cons e rest ih =>
    obtain ⟨j, n⟩ := e
    by_cases hj : j = k
    · subst hj
      by_cases h : j = k' <;> simp [bumpIn, countIn, h]
    · by_cases h : j = k'
      · subst h
        simp [bumpIn, countIn, hj, Ne.symm hj]
      · simp [bumpIn, countIn, hj, h, ih]

@[simp] theorem total_bump (t : Tally κ) (k : κ) : (t.bump k).total = t.total + 1 := by
  obtain ⟨entries⟩ := t
  simp only [total, bump]
  induction entries with
  | nil => rfl
  | cons e rest ih =>
    obtain ⟨j, n⟩ := e
    by_cases hj : j = k
    · simp [bumpIn, hj]
      omega
    · simp [bumpIn, hj, ih]
      omega

end Tally

end Msp430
