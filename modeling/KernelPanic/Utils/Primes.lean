import Mathlib.Data.Nat.Prime.Defs
import Mathlib.Logic.Function.Basic
import Mathlib.Tactic.IntervalCases

/-!
# KernelPanic.Utils.Primes

Trial division by the primes found so far (`utils/primes.c`).

The helper starts at the third of them, so that 4 is taken for a prime as soon as
it is reached.  `findsPrimes_iff` says for which bounds that is not seen.
`cur` stays below `max` and `found_primes` below `cur`, so that neither `int`
overflows.
-/

namespace KernelPanic

/-- An `int primes[]` and the memory after it. -/
abbrev Ints := ℕ → ℤ

/-- `enum PRIMES_STATUS`. -/
inductive PrimesStatus where
  | ok
  | overflow
deriving DecidableEq

/-- `isPrimeProduct`. -/
def isPrimeProduct (v : ℤ) (primes : Ints) (numPrimes : ℕ) : Bool :=
  (List.range' 2 (numPrimes - 2)).all fun i => v.tmod (primes i) ≠ 0

/-- The second loop of `findPrimes`. -/
def zeroFrom (primes : Ints) (foundPrimes primesLength : ℕ) : Ints :=
  (List.range' foundPrimes (primesLength - foundPrimes)).foldl
    (fun primes i => Function.update primes i 0) primes

/-- The first loop of `findPrimes`, with this many rounds to go, and what follows. -/
def findPrimesFrom (primesLength : ℕ) : ℕ → ℤ → ℕ → Ints → PrimesStatus × Ints
  | 0, _, foundPrimes, primes => (.ok, zeroFrom primes foundPrimes primesLength)
  | rounds + 1, cur, foundPrimes, primes =>
    if isPrimeProduct cur primes foundPrimes then
      if foundPrimes + 1 > primesLength then (.overflow, primes)
      else
        findPrimesFrom primesLength rounds (cur + 1) (foundPrimes + 1)
          (Function.update primes foundPrimes cur)
    else findPrimesFrom primesLength rounds (cur + 1) foundPrimes primes

/-- `findPrimes`. -/
def findPrimes (max : ℤ) (primes : Ints) (primesLength : ℕ) : PrimesStatus × Ints :=
  findPrimesFrom primesLength (max - 2).toNat 2 0 primes

/-! ## what it is for -/

/-- The primes below `max`, in increasing order. -/
def primesBelow (max : ℤ) : List ℕ := (List.range max.toNat).filter Nat.Prime

/-- `findPrimes` stores the primes below `max` and zeros, or reports that they do
not fit, and writes nothing else. -/
def FindsPrimes (max : ℤ) (primesLength : ℕ) : Prop :=
  ∀ primes : Ints,
    (findPrimes max primes primesLength).1 =
        (if (primesBelow max).length ≤ primesLength then .ok else .overflow) ∧
      (∀ i < primesLength, (findPrimes max primes primesLength).2 i = (primesBelow max).getD i 0) ∧
      ∀ i, primesLength ≤ i → (findPrimes max primes primesLength).2 i = primes i

variable {max cur : ℤ} {primes : Ints} {primesLength foundPrimes rounds i : ℕ}

/-! ## the code -/

theorem zeroFrom_apply : zeroFrom primes foundPrimes primesLength i =
    if foundPrimes ≤ i ∧ i < primesLength then 0 else primes i := by
  unfold zeroFrom
  induction h : primesLength - foundPrimes generalizing foundPrimes primes with
  | zero => rw [List.range'_zero, List.foldl_nil, if_neg (by omega)]
  | succ k ih =>
      rw [List.range'_succ, List.foldl_cons, ih (by omega)]
      by_cases hi : i = foundPrimes
      · rw [hi, if_neg (by omega), if_pos (by omega), Function.update_self]
      · rw [Function.update_of_ne hi]
        have hiff : (foundPrimes + 1 ≤ i ∧ i < primesLength) ↔
            (foundPrimes ≤ i ∧ i < primesLength) := by omega
        simp only [hiff]

/-- Nothing outside the buffer is written. -/
theorem findPrimesFrom_outside (hi : primesLength ≤ i) :
    (findPrimesFrom primesLength rounds cur foundPrimes primes).2 i = primes i := by
  induction rounds generalizing cur foundPrimes primes with
  | zero =>
      change zeroFrom primes foundPrimes primesLength i = primes i
      rw [zeroFrom_apply, if_neg (by omega)]
  | succ rounds ih =>
      unfold findPrimesFrom
      split
      · split
        · rfl
        · rw [ih, Function.update_of_ne (by omega)]
      · exact ih

/-- What has been found stays. -/
theorem findPrimesFrom_found (hi : i < foundPrimes) :
    (findPrimesFrom primesLength rounds cur foundPrimes primes).2 i = primes i := by
  induction rounds generalizing cur foundPrimes primes with
  | zero =>
      change zeroFrom primes foundPrimes primesLength i = primes i
      rw [zeroFrom_apply, if_neg (by omega)]
  | succ rounds ih =>
      unfold findPrimesFrom
      split
      · split
        · rfl
        · rw [ih (by omega), Function.update_of_ne (by omega)]
      · exact ih hi

/-- What the loops do when these are the values that pass the helper. -/
def storeFound (primesLength : ℕ) : List ℕ → ℕ → Ints → PrimesStatus × Ints
  | [], foundPrimes, primes => (.ok, zeroFrom primes foundPrimes primesLength)
  | p :: rest, foundPrimes, primes =>
    if foundPrimes + 1 > primesLength then (.overflow, primes)
    else storeFound primesLength rest (foundPrimes + 1) (Function.update primes foundPrimes p)

theorem storeFound_status {found : List ℕ} (hfound : foundPrimes ≤ primesLength) :
    (storeFound primesLength found foundPrimes primes).1 =
      if foundPrimes + found.length ≤ primesLength then .ok else .overflow := by
  induction found generalizing foundPrimes primes with
  | nil => rw [List.length_nil, Nat.add_zero, if_pos hfound]; rfl
  | cons p rest ih =>
      unfold storeFound
      split
      · rw [List.length_cons, if_neg (by omega)]
      · rw [ih (by omega), List.length_cons, Nat.add_right_comm, Nat.add_assoc]

theorem storeFound_stored {found : List ℕ} (hi : i < primesLength) :
    (storeFound primesLength found foundPrimes primes).2 i =
      if i < foundPrimes then primes i else (found.getD (i - foundPrimes) 0 : ℤ) := by
  induction found generalizing foundPrimes primes with
  | nil =>
      change zeroFrom primes foundPrimes primesLength i = _
      rw [zeroFrom_apply]
      grind
  | cons p rest ih =>
      unfold storeFound
      split
      · rw [if_pos (by omega)]
      · rw [ih]
        obtain hlt | rfl | hgt := Nat.lt_trichotomy i foundPrimes
        · rw [if_pos (by omega), if_pos hlt, Function.update_of_ne (by omega)]
        · simp
        · have hsub : i - foundPrimes = i - (foundPrimes + 1) + 1 := by omega
          rw [if_neg (by omega), if_neg (by omega), hsub, List.getD_cons_succ]

/-- With at most two primes to divide by, the helper divides by none. -/
theorem isPrimeProduct_of_le_two (hle : foundPrimes ≤ 2) :
    isPrimeProduct cur primes foundPrimes = true := by
  have hnone : foundPrimes - 2 = 0 := by omega
  simp [isPrimeProduct, hnone]

/-- So the first three rounds store what they come to, as far as there is room. -/
theorem findPrimesFrom_early {n : ℕ} (hle : foundPrimes ≤ 2) :
    findPrimesFrom primesLength (rounds + 1) (n : ℕ) foundPrimes primes =
      if foundPrimes + 1 > primesLength then (.overflow, primes)
      else
        findPrimesFrom primesLength rounds (n + 1 : ℕ) (foundPrimes + 1)
          (Function.update primes foundPrimes (n : ℤ)) := by
  rw [findPrimesFrom, if_pos (isPrimeProduct_of_le_two hle), Nat.cast_succ]

theorem findPrimes_of_le_four (hmax : max ≤ 4) :
    findPrimes max primes primesLength =
      storeFound primesLength ((List.range' 2 2).take (max - 2).toNat) 0 primes := by
  have hle : (max - 2).toNat ≤ 2 := by omega
  unfold findPrimes
  generalize (max - 2).toNat = rounds at hle
  rw [← Nat.cast_two]
  match rounds with
  | 0 => rfl
  | 1 => simp only [findPrimesFrom_early (Nat.zero_le 2)]; rfl
  | 2 =>
      simp only [findPrimesFrom_early (Nat.zero_le 2), findPrimesFrom_early (Nat.le_succ 1)]
      rfl

theorem findPrimes_of_le_two (hmax : 5 ≤ max) (hlength : primesLength ≤ 2) :
    findPrimes max primes primesLength = storeFound primesLength [2, 3, 4] 0 primes := by
  obtain ⟨rounds, hrounds⟩ : ∃ rounds, (max - 2).toNat = rounds + 3 :=
    ⟨(max - 2).toNat - 3, by omega⟩
  rw [findPrimes, hrounds, ← Nat.cast_two]
  simp only [findPrimesFrom_early (Nat.zero_le 2), findPrimesFrom_early (Nat.le_succ 1),
    findPrimesFrom_early (Nat.le_refl 2), storeFound]
  grind

/-- With room for it, 4 is stored. -/
theorem findPrimes_four (hmax : 5 ≤ max) (hlength : 3 ≤ primesLength) :
    (findPrimes max primes primesLength).2 2 = 4 := by
  obtain ⟨rounds, hrounds⟩ : ∃ rounds, (max - 2).toNat = rounds + 3 :=
    ⟨(max - 2).toNat - 3, by omega⟩
  rw [findPrimes, hrounds, ← Nat.cast_two, findPrimesFrom_early (Nat.zero_le 2), if_neg (by omega),
    findPrimesFrom_early (Nat.le_succ 1), if_neg (by omega), findPrimesFrom_early (Nat.le_refl 2),
    if_neg (by omega), findPrimesFrom_found (by omega), Function.update_self]
  rfl

/-! ## the primes -/

theorem primesBelow_of_le_two (hmax : max ≤ 2) : primesBelow max = [] := by
  have hle : max.toNat ≤ 2 := by omega
  unfold primesBelow
  interval_cases max.toNat <;> decide

theorem primesBelow_of_six_le (hmax : 6 ≤ max) : ∃ rest, primesBelow max = 2 :: 3 :: 5 :: rest := by
  obtain ⟨k, hk⟩ : ∃ k, max.toNat = 6 + k := ⟨max.toNat - 6, by omega⟩
  refine ⟨((List.range k).map (6 + ·)).filter Nat.Prime, ?_⟩
  have hsix : (List.range 6).filter Nat.Prime = [2, 3, 5] := by decide
  rw [primesBelow, hk, List.range_add, List.filter_append, hsix]
  rfl

theorem primesBelow_of_le_four (hmax : max ≤ 4) :
    primesBelow max = (List.range' 2 2).take (max - 2).toNat := by
  obtain hle | rfl | rfl : max ≤ 2 ∨ max = 3 ∨ max = 4 := by omega
  · have hnone : (max - 2).toNat = 0 := by omega
    rw [primesBelow_of_le_two hle, hnone, List.take_zero]
  · decide
  · decide

/-! ## which bounds it serves -/

/-- When the values stored agree with the primes as far as the buffer goes. -/
theorem findsPrimes_of_storeFound {found : List ℕ}
    (heq : ∀ primes, findPrimes max primes primesLength = storeFound primesLength found 0 primes)
    (hlength : found.length ≤ primesLength ↔ (primesBelow max).length ≤ primesLength)
    (hstored : ∀ i < primesLength, found.getD i 0 = (primesBelow max).getD i 0) :
    FindsPrimes max primesLength := by
  intro primes
  refine ⟨?status, fun i hi => ?stored, fun i hi => findPrimesFrom_outside hi⟩
  case status => simp only [heq, storeFound_status (Nat.zero_le _), Nat.zero_add, hlength]
  case stored =>
    rw [heq, storeFound_stored hi, if_neg (Nat.not_lt_zero i), Nat.sub_zero, hstored i hi]

/-- **`findPrimes`** finds the primes exactly when it does not come to 4, or has no
room to store it and reports that with reason. -/
theorem findsPrimes_iff (max : ℤ) (primesLength : ℕ) :
    FindsPrimes max primesLength ↔
      max ≤ 4 ∨ primesLength ≤ 1 ∨ primesLength = 2 ∧ max ≠ 5 := by
  constructor
  · intro hfinds
    by_contra hcond
    obtain ⟨hstatus, hstored, -⟩ := hfinds 0
    obtain hroom | ⟨rfl, rfl⟩ : 3 ≤ primesLength ∨ primesLength = 2 ∧ max = 5 := by omega
    · have hfour := hstored 2 hroom
      rw [findPrimes_four (by omega) hroom] at hfour
      obtain rfl | hsix : max = 5 ∨ 6 ≤ max := by omega
      · have hfive : primesBelow 5 = [2, 3] := by decide
        simp [hfive] at hfour
      · obtain ⟨rest, hrest⟩ := primesBelow_of_six_le hsix
        simp [hrest] at hfour
    · have hfive : primesBelow 5 = [2, 3] := by decide
      simp [findPrimes_of_le_two, storeFound_status, hfive] at hstatus
  · intro hcond
    obtain hmax | hmax : max ≤ 4 ∨ 5 ≤ max := by omega
    · have hbelow := primesBelow_of_le_four hmax
      exact findsPrimes_of_storeFound (fun primes => findPrimes_of_le_four hmax)
        (by rw [hbelow]) (fun i _ => by rw [hbelow])
    · have hlength : primesLength ≤ 2 := by omega
      -- 4 is refused for want of room, which is right if there are three primes
      obtain rfl | hsix : max = 5 ∨ 6 ≤ max := by omega
      · have hfive : primesBelow 5 = [2, 3] := by decide
        refine findsPrimes_of_storeFound (fun _ => findPrimes_of_le_two hmax hlength) ?_ ?_
        · simp only [hfive, List.length_cons, List.length_nil]
          omega
        · intro i hi
          obtain rfl : i = 0 := by omega
          rw [hfive]
          rfl
      · obtain ⟨rest, hrest⟩ := primesBelow_of_six_le hsix
        refine findsPrimes_of_storeFound (fun _ => findPrimes_of_le_two hmax hlength) ?_ ?_
        · simp only [hrest, List.length_cons, List.length_nil]
          omega
        · intro i hi
          rw [hrest]
          obtain rfl | rfl : i = 0 ∨ i = 1 := by omega
          all_goals rfl

/-- Of the primes below 5, `findPrimes` stores 2, 3 and 4. -/
theorem findPrimes_stores_four : ¬FindsPrimes 5 3 := by
  intro hfinds
  have hfour := (hfinds 0).2.1 2 (by decide)
  revert hfour
  decide

end KernelPanic
