import Mathlib.Data.List.Basic
import TaggedRuntime.Table.Sizing
import TaggedRuntime.Proofs.Table.Key

/-! The sizes that a rebuild asks for. The array part takes in exactly the
candidates up to its size, so what is left is the number of keys that need a
bucket. -/

namespace TaggedRuntime

/-- The logarithm, rounded up, is at most an exponent if the number is at most that power. -/
theorem ceilLog2_le_iff (n i : Nat) : ceilLog2 n ≤ i ↔ n ≤ twoPow i := by
  have hPos := twoPow_pos i
  unfold ceilLog2
  split
  next hSmall => omega
  next hLarge =>
    have hLog : (n - 1).log2 < i ↔ n - 1 < twoPow i := Nat.log2_lt (by omega)
    omega

theorem le_twoPow_ceilLog2 (n : Nat) : n ≤ twoPow (ceilLog2 n) :=
  (ceilLog2_le_iff n _).mp (Nat.le_refl _)

theorem twoPow_ceilLog2_twoPow (bits : Nat) : twoPow (ceilLog2 (twoPow bits)) = twoPow bits :=
  Nat.le_antisymm (twoPow_le_twoPow ((ceilLog2_le_iff _ _).mpr (Nat.le_refl _)))
    (le_twoPow_ceilLog2 _)

/-- The least power of two that is not below a number. -/
structure LeastPower (n power : Nat) : Prop where
  isPower : ∃ bits, power = twoPow bits
  bound : n ≤ power
  least : ∀ bits, n ≤ twoPow bits → power ≤ twoPow bits

theorem leastPower_ceilLog2 (n : Nat) : LeastPower n (twoPow (ceilLog2 n)) where
  isPower := ⟨_, rfl⟩
  bound := le_twoPow_ceilLog2 n
  least bits hBound := twoPow_le_twoPow ((ceilLog2_le_iff n bits).mpr hBound)

theorem LeastPower.eq_twoPow {n power : Nat} (hPower : LeastPower n power) :
    power = twoPow (ceilLog2 n) := by
  obtain ⟨bits, rfl⟩ := hPower.isPower
  exact Nat.le_antisymm (hPower.least _ (le_twoPow_ceilLog2 n))
    ((leastPower_ceilLog2 n).least bits hPower.bound)

namespace Table

/-- Tallying adds to each slice the candidates that fall into it. The induction is on the
candidates, with the counts generalised. -/
theorem foldl_tally (candidates : List Nat) (counts : Array Nat) (i : Nat) :
    (candidates.foldl (fun counts k => counts.modify (ceilLog2 k) (· + 1)) counts)[i]? =
      counts[i]?.map (· + candidates.countP (ceilLog2 · = i)) := by
  induction candidates generalizing counts with
  | nil => simp
  | cons k rest ih =>
      rw [List.foldl_cons, ih, Array.getElem?_modify, List.countP_cons]
      by_cases hEq : ceilLog2 k = i
      · simp only [hEq, if_true, Option.map_map, decide_true]
        congr 1
        funext count
        simp only [Function.comp_apply]
        omega
      · simp [hEq]

/-- Each slice of the tally counts the candidates that fall into it. -/
theorem tally_toList (candidates : List Nat) : (tally candidates).toList =
    (List.range (Limits.arrayBits + 1)).map fun i => candidates.countP (ceilLog2 · = i) := by
  apply List.ext_getElem?
  intro i
  rw [Array.getElem?_toList, tally, foldl_tally]
  by_cases hi : i < Limits.arrayBits + 1
  · simp [hi]
  · simp [hi]

/-- A size takes in the candidates up to it. -/
def Measures (candidates : List Nat) (bits : Nat) (best : ArraySize) : Prop :=
  (best.size = 0 ∧ best.used = 0) ∨
    ∃ i, i < bits ∧ best.size = twoPow i ∧ best.used = candidates.countP (ceilLog2 · ≤ i)

/-- The candidates up to a slice are those below it and those in it. -/
theorem countP_slices (candidates : List Nat) (i : Nat) :
    candidates.countP (ceilLog2 · < i) + candidates.countP (ceilLog2 · = i) =
      candidates.countP (ceilLog2 · ≤ i) := by
  induction candidates with
  | nil => rfl
  | cons k rest ih =>
      simp only [List.countP_cons]
      split <;> split <;> split <;> simp_all <;> omega

/-- The walk over the slices keeps what is known of the best size so far. The induction is on the
slices to come. -/
theorem measures_searchSize (candidates : List Nat) (slices i : Nat) (best : ArraySize)
    (hBest : Measures candidates i best) :
    Measures candidates (i + slices) (searchSize candidates.length
      ((List.range' i slices).map fun i => candidates.countP (ceilLog2 · = i)) (twoPow i)
      (candidates.countP (ceilLog2 · < i)) best) := by
  have hWiden (best : ArraySize) {i j : Nat} (hij : i ≤ j) (h : Measures candidates i best) :
      Measures candidates j best := by
    rcases h with h | ⟨l, hl, h⟩
    · exact Or.inl h
    · exact Or.inr ⟨l, by omega, h⟩
  induction slices generalizing i best with
  | zero => simpa [searchSize] using hBest
  | succ slices ih =>
      simp only [List.range'_succ, List.map_cons, searchSize]
      split
      next => exact hWiden best (by omega) hBest
      next =>
        have hSeen : candidates.countP (ceilLog2 · < i + 1) =
            candidates.countP (ceilLog2 · ≤ i) := by
          simp only [Nat.lt_succ_iff]
        have hNext := ih (i + 1)
          (if twoPow i / 2 < candidates.countP (ceilLog2 · < i + 1) then
            ⟨twoPow i, candidates.countP (ceilLog2 · < i + 1)⟩ else best) (by
              split
              next => exact Or.inr ⟨i, by omega, rfl, hSeen⟩
              next => exact hWiden best (by omega) hBest)
        rw [countP_slices, ← twoPow_succ, ← hSeen]
        rwa [Nat.add_right_comm, Nat.add_assoc] at hNext

theorem measures_bestArraySize (candidates : List Nat) :
    Measures candidates (Limits.arrayBits + 1) (bestArraySize candidates) := by
  have hNone : candidates.countP (ceilLog2 · < 0) = 0 := by simp
  have hBest := measures_searchSize candidates (Limits.arrayBits + 1) 0 ⟨0, 0⟩ (Or.inl ⟨rfl, rfl⟩)
  rw [hNone, ← List.range_eq_range', ← tally_toList, Nat.zero_add] at hBest
  exact hBest

/-- The array part that is chosen takes in the candidates up to its size. So the entries that are
left over for the hash part are counted right. -/
theorem bestArraySize_used {candidates : List Nat} (hPos : ∀ c ∈ candidates, 1 ≤ c) :
    (bestArraySize candidates).used = candidates.countP (· ≤ (bestArraySize candidates).size) ∧
      (bestArraySize candidates).size ≤ twoPow Limits.arrayBits := by
  rcases measures_bestArraySize candidates with ⟨hSize, hUsed⟩ | ⟨i, hi, hSize, hUsed⟩
  · rw [hSize, hUsed]
    refine ⟨?_, Nat.zero_le _⟩
    rw [eq_comm, List.countP_eq_zero]
    intro c hc
    have hOne := hPos c hc
    simp only [decide_eq_true_eq]
    omega
  · rw [hSize, hUsed]
    simp only [ceilLog2_le_iff, true_and]
    exact Nat.pow_le_pow_right (by decide) (by omega)

/-- Of a size that is kept more than half is in use. It was so when it was kept, and later sizes
replace it only if it is so for them. -/
theorem half_lt_searchSize (counts : List Nat) (candidates power seen : Nat) {best : ArraySize}
    (hBest : best.size = 0 ∨ best.size / 2 < best.used) :
    (searchSize candidates counts power seen best).size = 0 ∨
      (searchSize candidates counts power seen best).size / 2 <
        (searchSize candidates counts power seen best).used := by
  induction counts generalizing power seen best with
  | nil => exact hBest
  | cons count rest ih =>
      simp only [searchSize]
      split
      next => exact hBest
      next =>
        apply ih
        split
        next hMore => exact Or.inr hMore
        next => exact hBest

/-- The array part that is chosen is empty, or more than half of it will be in use. -/
theorem half_lt_bestArraySize (candidates : List Nat) :
    (bestArraySize candidates).size = 0 ∨
      (bestArraySize candidates).size / 2 < (bestArraySize candidates).used :=
  half_lt_searchSize _ _ _ _ (Or.inl rfl)

/-- A power of two of which more than half is in use is not passed over for a smaller one. It was
found already, or its slice is still to come; the induction is on the slices to come. -/
theorem twoPow_le_searchSize (candidates : List Nat) {i : Nat}
    (hUsed : twoPow i / 2 < candidates.countP (ceilLog2 · ≤ i)) (slices l : Nat)
    (best : ArraySize) (hFound : twoPow i ≤ best.size ∧ i < l ∨ l ≤ i ∧ i < l + slices) :
    twoPow i ≤ (searchSize candidates.length
      ((List.range' l slices).map fun i => candidates.countP (ceilLog2 · = i)) (twoPow l)
      (candidates.countP (ceilLog2 · < l)) best).size := by
  induction slices generalizing l best with
  | zero =>
      rcases hFound with ⟨hBest, _⟩ | ⟨hFrom, hTo⟩
      · exact hBest
      · omega
  | succ slices ih =>
      have hSeen : candidates.countP (ceilLog2 · < l + 1) =
          candidates.countP (ceilLog2 · ≤ l) := by
        simp only [Nat.lt_succ_iff]
      simp only [List.range'_succ, List.map_cons, searchSize]
      rw [countP_slices, ← twoPow_succ, ← hSeen]
      split
      next hFew =>
        rcases hFound with ⟨hBest, _⟩ | ⟨hFrom, _⟩
        · exact hBest
        · have hAll := candidates.countP_le_length (p := (ceilLog2 · ≤ i))
          have hPower := twoPow_le_twoPow hFrom
          omega
      next =>
        apply ih
        rcases Nat.lt_trichotomy i l with hPast | rfl | hAhead
        · refine Or.inl ⟨?_, by omega⟩
          split
          next => exact twoPow_le_twoPow (Nat.le_of_lt hPast)
          next => exact (hFound.resolve_right (by omega)).1
        · rw [hSeen, if_pos hUsed]
          exact Or.inl ⟨Nat.le_refl _, Nat.lt_succ_self i⟩
        · exact Or.inr ⟨hAhead, by omega⟩

/-- The array part that is chosen is not smaller than a power of two of which more than half is
in use. -/
theorem twoPow_le_bestArraySize {candidates : List Nat} {i : Nat} (hi : i ≤ Limits.arrayBits)
    (hUsed : twoPow i / 2 < candidates.countP (· ≤ twoPow i)) :
    twoPow i ≤ (bestArraySize candidates).size := by
  have hNone : candidates.countP (ceilLog2 · < 0) = 0 := by simp
  have hSlices : candidates.countP (ceilLog2 · ≤ i) = candidates.countP (· ≤ twoPow i) := by
    simp only [ceilLog2_le_iff]
  have hBest := twoPow_le_searchSize candidates (hSlices ▸ hUsed) (Limits.arrayBits + 1) 0 ⟨0, 0⟩
    (Or.inr ⟨Nat.zero_le i, by omega⟩)
  rwa [hNone, ← List.range_eq_range', ← tally_toList] at hBest

/-- An array part of a size has a slot for a key. -/
def fitsArray (size : Nat) (k : Key) : Bool := k.arrayCandidate?.any (· ≤ size)

/-- A candidate for the array part is the key of a slot that such a part can have. -/
theorem arrayCandidate?_eq_some_iff (k : Key) (c : Nat) : k.arrayCandidate? = some c ↔
    k = .int (Int64.ofNat c) ∧ 1 ≤ c ∧ c ≤ twoPow Limits.arrayBits := by
  have hBits : twoPow Limits.arrayBits = 2 ^ 31 := rfl
  cases k with
  | int n =>
      simp only [Key.arrayCandidate?, Option.ite_none_right_eq_some, Option.some.injEq,
        Key.int.injEq]
      constructor
      · rintro ⟨hIn, rfl⟩
        have hNat : (n.toInt.toNat : Int) = n.toInt := Int.toNat_of_nonneg (by omega)
        refine ⟨?_, by omega, by omega⟩
        rw [← Int64.toInt_inj, Int64.toInt_ofNat_of_lt (by omega), hNat]
      · rintro ⟨rfl, hFirst, hLast⟩
        rw [Int64.toInt_ofNat_of_lt (by omega)]
        omega
  | _ => simp [Key.arrayCandidate?]

/-- Indices count from one. -/
theorem liveIndices_pos (t : Table) : ∀ i ∈ t.liveIndices, 1 ≤ i := by
  intro i hi
  simp only [liveIndices, List.mem_filterMap] at hi
  obtain ⟨⟨v, j⟩, hMem, hLive⟩ := hi
  have hLe := List.le_snd_of_mem_zipIdx hMem
  split at hLive
  · cases hLive
  · cases hLive
    exact hLe

/-- The candidates up to a size are the keys that such an array part has slots for. -/
theorem countP_candidates (keys : List Key) (size : Nat) :
    (keys.filterMap Key.arrayCandidate?).countP (· ≤ size) = keys.countP (fitsArray size) := by
  rw [List.countP_filterMap]
  congr 1
  funext k
  unfold fitsArray
  cases k.arrayCandidate? <;> rfl

theorem candidates_pos (t : Table) (keys : List Key) :
    ∀ c ∈ t.liveIndices ++ keys.filterMap Key.arrayCandidate?, 1 ≤ c := by
  intro c hc
  rcases List.mem_append.mp hc with hSlot | hKey
  · exact t.liveIndices_pos c hSlot
  · obtain ⟨k, _, hCandidate⟩ := List.mem_filterMap.mp hKey
    exact ((arrayCandidate?_eq_some_iff k c).mp hCandidate).2.1

/-- No rebuild for a new key asks for a larger array part than the host makes. -/
theorem sizesWith_fst_le (t : Table) (extra : Key) :
    (t.sizesWith extra).1 ≤ twoPow Limits.arrayBits :=
  (bestArraySize_used (t.candidates_pos _)).2

/-- The hash part is asked to hold every live key, and the new one, that gets no slot in the array
part. Dead keys are not counted, so a rebuild gets rid of them. -/
theorem sizesWith_snd (t : Table) (extra : Key) :
    (t.sizesWith extra).2 = t.liveIndices.countP ((t.sizesWith extra).1 < ·) +
      (t.liveNodes.map (·.key) ++ [extra]).countP fun k => !fitsArray (t.sizesWith extra).1 k := by
  have hDemand : (t.sizesWith extra).2 = t.liveIndices.length + t.liveNodes.length + 1 -
      (t.liveIndices.countP (· ≤ (t.sizesWith extra).1) +
        (t.liveNodes.map (·.key) ++ [extra]).countP (fitsArray (t.sizesWith extra).1)) := by
    rw [← countP_candidates, ← List.countP_append]
    exact congrArg (_ - ·) (bestArraySize_used (t.candidates_pos _)).1
  rw [hDemand]
  generalize (t.sizesWith extra).1 = size
  have hSlots : t.liveIndices.length =
      t.liveIndices.countP (· ≤ size) + t.liveIndices.countP (size < ·) := by
    simp [t.liveIndices.length_eq_countP_add_countP (· ≤ size)]
  have hKeys : t.liveNodes.length + 1 =
      (t.liveNodes.map (·.key) ++ [extra]).countP (fitsArray size) +
        (t.liveNodes.map (·.key) ++ [extra]).countP fun k => !fitsArray size k := by
    have hLength := (t.liveNodes.map (·.key) ++ [extra]).length_eq_countP_add_countP (fitsArray size)
    simpa using hLength
  omega

end Table
end TaggedRuntime
