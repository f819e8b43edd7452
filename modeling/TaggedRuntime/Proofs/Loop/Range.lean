import Mathlib.Data.List.Basic
import Mathlib.Tactic.Ring
import TaggedRuntime.Loop
import TaggedRuntime.Proofs.Words

/-! Ranges of 64-bit integers against the integers. The word that is found by one
unsigned division counts exactly the members of the sequence `init`,
`init + step`, ... up to the limit, and as all of them fit their words, the
additions that lead from one to the next never wrap. -/

namespace TaggedRuntime

namespace IntRange

/-- The member at a place of the sequence `init`, `init + step`, ... of integers,
as long as it does not pass the limit. -/
def member? (init limit step : Int) (place : Nat) : Option Int :=
  if 0 < step ∧ init + place * step ≤ limit ∨ step < 0 ∧ limit ≤ init + place * step then
    some (init + place * step)
  else none

/-- The integers that are left of a range. -/
def integers (r : IntRange) : List Int :=
  (List.range r.count).map fun place : Nat => r.value.toInt + place * r.step.toInt

/-- All that is left of a range fits words. -/
def Fits (r : IntRange) : Prop := ∀ x ∈ r.integers, -2 ^ 63 ≤ x ∧ x < 2 ^ 63

variable {r r' : IntRange} {v : Int64}

@[simp] theorem length_integers (r : IntRange) : r.integers.length = r.count := by
  simp [integers]

/-- A range with values to come has the one at hand first, and the others are a step further each.
This is a fact about integers: no word is added here. -/
theorem integers_of_count {n : Nat} (h : r.count = n + 1) : r.integers =
    r.value.toInt ::
      (List.range n).map fun place : Nat => r.value.toInt + r.step.toInt + place * r.step.toInt := by
  rw [integers, h, List.range_succ_eq_map, List.map_cons, List.map_map]
  congr 1
  · simp
  · apply List.map_congr_left
    intro place _
    simp only [Function.comp_apply, Nat.cast_succ]
    ring

theorem next?_eq_none_iff : r.next? = none ↔ r.count = 0 := by
  unfold next? count
  cases r.remaining with
  | none => simp
  | some n => by_cases hLast : n = 0 <;> simp [hLast]

/-- The next value is the first integer, and the range behind it has the others. The addition of
words may wrap behind the last value, which is why the range has to fit. -/
theorem integers_of_next? (hFits : r.Fits) (h : r.next? = some (v, r')) :
    r.integers = v.toInt :: r'.integers ∧ r.count = r'.count + 1 := by
  unfold next? at h
  cases hRemaining : r.remaining with
  | none => simp [hRemaining] at h
  | some n =>
      rw [hRemaining] at h
      dsimp only at h
      by_cases hLast : n = 0
      · rw [if_pos hLast] at h
        cases h
        have hCount : r.count = 0 + 1 := by simp [count, hRemaining, hLast]
        exact ⟨by rw [integers_of_count hCount]; rfl, hCount⟩
      · rw [if_neg hLast] at h
        cases h
        have hPos : n.toNat ≠ 0 := fun h => hLast (UInt64.toNat_inj.mp h)
        have hPred : (n - 1).toNat = n.toNat - 1 := by
          rw [UInt64.toNat_sub_of_le]
          · rfl
          · rw [UInt64.le_iff_toNat_le]
            change 1 ≤ n.toNat
            omega
        have hCount : r.count = n.toNat - 1 + 1 + 1 := by
          simp only [count, hRemaining]
          omega
        have hSecond : r.value.toInt + r.step.toInt ∈ r.integers := by
          rw [integers_of_count hCount]
          apply List.mem_cons_of_mem
          simp [List.range_succ_eq_map]
        obtain ⟨hLow, hHigh⟩ := hFits _ hSecond
        have hSum : (r.value + r.step).toInt = r.value.toInt + r.step.toInt := by
          rw [Int64.toInt_add]
          exact Int.bmod_eq_of_le (by omega) (by omega)
        constructor
        · rw [integers_of_count hCount]
          simp only [integers, count, hPred, hSum]
        · simp only [count, hRemaining, hPred]
          omega

theorem Fits.of_next? (hFits : r.Fits) (h : r.next? = some (v, r')) : r'.Fits := by
  intro x hx
  apply hFits
  rw [(integers_of_next? hFits h).1]
  exact List.mem_cons_of_mem _ hx

/-- A hint that tells how many values are left: exactly, unless their number fits
no word. -/
def Tells (hint : UInt64 × Option UInt64) (left : Nat) : Prop :=
  if left = twoPow 64 then hint.1.toNat = twoPow 64 - 1 ∧ hint.2 = none
  else hint.1.toNat = left ∧ hint.2.map UInt64.toNat = some left

/-- The hint is the number of values exactly. Only the range over all words has more values than a
word can tell, and it has no upper bound then. -/
theorem sizeHint_tells (r : IntRange) : Tells r.sizeHint r.count := by
  have hWords : twoPow 64 = 2 ^ 64 := rfl
  unfold Tells sizeHint count
  cases r.remaining with
  | none => simp [hWords]
  | some n =>
      have hLt := n.toNat_lt
      have hSucc : (n + 1).toNat = (n.toNat + 1) % 2 ^ 64 := UInt64.toNat_add n 1
      dsimp only
      by_cases hAll : n.toNat + 1 = twoPow 64
      · have hWrap : n + 1 = 0 := UInt64.toNat_inj.mp (by rw [hSucc, hAll]; rfl)
        rw [if_pos hAll, if_pos hWrap]
        have hLast : n.toNat = twoPow 64 - 1 := by omega
        exact ⟨hLast, rfl⟩
      · have hKept : (n + 1).toNat = n.toNat + 1 := by omega
        have hNonzero : n + 1 ≠ 0 := by
          intro hZero
          rw [hZero] at hKept
          cases hKept
        rw [if_neg hAll, if_neg hNonzero]
        exact ⟨hKept, congrArg some hKept⟩

/-! ### Bounds -/

/-- The places of a sequence up to its limit are those up to a quotient. -/
theorem isSome_member?_iff {init limit step : Int} {last : Nat} (hStep : step ≠ 0)
    (hLast : (last : Int) = if 0 < step then (limit - init) / step else (init - limit) / -step)
    (place : Nat) : (member? init limit step place).isSome = true ↔ place ≤ last := by
  rw [← Int.ofNat_le, hLast, member?, Option.isSome_ite]
  by_cases hUp : 0 < step
  · rw [if_pos hUp, Int.le_ediv_iff_mul_le hUp]
    omega
  · rw [if_neg hUp, Int.le_ediv_iff_mul_le (by omega), Int.mul_neg]
    omega

/-- A sequence whose first member is past the limit has none. Past it means above for a step that is
positive and below for one that is negative. -/
theorem member?_eq_none {init limit step : Int}
    (hPast : if 0 < step then limit < init else init < limit) (place : Nat) :
    member? init limit step place = none := by
  have hPlace : (0 : Int) ≤ place := Int.natCast_nonneg place
  rw [member?, if_neg]
  rintro (⟨hUp, hWithin⟩ | ⟨hDown, hWithin⟩)
  · rw [if_pos hUp] at hPast
    have hFar := Int.mul_nonneg hPlace (Int.le_of_lt hUp)
    omega
  · rw [if_neg (by omega)] at hPast
    have hFar := Int.mul_nonneg hPlace (show 0 ≤ -step by omega)
    rw [Int.mul_neg] at hFar
    omega

theorem ofBounds_eq_error_iff (init limit step : Int64) (e : ErrorKind) :
    ofBounds init limit step = .error e ↔ step = 0 ∧ e = .zeroStep := by
  unfold ofBounds
  split
  next hZero => simp [hZero, eq_comm]
  next hStep => split <;> simp [hStep]

/-- A range is made for as many values as the sequence has members. The division is one of unsigned
words, and the distance between two words may be larger than any signed one. -/
theorem ofBounds_count (init limit : Int64) {step : Int64} (hStep : step ≠ 0) :
    ∃ r, ofBounds init limit step = .ok r ∧ r.value = init ∧ r.step = step ∧
      ∀ place : Nat, place < r.count ↔
        (member? init.toInt limit.toInt step.toInt place).isSome = true := by
  have hZero : (0 : Int64).toInt = 0 := rfl
  have hNonzero : step.toInt ≠ 0 := fun h => hStep (Int64.toInt_inj.mp (h.trans hZero.symm))
  have hCount {n : UInt64} (hQuotient : (n.toNat : Int) =
      if 0 < step.toInt then (limit.toInt - init.toInt) / step.toInt
      else (init.toInt - limit.toInt) / -step.toInt) (place : Nat) :
      place < n.toNat + 1 ↔
        (member? init.toInt limit.toInt step.toInt place).isSome = true := by
    rw [isSome_member?_iff hNonzero hQuotient, Nat.lt_succ_iff]
  have hNone (hPast : if 0 < step.toInt then limit.toInt < init.toInt
      else init.toInt < limit.toInt) (place : Nat) :
      place < 0 ↔ (member? init.toInt limit.toInt step.toInt place).isSome = true := by
    simp [member?_eq_none hPast place]
  unfold ofBounds
  rw [if_neg hStep]
  by_cases hUp : 0 < step
  · have hUp' : 0 < step.toInt := Int64.lt_iff_toInt_lt.mp hUp
    rw [if_pos hUp]
    refine ⟨_, rfl, rfl, rfl, ?_⟩
    by_cases hWithin : init ≤ limit
    · rw [if_pos hWithin]
      apply hCount
      rw [if_pos hUp', UInt64.toNat_div, Int.natCast_ediv,
        toNat_distance (Int64.le_iff_toInt_le.mp hWithin), toNat_of_pos hUp']
    · rw [if_neg hWithin]
      apply hNone
      rw [if_pos hUp']
      rw [Int64.le_iff_toInt_le] at hWithin
      omega
  · have hDown : ¬0 < step.toInt := fun h => hUp (Int64.lt_iff_toInt_lt.mpr h)
    rw [if_neg hUp]
    refine ⟨_, rfl, rfl, rfl, ?_⟩
    by_cases hWithin : limit ≤ init
    · rw [if_pos hWithin]
      apply hCount
      rw [if_neg hDown, UInt64.toNat_div, Int.natCast_ediv,
        toNat_distance (Int64.le_iff_toInt_le.mp hWithin), toNat_magnitude (by omega)]
    · rw [if_neg hWithin]
      apply hNone
      rw [if_neg hDown]
      rw [Int64.le_iff_toInt_le] at hWithin
      omega

/-- What is left of a new range is the sequence of its bounds, and it fits. No bound is asked of the
words, so this includes ranges over all of them. -/
theorem ofBounds_integers (init limit : Int64) {step : Int64} (hStep : step ≠ 0) :
    ∃ r, ofBounds init limit step = .ok r ∧ r.Fits ∧
      ∀ place : Nat, r.integers[place]? = member? init.toInt limit.toInt step.toInt place := by
  obtain ⟨r, hRange, rfl, rfl, hCount⟩ := ofBounds_count init limit hStep
  have hMember (place : Nat) :
      r.integers[place]? = member? r.value.toInt limit.toInt r.step.toInt place := by
    by_cases hPlace : place < r.count
    · obtain ⟨x, hx⟩ := Option.isSome_iff_exists.mp ((hCount place).mp hPlace)
      rw [hx]
      rw [member?, Option.ite_none_right_eq_some] at hx
      simpa [integers, hPlace] using hx.2
    · have hNone := mt (hCount place).mpr hPlace
      rw [Option.not_isSome_iff_eq_none] at hNone
      rw [hNone]
      simpa using Nat.le_of_not_lt hPlace
  refine ⟨r, hRange, fun x hx => ?_, hMember⟩
  -- A member lies between the first one and the limit, which are words.
  obtain ⟨place, hPlace⟩ := List.mem_iff_getElem?.mp hx
  rw [hMember, member?] at hPlace
  have hInit := r.value.le_toInt
  have hInit' := r.value.toInt_lt
  have hLimit := limit.le_toInt
  have hLimit' := limit.toInt_lt
  have hFar : (0 : Int) ≤ place := Int.natCast_nonneg place
  rw [Option.ite_none_right_eq_some, Option.some.injEq] at hPlace
  obtain ⟨⟨hUp, _⟩ | ⟨hDown, _⟩, _⟩ := hPlace
  · have hGrows := Int.mul_nonneg hFar (Int.le_of_lt hUp)
    omega
  · have hFalls := Int.mul_nonneg hFar (show 0 ≤ -r.step.toInt by omega)
    rw [Int.mul_neg] at hFalls
    omega

end IntRange

end TaggedRuntime
