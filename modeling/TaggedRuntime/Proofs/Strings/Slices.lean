import Mathlib.Data.Nat.PSub
import TaggedRuntime.Proofs.Words
import TaggedRuntime.Proofs.Heap.Basic
import TaggedRuntime.Strings

/-! Parts of strings. A part has the bytes at the positions between its bounds, whatever these
are; the words that the bounds are clipped with never wrap, and no byte is read outside the string.
Two parts that meet make the string again. -/

namespace TaggedRuntime

/-- The heaps that gave a string: the one that made it, and what became of that one when more
strings were made or anything but the strings was changed. -/
inductive Heap.Gave (s : Str) : Heap → Prop where
  | made {h h' : Heap} {bytes : Bytes} (prior : Reached h)
      (hRun : (newStr bytes).run h = .ok s h') : Gave s h'
  | another {h h' : Heap} {bytes : Bytes} {t : Str} (prior : Gave s h)
      (hRun : (newStr bytes).run h = .ok t h') : Gave s h'
  | changed {h h' : Heap} (prior : Gave s h) (hStrings : h'.strings = h.strings) : Gave s h'

theorem Heap.Gave.reached {s : Str} {h : Heap} (hGave : Heap.Gave s h) : h.Reached := by
  induction hGave with
  | made prior hRun => exact prior.made hRun
  | another prior hRun ih => exact ih.made hRun
  | changed prior hStrings ih => exact ih.changed hStrings

/-- A string that a heap gave is one of its own. It stays one when the heap goes on. -/
theorem Heap.Gave.canonical {s : Str} {h : Heap} (hGave : Heap.Gave s h) : h.Canonical s := by
  induction hGave with
  | @made h h' bytes prior hRun =>
      obtain ⟨t, h₁, hNew, _, hCanonical, _⟩ := Heap.newStr_cases prior.interned bytes
      rw [hRun] at hNew
      cases hNew
      exact hCanonical
  | @another h h' bytes t prior hRun ih =>
      obtain ⟨_, h₁, hNew, _, _, hGrown⟩ := Heap.newStr_cases prior.reached.interned bytes
      rw [hRun] at hNew
      cases hNew
      exact hGrown.canonical ih
  | changed prior hStrings ih => exact (Heap.canonical_congr hStrings s).mpr ih

namespace Strings

open Checked (word? neg? add? size?)

/-! ### Positions -/

/-- The position that an index means, counted from one. A negative index counts from the end. -/
def position (index : Int) (length : Nat) : Int :=
  if 0 ≤ index then index else index + length + 1

/-- The bytes at the positions from one to another, in order. -/
def between (bytes : Bytes) (low high : Int) : Bytes :=
  ((bytes.zipIdx 1).filter fun (_, p) => low ≤ p && p ≤ high).map Prod.fst

/-- `startPosition` with every step checked. -/
def startPosition? (pos : Int64) (length : Nat) : Option Nat := do
  let n ← word? length
  if 0 < pos then size? pos
  else if pos = 0 then some 1
  else do
    let least ← neg? n
    if pos < least then some 1 else size? (← add? (← add? n pos) 1)

/-- `endPosition` with every step checked. -/
def endPosition? (pos : Int64) (length : Nat) : Option Nat := do
  let n ← word? length
  if n < pos then some length
  else if 0 ≤ pos then size? pos
  else do
    let least ← neg? n
    if pos < least then some 0 else size? (← add? (← add? n pos) 1)

/-- The bytes from one offset up to another. Offsets that are out of order or past the end have
none. -/
def range? (bytes : Bytes) (start stop : Nat) : Option Bytes :=
  if start ≤ stop ∧ stop ≤ bytes.length then some ((bytes.drop start).take (stop - start)) else none

/-- `slice` with every step checked. -/
def slice? (bytes : Bytes) (i j : Int64) : Option Bytes := do
  let first ← startPosition? i bytes.length
  let last ← endPosition? j bytes.length
  if last < first then some [] else range? bytes (← first.ppred) last

variable {bytes : Bytes} {n : Nat}

/-- The start of a part, cut off below at the first position. A start past the end is left as it is,
and the part is empty then. -/
theorem startPosition_eq (i : Int64) (n : Nat) :
    (startPosition i n : Int) = max (position i.toInt n) 1 := by
  have hZero : (0 : Int64).toInt = 0 := rfl
  simp only [startPosition, position, Int64.lt_iff_toInt_lt, ← Int64.toInt_inj, hZero,
    Bool.or_eq_true, decide_eq_true_eq]
  split_ifs <;> omega

theorem endPosition_eq (j : Int64) (n : Nat) :
    (endPosition j n : Int) = max 0 (min (position j.toInt n) n) := by
  have hZero : (0 : Int64).toInt = 0 := rfl
  simp only [endPosition, position, Int64.le_iff_toInt_le, hZero]
  split_ifs <;> omega

/-! ### Words -/

/-- Behind the guards a position counted from the end is a word, and not negative. The position is
within the string or right before it. -/
theorem fromEnd_eq {pos w : Int64} (hLength : w.toInt = n) (hNegative : pos.toInt < 0)
    (hWithin : -n ≤ pos.toInt) :
    (do size? (← add? (← add? w pos) 1)) = some (n + pos.toInt + 1).toNat := by
  have hOne : (1 : Int64).toInt = 1 := rfl
  have hHigh := w.toInt_lt
  have hSum : add? w pos = some (w + pos) := Checked.add?_eq (by omega) (by omega)
  have hSumInt := Checked.word?_eq_some_iff.mp hSum
  have hNext : add? (w + pos) 1 = some (w + pos + 1) := Checked.add?_eq (by omega) (by omega)
  have hNextInt := Checked.word?_eq_some_iff.mp hNext
  rw [hOne, hSumInt, hLength] at hNextInt
  simp only [hSum, hNext, Option.bind_eq_bind, Option.bind_some]
  rw [Checked.size?_eq (by omega), hNextInt]

/-- A length is a word, and so is its negative. -/
theorem lengthWord (hLength : n < 2 ^ 63) :
    ∃ w : Int64, w.toInt = n ∧ word? n = some w ∧ neg? w = some (-w) ∧ (-w).toInt = -n := by
  have hInt : (Int64.ofInt n).toInt = n := Int64.toInt_ofInt_of_le (by omega) (by omega)
  have hNeg : neg? (Int64.ofInt n) = some (-Int64.ofInt n) := Checked.neg?_eq (by omega)
  refine ⟨Int64.ofInt n, hInt, Checked.word?_eq_some_iff.mpr hInt, hNeg, ?_⟩
  rw [Checked.word?_eq_some_iff.mp hNeg, hInt]

/-- The start is computed without a step that could fail, for any length that a string has. -/
theorem startPosition?_eq (hLength : n < 2 ^ 63) (pos : Int64) :
    startPosition? pos n = some (startPosition pos n) := by
  obtain ⟨w, hInt, hWord, hNeg, hNegInt⟩ := lengthWord hLength
  have hZero : (0 : Int64).toInt = 0 := rfl
  simp only [startPosition?, startPosition, hWord, hNeg, Option.bind_eq_bind, Option.bind_some,
    Int64.lt_iff_toInt_lt, hNegInt, hZero]
  by_cases hPositive : 0 < pos.toInt
  · rw [if_pos hPositive, if_pos hPositive, Checked.size?_eq (by omega)]
  rw [if_neg hPositive, if_neg hPositive]
  by_cases hStart : pos = 0
  · simp [hStart]
  have hNonzero : pos.toInt ≠ 0 := fun h => hStart (Int64.toInt_inj.mp h)
  by_cases hBefore : pos.toInt < -n
  · simp [hStart, hBefore]
  · simp only [hStart, hBefore, decide_false, Bool.or_self, if_false, Bool.false_eq_true]
    exact fromEnd_eq hInt (by omega) (by omega)

/-- The end is computed without a step that could fail, like the start. -/
theorem endPosition?_eq (hLength : n < 2 ^ 63) (pos : Int64) :
    endPosition? pos n = some (endPosition pos n) := by
  obtain ⟨w, hInt, hWord, hNeg, hNegInt⟩ := lengthWord hLength
  have hZero : (0 : Int64).toInt = 0 := rfl
  simp only [endPosition?, endPosition, hWord, hNeg, Option.bind_eq_bind, Option.bind_some,
    Int64.lt_iff_toInt_lt, Int64.le_iff_toInt_le, hInt, hNegInt, hZero]
  by_cases hBehind : (n : Int) < pos.toInt
  · rw [if_pos hBehind, if_pos hBehind]
  rw [if_neg hBehind, if_neg hBehind]
  by_cases hNatural : 0 ≤ pos.toInt
  · rw [if_pos hNatural, if_pos hNatural, Checked.size?_eq hNatural]
  rw [if_neg hNatural, if_neg hNatural]
  by_cases hBefore : pos.toInt < -n
  · rw [if_pos hBefore, if_pos hBefore]
  · rw [if_neg hBefore, if_neg hBefore]
    exact fromEnd_eq hInt (by omega) (by omega)

/-- A part is cut inside its string. No index is out of range and no bound is past another one. -/
theorem slice?_eq (hLength : bytes.length < 2 ^ 63) (i j : Int64) :
    slice? bytes i j = some (slice bytes i j) := by
  have hFirst := startPosition_eq i bytes.length
  have hLast := endPosition_eq j bytes.length
  simp only [slice?, slice, startPosition?_eq hLength, endPosition?_eq hLength,
    Option.bind_eq_bind, Option.bind_some]
  generalize startPosition i bytes.length = first at hFirst
  generalize endPosition j bytes.length = last at hLast
  split
  next => rfl
  next hOrder =>
    obtain ⟨start, rfl⟩ : ∃ start, first = start + 1 := ⟨first - 1, by omega⟩
    rw [Nat.ppred_succ, Option.bind_some, range?, if_pos (by omega), Nat.add_sub_cancel]

/-! ### Bytes -/

/-- Bytes between two positions are a start of the list without a start of its own. The induction is
on the bytes, with the number of the first one generalised. -/
theorem filter_zipIdx (bytes : Bytes) (start : Nat) (low high : Int) :
    ((bytes.zipIdx start).filter fun (_, p) => low ≤ p && p ≤ high).map Prod.fst =
      (bytes.take (high + 1 - start).toNat).drop (low - start).toNat := by
  induction bytes generalizing start with
  | nil => simp
  | cons b rest ih =>
      rw [List.zipIdx_cons, List.filter_cons]
      by_cases hHigh : (start : Int) ≤ high
      · have hTake : (high + 1 - start).toNat = (high + 1 - (start + 1 : ℕ)).toNat + 1 := by omega
        rw [hTake, List.take_succ_cons]
        by_cases hLow : low ≤ start
        · have hDrop : (low - start).toNat = 0 := by omega
          have hDrop' : (low - (start + 1 : ℕ)).toNat = 0 := by omega
          simp only [hLow, hHigh, decide_true, Bool.and_self, if_true, List.map_cons, ih, hDrop,
            hDrop', List.drop_zero]
        · have hDrop : (low - start).toNat = (low - (start + 1 : ℕ)).toNat + 1 := by omega
          simp only [hLow, decide_false, Bool.false_and, Bool.false_eq_true, if_false, ih, hDrop,
            List.drop_succ_cons]
      · have hTake : (high + 1 - start).toNat = 0 := by omega
        have hTake' : (high + 1 - (start + 1 : ℕ)).toNat = 0 := by omega
        simp only [hHigh, decide_false, Bool.and_false, Bool.false_eq_true, if_false, ih, hTake,
          hTake', List.take_zero, List.drop_nil]

/-- A part is cut by the two clipped positions. -/
theorem slice_eq (bytes : Bytes) (i j : Int64) :
    slice bytes i j = (bytes.take (endPosition j bytes.length)).drop
      (startPosition i bytes.length - 1) := by
  rw [slice, List.drop_take]
  split
  next hOrder =>
    have hNone : endPosition j bytes.length - (startPosition i bytes.length - 1) = 0 := by omega
    rw [hNone, List.take_zero]
  next => rfl

/-- A part has the bytes between the positions that its bounds mean. Positions before the first and
behind the last have no bytes, so clipping them changes nothing. -/
theorem slice_eq_between (bytes : Bytes) (i j : Int64) :
    slice bytes i j =
      between bytes (position i.toInt bytes.length) (position j.toInt bytes.length) := by
  have hFirst := startPosition_eq i bytes.length
  have hLast := endPosition_eq j bytes.length
  rw [slice_eq, between, filter_zipIdx]
  generalize position i.toInt bytes.length = low at hFirst
  generalize position j.toInt bytes.length = high at hLast
  have hStart : startPosition i bytes.length - 1 = (low - (1 : ℕ)).toNat := by omega
  have hStop : endPosition j bytes.length = min (high + 1 - (1 : ℕ)).toNat bytes.length := by omega
  rw [hStart, hStop, ← List.take_eq_take_min]

/-- The part before a position and the part from it on are the string. The position may be at either
end, and then one of the parts is empty. -/
theorem slice_append_slice {bytes : Bytes} {stop start : Int64} {k : Nat} (hk : k ≤ bytes.length)
    (hStop : stop.toInt = k) (hStart : start.toInt = k + 1) :
    slice bytes 1 stop ++ slice bytes start (-1) = bytes := by
  have hOne : (1 : Int64).toInt = 1 := rfl
  have hLast : (-1 : Int64).toInt = -1 := rfl
  have hFirst := startPosition_eq 1 bytes.length
  have hMiddle := endPosition_eq stop bytes.length
  have hNext := startPosition_eq start bytes.length
  have hEnd := endPosition_eq (-1) bytes.length
  simp only [position, hOne, hLast, hStop, hStart] at hFirst hMiddle hNext hEnd
  have hFront : startPosition 1 bytes.length - 1 = 0 ∧ endPosition stop bytes.length = k := by omega
  have hBack : startPosition start bytes.length - 1 = k ∧
      endPosition (-1) bytes.length = bytes.length := by omega
  rw [slice_eq, slice_eq, hFront.1, hFront.2, hBack.1, hBack.2, List.take_length, List.drop_zero,
    List.take_append_drop]

/-! ### Strings of a heap -/

/-- A string taken apart behind one index and from another on, and put together again. -/
def rejoin (s : Str) (stop start : Int64) (loc : Location) : Run Heap Str := do
  let front ← sub s 1 stop
  let back ← sub s start (-1)
  concat [front, back] loc

theorem concat_eq {parts : List Str} (hLength : (parts.flatMap (·.bytes)).length ≤ maxLength)
    (loc : Location) : concat parts loc = make loc (parts.flatMap (·.bytes)) := by
  unfold concat
  dsimp only
  rw [if_neg (Nat.not_lt.mpr hLength)]

/-- Putting the two parts of a string together makes the contents of the string again. It need not
be the same string: a long one is made anew. -/
theorem rejoin_run {j : Journal Heap} (hInterned : j.host.Interned) {s : Str}
    (hLength : s.length < 2 ^ 63) {stop start : Int64} {k : Nat} (hk : k ≤ s.length)
    (hStop : stop.toInt = k) (hStart : start.toInt = k + 1) (loc : Location) (config : Config) :
    ∃ t h, rejoin s stop start loc config j = .ok t { j with host := h } ∧ t.bytes = s.bytes ∧
      h.Canonical t ∧ ∀ q, j.host.Canonical q → h.Canonical q := by
  obtain ⟨front, h₁, hFront, hFrontBytes, _, hGrown₁⟩ :=
    make_cases hInterned {} (slice s.bytes 1 stop) config
  obtain ⟨back, h₂, hBack, hBackBytes, _, hGrown₂⟩ :=
    make_cases (j := { j with host := h₁ }) hGrown₁.interned {} (slice s.bytes start (-1)) config
  obtain ⟨t, h₃, hWhole, hBytes, hCanonical, hGrown₃⟩ :=
    make_cases (j := { j with host := h₂ }) hGrown₂.interned loc s.bytes config
  have hParts : [front, back].flatMap (·.bytes) = s.bytes := by
    rw [List.flatMap_cons, List.flatMap_singleton, hFrontBytes, hBackBytes]
    exact slice_append_slice hk hStop hStart
  have hConcat : concat [front, back] loc = make loc s.bytes := by
    rw [concat_eq (by rw [hParts]; exact Nat.le_pred_of_lt hLength), hParts]
  refine ⟨t, h₃, ?_, hBytes, hCanonical,
    fun q hq => hGrown₃.canonical (hGrown₂.canonical (hGrown₁.canonical hq))⟩
  rw [rejoin, Run.bind_run, sub, hFront]
  dsimp only
  rw [Run.bind_run, sub, hBack]
  dsimp only
  rw [hConcat, hWhole]

/-- A part of a string has exactly the bytes at the positions between its bounds, for any bounds.
Cut in two anywhere and put together again, a string has its bytes, and is itself if it is a short
one of the heap. Nothing wraps on the way, and nothing is read outside the string. -/
theorem sub_exact {j : Journal Heap} (hReached : j.host.Reached) {s : Str}
    (hLength : s.length < 2 ^ 63) (config : Config) :
    (∀ first last : Int64,
      slice? s.bytes first last = some (slice s.bytes first last) ∧
      ∃ t after, sub s first last config j = .ok t after ∧
        t.bytes = between s.bytes (position first.toInt s.length)
          (position last.toInt s.length)) ∧
    (∀ (k : Nat) (stop start : Int64) (loc : Location), k ≤ s.length → stop.toInt = k →
      start.toInt = k + 1 → ∃ t after, rejoin s stop start loc config j = .ok t after ∧
        t.bytes = s.bytes ∧
        (s.length ≤ Limits.shortLength → Heap.Gave s j.host → t = s)) := by
  refine ⟨fun first last => ⟨slice?_eq hLength first last, ?_⟩,
    fun k stop start loc hk hStop hStart => ?_⟩
  · obtain ⟨t, h, hRun, hBytes, _⟩ :=
      make_cases hReached.interned {} (slice s.bytes first last) config
    exact ⟨t, _, hRun, hBytes.trans (slice_eq_between s.bytes first last)⟩
  · obtain ⟨t, h, hRun, hBytes, hCanonical, hKept⟩ :=
      rejoin_run hReached.interned hLength hk hStop hStart loc config
    refine ⟨t, _, hRun, hBytes, fun hShort hGave => ?_⟩
    have hOld := hKept s hGave.canonical (decide_eq_true hShort)
    have hNew := hCanonical (Str.isShort_congr hBytes ▸ decide_eq_true hShort)
    rw [hBytes, hOld, Option.some.injEq] at hNew
    exact hNew.symm

/-- The last two bytes of three, and the three cut behind the first. -/
theorem sub_exact_three : ∃ (h : Heap) (s : Str), h.Reached ∧ Heap.Gave s h ∧
    s.bytes = [97, 0, 99] ∧
    (∃ t after, sub s (-2) Int64.maxValue {} { host := h } = .ok t after ∧ t.bytes = [0, 99]) ∧
    ∃ after, rejoin s 1 2 {} {} { host := h } = .ok s after := by
  obtain ⟨s, h, hRun, hBytes, _⟩ := Heap.newStr_cases (Heap.Reached.new 0).interned [97, 0, 99]
  have hGave : Heap.Gave s h := .made (.new 0) hRun
  have hLength : s.length = 3 := by rw [Str.length, hBytes]; rfl
  obtain ⟨hParts, hWhole⟩ := sub_exact (j := { host := h }) (s := s) hGave.reached
    (by rw [hLength]; decide) {}
  refine ⟨h, s, hGave.reached, hGave, hBytes, ?_, ?_⟩
  · obtain ⟨_, t, after, hPart, hPartBytes⟩ := hParts (-2) Int64.maxValue
    refine ⟨t, after, hPart, ?_⟩
    rw [hPartBytes, hBytes, hLength]
    decide
  · obtain ⟨t, after, hAgain, _, hSame⟩ :=
      hWhole 1 1 2 {} (by rw [hLength]; decide) rfl rfl
    rw [hSame (by rw [hLength]; decide) hGave] at hAgain
    exact ⟨after, hAgain⟩

end Strings

end TaggedRuntime
