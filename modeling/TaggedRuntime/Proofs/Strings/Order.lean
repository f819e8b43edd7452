import Mathlib.Data.List.TakeWhile
import TaggedRuntime.Strings

/-! The comparison by pieces is the lexicographic order of the bytes. A zero byte is the least of
all, so a piece that ends where the other goes on decides as the bytes themselves would, and equal
pieces are as long as each other: what follows the zeros behind them is aligned again. -/

namespace TaggedRuntime.Bytes

/-- The bytes from a position on. A position past the end has none. -/
def from? (bytes : Bytes) (n : Nat) : Option Bytes :=
  if n ≤ bytes.length then some (bytes.drop n) else none

/-- Comparison round by round, without a bound on the rounds. Each way that a round goes is a
constructor, and a round that would read past an end of a string is none. -/
inductive Compares : Bytes → Bytes → Ordering → Prop where
  | differ (hOrder : compareLex a.segment b.segment = o) (hDiffer : o ≠ .eq) : Compares a b o
  | together (hEqual : compareLex a.segment b.segment = .eq)
      (hRight : a.segment.length = b.length) (hLeft : a.segment.length = a.length) :
      Compares a b .eq
  | longer (hEqual : compareLex a.segment b.segment = .eq)
      (hRight : a.segment.length = b.length) (hLeft : a.segment.length ≠ a.length) :
      Compares a b .gt
  | shorter (hEqual : compareLex a.segment b.segment = .eq)
      (hRight : a.segment.length ≠ b.length) (hLeft : a.segment.length = a.length) :
      Compares a b .lt
  | next (hEqual : compareLex a.segment b.segment = .eq)
      (hRight : a.segment.length ≠ b.length) (hLeft : a.segment.length ≠ a.length)
      (hRest : a.from? (a.segment.length + 1) = some rest)
      (hRest' : b.from? (a.segment.length + 1) = some rest')
      (hCompares : Compares rest rest' o) : Compares a b o

variable {a b rest rest' : Bytes} {o : Ordering}

/-! ### Lexicographic order -/

/-- One byte decides, or leaves it to what follows. -/
theorem compare_then (x y : UInt8) (o : Ordering) :
    (Ord.compare x y).then o = if x < y then .lt else if y < x then .gt else o := by
  cases hOrder : Ord.compare x y with
  | lt => rw [if_pos (Std.compare_eq_lt.mp hOrder), Ordering.lt_then]
  | eq =>
      obtain rfl := Std.LawfulEqCmp.eq_of_compare hOrder
      rw [if_neg (UInt8.lt_irrefl x), if_neg (UInt8.lt_irrefl x), Ordering.eq_then]
  | gt =>
      have hGreater := Std.compare_eq_gt.mp hOrder
      rw [if_neg (UInt8.lt_asymm hGreater), if_pos hGreater, Ordering.gt_then]

/-- The comparison byte by byte is the library's comparison of lists. -/
theorem compareLex_eq_compare (a b : Bytes) : compareLex a b = Ord.compare a b := by
  induction a generalizing b with
  | nil => cases b <;> rfl
  | cons x rest ih =>
      cases b with
      | nil => rfl
      | cons y rest' => rw [compareLex, List.compare_cons_cons, compare_then, ih]

/-- The comparison byte by byte decides the order of lists of bytes. Which of the two is used
depends on what the library has lemmas for. -/
theorem compareLex_lt_iff (a b : Bytes) : compareLex a b = .lt ↔ a < b := by
  induction a generalizing b with
  | nil => cases b <;> simp [compareLex]
  | cons x rest ih =>
      cases b with
      | nil => simp [compareLex]
      | cons y rest' =>
          rw [List.cons_lt_cons_iff, ← ih, compareLex]
          by_cases hLess : x < y
          · simp [hLess]
          · by_cases hGreater : y < x
            · have hDiffer : x ≠ y := fun hEq => UInt8.lt_irrefl y (hEq ▸ hGreater)
              simp [hLess, hGreater, hDiffer]
            · obtain rfl := UInt8.le_antisymm (UInt8.not_lt.mp hGreater) (UInt8.not_lt.mp hLess)
              simp [hLess]

theorem compareLex_append (piece rest rest' : Bytes) :
    compareLex (piece ++ rest) (piece ++ rest') = compareLex rest rest' := by
  induction piece with
  | nil => rfl
  | cons x piece ih => simp [compareLex, ih]

/-! ### Pieces -/

/-- What follows the first piece: nothing, or a zero and the rest. -/
theorem drop_segment (a : Bytes) : a.drop a.segment.length = a.dropWhile (· ≠ 0) := by
  have hSplit : a.segment ++ a.dropWhile (· ≠ 0) = a := List.takeWhile_append_dropWhile
  calc a.drop a.segment.length
    _ = (a.segment ++ a.dropWhile (· ≠ 0)).drop a.segment.length := by rw [hSplit]
    _ = a.dropWhile (· ≠ 0) := List.drop_left

theorem segment_append_drop (a : Bytes) : a.segment ++ a.drop a.segment.length = a := by
  rw [drop_segment]
  exact List.takeWhile_append_dropWhile

theorem head_drop_segment (a : Bytes) : ∀ x ∈ (a.drop a.segment.length).head?, x = 0 := by
  intro x hx
  have hHead := List.head?_dropWhile_not (· ≠ 0) a
  rw [← drop_segment, Option.mem_def.mp hx] at hHead
  simpa using hHead

theorem segment_length_le (a : Bytes) : a.segment.length ≤ a.length :=
  (List.takeWhile_sublist _).length_le

theorem ne_zero_of_mem_segment {x : UInt8} (h : x ∈ a.segment) : x ≠ 0 := by
  simpa using List.mem_takeWhile_imp h

/-- Different pieces decide, whatever follows the zeros behind them. A zero is the least byte, so a
piece that ends is less than one that goes on, as it is in the order of the bytes. -/
theorem compareLex_of_differ {piece piece' : Bytes} (hPiece : ∀ x ∈ piece, x ≠ 0)
    (hPiece' : ∀ x ∈ piece', x ≠ 0) (hRest : ∀ x ∈ rest.head?, x = 0)
    (hRest' : ∀ x ∈ rest'.head?, x = 0) (hDiffer : compareLex piece piece' ≠ .eq) :
    compareLex (piece ++ rest) (piece' ++ rest') = compareLex piece piece' := by
  induction piece generalizing piece' with
  | nil =>
      cases piece' with
      | nil => exact absurd rfl hDiffer
      | cons y piece' =>
          cases rest with
          | nil => rfl
          | cons x rest =>
              obtain rfl := hRest x rfl
              have hLess : 0 < y := UInt8.pos_iff_ne_zero.mpr (hPiece' y List.mem_cons_self)
              simp [compareLex, hLess]
  | cons x piece ih =>
      cases piece' with
      | nil =>
          cases rest' with
          | nil => rfl
          | cons y rest' =>
              obtain rfl := hRest' y rfl
              have hGreater : 0 < x := UInt8.pos_iff_ne_zero.mpr (hPiece x List.mem_cons_self)
              simp [compareLex, hGreater]
      | cons y piece' =>
          rw [List.cons_append, List.cons_append, compareLex, compareLex]
          rw [compareLex] at hDiffer
          split
          · rfl
          · split
            · rfl
            · rw [if_neg ‹_›, if_neg ‹_›] at hDiffer
              exact ih (fun z hz => hPiece z (List.mem_cons_of_mem _ hz))
                (fun z hz => hPiece' z (List.mem_cons_of_mem _ hz)) hDiffer

/-! ### Rounds -/

theorem segment_eq (hEqual : compareLex a.segment b.segment = .eq) : a.segment = b.segment := by
  rw [compareLex_eq_compare] at hEqual
  exact Std.LawfulEqCmp.eq_of_compare hEqual

/-- Equal pieces leave the comparison to what follows them, and zeros are passed on both sides.
Where one string has ended and the other one has not, the longer one is greater. -/
theorem compareLex_of_equal (hEqual : compareLex a.segment b.segment = .eq) :
    compareLex a b =
      match a.drop a.segment.length, b.drop a.segment.length with
      | [], [] => .eq
      | _ :: _, [] => .gt
      | [], _ :: _ => .lt
      | _ :: rest, _ :: rest' => compareLex rest rest' := by
  have hPieces := segment_eq hEqual
  have hOrder : compareLex a b =
      compareLex (a.drop a.segment.length) (b.drop a.segment.length) := by
    calc compareLex a b
      _ = compareLex (a.segment ++ a.drop a.segment.length)
          (a.segment ++ b.drop a.segment.length) := by
        rw [segment_append_drop, hPieces, segment_append_drop]
      _ = compareLex (a.drop a.segment.length) (b.drop a.segment.length) :=
        compareLex_append ..
  rw [hOrder]
  cases hLeft : a.drop a.segment.length with
  | nil => cases b.drop a.segment.length <;> rfl
  | cons x rest =>
      cases hRight : b.drop a.segment.length with
      | nil => rfl
      | cons y rest' =>
          obtain rfl := head_drop_segment a x (by rw [hLeft]; rfl)
          obtain rfl := head_drop_segment b y (by rw [← hPieces, hRight]; rfl)
          rfl

/-- Pieces that differ decide between the strings. -/
theorem compareLex_of_pieces (hDiffer : compareLex a.segment b.segment ≠ .eq) :
    compareLex a b = compareLex a.segment b.segment := by
  calc compareLex a b
    _ = compareLex (a.segment ++ a.drop a.segment.length)
        (b.segment ++ b.drop b.segment.length) := by
      rw [segment_append_drop, segment_append_drop]
    _ = compareLex a.segment b.segment :=
      compareLex_of_differ (fun _ => ne_zero_of_mem_segment) (fun _ => ne_zero_of_mem_segment)
        (head_drop_segment a) (head_drop_segment b) hDiffer

/-- What follows a passed byte is shorter than the string. This is why the rounds come to an end. -/
theorem length_lt_of_drop {n : Nat} {x : UInt8} (h : a.drop n = x :: rest) :
    rest.length < a.length := by
  have hLength := congrArg List.length h
  rw [List.length_drop, List.length_cons] at hLength
  omega

/-- Every round passes a zero of the first string, so rounds are no more than its bytes and one. The
induction is on the bound, with both strings generalised. -/
theorem compareSegments_eq {fuel : Nat} (hFuel : a.length < fuel) (b : Bytes) :
    compareSegments fuel a b = compareLex a b := by
  induction fuel generalizing a b with
  | zero => omega
  | succ fuel ih =>
      by_cases hEqual : compareLex a.segment b.segment = .eq
      · rw [compareLex_of_equal hEqual, compareSegments, hEqual]
        cases hLeft : a.drop a.segment.length with
        | nil => cases hRight : b.drop a.segment.length <;> simp [hLeft, hRight]
        | cons x rest =>
            cases hRight : b.drop a.segment.length with
            | nil => simp [hLeft, hRight]
            | cons y rest' =>
                have hShorter := length_lt_of_drop hLeft
                simpa [hLeft, hRight] using ih (by omega) rest'
      · rw [compareLex_of_pieces hEqual, compareSegments]
        split
        next hOrder => exact absurd hOrder hEqual
        next => rfl

theorem compare_eq_compareLex (a b : Bytes) : compare a b = compareLex a b :=
  compareSegments_eq (Nat.lt_succ_self _) b

/-! ### The loop -/

theorem from?_succ {n : Nat} (h : n < a.length) :
    ∃ x, a.drop n = x :: a.drop (n + 1) ∧ a.from? (n + 1) = some (a.drop (n + 1)) :=
  ⟨a[n], List.drop_eq_getElem_cons h, if_pos h⟩

/-- A slice that is within a string has a byte in front of it. -/
theorem drop_of_from? {n : Nat} (h : a.from? (n + 1) = some rest) :
    ∃ x, a.drop n = x :: rest := by
  unfold from? at h
  split at h
  next hLe =>
    cases h
    exact ⟨a[n], List.drop_eq_getElem_cons hLe⟩
  next => cases h

/-- However the loop goes, it ends with the order of the bytes. The induction is on the rounds that
it makes. -/
theorem Compares.eq_compareLex (h : Compares a b o) : o = compareLex a b := by
  induction h with
  | differ hOrder hDiffer =>
      subst hOrder
      rw [compareLex_of_pieces hDiffer]
  | together hEqual hRight hLeft =>
      rw [compareLex_of_equal hEqual, List.drop_of_length_le hLeft.ge,
        List.drop_of_length_le hRight.ge]
  | @longer a b hEqual hRight hLeft =>
      obtain ⟨x, hBehind, _⟩ := from?_succ (Nat.lt_of_le_of_ne (segment_length_le a) hLeft)
      rw [compareLex_of_equal hEqual, hBehind, List.drop_of_length_le hRight.ge]
  | @shorter a b hEqual hRight hLeft =>
      have hWithin : a.segment.length ≤ b.length := segment_eq hEqual ▸ segment_length_le b
      obtain ⟨x, hBehind, _⟩ := from?_succ (Nat.lt_of_le_of_ne hWithin hRight)
      rw [compareLex_of_equal hEqual, hBehind, List.drop_of_length_le hLeft.ge]
  | next hEqual hRight hLeft hRest hRest' _ ih =>
      obtain ⟨x, hBehind⟩ := drop_of_from? hRest
      obtain ⟨y, hBehind'⟩ := drop_of_from? hRest'
      rw [compareLex_of_equal hEqual, hBehind, hBehind', ih]

/-- The loop has a way to the end from every pair of strings, with all its slices within bounds. -/
theorem compares_compareLex (a b : Bytes) : Compares a b (compareLex a b) := by
  by_cases hEqual : compareLex a.segment b.segment = .eq
  · have hWithin : a.segment.length ≤ b.length := segment_eq hEqual ▸ segment_length_le b
    rw [compareLex_of_equal hEqual]
    by_cases hRight : a.segment.length = b.length
    · rw [List.drop_of_length_le hRight.ge]
      by_cases hLeft : a.segment.length = a.length
      · rw [List.drop_of_length_le hLeft.ge]
        exact .together hEqual hRight hLeft
      · obtain ⟨x, hBehind, _⟩ := from?_succ (Nat.lt_of_le_of_ne (segment_length_le a) hLeft)
        rw [hBehind]
        exact .longer hEqual hRight hLeft
    · obtain ⟨y, hBehind', hRest'⟩ := from?_succ (Nat.lt_of_le_of_ne hWithin hRight)
      rw [hBehind']
      by_cases hLeft : a.segment.length = a.length
      · rw [List.drop_of_length_le hLeft.ge]
        exact .shorter hEqual hRight hLeft
      · obtain ⟨x, hBehind, hRest⟩ :=
          from?_succ (Nat.lt_of_le_of_ne (segment_length_le a) hLeft)
        rw [hBehind]
        have hShorter := length_lt_of_drop hBehind
        exact .next hEqual hRight hLeft hRest hRest' (compares_compareLex _ _)
  · exact .differ (compareLex_of_pieces hEqual).symm (by rwa [compareLex_of_pieces hEqual])
termination_by a.length

/-- Strings are compared as sequences of unsigned bytes, a start of a string being less than the
string. The loop over the pieces ends, with this order and no other, and reads inside the strings
only, wherever their zeros are. So the comparison is a total order, in which strings of different
bytes are never equal. -/
theorem compare_lexicographic :
    (∀ a b o, Compares a b o ↔ o = compare a b) ∧
    (∀ a b, compare a b = Ord.compare a b) ∧
    (∀ a b, compare a b = .lt ↔ a < b) ∧
    (∀ a b, compare a b = .eq ↔ a = b) ∧
    (∀ a b, compare a b = .gt ↔ b < a) ∧
    Std.TransCmp compare ∧ Std.LawfulEqCmp compare := by
  have hLists : compare = Ord.compare := by
    funext a b
    rw [compare_eq_compareLex, compareLex_eq_compare]
  have hLess (a b : Bytes) : compare a b = .lt ↔ a < b := by
    rw [compare_eq_compareLex, compareLex_lt_iff]
  refine ⟨fun a b o => ?_, fun a b => congrFun (congrFun hLists a) b, hLess, fun a b => ?_,
    fun a b => ?_, ?_, ?_⟩
  · rw [compare_eq_compareLex]
    constructor
    · exact Compares.eq_compareLex
    · rintro rfl
      exact compares_compareLex a b
  · rw [hLists]
    exact Std.LawfulEqCmp.compare_eq_iff_eq
  · rw [← hLess, hLists]
    exact Std.OrientedCmp.gt_iff_lt
  · rw [hLists]
    infer_instance
  · rw [hLists]
    infer_instance

example : compare [97, 0] [97] = .gt ∧ compare [0, 0, 1] [0, 0] = .gt := by decide

end TaggedRuntime.Bytes
