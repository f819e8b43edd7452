import TaggedRuntime.Run

/-! Counting loops: a body is run on the values of a range until it breaks the loop. A step of zero
is an error, and then the body is never run.

Over 64-bit integers the number of values is settled at the start by an unsigned division, so the
loop variable can wrap behind the last value without harm. Over floating-point numbers the variable
is the rounded sum of the one before it and the step, so it may come to stand still below the limit;
such a loop ends only when its body breaks it. -/

namespace TaggedRuntime

/-! ### Integers -/

/-- A run of integers: the next value, the step, and how many values come after the next one;
`none` when no value is left. -/
structure IntRange where
  value : Int64
  step : Int64
  remaining : Option UInt64
  deriving DecidableEq

namespace IntRange

/-- The values `init`, `init + step`, ... up to a limit, or down to it. The magnitude of a negative
step is found without negating the least integer. -/
def ofBounds (init limit step : Int64) : Except ErrorKind IntRange :=
  if step = 0 then .error .zeroStep
  else if 0 < step then
    .ok ⟨init, step,
      if init ≤ limit then some ((limit.toUInt64 - init.toUInt64) / step.toUInt64) else none⟩
  else
    let magnitude := (-(step + 1)).toUInt64 + 1
    .ok ⟨init, step,
      if limit ≤ init then some ((init.toUInt64 - limit.toUInt64) / magnitude) else none⟩

/-- The next value and the range behind it. -/
def next? (r : IntRange) : Option (Int64 × IntRange) :=
  match r.remaining with
  | none => none
  | some n =>
    if n = 0 then some (r.value, { r with remaining := none })
    else some (r.value, { r with value := r.value + r.step, remaining := some (n - 1) })

/-- Bounds on the number of values left: exact, except that `2 ^ 64` of them fit no word and have no
upper bound. -/
def sizeHint (r : IntRange) : UInt64 × Option UInt64 :=
  match r.remaining with
  | none => (0, some 0)
  | some n => if n + 1 = 0 then (n, none) else (n + 1, some (n + 1))

/-- The number of values left. -/
def count (r : IntRange) : Nat :=
  match r.remaining with
  | none => 0
  | some n => n.toNat + 1

/-- Up to `n` values, and the range behind them. -/
def take : (n : Nat) → IntRange → List Int64 × IntRange
  | 0, r => ([], r)
  | n + 1, r =>
    match r.next? with
    | none => ([], r)
    | some (v, r) =>
      let (rest, r) := r.take n
      (v :: rest, r)

/-- Runs a body on the values in turn until it breaks the loop with a result. -/
def forEachUpTo [Monad m] (body : Int64 → m (Option β)) : (n : Nat) → IntRange → m (Option β)
  | 0, _ => return none
  | n + 1, r =>
    match r.next? with
    | none => return none
    | some (v, r) => do
      match ← body v with
      | some b => return some b
      | none => r.forEachUpTo body n

/-- Runs a body on all values of the range until it breaks the loop. -/
def forEach [Monad m] (r : IntRange) (body : Int64 → m (Option β)) : m (Option β) :=
  r.forEachUpTo body r.count

end IntRange

/-! ### Floating-point numbers -/

structure FloatRange where
  value : Binary64
  limit : Binary64
  step : Binary64
  deriving DecidableEq

namespace FloatRange

def ofBounds (init limit step : Binary64) : Except ErrorKind FloatRange :=
  if step.eq (.zero false) then .error .zeroStep else .ok ⟨init, limit, step⟩

/-- Whether the next value is one of the range. A step that is not above zero counts down, also
when it is a NaN. -/
def inRange (r : FloatRange) : Bool :=
  if Binary64.lt (.zero false) r.step then r.value.le r.limit else r.limit.le r.value

/-- The next value and the range behind it. -/
def next? (r : FloatRange) : Option (Binary64 × FloatRange) :=
  if r.inRange then some (r.value, { r with value := r.value + r.step }) else none

/-- Up to `n` values, and the range behind them. -/
def take : (n : Nat) → FloatRange → List Binary64 × FloatRange
  | 0, r => ([], r)
  | n + 1, r =>
    match r.next? with
    | none => ([], r)
    | some (v, r) =>
      let (rest, r) := r.take n
      (v :: rest, r)

/-- Runs a body on up to `n` values until it breaks the loop with a result. -/
def forEachUpTo [Monad m] (body : Binary64 → m (Option β)) : (n : Nat) → FloatRange → m (Option β)
  | 0, _ => return none
  | n + 1, r =>
    match r.next? with
    | none => return none
    | some (v, r) => do
      match ← body v with
      | some b => return some b
      | none => r.forEachUpTo body n

/-- Runs a body on the values of the range until it breaks the loop. Until it stands still a loop
visits no word twice, so the bound is met by none that would end. -/
def forEach [Monad m] (r : FloatRange) (body : Binary64 → m (Option β)) : m (Option β) :=
  r.forEachUpTo body (twoPow 64)

end FloatRange

/-! ### Loops of a program -/

namespace Loop

def overIntegers (init limit step : Int64) (loc : Location) (body : Int64 → Run σ (Option β)) :
    Run σ (Option β) := do
  let range ← Run.ofExcept loc (IntRange.ofBounds init limit step)
  range.forEach body

def overFloats (init limit step : Binary64) (loc : Location)
    (body : Binary64 → Run σ (Option β)) : Run σ (Option β) := do
  let range ← Run.ofExcept loc (FloatRange.ofBounds init limit step)
  range.forEach body

end Loop

end TaggedRuntime
