import TaggedRuntime.Proofs.Abi.Answers
import TaggedRuntime.Proofs.Loop.Range
import TaggedRuntime.Abi.Entry

/-! Loops over integers as loops over the list of the values of their ranges. A
body is run on these in order, up to and including the first one at which it
breaks the loop. -/

namespace TaggedRuntime

/-! ### Ranges as lists of words -/

namespace IntRange

variable {r r' : IntRange} {v : Int64}

/-- The values that are left of a range. -/
def values (r : IntRange) : List Int64 := r.integers.map Int64.ofInt

@[simp] theorem length_values (r : IntRange) : r.values.length = r.count := by simp [values]

/-- The words of a range stand for its integers, at each place. The range has to fit, or an addition
would wrap on the way. -/
theorem getElem?_values (hFits : r.Fits) (place : Nat) :
    r.values[place]?.map Int64.toInt = r.integers[place]? := by
  rw [values, List.getElem?_map, Option.map_map]
  cases hPlace : r.integers[place]? with
  | none => rfl
  | some x =>
      obtain ⟨hLow, hHigh⟩ := hFits x (List.mem_of_getElem? hPlace)
      exact congrArg some (Int64.toInt_ofInt_of_le hLow hHigh)

/-- The next value of a range is the first of its words, and the others are the words of what is
left. -/
theorem values_of_next? (hFits : r.Fits) (h : r.next? = some (v, r')) :
    r.values = v :: r'.values := by
  simp [values, (integers_of_next? hFits h).1]

theorem values_eq_nil (h : r.next? = none) : r.values = [] := by
  rw [← List.length_eq_zero_iff, length_values]
  exact next?_eq_none_iff.mp h

/-- Calling a range for its next value any number of times gives its values in order, and leaves the
others. What is left is a range that fits, so the two descriptions can be used on it again. -/
theorem take_values (hFits : r.Fits) (n : Nat) :
    (r.take n).1 = r.values.take n ∧ (r.take n).2.values = r.values.drop n ∧
      (r.take n).2.Fits := by
  induction n generalizing r with
  | zero => exact ⟨rfl, rfl, hFits⟩
  | succ n ih =>
      unfold take
      cases hNext : r.next? with
      | none => simp [values_eq_nil hNext, hFits]
      | some next =>
          obtain ⟨hTaken, hLeft, hFits'⟩ := ih (hFits.of_next? hNext)
          rw [values_of_next? hFits hNext]
          exact ⟨by simpa using hTaken, hLeft, hFits'⟩

theorem next?_values (hFits : r.Fits) : r.next?.map (·.1) = r.values.head? := by
  cases hNext : r.next? with
  | none => simp [values_eq_nil hNext]
  | some next => simp [values_of_next? hFits hNext]

/-- A loop over a range is a loop over the list of its values. The number of turns is only a bound
here, and any that is no less than the count will do. -/
theorem forEachUpTo_eq {m : Type → Type} [Monad m] {β : Type} (hFits : r.Fits)
    (body : Int64 → m (Option β)) (n : Nat) (hn : r.count ≤ n) :
    r.forEachUpTo body n = r.values.findSomeM? body := by
  induction n generalizing r with
  | zero =>
      have hNone : r.next? = none := next?_eq_none_iff.mpr (Nat.le_zero.mp hn)
      rw [values_eq_nil hNone]
      rfl
  | succ n ih =>
      unfold forEachUpTo
      cases hNext : r.next? with
      | none =>
          rw [values_eq_nil hNext]
          rfl
      | some next =>
          have hCount := (integers_of_next? hFits hNext).2
          rw [values_of_next? hFits hNext, List.findSomeM?_cons,
            ← ih (hFits.of_next? hNext) (by omega)]
          rfl

/-- A loop over a range runs its body on the words in order, up to the first that breaks it. This
holds in every monad, so for bodies that fail and bodies that have a state alike. -/
theorem forEach_eq {m : Type → Type} [Monad m] {β : Type} (hFits : r.Fits)
    (body : Int64 → m (Option β)) : r.forEach body = r.values.findSomeM? body :=
  forEachUpTo_eq hFits body r.count (Nat.le_refl _)

end IntRange

/-! ### Bodies -/

namespace Abi.Body

variable {S α : Type} {body : Body S α} {state : S} {values : List α}

/-- The state that a body leaves behind a number of values, whatever it answered. -/
def after (body : Body S α) (state : S) (values : List α) : S :=
  values.foldl (fun s v => ((body v).run s).2) state

/-- A body that was run on all values before answers to the one at a place with a
break. -/
def BreaksAt (body : Body S α) (state : S) (values : List α) (place : Nat) : Prop :=
  ∃ v, values[place]? = some v ∧ ((body v).run (body.after state (values.take place))).1 ≠ 0

theorem breaksAt_zero (v : α) :
    body.BreaksAt state (v :: values) 0 ↔ ((body v).run state).1 ≠ 0 := by
  simp [BreaksAt, after]

/-- A later value breaks a loop if it does in the state that the first one leaves. -/
theorem breaksAt_succ (v : α) (place : Nat) :
    body.BreaksAt state (v :: values) (place + 1) ↔
      body.BreaksAt ((body v).run state).2 values place := by
  simp [BreaksAt, after]

/-- One turn of a loop with a state. The answer zero goes on, and every other word breaks. -/
theorem findSomeM?_run_cons (body : Body S α) (v : α) (rest : List α) (state : S) :
    ((v :: rest).findSomeM? body.run).run state =
      if ((body v).run state).1 = 0 then (rest.findSomeM? body.run).run ((body v).run state).2
      else (some (), ((body v).run state).2) := by
  have hRun : (body.run v).run state =
      (if ((body v).run state).1 = 0 then none else some (), ((body v).run state).2) := rfl
  rw [List.findSomeM?_cons]
  simp only [StateT.run_bind, hRun]
  split <;> rfl

/-- The loop ends at the first value at which its body breaks it. The body has been run on the
values up to that one and on no other. -/
theorem findSomeM?_run_of_breaksAt {place : Nat} (hBreak : body.BreaksAt state values place)
    (hFirst : ∀ p < place, ¬body.BreaksAt state values p) :
    (values.findSomeM? body.run).run state =
      (some (), body.after state (values.take (place + 1))) := by
  induction values generalizing state place with
  | nil =>
      obtain ⟨v, hPlace, _⟩ := hBreak
      simp at hPlace
  | cons v rest ih =>
      rw [findSomeM?_run_cons]
      cases place with
      | zero =>
          rw [breaksAt_zero] at hBreak
          rw [if_neg hBreak]
          rfl
      | succ place =>
          have hGoesOn := hFirst 0 (Nat.succ_pos _)
          rw [breaksAt_zero, not_not] at hGoesOn
          rw [breaksAt_succ] at hBreak
          rw [if_pos hGoesOn]
          refine ih hBreak fun p hp => ?_
          rw [← breaksAt_succ]
          exact hFirst (p + 1) (Nat.succ_lt_succ hp)

/-- A loop that its body never breaks runs it on all values. The state is handed through all of
them. -/
theorem findSomeM?_run_of_not_breaksAt (hNever : ∀ place, ¬body.BreaksAt state values place) :
    (values.findSomeM? body.run).run state = (none, body.after state values) := by
  induction values generalizing state with
  | nil => rfl
  | cons v rest ih =>
      have hGoesOn := hNever 0
      rw [breaksAt_zero, not_not] at hGoesOn
      rw [findSomeM?_run_cons, if_pos hGoesOn]
      refine ih fun place => ?_
      rw [← breaksAt_succ]
      exact hNever (place + 1)

end Abi.Body

/-! ### Loops -/

namespace Loop

variable {init limit step : Int64}

/-- Bounds that are refused raise their error, and the body is not run. -/
theorem overIntegers_of_error {σ β : Type} {e : ErrorKind}
    (hBounds : IntRange.ofBounds init limit step = .error e) (loc : Location)
    (body : Int64 → Run σ (Option β)) :
    overIntegers init limit step loc body = Run.raise e loc := by
  unfold overIntegers
  rw [hBounds]
  funext config j
  simp only [Run.ofExcept, bind, ReaderT.bind, EStateM.bind, Run.raise_run]

theorem overIntegers_of_ok {σ β : Type} {r : IntRange}
    (hBounds : IntRange.ofBounds init limit step = .ok r) (hFits : r.Fits) (loc : Location)
    (body : Int64 → Run σ (Option β)) :
    overIntegers init limit step loc body = r.values.findSomeM? body := by
  unfold overIntegers
  rw [hBounds, ← IntRange.forEach_eq hFits]
  rfl

open Abi

/-- A loop of native code whose bounds are refused answers with their error, and hands the state
back as it came. The error is not fatal, or the process would have ended. -/
theorem intFor_of_error {S : Type} {e : ErrorKind}
    (hBounds : IntRange.ofBounds init limit step = .error e) (hFatal : e.isFatal = false)
    (site : Site) (body : Body S Int64) (state : S) (config : Config) (j : Journal World) :
    ∃ j', intFor init limit step site body state config j =
      .ok (.error (.runtime (RuntimeError.located e site.location)), state) j' := by
  have hFatal' : (RuntimeError.located e site.location).isFatal = false := by
    unfold RuntimeError.located
    split <;> exact hFatal
  obtain ⟨j', hRefused⟩ : ∃ j', calculate site (IntRange.ofBounds init limit step) config j =
      .ok (.error (.runtime (RuntimeError.located e site.location))) j' := by
    unfold calculate
    rw [hBounds, settle_run]
    simp only [Run.ofExcept, Run.raise_run, hFatal']
    exact ⟨_, rfl⟩
  refine ⟨j', ?_⟩
  unfold intFor
  simp only [bind, ReaderT.bind, EStateM.bind, hRefused]
  rfl

/-- A loop of native code runs its body on the words of the range. It answers whether the loop was
broken, and the process is as before. -/
theorem intFor_of_ok {S : Type} {r : IntRange}
    (hBounds : IntRange.ofBounds init limit step = .ok r) (hFits : r.Fits) (site : Site)
    (body : Body S Int64) (state : S) (config : Config) (j : Journal World) :
    intFor init limit step site body state config j =
      .ok (.ok ((r.values.findSomeM? body.run).run state).1.isSome,
        ((r.values.findSomeM? body.run).run state).2) j := by
  unfold intFor
  rw [hBounds, ← IntRange.forEach_eq hFits]
  rfl

/-- Loops over integers are exact. A step of zero is refused, and no body is run.
With any other step there is the list of the words that stand for the integers
`init`, `init + step`, ... up to the limit, and a range yields this list, then
nothing for ever, and tells at every point how many values are left. A loop runs
its body on this list: a body of native code on all of it, or up to and
including the first value at which it breaks the loop. -/
theorem overIntegers_exact (init limit step : Int64) :
    (∀ e, IntRange.ofBounds init limit step = .error e ↔ step = 0 ∧ e = .zeroStep) ∧
    (step = 0 →
      (∀ {σ β : Type} (loc : Location) (body : Int64 → Run σ (Option β)),
        overIntegers init limit step loc body = Run.raise .zeroStep loc) ∧
      (∀ {S : Type} (site : Site) (body : Body S Int64) (state : S) (config : Config)
        (j : Journal World), ∃ j', intFor init limit step site body state config j =
          .ok (.error (.runtime (RuntimeError.located .zeroStep site.location)), state) j')) ∧
    (step ≠ 0 → ∃ (r : IntRange) (values : List Int64),
      IntRange.ofBounds init limit step = .ok r ∧
      (∀ place : Nat, values[place]?.map Int64.toInt =
        IntRange.member? init.toInt limit.toInt step.toInt place) ∧
      (∀ n : Nat, (r.take n).1 = values.take n ∧ (r.take n).2.next?.map (·.1) = values[n]? ∧
        IntRange.Tells (r.take n).2.sizeHint (values.length - n)) ∧
      (∀ {σ β : Type} (loc : Location) (body : Int64 → Run σ (Option β)),
        overIntegers init limit step loc body = values.findSomeM? body) ∧
      (∀ {S : Type} (site : Site) (body : Body S Int64) (state : S) (config : Config)
        (j : Journal World),
        (∀ place, body.BreaksAt state values place →
          (∀ p < place, ¬body.BreaksAt state values p) →
            intFor init limit step site body state config j =
              .ok (.ok true, body.after state (values.take (place + 1))) j) ∧
        ((∀ place, ¬body.BreaksAt state values place) →
          intFor init limit step site body state config j =
            .ok (.ok false, body.after state values) j))) := by
  refine ⟨IntRange.ofBounds_eq_error_iff init limit step, fun hZero => ?_, fun hStep => ?_⟩
  · have hBounds := (IntRange.ofBounds_eq_error_iff init limit step .zeroStep).mpr ⟨hZero, rfl⟩
    constructor
    · intro _ _ loc body
      exact overIntegers_of_error hBounds loc body
    · intro _ site body state config j
      exact intFor_of_error hBounds rfl site body state config j
  · obtain ⟨r, hBounds, hFits, hMember⟩ := IntRange.ofBounds_integers init limit hStep
    refine ⟨r, r.values, hBounds, fun place => ?_, fun n => ?_, fun loc body => ?_,
      fun site body state config j => ⟨fun place hBreak hFirst => ?_, fun hNever => ?_⟩⟩
    · rw [IntRange.getElem?_values hFits, hMember]
    · obtain ⟨hTaken, hLeft, hFits'⟩ := IntRange.take_values hFits n
      refine ⟨hTaken, ?_, ?_⟩
      · rw [IntRange.next?_values hFits', hLeft, List.head?_drop]
      · rw [← List.length_drop, ← hLeft, IntRange.length_values]
        exact IntRange.sizeHint_tells _
    · exact overIntegers_of_ok hBounds hFits loc body
    · rw [intFor_of_ok hBounds hFits, Body.findSomeM?_run_of_breaksAt hBreak hFirst]
      rfl
    · rw [intFor_of_ok hBounds hFits, Body.findSomeM?_run_of_not_breaksAt hNever]
      rfl

/-- A range over nearly all words, whose last addition would wrap. -/
theorem overIntegers_exact_wide : ∃ (r : IntRange) (values : List Int64),
    IntRange.ofBounds .minValue .maxValue .maxValue = .ok r ∧
    values.map Int64.toInt = [-2 ^ 63, -1, 2 ^ 63 - 2] ∧
    (r.take 3).1 = values ∧ (r.take 3).2.next? = none := by
  obtain ⟨r, values, hBounds, hMember, hTake, _⟩ :=
    (overIntegers_exact .minValue .maxValue .maxValue).2.2 (by decide)
  have hValues : values.map Int64.toInt = [-2 ^ 63, -1, 2 ^ 63 - 2] := by
    apply List.ext_getElem?
    intro place
    rw [List.getElem?_map, hMember]
    match place with
    | 0 => decide
    | 1 => decide
    | 2 => decide
    | place + 3 =>
        have hMin : Int64.minValue.toInt = -2 ^ 63 := by decide
        have hMax : Int64.maxValue.toInt = 2 ^ 63 - 1 := by decide
        simp only [IntRange.member?, hMin, hMax]
        rw [if_neg (by omega)]
        rfl
  have hLength : values.length = 3 := by simpa using congrArg List.length hValues
  obtain ⟨hTaken, hNext, _⟩ := hTake 3
  refine ⟨r, values, hBounds, hValues, ?_, ?_⟩
  · rw [hTaken, ← hLength, List.take_length]
  · simpa [hLength] using hNext

end Loop

end TaggedRuntime
