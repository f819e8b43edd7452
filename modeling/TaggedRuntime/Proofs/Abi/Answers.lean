import TaggedRuntime.Abi.Entry
import TaggedRuntime.Proofs.Contract

/-! What calls from native code answer, given what the operations behind them
ensure. -/

namespace TaggedRuntime.Abi

variable {α β : Type}

/-- The heap that a pointer names. -/
def World.heap? (w : World) (ref : HeapRef) : Option Heap := ref.bind fun i => w.heaps[i]?

/-- A reference to a heap is null, or dangles, or names one of the heaps. The first two are one case
for all calls. -/
theorem heap?_cases (w : World) (ref : HeapRef) :
    w.heap? ref = none ∨ ∃ i h, ref = some i ∧ w.heaps[i]? = some h := by
  cases ref with
  | none => exact Or.inl rfl
  | some i =>
      cases hHeap : w.heaps[i]? with
      | none => exact Or.inl hHeap
      | some h => exact Or.inr ⟨i, h, rfl, hHeap⟩

/-- One of the heaps has a property. -/
def World.Has (w : World) (heap : HeapRef) (inv : Heap → Prop) : Prop :=
  ∃ h, w.heap? heap = some h ∧ inv h

variable {config : Config} {ref : HeapRef} {h : Heap} {j : Journal World}
  {done : α → Heap → Prop} {failed : Heap → Prop}

/-- What a call ensures of its answer and the state behind it. Only a fatal error
ends the process, and then nothing is ensured. -/
def Ensures (x : Native α) (config : Config) (j : Journal World)
    (done : α → Journal World → Prop) : Prop :=
  match x config j with
  | .ok a j' => done a j'
  | .error e _ => e.isFatal = true

theorem Ensures.of_answered {x : Native α} {done : α → Journal World → Prop} {a : α}
    {j' : Journal World} (hx : Ensures x config j done) (hRun : x config j = .ok a j') :
    done a j' := by
  unfold Ensures at hx
  rw [hRun] at hx
  exact hx

/-- A call that gave no answer ended the process, and only a fatal error does that. There is nothing
else to say of the state, since nobody sees it. -/
theorem Ensures.of_ended {x : Native α} {done : α → Journal World → Prop} {e : RuntimeError}
    {j' : Journal World} (hx : Ensures x config j done) (hRun : x config j = .error e j') :
    e.isFatal = true := by
  unfold Ensures at hx
  rw [hRun] at hx
  exact hx

/-- A sequence of calls ensures what the second ensures from where the first ends. A fatal error in
either of them is no matter. -/
theorem Ensures.bind {x : Native α} {f : α → Native β} {done : β → Journal World → Prop}
    (hx : Ensures x config j fun a j' => Ensures (f a) config j' done) :
    Ensures (x >>= f) config j done := by
  unfold Ensures at hx ⊢
  change match EStateM.bind (x config) (fun a => f a config) j with
    | .ok b j' => done b j'
    | .error e _ => e.isFatal = true
  unfold EStateM.bind
  cases hRun : x config j with
  | ok a j' =>
      rw [hRun] at hx
      exact hx
  | error e j' =>
      rw [hRun] at hx
      exact hx

/-- What is ensured of the answer may be weakened. -/
theorem Ensures.mono {x : Native α} {done done' : α → Journal World → Prop}
    (hx : Ensures x config j done) (hDone : ∀ a j', done a j' → done' a j') :
    Ensures x config j done' := by
  unfold Ensures at hx ⊢
  cases hRun : x config j with
  | ok a j' =>
      rw [hRun] at hx
      exact hDone a j' hx
  | error e j' =>
      rw [hRun] at hx
      exact hx

theorem Ensures.pure {a : α} {done : α → Journal World → Prop} (hDone : done a j) :
    Ensures (Pure.pure a : Native α) config j done := hDone

theorem Ensures.get {done : Journal World → Journal World → Prop} (hDone : done j j) :
    Ensures (getThe (Journal World) : Native (Journal World)) config j done := hDone

/-- The process after an operation on one of its heaps. -/
def rejoined (j : Journal World) (i : Nat) (after : Journal Heap) : Journal World where
  host := { j.host with heaps := j.host.heaps.setIfInBounds i after.host }
  events := after.events
  output := after.output

/-- An operation on a heap of the process is the operation on that heap alone, with the heap put
back afterwards. The events and the output go with it both ways. -/
theorem onHeap_eq {i : Nat} (x : Run Heap α) (config : Config) (hHeap : j.host.heaps[i]? = some h) :
    onHeap (some i) x config j =
      match x config { host := h, events := j.events, output := j.output } with
      | .ok a j' => .ok a (rejoined j i j')
      | .error e j' => .error e (rejoined j i j') := by
  simp only [onHeap, Option.bind_some, hHeap, Option.map_some]
  rfl

/-- An operation on no heap meets a fault and changes nothing, not even the events. -/
theorem onHeap_null (x : Run Heap α) (config : Config) (hHeap : j.host.heap? ref = none) :
    onHeap ref x config j = .error (.fault .nullPointer) j := by
  cases ref with
  | none => rfl
  | some i =>
      have hGet : j.host.heaps[i]? = none := hHeap
      simp only [onHeap, Option.bind_some, hGet, Option.map_none]

/-- The same without the place of the heap: what is put back is what the operation leaves, and no
other heap is touched. Callers need no more of the journal that is put back than these two facts. -/
theorem onHeap_run (x : Run Heap α) (config : Config) (hHeap : j.host.heap? ref = some h) :
    ∃ back : Journal Heap → Journal World, (∀ j', (back j').host.heap? ref = some j'.host) ∧
      (∀ j' other, other ≠ ref → (back j').host.heap? other = j.host.heap? other) ∧
      onHeap ref x config j =
        match x config { host := h, events := j.events, output := j.output } with
        | .ok a j' => .ok a (back j')
        | .error e j' => .error e (back j') := by
  cases ref with
  | none => cases hHeap
  | some i =>
      have hGet : j.host.heaps[i]? = some h := hHeap
      have hIn : i < j.host.heaps.size := (Array.getElem?_eq_some_iff.mp hGet).1
      refine ⟨rejoined j i, fun j' => ?_, fun j' other hOther => ?_, onHeap_eq x config hGet⟩
      · simp [rejoined, World.heap?, hIn]
      · cases other with
        | none => rfl
        | some k =>
            have hNe : i ≠ k := fun hEq => hOther (congrArg some hEq.symm)
            simp [rejoined, World.heap?, hNe]

/-- How the outcome of an operation becomes the answer of a call. A fatal error ends the process;
any other error and every fault becomes the last error, and the call goes on. -/
theorem settle_run (x : Run World α) (config : Config) (j : Journal World) :
    settle x config j =
      match x config j with
      | .ok a j' => .ok (.ok a) j'
      | .error (.raised e) j' =>
        if e.isFatal = true then .error e j'
        else (refuse (.runtime e) : Native (Tagged α)) config j'
      | .error (.fault _) j' => (refuse .internal : Native (Tagged α)) config j' := by
  change (match x config j with
    | .ok a j => (do set j; return .ok a : Native (Tagged α))
    | .error (.raised e) j => do
      set j
      if e.isFatal then throw e
      refuse (.runtime e)
    | .error (.fault _) j => do
      set j
      refuse .internal) config j = _
  cases x config j with
  | ok a j' => rfl
  | error e j' =>
      cases e with
      | fault f => rfl
      | raised e =>
          cases hFatal : e.isFatal with
          | true => simp only [hFatal, if_true]; rfl
          | false => simp only [hFatal]; rfl

/-- What an operation on a heap ensures is what its call answers with. What is ensured of the heap
is asked for every journal with that heap, since the events before it can be any. -/
theorem Ensures.settle {x : Run Heap α} {answer : Tagged α → Journal World → Prop}
    (hHeap : j.host.heap? ref = some h)
    (hx : ∀ journal : Journal Heap, journal.host = h → x.Ensures config journal done failed)
    (hDone : ∀ a j' h', j'.host.heap? ref = some h' → done a h' → answer (.ok a) j')
    (hFailed : ∀ r j' h', j'.host.heap? ref = some h' → failed h' → answer (.error r) j') :
    Ensures (Abi.settle (onHeap ref x)) config j answer := by
  obtain ⟨back, hBack, _, hRun⟩ := onHeap_run x config hHeap
  have hStart := hx { host := h, events := j.events, output := j.output } rfl
  unfold Run.Ensures at hStart
  unfold Ensures
  rw [settle_run, hRun]
  cases hOutcome : x config { host := h, events := j.events, output := j.output } with
  | ok a j' =>
      rw [hOutcome] at hStart
      exact hDone a (back j') j'.host (hBack j') hStart
  | error e j' =>
      rw [hOutcome] at hStart
      cases e with
      | fault f => exact hFailed .internal _ j'.host (hBack j') hStart
      | raised e =>
          by_cases hFatal : e.isFatal = true
          · simp only [hFatal, if_true]
          · simp only [hFatal]
            exact hFailed (.runtime e) _ j'.host (hBack j') (hStart.resolve_left hFatal)

/-- A call leaves all heaps but its own. Nothing is asked of the operation for it. -/
theorem Ensures.settle_other {other : HeapRef} (hOther : other ≠ ref) (x : Run Heap α) :
    Ensures (Abi.settle (onHeap ref x)) config j fun _ j' =>
      j'.host.heap? other = j.host.heap? other := by
  unfold Ensures
  rw [settle_run]
  cases hHeap : j.host.heap? ref with
  | none =>
      rw [onHeap_null x config hHeap]
      rfl
  | some h =>
      obtain ⟨back, _, hBack, hRun⟩ := onHeap_run x config hHeap
      rw [hRun]
      cases x config { host := h, events := j.events, output := j.output } with
      | ok a j' => exact hBack j' other hOther
      | error e j' =>
          cases e with
          | fault f => exact hBack j' other hOther
          | raised e =>
              cases hFatal : e.isFatal with
              | true => simp only [hFatal, if_true]
              | false =>
                  simp only [hFatal]
                  exact hBack j' other hOther

theorem bind_of_answered {x : Native α} {a : α} {j' : Journal World}
    (hRun : x config j = .ok a j') (f : α → Native β) : (x >>= f) config j = f a config j' := by
  change EStateM.bind (x config) (fun a => f a config) j = _
  unfold EStateM.bind
  rw [hRun]

/-- A refusal leaves the heaps as they are. -/
theorem refuse_run (r : Refusal) (config : Config) (j : Journal World) :
    ∃ j', (refuse r : Native (Tagged α)) config j = .ok (.error r) j' ∧
      ∀ other, j'.host.heap? other = j.host.heap? other :=
  ⟨_, rfl, fun _ => rfl⟩

/-- A call whose operation met a fault answers with an internal error. What the operation left of
its heap stays, and the other heaps are as before. -/
theorem settle_fault {x : Run Heap α} {f : Fault} {after : Journal Heap}
    (hHeap : j.host.heap? ref = some h)
    (hRun : x config { host := h, events := j.events, output := j.output } =
      .error (.fault f) after) :
    ∃ j', settle (onHeap ref x) config j = .ok (.error .internal) j' ∧
      j'.host.heap? ref = some after.host ∧
      ∀ other, other ≠ ref → j'.host.heap? other = j.host.heap? other := by
  obtain ⟨back, hBack, hOther, hOn⟩ := onHeap_run x config hHeap
  obtain ⟨j', hRefuse, hSame⟩ := refuse_run (α := α) .internal config (back after)
  refine ⟨j', ?_, (hSame ref).trans (hBack after), fun other hNe => ?_⟩
  · rw [settle_run, hOn, hRun]
    exact hRefuse
  · rw [hSame, hOther after other hNe]

/-- A call on a heap that is null or dangles is an internal error. The heaps stay as they are. -/
theorem settle_null (hHeap : j.host.heap? ref = none) (x : Run Heap α) (config : Config) :
    ∃ j', settle (onHeap ref x) config j = .ok (.error .internal) j' ∧
      ∀ other, j'.host.heap? other = j.host.heap? other := by
  rw [settle_run, onHeap_null x config hHeap]
  exact refuse_run .internal config j

/-- A colour that is none is not set, and neither is that of an object that is none. Otherwise the
colour is set on the heap, and the answer says whether that succeeded. -/
theorem setColor_cases (heap : HeapRef) (object : Handle) (color : UInt32) :
    (∀ config j, setColor heap object color config j = .ok false j) ∨
    ∃ c, ∀ config j, setColor heap object color config j =
      match onHeap heap (Run.host {} (Heap.setColor object c)) config j with
      | .ok _ j' => .ok true j'
      | .error _ _ => .ok false j := by
  have hSome (c : Color) (config : Config) (j : Journal World) : (do
      match onHeap heap (Run.host {} (Heap.setColor object c)) (← read)
        (← getThe (Journal World)) with
      | .ok _ j =>
        set j
        return true
      | .error _ _ => return false : Native Bool) config j =
        match onHeap heap (Run.host {} (Heap.setColor object c)) config j with
        | .ok _ j' => .ok true j'
        | .error _ _ => .ok false j := by
    change (match onHeap heap (Run.host {} (Heap.setColor object c)) config j with
      | .ok _ j => (do set j; return true : Native Bool)
      | .error _ _ => return false) config j = _
    cases onHeap heap (Run.host {} (Heap.setColor object c)) config j <;> rfl
  unfold setColor
  split
  next => exact Or.inr ⟨.white, hSome .white⟩
  split
  next => exact Or.inr ⟨.gray, hSome .gray⟩
  split
  next => exact Or.inr ⟨.black, hSome .black⟩
  next => exact Or.inl fun _ _ => rfl

/-- A loop of native code runs when its bounds are those of a range. -/
def looped {R S : Type} (site : Site) (range : Except ErrorKind R) (loop : R → Option Unit × S)
    (state : S) : Native (Tagged Bool × S) := do
  match ← calculate site range with
  | .error e => return (.error e, state)
  | .ok range =>
    let (broke, state) := loop range
    return (.ok broke.isSome, state)

/-- A loop over integers as an instance of the general loop, with the range that its bounds make. -/
theorem intFor_eq {S : Type} (init limit step : Int64) (site : Site) (body : Body S Int64)
    (state : S) : intFor init limit step site body state =
      looped site (IntRange.ofBounds init limit step)
        (fun range : IntRange => (range.forEach body.run).run state) state :=
  congrArg (calculate site (IntRange.ofBounds init limit step) >>= ·)
    (funext fun answer => by cases answer <;> rfl)

/-- A loop over floats is the same loop with another range. What is proved of one is proved of both.
-/
theorem floatFor_eq {S : Type} (init limit step : Binary64) (site : Site) (body : Body S Binary64)
    (state : S) : floatFor init limit step site body state =
      looped site (FloatRange.ofBounds init limit step)
        (fun range : FloatRange => (range.forEach body.run).run state) state :=
  congrArg (calculate site (FloatRange.ofBounds init limit step) >>= ·)
    (funext fun answer => by cases answer <;> rfl)

end TaggedRuntime.Abi
