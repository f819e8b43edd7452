import TaggedRuntime.Proofs.Trace.Actions

/-! Programs that use the runtime, each action chosen by the answers to the ones before it. Tracing
does not change what a program does, and the lines that are written say what the answers and the
array parts of the program's run without it tell. A program that writes through a bucket without a
key is left out: the entry that it makes without a key can undo the growth that was just reported.
-/

namespace TaggedRuntime.Process

open Abi

/-- A program: it ends, or it acts and goes on with the answer. -/
inductive Program (α : Type) : Type 1 where
  | done (a : α)
  | act {β : Type} (action : Action β) (next : β → Program α)

namespace Program

variable {α β : Type}

def bind : Program α → (α → Program β) → Program β
  | done a, f => f a
  | act action next, f => act action fun b => (next b).bind f

instance : Monad Program where
  pure := done
  bind := bind

/-- The program of one action. -/
def once (action : Action α) : Program α := act action done

/-- One run of a body that acts, as a step of a loop. -/
def turn {S : Type} (body : Int64 → StateT S Program UInt32) (value : Int64) :
    StateT S Program (Option Unit) := do
  return if (← body value) = 0 then none else some ()

/-- A loop of native code over integers whose body acts as well, with a state of its own. -/
def intFor {S : Type} (init limit step : Int64) (site : Site)
    (body : Int64 → StateT S Program UInt32) (state : S) : Program (Tagged Bool × S) := do
  match ← once (.calculate site (IntRange.ofBounds init limit step)) with
  | .error e => return (.error e, state)
  | .ok range =>
    let (broke, state) ← (range.forEach (turn body)).run state
    return (.ok broke.isSome, state)

def run : Program α → Native α
  | done a => pure a
  | act action next => do (next (← action.run)).run

/-- Whether each bucket that a program writes through holds a key when it is run from a state. -/
def keyed (config : Config) : Program α → Journal World → Bool
  | done _, _ => true
  | act action next, j =>
    action.keyed j.host &&
      match action.run config j with
      | .ok b j' => (next b).keyed config j'
      | .error _ _ => true

/-- What a program reports when it is run from a state: for each action in turn the error that it
produced and the growth of an array part. -/
def reports (config : Config) : Program α → Journal World → List Event
  | done _, _ => []
  | act action next, j =>
    match action.run config j with
    | .ok b j' => action.report j.host (.ok b) j'.host ++ (next b).reports config j'
    | .error e j' => action.report j.host (.error e) j'.host

/-- Tracing only observes a program: with it the program ends as without, with the same answer or
the same fatal error, and the lines that are written tell what the run without it reports. -/
structure Observed (on off : Config) (p : Program α) (j : Journal World) : Prop where
  ok {a : α} {quiet : Journal World} : p.run off j = .ok a quiet →
    ∃ traced, p.run on j = .ok a traced ∧ j.Observed quiet traced (p.reports off j)
  error {e : RuntimeError} {quiet : Journal World} : p.run off j = .error e quiet →
    ∃ traced, p.run on j = .error e traced ∧ j.Observed quiet traced (p.reports off j)

/-! ### Loops whose bodies act -/

section Loops

variable {S : Type} (body : Body S Int64)

/-- A body that only computes, as one that might act. -/
def ofBody (i : Int64) : StateT S Program UInt32 := fun state => done ((body i).run state)

/-- One turn of a body that only computes does nothing but the computation. -/
theorem turn_ofBody (i : Int64) (state : S) :
    (turn (ofBody body) i).run state = done ((body.run i).run state) := rfl

/-- Neither does a loop of such turns. The induction is on the number of turns. -/
theorem forEachUpTo_ofBody (n : Nat) (range : IntRange) (state : S) :
    (range.forEachUpTo (turn (ofBody body)) n).run state =
      done ((range.forEachUpTo body.run n).run state) := by
  induction n generalizing range state with
  | zero => rfl
  | succ n ih =>
      unfold IntRange.forEachUpTo
      cases range.next? with
      | none => rfl
      | some next =>
          dsimp only
          rw [StateT.run_bind, StateT.run_bind, turn_ofBody]
          obtain ⟨broke, after⟩ := (body.run next.1).run state
          cases broke with
          | none => exact ih next.2 after
          | some b => rfl

/-- Where the body of a loop does not act, the program that the loop is runs as the call of native
code with that body. A body that acts is run in its place. -/
theorem run_intFor (init limit step : Int64) (site : Site) (state : S) :
    (intFor init limit step site (ofBody body) state).run =
      Abi.intFor init limit step site body state := by
  refine congrArg (Abi.calculate site (IntRange.ofBounds init limit step) >>= ·)
    (funext fun answer => ?_)
  cases answer with
  | error e => rfl
  | ok range =>
      have hLoop := forEachUpTo_ofBody body range.count range state
      change (((range.forEachUpTo (turn (ofBody body)) range.count).run state >>= fun ended =>
        done (.ok ended.1.isSome, ended.2) : Program (Tagged Bool × S))).run = _
      rw [hLoop]
      rfl

end Loops

/-! ### What a program does -/

variable {config : Config} {j : Journal World}

/-- All events that a program reports have sizes that are words. The induction is on the program,
with the state generalised. -/
theorem sized_reports (p : Program α) (hSound : j.host.Sound)
    (hKeyed : p.keyed config j = true) : ∀ e ∈ p.reports config j, e.Sized := by
  induction p generalizing j with
  | done a => exact nofun
  | act action next ih =>
      rw [keyed, Bool.and_eq_true] at hKeyed
      have hKept := action.sound_run config hSound hKeyed.1
      rw [reports]
      cases hAction : action.run config j with
      | error e j' =>
          rw [left_of_error (x := action.run config) hAction] at hKept
          exact action.sized_report _ hSound hKept
      | ok b j' =>
          rw [left_of_ok (x := action.run config) hAction] at hKept
          rw [hAction] at hKeyed
          exact List.forall_mem_append.mpr
            ⟨action.sized_report _ hSound hKept, ih b hKept hKeyed.2⟩

/-- A program that is not traced reports nothing. Traced it ends the same, with the same heaps and
the same last error, and it reports what its run without tracing tells. -/
theorem run_traced (p : Program α) (hSound : j.host.Sound) (hKeyed : p.keyed config j = true)
    (hBits : config.maxArrayBits ≤ Limits.arrayBits) (hOff : config.trace = false)
    (events : List Event) :
    match p.run config j with
    | .ok a j' => j'.events = j.events ∧
      p.run { config with trace := true } (j.withEvents events) =
        .ok a (j'.withEvents (events ++ p.reports config j))
    | .error e j' => j'.events = j.events ∧
      p.run { config with trace := true } (j.withEvents events) =
        .error e (j'.withEvents (events ++ p.reports config j)) := by
  induction p generalizing j events with
  | done a => exact ⟨rfl, by rw [reports, List.append_nil]; rfl⟩
  | act action next ih =>
      rw [keyed, Bool.and_eq_true] at hKeyed
      have hKept := action.sound_run config hSound hKeyed.1
      have hStep := (action.reportsFrom_run hSound hBits).traced_run hOff events
      have hRun (config : Config) (j : Journal World) :=
        Abi.bind_run action.run (fun b => (next b).run) config j
      simp only [run, reports]
      rw [hRun, hRun]
      cases hAction : action.run config j with
      | error e j' =>
          rw [hAction] at hStep
          exact ⟨hStep.1, by rw [hStep.2]⟩
      | ok b j' =>
          rw [hAction] at hStep hKeyed
          rw [left_of_ok (x := action.run config) hAction] at hKept
          have hNext := ih b hKept hKeyed.2 (events ++ action.report j.host (.ok b) j'.host)
          dsimp only
          rw [hStep.2]
          dsimp only
          rw [← List.append_assoc]
          cases hRest : (next b).run config j' with
          | ok a j₂ =>
              rw [hRest] at hNext
              exact ⟨hNext.1.trans hStep.1, hNext.2⟩
          | error e j₂ =>
              rw [hRest] at hNext
              exact ⟨hNext.1.trans hStep.1, hNext.2⟩

end Program

/-- Tracing observes and never interferes, as long as each bucket that is written through holds a
key. Under settings that differ in tracing only a program ends the same, with the same answers,
heaps, output and last error. Untraced it writes no line. Traced it writes, in order, one line for
each error that its actions produced and one for each array part that grew in making a slot exist,
and nothing else; each line is read back as what happened. -/
theorem tracing_transparent {α : Type} {on off : String → Option String} {j : Journal World}
    (hSame : ∀ name, name ≠ "TVRT_TRACE" → on name = off name)
    (hOn : (Config.ofLookup on).trace = true) (hOff : (Config.ofLookup off).trace = false)
    (hSound : j.host.Sound) (p : Program α) (hKeyed : p.keyed (.ofLookup off) j = true) :
    p.Observed (.ofLookup on) (.ofLookup off) j := by
  have hConfig : Config.ofLookup on = { Config.ofLookup off with trace := true } := by
    rw [← hOn]
    simp only [Config.ofLookup, hSame "TVRT_MAX_ARRAY_BITS" (by decide),
      hSame "TVRT_INLINE_CACHE" (by decide)]
  have hTraced := p.run_traced hSound hKeyed (Config.maxArrayBits_le off) hOff j.events
  have hSized := p.sized_reports hSound hKeyed
  rw [hConfig]
  refine ⟨fun {a quiet} hRun => ?_, fun {e quiet} hRun => ?_⟩
  · rw [hRun] at hTraced
    exact ⟨_, hTraced.2, .of_events hTraced.1 hSized⟩
  · rw [hRun] at hTraced
    exact ⟨_, hTraced.2, .of_events hTraced.1 hSized⟩

/-- Settings at their defaults, but for tracing. -/
private def tracing (value name : String) : Option String :=
  if name = "TVRT_TRACE" then some value else none

private theorem tracing_same (name : String) (hName : name ≠ "TVRT_TRACE") :
    tracing "1" name = tracing "0" name := by simp [tracing, hName]

private def ask {α : Type} (heap : HeapRef) (op : Heap.Operation α) :
    Program (Except Failure (Except HeapFailure α)) := .once (.library (.ask heap op))

/-- Two stores, the second of which rebuilds the table, and a write through the bucket of the first;
a loop that makes two slots exist, the second of which is there by then; a read without a cache; and
a quotient that there is not. -/
private def busy : Program (Tagged FlatValue × Tagged Int64) := do
  let heap ← Program.once (.newHeap 0)
  let _ ← Program.once (.createTable heap 0 1 {})
  let _ ← ask heap (.changeTable ⟨0⟩ (.setInt 7 (.int 7)))
  let _ ← ask heap (.overwriteBucket ⟨0⟩ 0 (.int 8))
  let _ ← ask heap (.changeTable ⟨0⟩ (.setInt 9 (.int 9)))
  let _ ← Program.intFor 5 6 1 {} (fun i => do
    let _ ← Program.once (.ensureArraySlot heap ⟨0⟩ i {})
    return 0) ()
  let field ← Program.once (.getField heap ⟨0⟩ 0 none)
  let quotient ← Program.once (.calculate {} (Number.floorDiv 1 0))
  return (field.1, quotient)

private theorem keyed_busy :
    busy.keyed (.ofLookup (tracing "0")) { host := {} } = true := by decide +kernel

/-- How a run ends that ends with an answer, in what can be compared. -/
private def seen? {ε σ α β : Type} (view : Journal σ → β) :
    EStateM.Result ε (Journal σ) α → Option (α × β)
  | .ok a j => some (a, view j)
  | .error _ _ => none

private theorem eq_ok_of_seen? {ε σ α β : Type} {view : Journal σ → β}
    {result : EStateM.Result ε (Journal σ) α} {a : α} {b : β}
    (hSeen : seen? view result = some (a, b)) : ∃ j, result = .ok a j ∧ view j = b := by
  cases result with
  | ok a' j =>
      cases hSeen
      exact ⟨j, rfl, rfl⟩
  | error e j => cases hSeen

private theorem reports_busy : busy.reports (.ofLookup (tracing "0")) { host := {} } =
    [.arrayGrown 0 8 {}, .raised (.located .divideByZero {})] := by decide +kernel

private theorem run_busy : ∃ j, busy.run (.ofLookup (tracing "0")) { host := {} } =
    .ok (.error .internal, .error (.runtime (.located .divideByZero {}))) j := by
  have hSeen : seen? (fun _ => ()) (busy.run (.ofLookup (tracing "0")) { host := {} }) =
      some ((.error .internal, .error (.runtime (.located .divideByZero {}))), ()) := by
    decide +kernel
  obtain ⟨j, hRun, -⟩ := eq_ok_of_seen? hSeen
  exact ⟨j, hRun⟩

/-- A program that makes every kind of report once and does much that is not reported. Traced it
writes two lines, for the growth and for the quotient. -/
theorem tracing_transparent_busy :
    busy.keyed (.ofLookup (tracing "0")) { host := {} } = true ∧
    ∃ answer quiet traced,
      busy.run (.ofLookup (tracing "0")) { host := {} } = .ok answer quiet ∧ quiet.lines = [] ∧
      busy.run (.ofLookup (tracing "1")) { host := {} } = .ok answer traced ∧
      traced.host = quiet.host ∧ traced.lines.map Json.read? =
        [some (Event.arrayGrown 0 8 {}).content,
          some (Event.raised (.located .divideByZero {})).content] := by
  have hOn : (Config.ofLookup (tracing "1")).trace = true := by decide
  have hOff : (Config.ofLookup (tracing "0")).trace = false := by decide
  have hObserved := @tracing_transparent _ _ _ { host := {} } tracing_same hOn hOff sound_new busy
    keyed_busy
  obtain ⟨quiet, hRun⟩ := run_busy
  obtain ⟨traced, hTraced, hLeft⟩ := hObserved.ok hRun
  rw [reports_busy] at hLeft
  obtain ⟨lines, hLines, hRead⟩ := hLeft.told
  exact ⟨keyed_busy, _, quiet, traced, hRun, hLeft.silent, hTraced, hLeft.host, hLines ▸ hRead⟩

/-- A value that is put into the bucket of a table without entries, and then a slot. -/
private def misplaced : Program (Except Failure Unit) := do
  let heap ← Program.once (.newHeap 0)
  let _ ← ask heap (.allocTable ⟨{}, .new none⟩)
  let _ ← ask heap (.overwriteBucket ⟨0⟩ 0 (.int 1))
  Program.once (.library (.ensureArraySlot heap ⟨0⟩ 1 {}))

/-- The entry without a key finds no bucket when the array part has grown, and the table that is
rebuilt for it has no array part. The growth was reported, and there is none. -/
theorem tracing_misplaced :
    (∃ traced, misplaced.run (.ofLookup (tracing "1")) { host := {} } = .ok (.ok ()) traced ∧
      traced.events = [.arrayGrown 0 1 {}] ∧
      traced.host.arrayLimit? (some 0) ⟨0⟩ = some 0) ∧
    ¬misplaced.Observed (.ofLookup (tracing "1")) (.ofLookup (tracing "0")) { host := {} } := by
  have hReports : misplaced.reports (.ofLookup (tracing "0")) { host := {} } = [] := by
    decide +kernel
  have hSeen : seen? (fun j => (j.events, j.host.arrayLimit? (some 0) ⟨0⟩))
      (misplaced.run (.ofLookup (tracing "1")) { host := {} }) =
        some (.ok (), [.arrayGrown 0 1 {}], some 0) := by decide +kernel
  obtain ⟨traced, hTraced, hView⟩ := eq_ok_of_seen? hSeen
  obtain ⟨hEvents, hLimit⟩ := Prod.mk.inj hView
  refine ⟨⟨traced, hTraced, hEvents, hLimit⟩, fun hObserved => ?_⟩
  -- The traced run wrote a line, and the run without tracing tells of none.
  have hNone (quiet : Journal World) (hLeft : Journal.Observed { host := {} } quiet traced []) :
      False := by
    obtain ⟨lines, hLines, hRead⟩ := hLeft.told
    rw [List.map_nil, List.map_eq_nil_iff] at hRead
    rw [Journal.lines, hEvents, hRead] at hLines
    cases hLines
  cases hRun : misplaced.run (.ofLookup (tracing "0")) { host := {} } with
  | ok a quiet =>
      obtain ⟨traced', hSame, hLeft⟩ := hObserved.ok hRun
      cases hTraced.symm.trans hSame
      exact hNone quiet (hReports ▸ hLeft)
  | error e quiet =>
      obtain ⟨traced', hSame, -⟩ := hObserved.error hRun
      cases hTraced.symm.trans hSame

end TaggedRuntime.Process
