import TaggedRuntime.Proofs.Abi.Answers

/-! What is reported under tracing. A computation that only reports does with tracing what it does
without, and what it adds to the journal is told by its outcome. -/

namespace TaggedRuntime

/-- The settings without tracing. -/
def Config.quiet (config : Config) : Config := { config with trace := false }

/-- A journal with other events. -/
def Journal.withEvents {σ : Type} (j : Journal σ) (events : List Event) : Journal σ :=
  { j with events }

/-- The events behind others that tracing adds to them. -/
def traced (trace : Bool) (events more : List Event) : List Event :=
  events ++ if trace then more else []

@[simp]
theorem traced_nil (trace : Bool) (events : List Event) : traced trace events [] = events := by
  cases trace <;> simp [traced]

variable {σ ε α β : Type}

/-- Whether it is traced or not, and whatever was reported before, a computation ends as it does
untraced, and it reports under tracing what its outcome and the state it leaves tell. -/
def ReportsFrom (x : ReaderT Config (EStateM ε (Journal σ)) α) (config : Config) (j : Journal σ)
    (report : Except ε α → σ → List Event) : Prop :=
  ∀ trace events, x { config with trace } (j.withEvents events) =
    match x config.quiet (j.withEvents []) with
    | .ok a j' => .ok a (j'.withEvents (traced trace events (report (.ok a) j'.host)))
    | .error e j' => .error e (j'.withEvents (traced trace events (report (.error e) j'.host)))

/-- What is reported may be described in another way, as long as both agree on the outcomes that
there are. -/
theorem ReportsFrom.mono {x : ReaderT Config (EStateM ε (Journal σ)) α} {config : Config}
    {j : Journal σ} {report report' : Except ε α → σ → List Event}
    (hx : ReportsFrom x config j report)
    (hOk : ∀ a j', x config.quiet (j.withEvents []) = .ok a j' →
      report (.ok a) j'.host = report' (.ok a) j'.host)
    (hError : ∀ e j', x config.quiet (j.withEvents []) = .error e j' →
      report (.error e) j'.host = report' (.error e) j'.host) :
    ReportsFrom x config j report' := by
  intro trace events
  rw [hx trace events]
  cases hRun : x config.quiet (j.withEvents []) with
  | ok a j' =>
      dsimp only
      rw [hOk a j' hRun]
  | error e j' =>
      dsimp only
      rw [hError e j' hRun]

/-- Computations that run alike report alike. -/
theorem ReportsFrom.congr {x y : ReaderT Config (EStateM ε (Journal σ)) α} {config : Config}
    {j : Journal σ} {report : Except ε α → σ → List Event} (hx : ReportsFrom x config j report)
    (hSame : ∀ trace events, y { config with trace } (j.withEvents events) =
      x { config with trace } (j.withEvents events)) : ReportsFrom y config j report := by
  intro trace events
  have hQuiet : y config.quiet (j.withEvents []) = x config.quiet (j.withEvents []) :=
    hSame false []
  rw [hSame, hQuiet]
  exact hx trace events

/-- Nothing is reported untraced. -/
theorem ReportsFrom.events_eq {x : ReaderT Config (EStateM ε (Journal σ)) α} {config : Config}
    {j j' : Journal σ} {report : Except ε α → σ → List Event} {a : α}
    (hx : ReportsFrom x config j report) (hRun : x config.quiet (j.withEvents []) = .ok a j') :
    j'.events = [] := by
  have hSelf : x config.quiet (j.withEvents []) = _ := hx false []
  rw [hRun, EStateM.Result.ok.injEq] at hSelf
  exact congrArg Journal.events hSelf.2

/-- Untraced it reports nothing, and traced it does the same and adds its report. The events from
before may be any. -/
theorem ReportsFrom.traced_run {x : ReaderT Config (EStateM ε (Journal σ)) α} {config : Config}
    {j : Journal σ} {report : Except ε α → σ → List Event} (hx : ReportsFrom x config j report)
    (hOff : config.trace = false) (events : List Event) :
    match x config j with
    | .ok a j' => j'.events = j.events ∧ x { config with trace := true } (j.withEvents events) =
        .ok a (j'.withEvents (events ++ report (.ok a) j'.host))
    | .error e j' => j'.events = j.events ∧
      x { config with trace := true } (j.withEvents events) =
        .error e (j'.withEvents (events ++ report (.error e) j'.host)) := by
  have hConfig : { config with trace := false } = config := by rw [← hOff]
  have hUntraced := hx false j.events
  rw [hConfig] at hUntraced
  change x config j = _ at hUntraced
  rw [hUntraced, hx true events]
  cases x config.quiet (j.withEvents []) with
  | ok a j' => exact ⟨List.append_nil _, rfl⟩
  | error e j' => exact ⟨List.append_nil _, rfl⟩

/-- What is reported when an error was made. -/
def Event.made (e? : Option RuntimeError) : List Event := e?.toList.map .raised

/-! ### Operations of the runtime -/

namespace Run

/-- The error that an operation ends with. -/
def raised? : Except Failure α → Option RuntimeError
  | .error (.raised e) => some e
  | _ => none

/-- An operation reports the error that it ends with, and nothing else. -/
def Reports (x : Run σ α) : Prop :=
  ∀ config j, ReportsFrom x config j fun outcome _ => Event.made (raised? outcome)

theorem Reports.pure (a : α) : Reports (Pure.pure a : Run σ α) := by
  intro config j trace events
  change _ = EStateM.Result.ok a (j.withEvents (traced trace events []))
  rw [traced_nil]
  rfl

theorem Reports.fault (f : Fault) : Reports (throw (.fault f) : Run σ α) := by
  intro config j trace events
  change _ = EStateM.Result.error _ (j.withEvents (traced trace events []))
  rw [traced_nil]
  rfl

/-- An event is added behind those that were reported before, if tracing is on. -/
theorem reported_withEvents (config : Config) (trace : Bool) (e : Event) (j : Journal σ)
    (events : List Event) : reported { config with trace } e (j.withEvents events) =
      j.withEvents (traced trace events [e]) := by
  cases trace <;> simp [reported, traced, Journal.withEvents]

/-- What emits one event and is carried out reports that event. -/
theorem reportsFrom_emitted {x : Run σ α} {config : Config} {j : Journal σ} {e : Event} {a : α}
    {s : σ} {report : Except Failure α → σ → List Event}
    (hRun : ∀ trace events, x { config with trace } (j.withEvents events) =
      .ok a (reported { config with trace } e (Journal.withEvents { j with host := s } events)))
    (hReport : report (.ok a) s = [e]) : ReportsFrom x config j report := by
  intro trace events
  have hQuiet : x config.quiet (j.withEvents []) = _ := hRun false []
  rw [hRun, hQuiet, reported_withEvents]
  dsimp only [reported]
  rw [← hReport]
  rfl

theorem Reports.raise (kind : ErrorKind) (loc : Location) :
    Reports (Run.raise kind loc : Run σ α) := by
  intro config j trace events
  rw [raise_run, raise_run, reported_withEvents]
  rfl

theorem Reports.ofExcept (loc : Location) (x : Except ErrorKind α) :
    Reports (Run.ofExcept loc x : Run σ α) := by
  cases x with
  | ok a => exact .pure a
  | error kind => exact .raise kind loc

theorem Reports.ofFault (x : Except Fault α) : Reports (Run.ofFault x : Run σ α) := by
  cases x with
  | ok a => exact .pure a
  | error f => exact .fault f

/-- A sequence reports the error that one of its parts fails with. The first part reports nothing if
it succeeds, so nothing is reported twice. -/
theorem Reports.bind {x : Run σ α} {f : α → Run σ β} (hx : Reports x) (hf : ∀ a, Reports (f a)) :
    Reports (x >>= f) := by
  intro config j trace events
  rw [bind_run, bind_run, hx config j trace events]
  cases hRun : x config.quiet (j.withEvents []) with
  | error e j' => cases e <;> rfl
  | ok a j' =>
      -- What follows starts untraced from a journal without events.
      have hNone : j'.withEvents [] = j' := by
        rw [Journal.withEvents, ← (hx config j).events_eq hRun]
      have hNext := hf a config j' trace events
      rw [hNone] at hNext
      change f a { config with trace } (j'.withEvents (traced trace events [])) = _
      rw [traced_nil]
      exact hNext

/-- The settings are read for anything but tracing. -/
theorem Reports.read {f : Config → Run σ β} (hf : ∀ config, Reports (f config))
    (hQuiet : ∀ config, f config = f config.quiet) :
    Reports ((MonadReader.read : Run σ Config) >>= f) := by
  intro config j trace events
  have hRead (c : Config) (s : Journal σ) :
      ((MonadReader.read : Run σ Config) >>= f) c s = f c.quiet c s := by
    rw [← hQuiet]
    rfl
  rw [hRead, hRead]
  exact hf config.quiet config j trace events

/-- The journal is read for the host and not for events. -/
theorem Reports.get {f : Journal σ → Run σ β} {g : σ → Run σ β} (hg : ∀ s, Reports (g s))
    (hf : ∀ j, f j = g j.host) : Reports ((getThe (Journal σ) : Run σ (Journal σ)) >>= f) := by
  intro config j trace events
  have hGet (c : Config) (s : Journal σ) :
      ((getThe (Journal σ) : Run σ (Journal σ)) >>= f) c s = g s.host c s := by
    rw [← hf]
    rfl
  rw [hGet, hGet]
  exact hg j.host config j trace events

/-- An operation of the host reports the error that it becomes, which is want of memory or none. -/
theorem Reports.host (loc : Location) (x : HostM σ α) : Reports (Run.host loc x) := by
  intro config j trace events
  have hStart : (j.withEvents events).host = (j.withEvents []).host := rfl
  rw [host_run, host_run, hStart]
  cases x.run (j.withEvents []).host with
  | ok a s => exact (Reports.pure a) config { j with host := s } trace events
  | error e s =>
      cases e with
      | fault f => exact (Reports.fault f) config { j with host := s } trace events
      | refused e => exact (Reports.raise .outOfMemory loc) config { j with host := s } trace events

/-- What leaves the host as it is reports nothing of a change. -/
theorem Reports.unchanged {x : Run σ α} {config : Config} {j : Journal σ} (hx : Reports x)
    (hKeeps : x.Keeps (· = j.host)) {more : σ → List Event} (hNone : more j.host = []) :
    ReportsFrom x config j fun outcome s => Event.made (raised? outcome) ++ more s := by
  have hLeft := hKeeps config.quiet (j.withEvents []) rfl
  refine (hx config j).mono (fun a j' hRun => ?_) fun e j' hRun => ?_
  · rw [left_of_ok hRun] at hLeft
    rw [hLeft, hNone, List.append_nil]
  · rw [left_of_error hRun] at hLeft
    rw [hLeft, hNone, List.append_nil]

end Run

/-! ### Calls of native code -/

namespace Abi

variable {config : Config} {j : Journal World} {h : Heap} {heap : HeapRef}

/-- Events that were reported before make no difference to an operation on a heap. -/
theorem onHeap_withEvents {i : Nat} (hHeap : j.host.heaps[i]? = some h) (x : Run Heap α)
    (config : Config) (events : List Event) : onHeap (some i) x config (j.withEvents events) =
      match x config (Journal.withEvents { host := h, output := j.output } events) with
      | .ok a j' => .ok a (rejoined j i j')
      | .error e j' => .error e (rejoined j i j') :=
  onHeap_eq (j := j.withEvents events) x config hHeap

/-- An operation on a heap reports in the process what it reports on the heap alone. The report is a
function of the outcome and of what is left, so both have to be told of the process. -/
theorem reportsFrom_onHeap {i : Nat} {x : Run Heap α}
    {report : Except Failure α → Heap → List Event}
    {report' : Except Failure α → World → List Event} (hHeap : j.host.heaps[i]? = some h)
    (hx : ReportsFrom x config { host := h, output := j.output } report)
    (hSame : ∀ outcome h', report' outcome
      { j.host with heaps := j.host.heaps.setIfInBounds i h' } = report outcome h') :
    ReportsFrom (onHeap (some i) x) config j report' := by
  intro trace events
  rw [onHeap_withEvents hHeap, onHeap_withEvents hHeap, hx trace events]
  cases x config.quiet (Journal.withEvents { host := h, output := j.output } []) with
  | ok a j' =>
      dsimp only
      rw [← hSame]
      rfl
  | error e j' =>
      dsimp only
      rw [← hSame]
      rfl

/-- An operation on a heap reports its error in the process. -/
theorem reports_onHeap {x : Run Heap α} (hx : Run.Reports x) (heap : HeapRef) :
    Run.Reports (onHeap heap x) := by
  intro config j
  rcases heap?_cases j.host heap with hNull | ⟨i, h, rfl, hHeap⟩
  · intro trace events
    rw [onHeap_null (j := j.withEvents events) x _ hNull,
      onHeap_null (j := j.withEvents []) x _ hNull]
    exact (Run.Reports.fault .nullPointer) config j trace events
  · exact reportsFrom_onHeap hHeap (hx config _) fun _ _ => rfl

/-- How a call ends, from how its operation did. -/
def settled : Except Failure α → Except RuntimeError (Tagged α)
  | .ok a => .ok (.ok a)
  | .error (.raised e) => if e.isFatal then .error e else .ok (.error (.runtime e))
  | .error (.fault _) => .ok (.error .internal)

/-- A call reports what its operation does. The last error that it leaves is no part of the report.
-/
theorem reportsFrom_settle {x : Run World α} {report : Except Failure α → World → List Event}
    {report' : Except RuntimeError (Tagged α) → World → List Event}
    (hx : ReportsFrom x config j report)
    (hSame : ∀ outcome w last, report' (settled outcome) { w with lastError := last } =
      report outcome w) : ReportsFrom (settle x) config j report' := by
  intro trace events
  rw [settle_run, settle_run, hx trace events]
  cases x config.quiet (j.withEvents []) with
  | ok a j' =>
      dsimp only
      rw [← hSame _ _ j'.host.lastError]
      rfl
  | error e j' =>
      cases e with
      | fault f =>
          dsimp only
          rw [← hSame _ _ (some Refusal.internal.toLastError)]
          rfl
      | raised e =>
          have hLeft (last : Option LastError) := hSame (.error (.raised e)) j'.host last
          cases hFatal : e.isFatal with
          | true =>
              simp only [settled, hFatal, if_true] at hLeft ⊢
              rw [← hLeft j'.host.lastError]
          | false =>
              simp only [settled, hFatal, Bool.false_eq_true, if_false] at hLeft ⊢
              rw [← hLeft (some (Refusal.runtime e).toLastError)]
              rfl

/-- The runtime error that an operation was refused with. -/
def Tagged.error? : Tagged α → Option RuntimeError
  | .error (.runtime e) => some e
  | _ => none

/-- The error that a call produces: the one in its answer, or the one that it ends with. -/
def produced? (error? : α → Option RuntimeError) : Except RuntimeError α → Option RuntimeError
  | .ok a => error? a
  | .error e => some e

/-- A call reports the error that it produces, and nothing else. -/
def Reports (x : Native α) (error? : α → Option RuntimeError) : Prop :=
  ∀ config j, ReportsFrom x config j fun outcome _ => Event.made (produced? error? outcome)

/-- The error in an answer is the one that the operation failed with. A fault becomes an internal
error, which is none of these. -/
theorem produced?_settled (outcome : Except Failure α) :
    produced? Tagged.error? (settled outcome) = Run.raised? outcome := by
  cases outcome with
  | ok a => rfl
  | error failure =>
      cases failure with
      | fault f => rfl
      | raised e =>
          simp only [settled]
          split <;> rfl

theorem reports_settle {x : Run World α} (hx : Run.Reports x) :
    Reports (settle x) Tagged.error? :=
  fun config j => reportsFrom_settle (hx config j) fun outcome _ _ =>
    congrArg Event.made (produced?_settled outcome)

/-- A sequence of calls, run. The settings are the same for both. -/
theorem bind_run (x : Native α) (f : α → Native β) (config : Config) (j : Journal World) :
    (x >>= f) config j =
      match x config j with
      | .ok a j' => f a config j'
      | .error e j' => .error e j' := by
  change EStateM.bind (x config) (fun a => f a config) j = _
  unfold EStateM.bind
  cases x config j <;> rfl

/-- A call that always answers, out of the heaps and the last error. -/
def Answers (x : Native α) (answer : World → α) (after : World → World) : Prop :=
  ∀ config j, x config j = .ok (answer j.host) { j with host := after j.host }

theorem Answers.pure (a : α) : Answers (Pure.pure a : Native α) (fun _ => a) id := fun _ _ => rfl

/-- What only reads, or changes the process in a known way, keeps what that change keeps. -/
theorem Answers.keeps {x : Native α} {answer : World → α} {after : World → World}
    (hx : Answers x answer after) {inv : World → Prop} (hAfter : ∀ w, inv w → inv (after w))
    (config : Config) : Keeps (fun j => inv j.host) (x config) := by
  intro j hInv
  rw [left_of_ok (x := x config) (hx config j)]
  exact hAfter j.host hInv

/-- What only reads reports nothing. -/
theorem Answers.reports {x : Native α} {answer : World → α} {after : World → World}
    (hx : Answers x answer after) {error? : α → Option RuntimeError}
    (hNone : ∀ w, error? (answer w) = none) : Reports x error? := by
  intro config j trace events
  rw [hx, hx]
  change _ = EStateM.Result.ok _ (Journal.withEvents _
    (traced trace events (Event.made (error? (answer j.host)))))
  rw [hNone]
  change _ = EStateM.Result.ok _ (Journal.withEvents _ (traced trace events []))
  rw [traced_nil]
  rfl

/-- A call that goes on after an operation, and hands on its error, reports nothing more. What goes
on may only read, or change the process in a known way. -/
theorem Reports.andThen {x : Native α} {f : α → Native β} {error? : α → Option RuntimeError}
    {error?' : β → Option RuntimeError} (hx : Reports x error?)
    (hf : ∀ a, ∃ answer after, Answers (f a) answer after ∧ ∀ w, error?' (answer w) = error? a) :
    Reports (x >>= f) error?' := by
  intro config j trace events
  rw [bind_run, bind_run, hx config j trace events]
  cases x config.quiet (j.withEvents []) with
  | error e j' => rfl
  | ok a j' =>
      obtain ⟨answer, after, hAnswers, hSame⟩ := hf a
      dsimp only
      rw [hAnswers, hAnswers]
      change _ = EStateM.Result.ok _ (Journal.withEvents _ (traced trace events
        (Event.made (error?' (answer j'.host)))))
      rw [hSame]
      rfl

end Abi

end TaggedRuntime
