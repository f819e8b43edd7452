import TaggedRuntime.Config
import TaggedRuntime.Heap.Basic
import TaggedRuntime.Trace

/-!
Runtime operations: computations over the state of a host, under the settings of the process.

An operation ends in a value, a runtime error, or a fault of its caller, and keeps the changes it
made before it failed. On the way it may report events and write output. Making a runtime error is
what reports it, so `Run.error` is the only way to make one here.
-/

namespace TaggedRuntime

/-- The state of a host with what was reported and written so far, in order. -/
structure Journal (σ : Type) where
  host : σ
  events : List Event := []
  output : List Bytes := []

/-- The lines that were written to report the events, in order. -/
def Journal.lines (j : Journal σ) : List (List Char) := j.events.map Event.line

/-- How an operation fails. -/
inductive Failure where
  | raised (e : RuntimeError)
  | fault (f : Fault)
  deriving DecidableEq

/-- An operation on a host of state `σ`. -/
abbrev Run (σ : Type) := ReaderT Config (EStateM Failure (Journal σ))

namespace Run

/-- Reports an event if the process is traced. -/
def emit (e : Event) : Run σ Unit := do
  if (← read).trace then modify fun j => { j with events := j.events ++ [e] }

/-- Makes an error, and reports that it was made. -/
def error (kind : ErrorKind) (loc : Location) : Run σ RuntimeError := do
  let e := RuntimeError.located kind loc
  emit (.raised e)
  return e

/-- Makes an error and fails with it. -/
def raise (kind : ErrorKind) (loc : Location) : Run σ α := do
  throw (.raised (← error kind loc))

/-- The outcome of a calculation, its failure raised at a location. -/
def ofExcept (loc : Location) : Except ErrorKind α → Run σ α
  | .ok a => return a
  | .error kind => raise kind loc

/-- A calculation that fails only by a fault. -/
def ofFault : Except Fault α → Run σ α
  | .ok a => return a
  | .error f => throw (.fault f)

/-- An operation of the host that is not allowed to be refused for any reason but memory. -/
def host (loc : Location) (x : HostM σ α) : Run σ α := do
  let j ← getThe (Journal σ)
  match x j.host with
  | .ok a s =>
    set { j with host := s }
    return a
  | .error (.fault f) s =>
    set { j with host := s }
    throw (.fault f)
  | .error (.refused _) s =>
    set { j with host := s }
    raise .outOfMemory loc

/-- Writes bytes to the output of the process. -/
def write (bytes : Bytes) : Run σ Unit := modify fun j => { j with output := j.output ++ [bytes] }

end Run

end TaggedRuntime
