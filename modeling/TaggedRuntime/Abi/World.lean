import TaggedRuntime.Abi.FlatValue
import TaggedRuntime.Run

/-!
The state that native code works on, and how the failure of an operation reaches it.

An operation that fails answers with a code and leaves its message behind, to be asked for later. A
runtime error has its own code; any fault of the caller is an internal error. A fatal error ends the
process instead.
-/

namespace TaggedRuntime

namespace Abi

/-- The error that was answered last. -/
structure LastError where
  code : UInt32
  message : String
  deriving DecidableEq

/-- The heaps of a process and its last error. -/
structure World where
  heaps : Array Heap := #[]
  lastError : Option LastError := none
  deriving Inhabited

/-- Why an operation was refused. -/
inductive Refusal where
  | runtime (e : RuntimeError)
  | internal
  deriving DecidableEq

def Refusal.code : Refusal → UInt32
  | runtime e => e.code
  | internal => ErrorKind.internalCode

def Refusal.message : Refusal → String
  | runtime e => e.message
  | internal => "internal error"

def Refusal.toLastError (r : Refusal) : LastError := ⟨r.code, r.message⟩

/-- The answer of an operation that may be refused. -/
abbrev Tagged (α : Type) := Except Refusal α

/-- A call from native code. It always answers, unless a fatal error ends the process. -/
abbrev Native := ReaderT Config (EStateM RuntimeError (Journal World))

/-- The heap that a pointer names; a null pointer names none. -/
abbrev HeapRef := Option Nat

/-- Where in the program a call was made, as native code says it: a null pointer or bytes that end
at the first zero, and a line. -/
structure Site where
  file : Option Bytes := none
  line : UInt32 := 0
  deriving DecidableEq, Inhabited

/-- The location of a site. A file name that is no text is shown as a question mark. -/
def Site.location (s : Site) : Location :=
  match s.file with
  | none => ⟨"", s.line⟩
  | some bytes => ⟨(Text.decode? (bytes.takeWhile (· ≠ 0))).getD "?", s.line⟩

/-- Runs an operation on one of the heaps. -/
def onHeap (ref : HeapRef) (x : Run Heap α) : Run World α := fun config j =>
  match ref.bind fun i => (j.host.heaps[i]?).map (i, ·) with
  | none => .error (.fault .nullPointer) j
  | some (i, heap) =>
    let back (after : Journal Heap) : Journal World :=
      { host := { j.host with heaps := j.host.heaps.setIfInBounds i after.host }
        events := after.events
        output := after.output }
    match x config { host := heap, events := j.events, output := j.output } with
    | .ok a after => .ok a (back after)
    | .error e after => .error e (back after)

/-- Answers with a refusal and leaves it behind as the last error. -/
def refuse (r : Refusal) : Native (Tagged α) := do
  modify fun j => { j with host := { j.host with lastError := some r.toLastError } }
  return .error r

/-- The answer to an operation. -/
def settle (x : Run World α) : Native (Tagged α) := do
  match x (← read) (← getThe (Journal World)) with
  | .ok a j =>
    set j
    return .ok a
  | .error (.raised e) j =>
    set j
    if e.isFatal then throw e
    refuse (.runtime e)
  | .error (.fault _) j =>
    set j
    refuse .internal

end Abi

end TaggedRuntime
