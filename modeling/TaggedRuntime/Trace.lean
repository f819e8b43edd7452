import TaggedRuntime.Error.Basic
import TaggedRuntime.Json.Basic

/-!
Trace events and the lines they are written as. A line is one JSON object that says which event
it is; the fields of the event come on top.
-/

namespace TaggedRuntime

namespace Trace

/-- The version of the layout of a line. -/
def schemaVersion : String := "tvrt.trace@0.1.0"

/-- The object of an event. Fields of an object are added to it, and may override; anything else
has no fields. -/
def object (event : String) (fields : Json) : Json :=
  let head := Json.extend [] [("schema_version", .str schemaVersion), ("event", .str event)]
  match fields with
  | .object added => .object (Json.extend head added)
  | _ => .object head

/-- The line of an event. -/
def line (event : String) (fields : Json) : List Char := (object event fields).render

end Trace

/-- What a trace reports: an error that was made, or the growth of an array part. -/
inductive Event where
  | raised (e : RuntimeError)
  | arrayGrown (before after : Nat) (loc : Location)
  deriving DecidableEq

namespace Event

def name : Event → String
  | raised _ => "error"
  | arrayGrown .. => "array_grow"

def fields : Event → Json
  | raised e =>
    .ofFields [
      ("code", .int e.code.toNat),
      ("kind", .str e.kind.name),
      ("file", .optional .str e.file),
      ("line", .int e.line.toNat)]
  | arrayGrown before after loc =>
    .ofFields [
      ("from", .int before),
      ("to", .int after),
      ("file", .str loc.file),
      ("line", .int loc.line.toNat)]

def line (e : Event) : List Char := Trace.line e.name e.fields

end Event

end TaggedRuntime
