import TaggedRuntime.Abi.Entry
import TaggedRuntime.Binary64.Logarithm
import TaggedRuntime.Host.Scripted
import TaggedRuntime.Json.Reader
import TaggedRuntime.Strings
import TaggedRuntime.Proofs.Value.Equality
import TaggedRuntime.Proofs.Strings.Identity
import TaggedRuntime.Proofs.Text.Utf8
import TaggedRuntime.Proofs.Abi.LastError
import TaggedRuntime.Proofs.Table.Doubling
import TaggedRuntime.Proofs.Heap.Tables
import TaggedRuntime.Proofs.Abi.ArrayLimit
import TaggedRuntime.Proofs.Table.Chain
import TaggedRuntime.Proofs.Table.WellFormed
import TaggedRuntime.Proofs.Table.Placement
import TaggedRuntime.Proofs.Table.Splice
import TaggedRuntime.Proofs.Effects
import TaggedRuntime.Proofs.Table.Store
import TaggedRuntime.Proofs.Table.Sizing
import TaggedRuntime.Proofs.Table.Clearing
import TaggedRuntime.Proofs.Table.Rebuild
import TaggedRuntime.Proofs.Table.History
import TaggedRuntime.Proofs.Table.Loops
import TaggedRuntime.Proofs.Field.Transparency
import TaggedRuntime.Proofs.Abi.Answers
import TaggedRuntime.Proofs.Abi.FlatValue
import TaggedRuntime.Proofs.Abi.FieldLog
import TaggedRuntime.Proofs.Abi.FieldCalls
import TaggedRuntime.Proofs.Abi.FieldStore
import TaggedRuntime.Proofs.Loop.Bodies
import TaggedRuntime.Proofs.Heap.Growth
import TaggedRuntime.Proofs.Table.Census
import TaggedRuntime.Proofs.Table.Recursion
import TaggedRuntime.Proofs.Table.Operation
import TaggedRuntime.Proofs.Heap.Colors
import TaggedRuntime.Proofs.Abi.Collector
import TaggedRuntime.Proofs.Abi.Views
import TaggedRuntime.Proofs.Table.Resizing
import TaggedRuntime.Proofs.Heap.EnsuredSlot
import TaggedRuntime.Proofs.Abi.Soundness
import TaggedRuntime.Proofs.Trace.Reports
import TaggedRuntime.Proofs.Trace.Operations
import TaggedRuntime.Proofs.Trace.Actions
import TaggedRuntime.Proofs.Trace.Programs
import TaggedRuntime.Proofs.Field.Probing
import TaggedRuntime.Proofs.Heap.Creation
import TaggedRuntime.Proofs.Table.Optimum
import TaggedRuntime.Proofs.Table.Refusal
import TaggedRuntime.Proofs.Strings.Order
import TaggedRuntime.Proofs.Heap.Presizing
import TaggedRuntime.Proofs.Abi.RefusedWrite
import TaggedRuntime.Proofs.Decimal.Rounding
import TaggedRuntime.Proofs.Decimal.Notation
import TaggedRuntime.Proofs.Strings.Numerals
import TaggedRuntime.Proofs.Words
import TaggedRuntime.Proofs.Quotient
import TaggedRuntime.Proofs.Number.Division
import TaggedRuntime.Proofs.Number.Shift
import TaggedRuntime.Proofs.Binary64.Rational
import TaggedRuntime.Proofs.Number.Conversion
import TaggedRuntime.Proofs.Strings.Slices
import TaggedRuntime.Proofs.Text.Blank
import TaggedRuntime.Proofs.Config
import TaggedRuntime.Proofs.Text.Order
import TaggedRuntime.Proofs.Json.Fields
import TaggedRuntime.Proofs.Json.Printing
import TaggedRuntime.Proofs.Json.Reading
import TaggedRuntime.Proofs.Trace.Lines
