import TaggedRuntime.Proofs.Heap.Tables

/-! What a heap offers by itself to a program that holds it: its objects, the tables among them, its
strings, and what it keeps for the collector. Nothing checks that a bucket holds a key when its cell
is written through, and a value in a bucket without a key is an entry that no look-up finds. Where
each bucket that is written through holds a key, every operation leaves all tables well-formed. -/

namespace TaggedRuntime

namespace Table

/-- A table with another metatable is well-formed like the one before. No part of the invariant
looks at the metatable. -/
theorem WellFormed.withMetatable {t : Table} (hWell : t.WellFormed) (metatable : Option Handle) :
    WellFormed { t with metatable } where
  buckets := hWell.buckets
  slots := hWell.slots
  vacant := hWell.vacant
  inside := hWell.inside
  joinless := hWell.joinless
  ranked := hWell.ranked.imp fun _ hRank => ⟨hRank.climbs, hRank.below⟩
  distinct := hWell.distinct
  reached := hWell.reached
  homes := hWell.homes
  unshadowed := hWell.unshadowed
  dummy := hWell.dummy
  bound := hWell.bound
  taken := hWell.taken

/-- Writing through the cell of a bucket that holds a key is a store under that key. In a bucket
without one the value would be an entry that no look-up finds. -/
theorem WellFormed.setBucketValue {t : Table} (hWell : t.WellFormed) {n : Nat}
    (hHeld : t.Occupied n) (v : Value) : (t.setBucketValue n v).WellFormed :=
  (overwritten_setBucketValue hWell ((Key.same_self_iff _).mpr hHeld) v).stored.wellFormed

end Table

namespace Heap

/-- An operation that a heap offers by itself. A table that is handed over was made by operations,
since tables are made in no other way. -/
inductive Operation : Type → Type 1 where
  /-- Anything that can be seen of a heap without changing it. -/
  | look {α : Type} (f : Heap → α) : Operation α
  | allocTable (t : { t : Table // t.Reachable }) : Operation Handle
  | allocUserdata (u : Userdata) : Operation Handle
  /-- Another table in the place of one. -/
  | replaceTable (r : Handle) (t : { t : Table // t.Reachable }) : Operation Unit
  | changeTable (r : Handle) (op : Table.Operation) : Operation Unit
  /-- Writes through the cell of a bucket, whether it holds a key or not. -/
  | overwriteBucket (r : Handle) (n : Nat) (v : Value) : Operation Unit
  | setMetatable (r : Handle) (metatable : Option Handle) : Operation Unit
  | ensureCapacity (r : Handle) (length : Nat) : Operation Unit
  | setColor (r : Handle) (c : Color) : Operation Unit
  | writeBarrier (owner child : Handle) : Operation Unit
  | barrierBack (owner : Handle) : Operation Unit
  | takeGrayAgain : Operation (List Handle)
  | newStr (bytes : Bytes) : Operation Str
  | registerKey (bytes : Bytes) : Operation UInt32

namespace Operation

variable {α : Type}

def run : Operation α → HostM Heap α
  | look f => return f (← getThe Heap)
  | allocTable t => alloc (.table t)
  | allocUserdata u => alloc (.userdata u)
  | replaceTable r t => onTable r (modify fun _ => t.val)
  | changeTable r op => onTable r op.change
  | overwriteBucket r n v => do
    if (← table r).bucketCount ≤ n then fault (.noBucket n)
    onTable r (modify fun t => t.setBucketValue n v)
  | setMetatable r metatable => onTable r (modify fun t => { t with metatable })
  | ensureCapacity r length => Heap.ensureCapacity r length
  | setColor r c => Heap.setColor r c
  | writeBarrier owner child => TaggedRuntime.writeBarrier owner child
  | barrierBack owner => Heap.barrierBack owner
  | takeGrayAgain => Heap.takeGrayAgain
  | newStr bytes => Heap.newStr bytes
  | registerKey bytes => Heap.registerKey bytes

/-- Whether the bucket that an operation writes through holds a key. A bucket that there is not is
not written. -/
def keyed : Operation α → Heap → Bool
  | overwriteBucket r n _, h =>
    match h.object? r with
    | some (.table t) => t.bucketCount ≤ n || t.Occupied n
    | _ => true
  | _, _ => true

end Operation

variable {p : Table → Prop} {h h' : Heap}

theorem keeps_look {α : Type} {inv : Heap → Prop} (f : Heap → α) :
    Keeps inv (do return f (← getThe Heap) : HostM Heap α) := fun _ hInv => hInv

/-- A new object that is a table has to be one with the property. The other tables are behind the
handles they had. -/
theorem keeps_alloc {o : Object} (hNew : ∀ t, o = .table t → p t) : Keeps (Tables p) (alloc o) := by
  intro h hTables
  have hRun := alloc_run o h
  split at hRun
  next => rwa [left_of_error hRun]
  next hFull =>
    rw [left_of_ok hRun]
    intro q t hTable
    rw [object?_withNew (Nat.lt_of_not_le hFull)] at hTable
    split at hTable
    next => exact hNew t (Option.some.inj hTable)
    next => exact hTables q t hTable

/-- What the collector keeps to visit again says nothing of the tables. -/
theorem keeps_barrierBack (owner : Handle) : Keeps (Tables p) (barrierBack owner) := by
  intro h hTables
  cases hColor : h.color? owner with
  | none =>
      have hRun : (barrierBack owner).run h = .error (.fault (.noObject owner)) h := by
        rw [barrierBack, EStateM.run_bind, color_run, hColor]
      rwa [left_of_error hRun]
  | some c =>
      by_cases hBlack : c = .black
      · rw [left_of_ok (barrierBack_run (hBlack ▸ hColor))]
        exact hTables.congr (h.recolored_regrayed owner).object
      · have hRun : (barrierBack owner).run h = .ok () h := by
          rw [barrierBack, EStateM.run_bind, color_run, hColor]
          simp only [hBlack, if_false]
          rfl
        rwa [left_of_ok hRun]

/-- A change that is never refused keeps what it keeps of the one table. -/
theorem keeps_modifyTable {f : Table → Table} (hf : ∀ t, p t → p (f t)) (r : Handle) :
    Keeps (Tables p) (onTable r (modify f)) := by
  refine keeps_onTable (fun t ht => ?_) r
  exact hf t ht

/-- Emptying the queue of the collector says nothing of the tables either. -/
theorem keeps_takeGrayAgain : Keeps (Tables p) takeGrayAgain := fun _ hTables => hTables

/-- A capacity is ensured by resizing the array part, or there is enough of it. A refused resize has
to keep the property as well. -/
theorem keeps_ensureCapacity (hResize : ∀ t length, p t → p (left (Table.resizeArray length) t))
    (r : Handle) (length : Nat) : Keeps (Tables p) (ensureCapacity r length) := by
  refine keeps_onTable (fun t ht => ?_) r
  rw [left_bind, run_getThe]
  dsimp only
  split
  next => exact hResize t length ht
  next => exact ht

/-- A cell of a bucket is written in the table that is there, or not at all. A bucket that there is
not is a fault, and so is a handle of something else. -/
theorem left_overwriteBucket (r : Handle) (n : Nat) (v : Value) (h : Heap) :
    left (Operation.overwriteBucket r n v).run h = h ∨
      ∃ t, h.object? r = some (.table t) ∧ n < t.bucketCount ∧
        left (Operation.overwriteBucket r n v).run h =
          h.withObject r (.table (t.setBucketValue n v)) := by
  unfold Operation.run
  rcases table_cases r h with ⟨t, hTable⟩ | ⟨f, hFault⟩
  · rw [left_bind, table_run, hTable]
    dsimp only
    split
    next => exact .inl rfl
    next hWithin => exact .inr ⟨t, rfl, Nat.lt_of_not_le hWithin, left_onTable _ hTable⟩
  · rw [left_bind, hFault]
    exact .inl rfl

/-- Every operation that a heap offers leaves all tables well-formed, whether it is refused or not.
The one condition is that a bucket that is written through holds a key; nothing is asked of handles,
colours or sizes. -/
theorem Operation.tables_run {α : Type} (op : Operation α) (hTables : h.Tables Table.WellFormed)
    (hKeyed : op.keyed h = true) : (left op.run h).Tables Table.WellFormed := by
  have hApply (op : Table.Operation) (t : Table) (hWell : t.WellFormed) :
      (left op.change t).WellFormed := op.left_change t ▸ op.wellFormed_apply hWell
  cases op with
  | look f => exact keeps_look f h hTables
  | allocTable t =>
      refine keeps_alloc (fun t' hSame => ?_) h hTables
      cases hSame
      exact t.property.wellFormed
  | allocUserdata u => exact keeps_alloc (fun t hSame => nomatch hSame) h hTables
  | replaceTable r t => exact keeps_modifyTable (fun _ _ => t.property.wellFormed) r h hTables
  | changeTable r op => exact keeps_onTable (hApply op) r h hTables
  | overwriteBucket r n v =>
      rcases left_overwriteBucket r n v h with hSame | ⟨t, hTable, hWithin, hLeft⟩
      · rwa [hSame]
      · simp only [keyed, hTable, Bool.or_eq_true, decide_eq_true_eq] at hKeyed
        have hHeld : t.Occupied n := hKeyed.resolve_left (Nat.not_le_of_lt hWithin)
        rw [hLeft]
        exact hTables.put hTable ((hTables r t hTable).setBucketValue hHeld v)
  | setMetatable r metatable =>
      exact keeps_modifyTable (fun _ hWell => hWell.withMetatable metatable) r h hTables
  | ensureCapacity r length =>
      exact keeps_ensureCapacity (fun t length => hApply (.resizeArray length) t) r length h hTables
  | setColor r c => exact keeps_setColor r c h hTables
  | writeBarrier owner child => exact keeps_writeBarrier owner child h hTables
  | barrierBack owner => exact keeps_barrierBack owner h hTables
  | takeGrayAgain => exact keeps_takeGrayAgain h hTables
  | newStr bytes => exact keeps_newStr bytes h hTables
  | registerKey bytes => exact keeps_registerKey bytes h hTables

end Heap

end TaggedRuntime
