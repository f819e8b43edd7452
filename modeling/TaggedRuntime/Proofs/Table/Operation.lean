import TaggedRuntime.Proofs.Table.Rebuild

/-! What can be done to a table from outside, and the tables that are reached
in this way. Every operation keeps the representation invariant, also one that
is refused. -/

namespace TaggedRuntime

theorem Key.ofValue_ne_vacant {v : Value} {k : Key} (h : Key.ofValue v = .ok k) : k ≠ .vacant := by
  rintro rfl
  cases v <;> simp only [Key.ofValue, reduceCtorEq, Except.ok.injEq] at h
  split at h
  · cases h
  · split at h <;> cases h

namespace Table

/-- An operation on a table. -/
inductive Operation where
  | set (k v : Value)
  | setInt (n : Int64) (v : Value)
  | setStr (s : Str) (v : Value)
  /-- Writes through the cell of a string, where there is one. -/
  | overwriteStr (s : Str) (v : Value)
  /-- Writes through the cell of a bucket, where it holds a key. -/
  | overwriteBucket (n : Nat) (v : Value)
  | resize (arraySize hashSize : Nat)
  | resizeArray (arraySize : Nat)

namespace Operation

def change : Operation → Store Unit
  | set k v => Table.set k v
  | setInt n v => Table.setInt n v
  | setStr s v => Table.setStr s v
  | overwriteStr s v => modify fun t => ((t.overwriteStr? s v).map (·.2)).getD t
  | overwriteBucket n v => modify fun t => if t.Occupied n then t.setBucketValue n v else t
  | resize arraySize hashSize => Table.resize arraySize hashSize
  | resizeArray arraySize => Table.resizeArray arraySize

/-- The key and the value of the write that an operation is. -/
def write? (t : Table) : Operation → Option (Key × Value)
  | set k v =>
    match Key.ofValue k with
    | .ok key => some (key, v)
    | .error _ => none
  | setInt n v => some (.int n, v)
  | setStr s v => some (.str s, v)
  | overwriteStr s v => if (t.find? (.str s)).isSome then some (.str s, v) else none
  | overwriteBucket n v => if t.Occupied n then some ((t.node n).key, v) else none
  | resize _ _ => none
  | resizeArray _ => none

/-- The table that an operation leaves, carried out or not. -/
def apply (op : Operation) (t : Table) : Table :=
  match op.change.run t with
  | .ok _ t' => t'
  | .error _ t' => t'

theorem left_change (op : Operation) (t : Table) : left op.change t = op.apply t := by
  unfold left apply
  cases op.change.run t <;> rfl

theorem apply_overwriteStr {t : Table} {s : Str} {v : Value} {written : Value × Table}
    (hWrite : t.overwriteStr? s v = some written) : (overwriteStr s v).apply t = written.2 := by
  change ((t.overwriteStr? s v).map (·.2)).getD t = written.2
  rw [hWrite]
  rfl

end Operation

/-- The tables that operations lead to from a new one, which may have been given a metatable. No
operation looks at the metatable, so it does not matter when it was given. -/
inductive Reachable : Table → Prop where
  | new (metatable : Option Handle) : Reachable { metatable }
  | step (hReachable : Reachable t) (op : Operation) : Reachable (op.apply t)

variable {t t' : Table} {w : Option (Key × Value)}

/-- The table after a write, or after an operation that writes nothing. -/
def After (t t' : Table) : Option (Key × Value) → Prop
  | some (k, v) => t.Stored t' k v
  | none => t.SameEntries t'

/-- An operation that wrote something, or nothing, leaves the table well-formed. -/
theorem After.wellFormed (h : t.After t' w) : t'.WellFormed := by
  cases w with
  | none => exact SameEntries.wellFormed h
  | some w => exact Stored.wellFormed h

/-- A store under a value is one under its key, or is refused because the value has none. -/
theorem set_run (k v : Value) (t : Table) : (set k v).run t =
    match Key.ofValue k with
    | .ok key => (setKey 1 key v).run t
    | .error e => .error e t := by
  unfold set
  cases Key.ofValue k <;> rfl

/-- Writing through the cell of a string stores under it. -/
theorem overwritten_of_overwriteStr? (hWell : t.WellFormed) {s : Str} {v old : Value}
    (h : t.overwriteStr? s v = some (old, t')) : t.Overwritten t' (.str s) v := by
  obtain ⟨n, hFind, hCell⟩ := Option.map_eq_some_iff.mp h
  cases hCell
  exact overwritten_setBucketValue hWell ((hWell.find?_eq_some_iff _ n).mp hFind) v

/-- An operation does what it says, runs out of memory, or is a store under a value that is no key.
In the second case the table is still well-formed, and in the third nothing has changed. There is
one case for each operation. -/
theorem Operation.change_cases (hWell : t.WellFormed) (op : Operation) :
    (∃ t', op.change.run t = .ok () t' ∧ t.After t' (op.write? t)) ∨
      (∃ t', t'.WellFormed ∧ op.change.run t = .error .outOfMemory t') ∨
      ∃ k v e, op = .set k v ∧ Key.ofValue k = .error e ∧ op.change.run t = .error e t := by
  have hStore (k : Key) (v : Value) (hKey : k ≠ .vacant) :
      (∃ t', (setKey 1 k v).run t = .ok () t' ∧ t.After t' (some (k, v))) ∨
        ∃ t', t'.WellFormed ∧ (setKey 1 k v).run t = .error .outOfMemory t' := by
    rcases setKey_cases hWell hKey 0 v with hDone | hRefused
    · exact Or.inl hDone
    · exact Or.inr ⟨_, hRefused⟩
  cases op with
  | set k v =>
      simp only [change, write?, set_run]
      cases hKey : Key.ofValue k with
      | ok key =>
          rcases hStore key v (Key.ofValue_ne_vacant hKey) with hDone | hRefused
          · exact Or.inl hDone
          · exact Or.inr (Or.inl hRefused)
      | error e => exact Or.inr (Or.inr ⟨k, v, e, rfl, hKey, rfl⟩)
  | setInt n v =>
      rcases hStore (.int n) v (by simp) with hDone | hRefused
      · exact Or.inl hDone
      · exact Or.inr (Or.inl hRefused)
  | setStr s v =>
      rcases hStore (.str s) v (by simp) with hDone | hRefused
      · exact Or.inl hDone
      · exact Or.inr (Or.inl hRefused)
  | overwriteStr s v =>
      refine Or.inl ⟨_, rfl, ?_⟩
      have hCell : (t.find? (.str s)).isSome = (t.overwriteStr? s v).isSome := by
        simp [overwriteStr?]
      simp only [write?, hCell]
      cases hWrite : t.overwriteStr? s v with
      | none => exact ⟨hWell, fun _ => rfl⟩
      | some written => exact (overwritten_of_overwriteStr? hWell hWrite).stored
  | overwriteBucket n v =>
      refine Or.inl ⟨_, rfl, ?_⟩
      simp only [write?]
      split
      next hHeld =>
        exact (overwritten_setBucketValue hWell ((Key.same_self_iff _).mpr hHeld) v).stored
      next => exact ⟨hWell, fun _ => rfl⟩
  | resize arraySize hashSize =>
      rcases resize_cases hWell arraySize hashSize with hDone | hRefused
      · exact Or.inl hDone
      · exact Or.inr (Or.inl hRefused)
  | resizeArray arraySize =>
      simp only [change, resizeArray_run]
      rcases resize_cases hWell arraySize (if t.isDummy then 0 else t.bucketCount) with
        hDone | hRefused
      · exact Or.inl hDone
      · exact Or.inr (Or.inl hRefused)

/-- Every operation keeps the invariant, also when it is refused. This is the step of all runs. -/
theorem Operation.wellFormed_apply (hWell : t.WellFormed) (op : Operation) :
    (op.apply t).WellFormed := by
  unfold apply
  rcases op.change_cases hWell with ⟨t', hDone, hAfter⟩ | ⟨t', hWell', hRefused⟩ |
    ⟨_, _, _, _, _, hInvalid⟩
  · rw [hDone]
    exact hAfter.wellFormed
  · rw [hRefused]
    exact hWell'
  · rw [hInvalid]
    exact hWell

/-- An operation that is carried out does what it says. -/
theorem Operation.after_of_ok (hWell : t.WellFormed) {op : Operation}
    (hRun : op.change.run t = .ok () t') : t.After t' (op.write? t) := by
  rcases op.change_cases hWell with ⟨t₁, hDone, hAfter⟩ | ⟨_, _, hRefused⟩ |
    ⟨_, _, _, _, _, hInvalid⟩
  · rw [hDone, EStateM.Result.ok.injEq] at hRun
    exact hRun.2 ▸ hAfter
  · rw [hRefused] at hRun
    cases hRun
  · rw [hInvalid] at hRun
    cases hRun

/-- An operation that fails without running out of memory changes nothing. -/
theorem Operation.eq_of_error (hWell : t.WellFormed) {op : Operation} {e : StoreError}
    (hRun : op.change.run t = .error e t') (hMemory : e ≠ .outOfMemory) : t' = t := by
  rcases op.change_cases hWell with ⟨_, hDone, _⟩ | ⟨_, _, hRefused⟩ |
    ⟨_, _, _, _, _, hInvalid⟩
  · rw [hDone] at hRun
    cases hRun
  · rw [hRefused, EStateM.Result.error.injEq] at hRun
    exact absurd hRun.1.symm hMemory
  · rw [hInvalid, EStateM.Result.error.injEq] at hRun
    exact hRun.2.symm

/-- Every table that is reached is well-formed, by induction on the operations. -/
theorem Reachable.wellFormed (hReachable : t.Reachable) : t.WellFormed := by
  induction hReachable with
  | new metatable => exact wellFormed_empty metatable
  | step _ op ih => exact op.wellFormed_apply ih

/-- An operation that was carried out leads from a reached table to another. -/
theorem Reachable.of_ok (hReachable : t.Reachable) {op : Operation}
    (hRun : op.change.run t = .ok () t') : t'.Reachable := by
  have hApply : op.apply t = t' := by rw [Operation.apply, hRun]
  exact hApply ▸ hReachable.step op

/-! ### The values in a table

Whatever part they are kept in and under whatever key. An operation leaves no value in a table that
was not there before, but for the one that it writes. -/

/-- A value is in a slot of the array part or in a bucket. -/
def Contains (t : Table) (v : Value) : Prop := v ∈ t.array ∨ ∃ node ∈ t.nodes, node.value = v

variable {k : Key} {v : Value}

theorem not_contains_empty {metatable : Option Handle} (hLive : v.isNil = false) :
    ¬Contains { metatable } v := by
  rintro (hSlot | ⟨node, hNode, rfl⟩)
  · simp at hSlot
  · simp only [Array.mem_singleton] at hNode
    subst hNode
    cases hLive

/-- The live values of a table are those of its displaced entries when the array part is cut to
nothing. Every entry is displaced then. -/
theorem contains_iff_displaced (hLive : v.isNil = false) :
    t.Contains v ↔ ∃ k, (k, v) ∈ t.displaced 0 := by
  simp only [mem_displaced, hLive, true_and]
  constructor
  · rintro (hSlot | ⟨node, hNode, rfl⟩)
    · obtain ⟨i, hi, rfl⟩ := Array.mem_iff_getElem.mp hSlot
      exact ⟨.int (slotKey i), Or.inl ⟨i, Nat.zero_le i, by simp [hi], rfl⟩⟩
    · have hMem : node ∈ t.liveNodes := by simpa [liveNodes] using ⟨hNode, hLive⟩
      obtain ⟨n, rfl, _⟩ := (mem_liveNodes t node).mp hMem
      exact ⟨(t.node n).key, Or.inr ⟨n, rfl⟩⟩
  · rintro ⟨k, ⟨i, _, hSlot, _⟩ | ⟨n, hNode⟩⟩
    · exact Or.inl (Array.mem_of_getElem? hSlot)
    · have hValue : (t.node n).value = v := congrArg Node.value hNode
      have hMem : t.node n ∈ t.liveNodes := (mem_liveNodes t _).mpr ⟨n, rfl, hValue ▸ hLive⟩
      rw [liveNodes, List.mem_filter] at hMem
      exact Or.inr ⟨t.node n, by simpa using hMem.1, hValue⟩

/-- The live values of a table are those that it holds under some key. So what a table contains can
be told by looking keys up. -/
theorem contains_iff_held (hChained : t.Chained) (hLive : v.isNil = false) :
    t.Contains v ↔ ∃ k, t.held? k = some v := by
  rw [contains_iff_displaced hLive]
  constructor
  · rintro ⟨k, hMem⟩
    exact ⟨k, (held?_of_mem_displaced hChained hMem).2⟩
  · rintro ⟨k, hHeld⟩
    rcases mem_displaced_of_held? hChained 0 hHeld with ⟨i, hi, _⟩ | ⟨⟨l, u⟩, hMem, hSame⟩
    · cases hi
    · have hValue := (held?_of_mem_displaced hChained hMem).2
      rw [held?_eq_of_same hChained hSame, hHeld, Option.some.injEq] at hValue
      exact ⟨l, hValue ▸ hMem⟩

/-- Tables with the same entries contain the same live values, wherever these are kept. -/
theorem SameEntries.contains_iff (hSame : t.SameEntries t') (hChained : t.Chained)
    (hLive : v.isNil = false) : t'.Contains v ↔ t.Contains v := by
  simp only [contains_iff_held hSame.wellFormed.toChained hLive, contains_iff_held hChained hLive,
    hSame.entry]

/-- A store adds one value at most. -/
theorem Stored.contains {u : Value} (hStored : t.Stored t' k u) (hChained : t.Chained)
    (hLive : v.isNil = false) (hContains : t'.Contains v) : t.Contains v ∨ v = u := by
  obtain ⟨l, hHeld⟩ := (contains_iff_held hStored.wellFormed.toChained hLive).mp hContains
  rw [hStored.entry] at hHeld
  split at hHeld
  next => exact Or.inr ((Value.nonNil?_eq_some_iff u v).mp hHeld).1.symm
  next => exact Or.inl ((contains_iff_held hChained hLive).mpr ⟨l, hHeld⟩)

end Table

end TaggedRuntime
