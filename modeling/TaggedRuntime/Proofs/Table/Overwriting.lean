import TaggedRuntime.Proofs.Table.Operation

/-! Writes under keys that have a cell. Such a write needs no bucket, so it is carried out whatever
the state of the table is, and it moves nothing: every key stays in its slot or its bucket and every
link leads where it did. -/

namespace TaggedRuntime.Table

variable {t t' t₁ t₂ t₃ : Table} {k : Key} {v : Value}

/-- A key has a cell: a slot of the array part, or a bucket, live or dead. -/
def HasCell (t : Table) (k : Key) : Prop :=
  (t.slot? k).isSome = true ∨ ∃ n, (t.node n).key.same k = true

namespace SameShape

theorem refl (t : Table) : t.SameShape t :=
  ⟨rfl, rfl, fun _ => rfl, fun _ => rfl, fun _ _ => rfl⟩

/-- A shape is kept by two writes if it is by each. -/
theorem trans (h₁ : t₁.SameShape t₂) (h₂ : t₂.SameShape t₃) : t₁.SameShape t₃ where
  array := h₂.array.trans h₁.array
  count := h₂.count.trans h₁.count
  key m := (h₂.key m).trans (h₁.key m)
  next m := (h₂.next m).trans (h₁.next m)
  vacant m hVacant := (h₂.vacant m (mt (h₁.occupied_iff m).mp hVacant)).trans (h₁.vacant m hVacant)

theorem hasCell_iff (h : t.SameShape t') (k : Key) : t'.HasCell k ↔ t.HasCell k := by
  simp [HasCell, h.slot?_eq, h.key]

theorem find?_eq (h : t.SameShape t') (hChained : t.Chained) (k : Key) :
    t'.find? k = t.find? k := by
  ext n
  rw [(h.chained hChained).find?_eq_some_iff, hChained.find?_eq_some_iff, h.key]

/-- What an operation writes depends on the shape of the table only. -/
theorem write?_eq (h : t.SameShape t') (hChained : t.Chained) (op : Operation) :
    op.write? t' = op.write? t := by
  cases op with
  | overwriteStr s v => simp [Operation.write?, h.find?_eq hChained]
  | overwriteBucket n v => simp [Operation.write?, h.occupied_iff, h.key]
  | _ => rfl

end SameShape

/-- A store under a key that has a cell never asks for a rebuild. -/
theorem setKey_of_hasCell (hWell : t.WellFormed) (hCell : t.HasCell k) (rebuilds : Nat)
    (v : Value) : ∃ t', (setKey rebuilds k v).run t = .ok () t' ∧ t.Overwritten t' k v := by
  cases hSlot : t.slot? k with
  | some i => exact ⟨_, setKey_of_slot hSlot rebuilds v, overwritten_setSlot hWell hSlot v⟩
  | none =>
      obtain ⟨n, hSame⟩ := hCell.resolve_left (by simp [hSlot])
      have hFind := (hWell.find?_eq_some_iff k n).mpr hSame
      exact ⟨_, setKey_of_bucket hSlot hFind rebuilds v, overwritten_setBucketValue hWell hSame v⟩

/-- An operation that writes under a key that has a cell is carried out. It cannot be refused, since
it needs neither a slot nor a bucket that is new. There is one case for each operation. -/
theorem Operation.run_of_hasCell (hWell : t.WellFormed) {op : Operation} {w : Key × Value}
    (hWrite : op.write? t = some w) (hCell : t.HasCell w.1) :
    ∃ t', op.change.run t = .ok () t' ∧ t.Overwritten t' w.1 w.2 := by
  cases op with
  | set k v =>
      rw [write?] at hWrite
      split at hWrite
      next key hKey =>
        cases hWrite
        have hRun := set_run k v t
        rw [hKey] at hRun
        obtain ⟨t', hStore, hOverwritten⟩ := setKey_of_hasCell hWell hCell 1 v
        exact ⟨t', hRun.trans hStore, hOverwritten⟩
      next => cases hWrite
  | setInt n v =>
      cases hWrite
      exact setKey_of_hasCell hWell hCell 1 v
  | setStr s v =>
      cases hWrite
      exact setKey_of_hasCell hWell hCell 1 v
  | overwriteStr s v =>
      rw [write?, Option.ite_none_right_eq_some] at hWrite
      obtain ⟨hFound, hw⟩ := hWrite
      cases hw
      obtain ⟨n, hFind⟩ := Option.isSome_iff_exists.mp hFound
      have hCell? : t.overwriteStr? s v = some ((t.node n).value, t.setBucketValue n v) := by
        rw [overwriteStr?, hFind]
        rfl
      refine ⟨t.setBucketValue n v, ?_, overwritten_of_overwriteStr? hWell hCell?⟩
      change EStateM.Result.ok () (((t.overwriteStr? s v).map (·.2)).getD t) = _
      rw [hCell?]
      rfl
  | overwriteBucket n v =>
      rw [write?, Option.ite_none_right_eq_some] at hWrite
      obtain ⟨hHeld, hw⟩ := hWrite
      cases hw
      refine ⟨t.setBucketValue n v, ?_,
        overwritten_setBucketValue hWell ((Key.same_self_iff _).mpr hHeld) v⟩
      change EStateM.Result.ok () (if t.Occupied n then t.setBucketValue n v else t) = _
      rw [if_pos hHeld]
  | resize arraySize hashSize => cases hWrite
  | resizeArray arraySize => cases hWrite

end TaggedRuntime.Table
