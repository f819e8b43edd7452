import TaggedRuntime.Proofs.Heap.Basic
import TaggedRuntime.Proofs.Table.Operation

/-! The three colours of a heap. A table that was visited holds no object that was
not seen; this is kept by every change of a heap that gives a visited table
only children that were seen, and turns it back before it gets another one. -/

namespace TaggedRuntime

theorem Value.isNil_of_object? {v : Value} {r : Handle} (h : v.object? = some r) :
    v.isNil = false := by
  cases v <;> first | rfl | cases h

namespace Heap

variable {h₀ h h' : Heap} {r q : Handle} {c : Color} {t t' : Table}

/-- A handle names an object that is not white. -/
def Marked (h : Heap) (r : Handle) : Prop := ∃ c, h.color? r = some c ∧ c ≠ .white

/-- No black table holds an object that is white, or that is none. -/
structure Consistent (h : Heap) : Prop where
  reachable : ∀ r t, h.object? r = some (.table t) → t.Reachable
  marked : ∀ r t v child, h.color? r = some .black → h.object? r = some (.table t) →
    t.Contains v → v.object? = some child → h.Marked child

/-- A heap in which colours have changed from black to gray only. New objects are
white, and each object that turned gray was queued once. -/
structure Evolves (h h' : Heap) : Prop where
  color : ∀ r c, h.color? r = some c →
    h'.color? r = some c ∨ (c = .black ∧ h'.color? r = some .gray)
  fresh : ∀ r c, h.color? r = none → h'.color? r = some c → c = .white
  queued : ∃ turned, h'.grayAgain = h.grayAgain ++ turned ∧ turned.Nodup ∧
    ∀ r, r ∈ turned ↔ h.color? r = some .black ∧ h'.color? r = some .gray

namespace Evolves

/-- A heap in which no object has changed its colour. New objects are white, and nothing was queued.
-/
theorem of_colors (hColor : ∀ r c, h.color? r = some c → h'.color? r = some c)
    (hFresh : ∀ r c, h.color? r = none → h'.color? r = some c → c = .white)
    (hGray : h'.grayAgain = h.grayAgain) : h.Evolves h' where
  color r c hr := Or.inl (hColor r c hr)
  fresh := hFresh
  queued := by
    refine ⟨[], by simp [hGray], List.nodup_nil, fun r => ?_⟩
    simp only [List.not_mem_nil, false_iff, not_and]
    intro hBlack hTurned
    rw [hColor r _ hBlack] at hTurned
    cases hTurned

theorem refl (h : Heap) : h.Evolves h :=
  of_colors (fun _ _ hr => hr) (fun r c hNone hSome => by
    rw [hNone] at hSome
    cases hSome) rfl

/-- What is black has always been. -/
theorem black (hEvolves : h.Evolves h') (hBlack : h'.color? r = some .black) :
    h.color? r = some .black := by
  cases hOld : h.color? r with
  | none => cases hEvolves.fresh r _ hOld hBlack
  | some c =>
      rcases hEvolves.color r c hOld with hKept | ⟨rfl, _⟩
      · rw [hBlack] at hKept
        exact hKept.symm
      · rfl

/-- An object that was marked stays marked. It may turn from black to gray, but never white. -/
theorem marked (hEvolves : h.Evolves h') (hMarked : h.Marked r) : h'.Marked r := by
  obtain ⟨c, hColor, hSeen⟩ := hMarked
  rcases hEvolves.color r c hColor with hKept | ⟨_, hTurned⟩
  · exact ⟨c, hKept, hSeen⟩
  · exact ⟨.gray, hTurned, by decide⟩

/-- A heap that has evolved twice has evolved. What was queued first stays in front. -/
theorem trans (hFirst : h₀.Evolves h) (hThen : h.Evolves h') : h₀.Evolves h' where
  color r c hr := by
    rcases hFirst.color r c hr with hKept | ⟨rfl, hTurned⟩
    · exact hThen.color r c hKept
    · rcases hThen.color r _ hTurned with hGray | ⟨hNever, _⟩
      · exact Or.inr ⟨rfl, hGray⟩
      · cases hNever
  fresh r c hNone hSome := by
    cases hBetween : h.color? r with
    | none => exact hThen.fresh r c hBetween hSome
    | some d =>
        have hWhite := hFirst.fresh r d hNone hBetween
        subst hWhite
        rcases hThen.color r _ hBetween with hKept | ⟨hNever, _⟩
        · rw [hSome] at hKept
          cases hKept
          rfl
        · cases hNever
  queued := by
    obtain ⟨first, hFirstGray, hFirstOnce, hFirstTurned⟩ := hFirst.queued
    obtain ⟨next, hNextGray, hNextOnce, hNextTurned⟩ := hThen.queued
    refine ⟨first ++ next, by rw [hNextGray, hFirstGray, List.append_assoc], ?_, fun r => ?_⟩
    · -- What was turned first is gray by then, and only black objects turn.
      refine List.nodup_append.mpr ⟨hFirstOnce, hNextOnce, fun a ha b hb hEq => ?_⟩
      subst hEq
      have hGray := ((hFirstTurned a).mp ha).2
      rw [((hNextTurned a).mp hb).1] at hGray
      cases hGray
    · rw [List.mem_append, hFirstTurned, hNextTurned]
      constructor
      · rintro (⟨hBlack, hGray⟩ | ⟨hBlack, hGray⟩)
        · refine ⟨hBlack, ?_⟩
          rcases hThen.color r _ hGray with hKept | ⟨hNever, _⟩
          · exact hKept
          · cases hNever
        · exact ⟨hFirst.black hBlack, hGray⟩
      · rintro ⟨hBlack, hGray⟩
        rcases hFirst.color r _ hBlack with hKept | ⟨_, hTurned⟩
        · exact Or.inr ⟨hKept, hGray⟩
        · exact Or.inl ⟨hBlack, hTurned⟩

end Evolves

/-- A consistent heap that another one has evolved into. -/
structure Follows (h₀ h : Heap) : Prop where
  consistent : h.Consistent
  evolves : h₀.Evolves h

/-- A change keeps a heap consistent when each table has only values that it had before or that name
marked objects. Only black tables are asked about, so a table that turned gray may have been given
anything. -/
theorem Follows.step (hFollows : h₀.Follows h) (hEvolves : h.Evolves h')
    (hReachable : ∀ r t, h'.object? r = some (.table t) → t.Reachable)
    (hContents : ∀ r t v child, h.color? r = some .black → h'.object? r = some (.table t) →
      t.Contains v → v.object? = some child →
        (∃ t₀, h.object? r = some (.table t₀) ∧ t₀.Contains v) ∨ h.Marked child) :
    h₀.Follows h' where
  consistent := by
    refine ⟨hReachable, fun r t v child hBlack hTable hContains hChild => hEvolves.marked ?_⟩
    have hBefore := hEvolves.black hBlack
    rcases hContents r t v child hBefore hTable hContains hChild with ⟨t₀, hOld, hHeld⟩ | hMarked
    · exact hFollows.consistent.marked r t₀ v child hBefore hOld hHeld hChild
    · exact hMarked
  evolves := hFollows.evolves.trans hEvolves

/-- A change that leaves all objects is no matter. -/
theorem Follows.same_objects (hFollows : h₀.Follows h) (hEvolves : h.Evolves h')
    (hObject : ∀ r, h'.object? r = h.object? r) : h₀.Follows h' := by
  apply hFollows.step hEvolves
  · intro r t hTable
    exact hFollows.consistent.reachable r t (hObject r ▸ hTable)
  · intro r t v child _ hTable hContains _
    exact Or.inl ⟨t, hObject r ▸ hTable, hContains⟩

/-! ### Changes of a heap -/

theorem color?_congr (hObjects : h'.objects = h.objects) (r : Handle) :
    h'.color? r = h.color? r := by
  unfold color?
  rw [hObjects]

/-- New strings and keys are no matter. The objects and the queue are all that counts. -/
theorem Follows.congr (hFollows : h₀.Follows h) (hObjects : h'.objects = h.objects)
    (hGray : h'.grayAgain = h.grayAgain) : h₀.Follows h' := by
  apply hFollows.same_objects _ (object?_congr hObjects)
  have hColor := color?_congr hObjects
  apply Evolves.of_colors
  · intro r c hr
    rw [hColor, hr]
  · intro r c hNone hSome
    rw [hColor, hNone] at hSome
    cases hSome
  · exact hGray

/-- A new object is white. -/
theorem color?_withNew (hRoom : h.objects.size < Limits.handles) (o : Object) (q : Handle) :
    (h.withNew o).color? q =
      if q = ⟨UInt32.ofNat h.objects.size⟩ then some .white else h.color? q := by
  have hIndex : (UInt32.ofNat h.objects.size).toNat = h.objects.size :=
    UInt32.toNat_ofNat_of_lt' hRoom
  simp only [color?, withNew, Array.getElem?_push]
  by_cases hEq : q = ⟨UInt32.ofNat h.objects.size⟩
  · simp [hEq, hIndex]
  · have hOther : q.index.toNat ≠ h.objects.size :=
      fun hSame => hEq (Handle.eq_of_toNat_eq (hSame.trans hIndex.symm))
    simp [hEq, hOther]

/-- A new table is white and holds nothing. So no black table names it yet, and it names nothing. -/
theorem Follows.allocated (hFollows : h₀.Follows h) (hRoom : h.objects.size < Limits.handles) :
    h₀.Follows (h.withNew (.table {})) := by
  have hColor := color?_withNew hRoom (.table {})
  have hObject := object?_withNew hRoom (.table {})
  have hNew : h.color? ⟨UInt32.ofNat h.objects.size⟩ = none := by
    simp [color?, UInt32.toNat_ofNat_of_lt' hRoom]
  apply hFollows.step
  · apply Evolves.of_colors
    · intro r c hr
      rw [hColor, if_neg, hr]
      rintro rfl
      rw [hNew] at hr
      cases hr
    · intro r c hNone hSome
      rw [hColor] at hSome
      split at hSome
      next =>
        cases hSome
        rfl
      next =>
        rw [hNone] at hSome
        cases hSome
    · rfl
  · intro r t hTable
    rw [hObject] at hTable
    split at hTable
    next =>
      cases hTable
      exact .new none
    next => exact hFollows.consistent.reachable r t hTable
  · intro r t v child hBlack hTable hContains _
    rw [hObject, if_neg] at hTable
    · exact Or.inl ⟨t, hTable, hContains⟩
    · rintro rfl
      rw [hNew] at hBlack
      cases hBlack

theorem color?_withObject (h : Heap) (r : Handle) (o : Object) (q : Handle) :
    (h.withObject r o).color? q = h.color? q := by
  simp only [color?, withObject, Array.getElem?_modify]
  split
  next => cases h.objects[q.index.toNat]? <;> rfl
  next => rfl

/-- A table is changed, and what it holds now it held before, unless that is marked or the table is
not black. The colours stay as they are, so this is about one table only. -/
theorem Follows.changed (hFollows : h₀.Follows h) (hTable : h.object? r = some (.table t))
    (hReachable : t'.Reachable)
    (hContents : ∀ v child, t'.Contains v → v.object? = some child →
      t.Contains v ∨ (h.color? r = some .black → h.Marked child)) :
    h₀.Follows (h.withObject r (.table t')) := by
  have hColor := h.color?_withObject r (.table t')
  have hObject := object?_withObject (h := h) (r := r) (by simp [hTable]) (.table t')
  apply hFollows.step
  · apply Evolves.of_colors
    · intro q c hq
      rw [hColor, hq]
    · intro q c hNone hSome
      rw [hColor, hNone] at hSome
      cases hSome
    · rfl
  · intro q t₁ hTable'
    rw [hObject] at hTable'
    split at hTable'
    next =>
      cases hTable'
      exact hReachable
    next => exact hFollows.consistent.reachable q t₁ hTable'
  · intro q t₁ v child hBlack hTable' hContains hChild
    rw [hObject] at hTable'
    split at hTable'
    next hEq =>
      cases hTable'
      subst hEq
      rcases hContents v child hContains hChild with hOld | hMarked
      · exact Or.inl ⟨t, hTable, hOld⟩
      · exact Or.inr (hMarked hBlack)
    next => exact Or.inl ⟨t₁, hTable', hContains⟩

/-- A table that is laid out in another way holds nothing new. -/
theorem Follows.relaid (hFollows : h₀.Follows h) (hTable : h.object? r = some (.table t))
    {op : Table.Operation} (hRun : op.change.run t = .ok () t') (hWrite : op.write? t = none) :
    h₀.Follows (h.withObject r (.table t')) := by
  have hReachable := hFollows.consistent.reachable r t hTable
  have hSame := Table.Operation.after_of_ok hReachable.wellFormed hRun
  rw [hWrite] at hSame
  refine hFollows.changed hTable (hReachable.of_ok hRun) fun v child hContains hChild => Or.inl ?_
  have hLive := Value.isNil_of_object? hChild
  exact (Table.SameEntries.contains_iff hSame hReachable.wellFormed.toChained hLive).mp hContains

/-- One owner has turned gray, and no other colour has changed. -/
theorem color?_regrayed (h : Heap) (hHeld : (h.color? r).isSome = true) (q : Handle) :
    (h.regrayed r).color? q = if q = r then some .gray else h.color? q := by
  simp only [color?, regrayed, Array.getElem?_modify]
  by_cases hEq : q = r
  · subst hEq
    simp only [color?, Option.isSome_map] at hHeld
    obtain ⟨e, he⟩ := Option.isSome_iff_exists.mp hHeld
    simp [he]
  · have hIndex : r.index.toNat ≠ q.index.toNat :=
      fun hSame => hEq (Handle.eq_of_toNat_eq hSame.symm)
    simp [hEq, hIndex]

/-- Turning a black owner gray leaves the heap consistent: there is one black table less to be asked
for. It was not in the queue as turned before, since it was black until now. -/
theorem Follows.regrayed (hFollows : h₀.Follows h) (hBlack : h.color? r = some .black) :
    h₀.Follows (h.regrayed r) := by
  have hColor := h.color?_regrayed (r := r) (by simp [hBlack])
  apply hFollows.same_objects _ (h.recolored_regrayed r).object
  refine ⟨fun q c hq => ?_, fun q c hNone hSome => ?_, [r], rfl, List.nodup_singleton r, fun q => ?_⟩
  · rw [hColor]
    split
    next hEq =>
      rw [hEq, hBlack] at hq
      cases hq
      exact Or.inr ⟨rfl, rfl⟩
    next => exact Or.inl hq
  · rw [hColor] at hSome
    split at hSome
    next hEq =>
      rw [hEq, hBlack] at hNone
      cases hNone
    next =>
      rw [hNone] at hSome
      cases hSome
  · rw [List.mem_singleton, hColor]
    by_cases hEq : q = r
    · simp [hEq, hBlack]
    · simp only [hEq, if_false, false_iff, not_and]
      intro hStays hGray
      rw [hStays] at hGray
      cases hGray

end Heap

end TaggedRuntime
