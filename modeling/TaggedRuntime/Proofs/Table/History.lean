import TaggedRuntime.Proofs.Table.Operation

/-! Tables as finite maps. Whatever was done to a table since it was new, in
whatever order, it answers for each key with the value that was last written
under that key or under one that is the same. -/

namespace TaggedRuntime.Table

/-- Writes, the last one first. -/
abbrev Log := List (Key × Value)

/-- The value of the last write under a key that is the same. -/
def Log.last? (log : Log) (k : Key) : Option Value := (log.find? fun w => w.1.same k).map (·.2)

/-- An answer is the value of the last write. All nils are one answer, and the
answer to a key that was never written. -/
def Answers (log : Log) (k : Key) (answer : Value) : Prop :=
  match log.last? k with
  | some v => answer = v ∨ (answer.isNil = true ∧ v.isNil = true)
  | none => answer.isNil = true

/-- The runs from a new table, with the writes made on the way. An operation of
a run may fail as long as memory does not run out. -/
inductive Runs : Log → Table → Prop where
  | new : Runs [] {}
  | done (hRuns : Runs log t) (op : Operation) (hRun : op.change.run t = .ok () t') :
      Runs ((op.write? t).toList ++ log) t'
  | failed (hRuns : Runs log t) (op : Operation) (hRun : op.change.run t = .error e t')
      (hMemory : e ≠ .outOfMemory) : Runs log t'

variable {t t' : Table} {k : Key} {v : Value} {log : Log} {w : Option (Key × Value)}

/-! ### Look-ups -/

/-- A short string found by identity is found as any key is. -/
theorem getShortStr_eq {s : Str} (hShort : s.isShort = true) (t : Table) :
    t.getShortStr s = t.getNode (.str s) := by
  have hTest : (fun (_ : Nat) (node : Node) => decide (node.key = Key.str s)) =
      fun _ node => node.key.same (.str s) := by
    funext _ node
    rw [Bool.eq_iff_iff, decide_eq_true_iff, Key.same_short_iff _ hShort]
  simp only [getShortStr, getNode, find?, hTest]

theorem getStr_eq (t : Table) (s : Str) : t.getStr s = t.getNode (.str s) := by
  unfold getStr
  split
  next hShort => exact getShortStr_eq hShort t
  next => rfl

theorem get_eq {v : Value} (h : Key.ofValue v = .ok k) (t : Table) : t.get v = t.lookup k := by
  unfold get
  rw [h]
  cases k <;> rfl

/-! ### The invariant of a run -/

/-- A table holds what was written last. -/
def Holds (t : Table) (log : Log) : Prop := ∀ k, t.held? k = (log.last? k).bind Value.nonNil?

/-- One operation adds its write to what the table holds. -/
theorem After.holds (h : t.After t' w) (hHolds : t.Holds log) : t'.Holds (w.toList ++ log) := by
  intro l
  cases w with
  | none => exact (h.entry l).trans (hHolds l)
  | some w =>
      rw [h.entry l, Option.toList_some, List.singleton_append, Log.last?, List.find?_cons]
      cases hSame : w.1.same l with
      | true => rfl
      | false => exact hHolds l

/-- A table that was run holds what was written last, and is well-formed. The induction is on the
run. -/
theorem Runs.holds (hRuns : Runs log t) : t.WellFormed ∧ t.Holds log := by
  induction hRuns with
  | new => exact ⟨wellFormed_new, held?_new⟩
  | done _ op hRun ih =>
      have hAfter := Operation.after_of_ok ih.1 hRun
      exact ⟨hAfter.wellFormed, hAfter.holds ih.2⟩
  | failed _ op hRun hMemory ih =>
      rw [Operation.eq_of_error ih.1 hRun hMemory]
      exact ih

/-- An answer that is the last value, as far as it is no nil, is an answer as the statement asks
for. Which of the nils an answer is does not matter to it. -/
theorem answers_of_nonNil? {answer : Value}
    (h : answer.nonNil? = (log.last? k).bind Value.nonNil?) : Answers log k answer := by
  unfold Answers
  cases hLast : log.last? k with
  | none => exact (Value.nonNil?_eq_none_iff answer).mp (by rw [h, hLast]; rfl)
  | some v =>
      rw [hLast, Option.bind_some] at h
      cases hNil : v.isNil with
      | true =>
          rw [(Value.nonNil?_eq_none_iff v).mpr hNil] at h
          exact Or.inr ⟨(Value.nonNil?_eq_none_iff answer).mp h, hNil⟩
      | false =>
          rw [(Value.nonNil?_eq_some_iff v v).mpr ⟨rfl, hNil⟩] at h
          exact Or.inl ((Value.nonNil?_eq_some_iff answer v).mp h).1

/-- A table is a finite map. After any run every look-up of a key answers with
what was last written under it, a store under a value that is no key changes
nothing, and every other operation is carried out or runs out of memory. -/
theorem runs_refine_map (hRuns : Runs log t) :
    (∀ v k, Key.ofValue v = .ok k → Answers log k (t.get v)) ∧
    (∀ n, Answers log (.int n) (t.getInt n)) ∧
    (∀ s, Answers log (.str s) (t.getStr s)) ∧
    (∀ s, s.isShort = true → Answers log (.str s) (t.getShortStr s)) ∧
    (∀ k v e, Key.ofValue k = .error e → (set k v).run t = .error e t) ∧
    (∀ op : Operation,
      (∃ t', op.change.run t = .ok () t') ∨
      (∃ t', op.change.run t = .error .outOfMemory t') ∨
      ∃ k v e, op = .set k v ∧ Key.ofValue k = .error e) := by
  obtain ⟨hWell, hHolds⟩ := hRuns.holds
  have hLookup (k : Key) : Answers log k (t.lookup k) := answers_of_nonNil? (hHolds k)
  refine ⟨fun v k hKey => ?_, fun n => hLookup (.int n), fun s => ?_, fun s hShort => ?_,
    fun k v e hInvalid => ?_, fun op => ?_⟩
  · rw [get_eq hKey]
    exact hLookup k
  · rw [getStr_eq]
    exact hLookup (.str s)
  · rw [getShortStr_eq hShort]
    exact hLookup (.str s)
  · rw [set_run, hInvalid]
  · rcases op.change_cases hWell with
      ⟨t', hDone, _⟩ | ⟨t', _, hRefused⟩ | ⟨k, v, e, hOp, hInvalid, _⟩
    · exact Or.inl ⟨t', hDone⟩
    · exact Or.inr (Or.inl ⟨t', hRefused⟩)
    · exact Or.inr (Or.inr ⟨k, v, e, hOp, hInvalid⟩)

/-- A run in which an entry moves from a slot to a bucket and is overwritten. -/
theorem runs_refine_map_moved : ∃ log t, Runs log t ∧ t.array = #[] ∧
    Answers log (.int 1) (t.get (.int 1)) ∧ t.get (.int 1) = .bool false := by
  have hRuns := Runs.done (.failed (.done (.done (.done .new
    (.set (.int 1) (.bool true)) rfl)
    (.setStr ⟨0, 0, [102]⟩ (.int 7)) rfl)
    (.resize 0 4) rfl)
    (.set .nil (.int 1)) rfl (by decide))
    (.setInt 1 (.bool false)) rfl
  exact ⟨_, _, hRuns, by decide, (runs_refine_map hRuns).1 _ _ rfl, by decide⟩

end TaggedRuntime.Table
