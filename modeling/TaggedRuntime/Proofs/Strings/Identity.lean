import TaggedRuntime.Proofs.Heap.Basic
import TaggedRuntime.Proofs.Table.Operation
import TaggedRuntime.Proofs.Table.History
import TaggedRuntime.Strings

/-! Strings of one heap. Whatever operations made them, short ones of the same
contents are one string, so that equality of strings is equality of contents and
a table finds under one of them what was stored under another. -/

namespace TaggedRuntime

namespace Heap

variable {made : List Bytes} {contents : Bytes → Prop} {h h' : Heap} {s : Str}

/-- A string of a heap that has made strings of some contents, in this order. -/
structure Issued (made : List Bytes) (h : Heap) (s : Str) : Prop where
  home : s.home = h.number
  place : made[s.serial]? = some s.bytes
  canonical : h.Canonical s

/-- The interned strings of a heap are those of its short contents. -/
structure Interns (made : List Bytes) (contents : Bytes → Prop) (h : Heap) : Prop where
  serial : h.serial = made.length
  issued : ∀ (b : Bytes) (s : Str), h.strings[b]? = some s → s.bytes = b ∧ Issued made h s
  kept : ∀ b : Bytes, b ∈ h.strings ↔ b.length ≤ Limits.shortLength ∧ contents b

/-- Strings of a heap are told apart by their serial numbers. -/
theorem Issued.eq_of_serial {t : Str} (hs : Issued made h s) (ht : Issued made h t)
    (hSerial : s.serial = t.serial) : s = t := by
  have hBytes := hs.place
  rw [hSerial, ht.place, Option.some.injEq] at hBytes
  have hHome := hs.home.trans ht.home.symm
  cases s
  cases t
  simp_all

theorem Interns.congr {contents' : Bytes → Prop} (hInterns : Interns made contents h)
    (hSame : ∀ b, contents' b ↔ contents b) : Interns made contents' h :=
  ⟨hInterns.serial, hInterns.issued, fun b => by rw [hSame]; exact hInterns.kept b⟩

/-- What a heap leaves of its strings when it makes one more. -/
structure Makes (made : List Bytes) (contents : Bytes → Prop) (h h' : Heap) (s : Str)
    (made' : List Bytes) : Prop where
  interns : Interns made' (fun b => b = s.bytes ∨ contents b) h'
  issued : Issued made' h' s
  remains : ∀ q, Issued made h q → Issued made' h' q
  keys : h'.keys = h.keys

/-- A new string takes the next place, and is kept if it is short. Its serial number is new, so it
is none of the strings that were made before. -/
theorem Interns.makes_next (hInterns : Interns made contents h) {bytes : Bytes}
    (hKeys : h'.keys = h.keys) (hNumber : h'.number = h.number) (hSerial : h'.serial = h.serial + 1)
    (hNew : bytes.length ≤ Limits.shortLength → h.strings[bytes]? = none)
    (hStrings : ∀ b : Bytes, h'.strings[b]? =
      if b = bytes ∧ b.length ≤ Limits.shortLength then some (h.nextStr bytes)
      else h.strings[b]?) :
    Makes made contents h h' (h.nextStr bytes) (made ++ [bytes]) := by
  have hRemains (q : Str) (hq : Issued made h q) : Issued (made ++ [bytes]) h' q := by
    refine ⟨hq.home.trans hNumber.symm, ?_, fun hShort => ?_⟩
    · rw [List.getElem?_append_left (List.getElem?_eq_some_iff.mp hq.place).1]
      exact hq.place
    · have hOld := hq.canonical hShort
      rw [hStrings, if_neg, hOld]
      rintro ⟨rfl, hLe⟩
      rw [hNew hLe] at hOld
      cases hOld
  have hNext : Issued (made ++ [bytes]) h' (h.nextStr bytes) := by
    refine ⟨hNumber.symm, ?_, fun hShort => ?_⟩
    · simp [nextStr, hInterns.serial]
    · rw [hStrings]
      exact if_pos ⟨rfl, of_decide_eq_true hShort⟩
  refine ⟨⟨?_, fun b s hs => ?_, fun b => ?_⟩, hNext, hRemains, hKeys⟩
  · rw [hSerial, hInterns.serial, List.length_append, List.length_singleton]
  · rw [hStrings] at hs
    split at hs
    next hMade =>
      cases hs
      exact ⟨hMade.1.symm, hNext⟩
    next => exact ⟨(hInterns.issued b s hs).1, hRemains s (hInterns.issued b s hs).2⟩
  · rw [Std.HashMap.mem_iff_isSome_getElem?, hStrings]
    split
    next hMade => exact iff_of_true rfl ⟨hMade.2, Or.inl hMade.1⟩
    next hOther =>
      rw [← Std.HashMap.mem_iff_isSome_getElem?, hInterns.kept]
      refine and_congr_right fun hShort => (or_iff_right fun hEq => ?_).symm
      exact hOther ⟨hEq, hShort⟩

/-- The interned strings are as many as the contents that they are kept for. -/
theorem Interns.internedCount_eq {texts : List Bytes} (hInterns : Interns made (· ∈ texts) h) :
    h.internedCount = (texts.filter fun b => b.length ≤ Limits.shortLength).dedup.length := by
  rw [internedCount, ← Std.HashMap.length_keys]
  apply List.Perm.length_eq
  rw [List.perm_ext_iff_of_nodup Std.HashMap.nodup_keys (List.nodup_dedup _)]
  intro b
  rw [Std.HashMap.mem_keys, hInterns.kept, List.mem_dedup, List.mem_filter, decide_eq_true_iff,
    and_comm]

/-- Making a string gives one of its contents, and the heap keeps the contents that it kept and
these. Which of the two ways it goes is decided by the length, and for short ones by the contents
that are kept. -/
theorem Interns.newStr (hInterns : Interns made contents h) (bytes : Bytes) :
    ∃ s h' made', (newStr bytes).run h = .ok s h' ∧ s.bytes = bytes ∧
      Makes made contents h h' s made' := by
  rw [newStr_run]
  split
  next hLong =>
    refine ⟨_, _, _, rfl, rfl, hInterns.makes_next rfl rfl rfl
      (fun hShort => absurd hLong (Nat.not_lt.mpr hShort)) fun b => (if_neg ?_).symm⟩
    rintro ⟨rfl, hShort⟩
    exact Nat.not_lt.mpr hShort hLong
  next hShort =>
    have hShort := Nat.le_of_not_lt hShort
    cases hFound : h.strings[bytes]? with
    | some s =>
        obtain ⟨rfl, hIssued⟩ := hInterns.issued bytes s hFound
        have hMem : s.bytes ∈ h.strings := by
          rw [Std.HashMap.mem_iff_isSome_getElem?, hFound]
          rfl
        have hOld := ((hInterns.kept s.bytes).mp hMem).2
        refine ⟨s, h, made, rfl, rfl, hInterns.congr fun b => or_iff_right_of_imp ?_, hIssued,
          fun _ hq => hq, rfl⟩
        rintro rfl
        exact hOld
    | none =>
        refine ⟨_, _, _, rfl, rfl, hInterns.makes_next rfl rfl rfl (fun _ => hFound) fun b => ?_⟩
        rw [withStr, Std.HashMap.getElem?_insert]
        by_cases hEq : b = bytes
        · subst hEq
          simp [hShort]
        · simp [hEq, Ne.symm hEq]

end Heap

namespace Strings

open Heap (Interns Issued Makes)

/-- An operation that answers with a string of the heap. -/
inductive Maker where
  | new (bytes : Bytes)
  | concat (parts : List Str) (loc : Location)
  | char (code : Int64) (loc : Location)
  | sub (s : Str) (i j : Int64)
  | tostring (v : Value) (loc : Location)

def Maker.make : Maker → Run Heap Str
  | new bytes => Run.host {} (Heap.newStr bytes)
  | concat parts loc => Strings.concat parts loc
  | char code loc => Strings.char code loc
  | sub s i j => Strings.sub s i j
  | tostring v loc => Strings.tostring v loc

/-- The strings that a heap answered with, the ids that it gave to registered contents in turn,
and its answers to questions for a registered string. -/
structure Log where
  strings : List Str := []
  ids : List (UInt32 × Bytes) := []
  answers : List (UInt32 × Str) := []

/-- The contents of all strings that were made. -/
def Log.contents (log : Log) : List Bytes := log.strings.map (·.bytes) ++ log.ids.map (·.2)

/-- A string whose text is asked for is one of the heap. -/
def Maker.Own (log : Log) : Maker → Prop
  | tostring (.str s) _ => s ∈ log.strings
  | _ => True

/-- The runs of string operations on a heap that was new. -/
inductive Runs (number : Nat) : Log → Heap → Prop where
  | new : Runs number {} { number }
  | made {log config s} {j j' : Journal Heap} (hRuns : Runs number log j.host) (op : Maker)
      (hOwn : op.Own log) (hRun : op.make config j = .ok s j') :
      Runs number { log with strings := s :: log.strings } j'.host
  | refused {log config e} {j j' : Journal Heap} (hRuns : Runs number log j.host) (op : Maker)
      (hRun : op.make config j = .error e j') : Runs number log j'.host
  | registered {log h h' bytes id} (hRuns : Runs number log h)
      (hRun : (Heap.registerKey bytes).run h = .ok id h') :
      Runs number { log with ids := log.ids ++ [(id, bytes)] } h'
  | full {log h h' bytes e} (hRuns : Runs number log h)
      (hRun : (Heap.registerKey bytes).run h = .error e h') : Runs number log h'
  | asked {log h s id} (hRuns : Runs number log h) (hKey : h.key? id = some s) :
      Runs number { log with strings := s :: log.strings, answers := (id, s) :: log.answers } h

variable {log : Log} {made made' : List Bytes} {h h' : Heap} {s : Str} {number : Nat}

/-- Every string is made by the heap, but for one that is its own text. A maker that is refused
raises an error and makes none. -/
theorem Maker.make_eq (op : Maker) :
    (∃ loc bytes, op.make = Strings.make loc bytes) ∨
    (∃ s loc, op = .tostring (.str s) loc ∧ op.make = pure s) ∨
    ∃ kind loc, op.make = Run.raise kind loc := by
  cases op with
  | new bytes => exact Or.inl ⟨_, _, rfl⟩
  | concat parts loc =>
      simp only [make, Strings.concat]
      split
      next => exact Or.inr (Or.inr ⟨_, _, Run.raise_bind ..⟩)
      next => exact Or.inl ⟨_, _, rfl⟩
  | char code loc =>
      simp only [make, Strings.char]
      split
      next => exact Or.inl ⟨_, _, rfl⟩
      next => exact Or.inr (Or.inr ⟨_, _, rfl⟩)
  | sub s i j => exact Or.inl ⟨_, _, rfl⟩
  | tostring v loc =>
      cases v with
      | int n => exact Or.inl ⟨_, _, rfl⟩
      | float x => exact Or.inl ⟨_, _, rfl⟩
      | bool b => cases b <;> exact Or.inl ⟨_, _, rfl⟩
      | str s => exact Or.inr (Or.inl ⟨_, _, rfl, rfl⟩)
      | _ => exact Or.inr (Or.inr ⟨_, _, rfl⟩)

/-- A string comes from the heap, or it is its own text, or none is made and the heap stays as it
is. -/
theorem Maker.make_cases (op : Maker) (config : Config) (j : Journal Heap) :
    (∃ loc bytes, op.make config j = Strings.make loc bytes config j) ∨
    (∃ s loc, op = .tostring (.str s) loc ∧ op.make config j = .ok s j) ∨
    ∃ e j', op.make config j = .error e j' ∧ j'.host = j.host := by
  rcases op.make_eq with ⟨loc, bytes, hMake⟩ | ⟨s, loc, hOwn, hMake⟩ | ⟨kind, loc, hMake⟩
  · exact Or.inl ⟨loc, bytes, by rw [hMake]⟩
  · exact Or.inr (Or.inl ⟨s, loc, hOwn, by rw [hMake]; rfl⟩)
  · exact Or.inr (Or.inr ⟨_, _, by rw [hMake, Run.raise_run], Run.host_reported ..⟩)

/-- What a run leaves of its strings and ids. -/
structure Stands (log : Log) (made : List Bytes) (h : Heap) : Prop where
  interns : Interns made (· ∈ log.contents) h
  strings : ∀ s ∈ log.strings, Issued made h s
  keys : ∀ s ∈ h.keys, Issued made h s
  registered : h.keys.toList.map (·.bytes) = log.ids.map (·.2)
  ids : ∀ (i : Nat) (q : UInt32 × Bytes), log.ids[i]? = some q → q.1.toNat = i
  answers : ∀ q ∈ log.answers, h.key? q.1 = some q.2

/-- A new heap stands for an empty log. -/
theorem stands_new (number : Nat) : Stands {} [] { number } := by
  refine ⟨⟨rfl, fun b s hs => ?_, fun b => ?_⟩, fun s hs => ?_, fun s hs => ?_, rfl,
    fun i q hq => ?_, fun q hq => ?_⟩
  · simp at hs
  · simp [Log.contents]
  · cases hs
  · simp at hs
  · simp at hq
  · cases hq

/-- A string that was made goes to the log with its contents. -/
theorem Stands.after_made (hStands : Stands log made h)
    (hMakes : Makes made (· ∈ log.contents) h h' s made') :
    Stands { log with strings := s :: log.strings } made' h' := by
  refine ⟨hMakes.interns.congr fun b => List.mem_cons, fun q hq => ?_, fun q hq => ?_, ?_,
    hStands.ids, fun q hq => ?_⟩
  · rcases List.mem_cons.mp hq with rfl | hOld
    · exact hMakes.issued
    · exact hMakes.remains q (hStands.strings q hOld)
  · rw [hMakes.keys] at hq
    exact hMakes.remains q (hStands.keys q hq)
  · rw [hMakes.keys]
    exact hStands.registered
  · rw [Heap.key?_congr hMakes.keys]
    exact hStands.answers q hq

/-- A string that is answered again. It was made or registered before, so nothing is new but the
entry of the log. -/
theorem Stands.after_again (hStands : Stands log made h) (hs : s ∈ log.strings ∨ s ∈ h.keys) :
    Stands { log with strings := s :: log.strings } made h := by
  have hIssued : Issued made h s := hs.elim (hStands.strings s) (hStands.keys s)
  have hKnown : s.bytes ∈ log.contents := by
    unfold Log.contents
    rw [List.mem_append, ← hStands.registered]
    exact hs.imp (List.mem_map_of_mem ·) fun hKey => List.mem_map_of_mem (Array.mem_toList_iff.mpr hKey)
  refine ⟨hStands.interns.congr fun b => ?_, fun q hq => ?_, hStands.keys, hStands.registered,
    hStands.ids, hStands.answers⟩
  · exact List.mem_cons.trans (or_iff_right_of_imp fun hEq => hEq ▸ hKnown)
  · rcases List.mem_cons.mp hq with rfl | hOld
    · exact hIssued
    · exact hStands.strings q hOld

/-- A registered key goes to the log under the number that it got. Numbers are given in order and
never twice. -/
theorem Stands.after_registered (hStands : Stands log made h) {bytes : Bytes}
    (hMakes : Makes made (· ∈ log.contents) h h' s made') (hBytes : s.bytes = bytes)
    (hRoom : h.keys.size < Limits.handles) :
    Stands { log with ids := log.ids ++ [(UInt32.ofNat h.keys.size, bytes)] } made'
      (h'.withKey s) := by
  have hSize : h.keys.size = log.ids.length := by
    simpa using congrArg List.length hStands.registered
  have hIssued (q : Str) (hq : Issued made' h' q) : Issued made' (h'.withKey s) q :=
    ⟨hq.home, hq.place, hq.canonical⟩
  have hContents (b : Bytes) :
      b ∈ ({ log with ids := log.ids ++ [(UInt32.ofNat h.keys.size, bytes)] } : Log).contents ↔
        b = s.bytes ∨ b ∈ log.contents := by
    simp only [Log.contents, List.map_append, List.mem_append, List.map_singleton,
      List.mem_singleton, hBytes]
    tauto
  have hInterns := hMakes.interns.congr hContents
  refine ⟨⟨hInterns.serial, fun b q hq => ?_, hInterns.kept⟩, fun q hq => ?_, fun q hq => ?_, ?_,
    fun i q hq => ?_, fun q hq => ?_⟩
  · exact ⟨(hInterns.issued b q hq).1, hIssued q (hInterns.issued b q hq).2⟩
  · exact hIssued q (hMakes.remains q (hStands.strings q hq))
  · rw [Heap.withKey, Array.mem_push, hMakes.keys] at hq
    rcases hq with hOld | rfl
    · exact hIssued q (hMakes.remains q (hStands.keys q hOld))
    · exact hIssued q hMakes.issued
  · simp [Heap.withKey, hMakes.keys, hStands.registered, hBytes]
  · rcases Nat.lt_or_ge i log.ids.length with hOld | hNext
    · rw [List.getElem?_append_left hOld] at hq
      exact hStands.ids i q hq
    · rw [List.getElem?_append_right hNext, List.getElem?_singleton] at hq
      split at hq
      next hEq =>
        cases hq
        rw [UInt32.toNat_ofNat_of_lt' hRoom, hSize]
        omega
      next => cases hq
  · have hOld := hStands.answers q hq
    rw [Heap.key?_withKey (hMakes.keys ▸ hRoom), Heap.key?_congr hMakes.keys, if_neg, hOld]
    intro hEq
    rw [hEq, hMakes.keys, Heap.key?, UInt32.toNat_ofNat_of_lt' hRoom] at hOld
    simp at hOld

/-- Every state of a run stands for its log. The induction is on the run, with one case for each
kind of maker. -/
theorem Runs.stands (hRuns : Runs number log h) : ∃ made, Stands log made h := by
  induction hRuns with
  | new => exact ⟨[], stands_new number⟩
  | @made log config s j j' hRuns op hOwn hRun ih =>
      obtain ⟨made, hStands⟩ := ih
      rcases op.make_cases config j with ⟨loc, bytes, hMake⟩ | ⟨q, loc, rfl, hMake⟩ |
        ⟨e, j₁, hMake, _⟩
      · obtain ⟨s', h', made', hNew, _, hMakes⟩ := hStands.interns.newStr bytes
        rw [hRun, make, Run.host_run, hNew, EStateM.Result.ok.injEq] at hMake
        obtain ⟨rfl, rfl⟩ := hMake
        exact ⟨made', hStands.after_made hMakes⟩
      · rw [hRun, EStateM.Result.ok.injEq] at hMake
        obtain ⟨rfl, rfl⟩ := hMake
        exact ⟨made, hStands.after_again (Or.inl hOwn)⟩
      · rw [hRun] at hMake
        cases hMake
  | @refused log config e j j' hRuns op hRun ih =>
      obtain ⟨made, hStands⟩ := ih
      rcases op.make_cases config j with ⟨loc, bytes, hMake⟩ | ⟨q, loc, rfl, hMake⟩ |
        ⟨e', j₁, hMake, hHost⟩
      · obtain ⟨s', h', made', hNew, _, _⟩ := hStands.interns.newStr bytes
        rw [hRun, make, Run.host_run, hNew] at hMake
        cases hMake
      · rw [hRun] at hMake
        cases hMake
      · rw [hRun, EStateM.Result.error.injEq] at hMake
        obtain ⟨rfl, rfl⟩ := hMake
        exact ⟨made, hHost ▸ hStands⟩
  | @registered log h h' bytes id hRuns hRun ih =>
      obtain ⟨made, hStands⟩ := ih
      obtain ⟨s, h₁, made', hNew, hBytes, hMakes⟩ := hStands.interns.newStr bytes
      rw [Heap.registerKey_run hNew] at hRun
      split at hRun
      next => cases hRun
      next hRoom =>
        cases hRun
        exact ⟨made', hStands.after_registered hMakes hBytes (Nat.lt_of_not_le hRoom)⟩
  | @full log h h' bytes e hRuns hRun ih =>
      obtain ⟨made, hStands⟩ := ih
      obtain ⟨s, h₁, made', hNew, _, _⟩ := hStands.interns.newStr bytes
      rw [Heap.registerKey_run hNew] at hRun
      split at hRun
      next =>
        cases hRun
        exact ⟨made, hStands⟩
      next => cases hRun
  | @asked log h s id hRuns hKey ih =>
      obtain ⟨made, hStands⟩ := ih
      have hAgain := hStands.after_again (Or.inr (Array.mem_of_getElem? hKey))
      refine ⟨made, hAgain.interns, hAgain.strings, hAgain.keys, hAgain.registered, hAgain.ids,
        fun q hq => ?_⟩
      rcases List.mem_cons.mp hq with rfl | hOld
      · exact hKey
      · exact hStands.answers q hOld

/-- Equal strings find the same entries. Long strings are found by contents, and short ones by
identity, which is the same for strings of one heap. -/
theorem found_under_equal {table : Table} (hReachable : table.Reachable) {t : Str}
    (hEqual : s.equal t = true) :
    (table.getStr t).nonNil? = (table.getStr s).nonNil? ∧
    (table.get (.str t)).nonNil? = (table.getStr s).nonNil? ∧
    ∀ v table', (Table.setStr s v).run table = .ok () table' →
      (table'.getStr t).nonNil? = v.nonNil? := by
  have hSame : (Key.str s).same (.str t) = true := hEqual
  have hEntry : table.held? (.str t) = table.held? (.str s) :=
    (Table.held?_eq_of_same hReachable.wellFormed.toChained hSame).symm
  refine ⟨?_, ?_, fun v table' hRun => ?_⟩
  · rw [Table.getStr_eq, Table.getStr_eq]
    exact hEntry
  · rw [Table.getStr_eq]
    exact hEntry
  · have hChange : (Table.Operation.setStr s v).change.run table = .ok () table' := hRun
    have hAfter := Table.Operation.after_of_ok hReachable.wellFormed hChange
    rw [Table.getStr_eq]
    exact (hAfter.entry (.str t)).trans (if_pos hSame)

/-- Strings of one heap are equal exactly when their contents are, short ones are then one
string, and tables agree on them. Every short content is interned once. Registered contents have
the ids from zero on, and an id answers with the same string for ever. -/
theorem strings_identified (hRuns : Runs number log h) :
    (∀ s ∈ log.strings, ∀ t ∈ log.strings,
      (s.equal t = true ↔ s.bytes = t.bytes) ∧
      (s.isShort = true → t.isShort = true → (s = t ↔ s.bytes = t.bytes)) ∧
      (s.serial = t.serial → s = t) ∧
      (s.bytes = t.bytes → ∀ table : Table, table.Reachable →
        (table.getStr t).nonNil? = (table.getStr s).nonNil? ∧
        (table.get (.str t)).nonNil? = (table.getStr s).nonNil? ∧
        ∀ v table', (Table.setStr s v).run table = .ok () table' →
          (table'.getStr t).nonNil? = v.nonNil?)) ∧
    h.internedCount = (log.contents.filter fun b => b.length ≤ Limits.shortLength).dedup.length ∧
    (∀ (i : Nat) (id : UInt32) (bytes : Bytes), log.ids[i]? = some (id, bytes) →
      id.toNat = i ∧ ∃ s, h.key? id = some s ∧ s.bytes = bytes) ∧
    (∀ id s, (id, s) ∈ log.answers → h.key? id = some s) ∧
    (log.ids.length < Limits.handles → ∀ bytes, ∃ h',
      (Heap.registerKey bytes).run h = .ok (UInt32.ofNat log.ids.length) h') := by
  obtain ⟨made, hStands⟩ := hRuns.stands
  refine ⟨fun s hs t ht => ?_, hStands.interns.internedCount_eq, fun i id bytes hId => ?_,
    fun id s hAnswer => hStands.answers (id, s) hAnswer, fun hRoom bytes => ?_⟩
  · have hsIssued := hStands.strings s hs
    have htIssued := hStands.strings t ht
    have hEqual := hsIssued.canonical.equal_iff htIssued.canonical
    refine ⟨hEqual, fun hShort _ => ?_, hsIssued.eq_of_serial htIssued,
      fun hBytes table hReachable => found_under_equal hReachable (hEqual.mpr hBytes)⟩
    refine ⟨congrArg Str.bytes, fun hBytes => ?_⟩
    rcases (Str.equal_iff s t).mp (hEqual.mpr hBytes) with hSame | ⟨hLong, _⟩
    · exact hSame
    · rw [hShort] at hLong
      cases hLong
  · have hNumber : id.toNat = i := hStands.ids i (id, bytes) hId
    refine ⟨hNumber, ?_⟩
    have hContents := congrArg (·[i]?) hStands.registered
    simp only [List.getElem?_map, hId, Array.getElem?_toList, Option.map_some] at hContents
    obtain ⟨s, hs, hBytes⟩ := Option.map_eq_some_iff.mp hContents
    exact ⟨s, by rw [Heap.key?, hNumber, hs], hBytes⟩
  · have hSize : h.keys.size = log.ids.length := by
      simpa using congrArg List.length hStands.registered
    obtain ⟨s, h', _, hNew, _, _⟩ := hStands.interns.newStr bytes
    rw [Heap.registerKey_run hNew, hSize, if_neg (Nat.not_le.mpr hRoom)]
    exact ⟨_, rfl⟩

/-- A character and a registered key of the same contents. -/
theorem strings_identified_registered : ∃ log h s t, Runs 0 log h ∧ log.strings = [t, s] ∧
    log.ids = [(0, [97])] ∧ s = t ∧ h.internedCount = 1 := by
  obtain ⟨s, h₁, _, hNew, hs, _⟩ := (stands_new 0).interns.newStr [97]
  have hChar : (Maker.char 97 {}).make {} { host := {} } = .ok s { host := h₁ } := by
    change Strings.make {} [97] {} { host := {} } = .ok s { host := h₁ }
    rw [make, Run.host_run, hNew]
  have hMade : Runs 0 { strings := [s] } h₁ :=
    @Runs.made 0 {} {} s { host := {} } { host := h₁ } .new (.char 97 {}) trivial hChar
  obtain ⟨h₂, hRegister⟩ := (strings_identified hMade).2.2.2.2 (twoPow_pos 32) [97]
  have hRegistered := hMade.registered hRegister
  obtain ⟨_, t, hKey, ht⟩ := (strings_identified hRegistered).2.2.1 0 0 [97] rfl
  obtain ⟨hStrings, hCount, _⟩ := strings_identified (hRegistered.asked hKey)
  have hShort (q : Str) (hq : q.bytes = [97]) : q.isShort = true := by
    rw [Str.isShort, Str.length, hq]
    rfl
  refine ⟨_, _, s, t, hRegistered.asked hKey, rfl, rfl, ?_, ?_⟩
  · exact ((hStrings s (by simp) t (by simp)).2.1 (hShort s hs) (hShort t ht)).mpr
      (hs.trans ht.symm)
  · rw [hCount]
    simp only [Log.contents, List.map_cons, List.map_nil, hs, ht]
    rfl

end Strings

end TaggedRuntime
