import TaggedRuntime.Proofs.Table.Census

/-! How stores and rebuilds call each other. A store may rebuild the table, a
rebuild stores entries again, and nothing in that bounds the recursion. It ends
because the sizes that a rebuild asks for are counted over the same keys that
come to ask for a bucket. The store of a rebuild never asks for another one. -/

namespace TaggedRuntime.Table

/-- How a store or a resize ends. -/
abbrev Outcome := EStateM.Result StoreError Table Unit

/-- The rebuilds of several stores. -/
def total (counts : List Nat) : Nat := counts.foldr (· + ·) 0

mutual

/-- A store without a bound on rebuilds, and how many it makes. Those that are made
on the way by entries that are stored again count as well. A store that is
allowed none tells where a rebuild is asked for. -/
inductive Puts : Table → Key → Value → Nat → Outcome → Prop where
  | settled (hRun : (setKey 0 k v).run t = .ok () t') : Puts t k v 0 (.ok () t')
  | rebuilt (hFull : (setKey 0 k v).run t = .error .unsettled t₁)
      (hResize : Resizes t₁ (t₁.sizesWith k).1 (t₁.sizesWith k).2 counts (.ok () t₂))
      (hAgain : Puts t₂ k v n r) : Puts t k v (total counts + n + 1) r
  | failed (hFull : (setKey 0 k v).run t = .error .unsettled t₁)
      (hResize : Resizes t₁ (t₁.sizesWith k).1 (t₁.sizesWith k).2 counts (.error e t₂)) :
      Puts t k v (total counts + 1) (.error e t₂)

/-- A resize, and how many rebuilds each entry makes that is stored again. -/
inductive Resizes : Table → Nat → Nat → List Nat → Outcome → Prop where
  | refused (hPast : twoPow Limits.arrayBits < arraySize ∨ Limits.hashBits < ceilLog2 hashSize) :
      Resizes t arraySize hashSize [] (.error .outOfMemory t)
  | within (hWithin : ¬(twoPow Limits.arrayBits < arraySize ∨ Limits.hashBits < ceilLog2 hashSize))
      (hAll : PutsAll (t.cleared arraySize hashSize) (t.displaced arraySize) counts r) :
      Resizes t arraySize hashSize counts r

/-- Entries that are stored one by one, up to the first that is refused. -/
inductive PutsAll : Table → List (Key × Value) → List Nat → Outcome → Prop where
  | nil : PutsAll t [] [] (.ok () t)
  | cons (hPut : Puts t k v n (.ok () t')) (hRest : PutsAll t' rest counts r) :
      PutsAll t ((k, v) :: rest) (n :: counts) r
  | failed (hPut : Puts t k v n (.error e t')) : PutsAll t ((k, v) :: rest) [n] (.error e t')

end

/-- The three ways that a store goes: without a rebuild; with one that is refused
because it needs too many buckets; or with one after which it is stored, when
no entry of that rebuild and no second attempt asked for another. A rebuild is
asked for only if every bucket holds a key. -/
inductive Course (t : Table) (k : Key) (v : Value) : Nat → Outcome → Prop where
  | settled (hRun : (setKey 0 k v).run t = .ok () t') : Course t k v 0 (.ok () t')
  | refused (hTaken : t.capacity ≤ t.occupied)
      (hFull : (setKey 0 k v).run t = .error .unsettled t₁)
      (hLarge : twoPow Limits.hashBits < (t₁.sizesWith k).2) :
      Course t k v 1 (.error .outOfMemory t₁)
  | rebuilt (hTaken : t.capacity ≤ t.occupied)
      (hFull : (setKey 0 k v).run t = .error .unsettled t₁)
      (hWithin : (t₁.sizesWith k).2 ≤ twoPow Limits.hashBits)
      (hRoom : (t₁.liveKeys ++ [k]).countP (fun l => ((t₁.emptied k).slot? l).isNone) ≤
        (t₁.emptied k).capacity)
      (hRebuild : (rehash (setKey 0) k).run t₁ = .ok () t₂)
      (hAgain : (setKey 0 k v).run t₂ = .ok () t') : Course t k v 1 (.ok () t')

variable {t t₁ t₂ t' : Table} {k : Key} {v : Value} {n : Nat} {r : Outcome} {counts : List Nat}
  {entries : List (Key × Value)}

/-! ### Stores that ask for a rebuild -/

/-- What a store does before it asks for a rebuild does not depend on what is done then. What it
leaves when it asks is the table with its bound exhausted. -/
theorem newKey_uniform (t : Table) (k : Key) (v : Value) :
    (∃ t', ∀ grow, (newKey grow k v).run t = .ok () t') ∨
      ∀ grow, (newKey grow k v).run t = (grow k v).run t.exhausted := by
  cases hLast : t.lastFree with
  | none => exact Or.inr fun _ => newKey_of_dummy hLast
  | some bound =>
      have hReal : t.isDummy = false := by simp [isDummy, hLast]
      cases hDead : (t.node (t.home k)).value.isNil with
      | true => exact Or.inl ⟨_, fun _ => newKey_of_dead hDead hReal⟩
      | false =>
          cases hFound : t.vacantBelow bound with
          | some free => exact Or.inl ⟨_, fun _ => newKey_of_free hDead hLast hFound⟩
          | none => exact Or.inr fun _ => newKey_of_exhausted hDead hLast hFound

/-- A store ends by itself, or it asks for a rebuild. Which of the two it is, and what it leaves,
does not depend on what the rebuild will do. -/
theorem setKeyWith_uniform (t : Table) (k : Key) (v : Value) :
    (∃ t', ∀ grow, (setKeyWith grow k v).run t = .ok () t') ∨
      ∀ grow, (setKeyWith grow k v).run t = (grow k v).run t.exhausted := by
  simp only [setKeyWith_run]
  cases t.slot? k with
  | some i => exact Or.inl ⟨_, fun _ => rfl⟩
  | none =>
      cases t.find? k with
      | some n => exact Or.inl ⟨_, fun _ => rfl⟩
      | none =>
          cases v.isNil with
          | true => exact Or.inl ⟨t, fun _ => rfl⟩
          | false => exact newKey_uniform t k v

/-- A store that needs no rebuild does the same with any bound on them. -/
theorem setKey_of_settled (hRun : (setKey 0 k v).run t = .ok () t') (bound : Nat) :
    (setKey bound k v).run t = .ok () t' := by
  rcases setKeyWith_uniform t k v with ⟨t₁, hSame⟩ | hGrows
  · rw [setKey, hSame] at hRun
    cases bound <;> rw [setKey, hSame, hRun]
  · rw [setKey, hGrows] at hRun
    cases hRun

/-- A store asks for a rebuild only for a live value under a new key, when every bucket holds
another, and has changed nothing but where free buckets are sought. -/
theorem exhausted_of_full {e : StoreError} (hWell : t.WellFormed) (hKey : k ≠ .vacant)
    (hFull : (setKey 0 k v).run t = .error e t₁) :
    t₁ = t.exhausted ∧ t₁.WellFormed ∧ t.Insertable k ∧ v.isNil = false := by
  rcases setKeyWith_cases hWell hKey (fun _ _ => throw .unsettled) v with
    ⟨t', hRun, _⟩ | ⟨_, hExhausted, hNew, hLive, hRun⟩
  · rw [setKey, hRun] at hFull
    cases hFull
  · rw [setKey, hRun] at hFull
    cases hFull
    exact ⟨rfl, hExhausted, hNew, hLive⟩

/-- A store that asks for a rebuild goes on with it when it may. It starts over with one rebuild
less. -/
theorem setKey_of_full {e : StoreError} (hRun : (setKey 0 k v).run t = .error e t₁)
    (bound : Nat) : (setKey (bound + 1) k v).run t =
      match (rehash (setKey bound) k).run t₁ with
      | .ok _ t₂ => (setKey bound k v).run t₂
      | .error e t₂ => .error e t₂ := by
  rcases setKeyWith_uniform t k v with ⟨t', hSame⟩ | hGrows
  · rw [setKey, hSame] at hRun
    cases hRun
  · rw [setKey, hGrows] at hRun
    cases hRun
    rw [setKey, hGrows]
    exact growth_run bound k v _

/-- Entries that can be stored without a rebuild are stored in the same way under any bound. -/
theorem forM_of_settled
    (hRun : (entries.forM fun e => setKey 0 e.1 e.2).run t = .ok () t') (bound : Nat) :
    (entries.forM fun e => setKey bound e.1 e.2).run t = .ok () t' := by
  induction entries generalizing t with
  | nil => exact hRun
  | cons e rest ih =>
      rw [forM_cons_run] at hRun ⊢
      split at hRun
      next t₁ hStep =>
        rw [setKey_of_settled hStep]
        exact ih hRun
      next => cases hRun

/-! ### The room that a rebuild makes -/

/-- The sizes that a rebuild asks for leave a slot or a bucket for every entry and
for the new key. -/
theorem demand_of_live (hSlots : t.arrayLimit ≤ twoPow Limits.arrayBits) (k : Key) :
    (t.liveKeys ++ [k]).countP (fun l => ((t.emptied k).slot? l).isNone) = (t.sizesWith k).2 ∧
      (t.sizesWith k).2 ≤ (t.emptied k).capacity := by
  refine ⟨?_, hashSize_le_capacity_cleared t _ _⟩
  simp only [isNone_slot?_emptied]
  exact (sizesWith_demand hSlots k).symm

/-! ### How a store goes -/

/-- Every store into a well-formed table goes in one of the ways that are described, so the
recursion is covered. -/
theorem course_of_wellFormed (hWell : t.WellFormed) (hKey : k ≠ .vacant) (v : Value) :
    ∃ n r, Course t k v n r := by
  rcases setKeyWith_cases hWell hKey (fun _ _ => throw .unsettled) v with
    ⟨t', hRun, _⟩ | ⟨hTaken, hWell', _, _, hFull⟩
  · exact ⟨0, _, .settled hRun⟩
  · rcases Nat.lt_or_ge (twoPow Limits.hashBits) (t.exhausted.sizesWith k).2 with hLarge | hWithin
    · exact ⟨1, _, .refused hTaken hFull hLarge⟩
    · obtain ⟨t₂, hRebuild, hSame, hFree, _⟩ :=
        rehash_grown (stores_setKey 0) hWell' ((ceilLog2_le_iff _ _).mpr hWithin)
      obtain ⟨t', hAgain, _⟩ := setKey_settled hSame.wellFormed hKey hFree 0 v
      obtain ⟨hDemand, hRoom⟩ := demand_of_live hWell'.slots k
      exact ⟨1, _, .rebuilt hTaken hFull hWithin (hDemand ▸ hRoom) hRebuild hAgain⟩

/-! ### The recursion -/

theorem total_none (stores : Nat) : total (List.replicate stores 0) = 0 := by
  induction stores with
  | zero => rfl
  | succ stores ih =>
      rw [List.replicate_succ, total, List.foldr_cons, Nat.zero_add]
      exact ih

/-- A store that needs no rebuild goes one way only in the recursion. The relation has no other rule
for it. -/
theorem puts_of_settled (hRun : (setKey 0 k v).run t = .ok () t') :
    Puts t k v n r ↔ n = 0 ∧ r = .ok () t' := by
  constructor
  · intro hPuts
    cases hPuts with
    | settled hRun' =>
        rw [hRun] at hRun'
        cases hRun'
        exact ⟨rfl, rfl⟩
    | rebuilt hFull =>
        rw [hRun] at hFull
        cases hFull
    | failed hFull =>
        rw [hRun] at hFull
        cases hFull
  · rintro ⟨rfl, rfl⟩
    exact .settled hRun

/-- Entries that are stored without a rebuild make none. The induction is on the entries. -/
theorem putsAll_of_settled
    (hRun : (entries.forM fun e => setKey 0 e.1 e.2).run t = .ok () t') :
    PutsAll t entries counts r ↔ counts = List.replicate entries.length 0 ∧ r = .ok () t' := by
  induction entries generalizing t counts with
  | nil =>
      cases hRun
      constructor
      · intro hPuts
        cases hPuts
        exact ⟨rfl, rfl⟩
      · rintro ⟨rfl, rfl⟩
        exact .nil
  | cons e rest ih =>
      rw [forM_cons_run] at hRun
      split at hRun
      next t₁ hStep =>
        constructor
        · intro hPuts
          cases hPuts with
          | cons hPut hRest =>
              obtain ⟨rfl, hStored⟩ := (puts_of_settled hStep).mp hPut
              cases hStored
              obtain ⟨rfl, rfl⟩ := (ih hRun).mp hRest
              exact ⟨rfl, rfl⟩
          | failed hPut =>
              obtain ⟨_, hStored⟩ := (puts_of_settled hStep).mp hPut
              cases hStored
        · rintro ⟨rfl, rfl⟩
          exact .cons (.settled hStep) ((ih hRun).mpr ⟨rfl, rfl⟩)
      next => cases hRun

/-- The sizes of a rebuild are past the limits only if it needs too many buckets. -/
theorem sizesWith_past_iff (t : Table) (k : Key) :
    (twoPow Limits.arrayBits < (t.sizesWith k).1 ∨ Limits.hashBits < ceilLog2 (t.sizesWith k).2) ↔
      twoPow Limits.hashBits < (t.sizesWith k).2 := by
  have hArray := t.sizesWith_fst_le k
  have hHash := ceilLog2_le_iff (t.sizesWith k).2 Limits.hashBits
  omega

/-- A rebuild within the limits goes one way only: its stores make no rebuilds of their own. -/
theorem resizes_of_rebuild (hWithin : (t.sizesWith k).2 ≤ twoPow Limits.hashBits)
    (hRebuild : (rehash (setKey 0) k).run t = .ok () t') :
    Resizes t (t.sizesWith k).1 (t.sizesWith k).2 counts r ↔
      counts = List.replicate (t.displaced (t.sizesWith k).1).length 0 ∧ r = .ok () t' := by
  rw [rehash_of_le _ ((ceilLog2_le_iff _ _).mpr hWithin)] at hRebuild
  have hNotPast := mt (t.sizesWith_past_iff k).mp (Nat.not_lt.mpr hWithin)
  rw [← putsAll_of_settled hRebuild]
  constructor
  · intro hResize
    cases hResize with
    | refused hPast => exact absurd hPast hNotPast
    | within _ hAll => exact hAll
  · exact fun hAll => .within hNotPast hAll

/-- The recursion goes the way of a store, and no other. So the relation, which has no bound, is a
function on well-formed tables. -/
theorem Course.puts_iff (hCourse : Course t k v n r) (m : Nat) (s : Outcome) :
    Puts t k v m s ↔ m = n ∧ s = r := by
  cases hCourse with
  | settled hRun => exact puts_of_settled hRun
  | @refused t₁ _ hFull hLarge =>
      have hPast := (t₁.sizesWith_past_iff k).mpr hLarge
      constructor
      · intro hPuts
        cases hPuts with
        | settled hRun =>
            rw [hFull] at hRun
            cases hRun
        | rebuilt hFull' hResize =>
            rw [hFull] at hFull'
            cases hFull'
            cases hResize with
            | within hWithin => exact absurd hPast hWithin
        | failed hFull' hResize =>
            rw [hFull] at hFull'
            cases hFull'
            cases hResize with
            | refused => exact ⟨rfl, rfl⟩
            | within hWithin => exact absurd hPast hWithin
      · rintro ⟨rfl, rfl⟩
        exact .failed hFull (.refused hPast)
  | @rebuilt t₁ t₂ t' _ hFull hWithin _ hRebuild hAgain =>
      constructor
      · intro hPuts
        cases hPuts with
        | settled hRun =>
            rw [hFull] at hRun
            cases hRun
        | rebuilt hFull' hResize hAgain' =>
            rw [hFull] at hFull'
            cases hFull'
            obtain ⟨rfl, hDone⟩ := (resizes_of_rebuild hWithin hRebuild).mp hResize
            cases hDone
            obtain ⟨rfl, rfl⟩ := (puts_of_settled hAgain).mp hAgain'
            exact ⟨by rw [total_none], rfl⟩
        | failed hFull' hResize =>
            rw [hFull] at hFull'
            cases hFull'
            obtain ⟨_, hDone⟩ := (resizes_of_rebuild hWithin hRebuild).mp hResize
            cases hDone
      · rintro ⟨rfl, rfl⟩
        have hPuts := Puts.rebuilt hFull ((resizes_of_rebuild hWithin hRebuild).mpr ⟨rfl, rfl⟩)
          (.settled hAgain)
        rwa [total_none] at hPuts

/-- A bound on rebuilds that allows one is no bound. The result is the one of the recursion without
any. -/
theorem Course.setKey_run (hCourse : Course t k v n r) (bound : Nat) :
    (setKey (bound + 1) k v).run t = r := by
  cases hCourse with
  | settled hRun => exact setKey_of_settled hRun _
  | refused _ hFull hLarge =>
      rw [setKey_of_full hFull, rehash_of_lt]
      exact Nat.lt_of_not_le (mt (ceilLog2_le_iff _ _).mp (Nat.not_le.mpr hLarge))
  | rebuilt _ hFull hWithin _ hRebuild hAgain =>
      have hHash := (ceilLog2_le_iff _ _).mpr hWithin
      rw [rehash_of_le _ hHash] at hRebuild
      rw [setKey_of_full hFull, rehash_of_le _ hHash, forM_of_settled hRebuild]
      exact setKey_of_settled hAgain bound

theorem Course.le_one (hCourse : Course t k v n r) : n ≤ 1 := by
  cases hCourse <;> decide

/-- Entries that are stored one by one make one rebuild each at most. The counts and the result are
the only ones that the relation allows. -/
theorem putsAll_total (hKeys : ∀ e ∈ entries, e.1 ≠ .vacant) (hWell : t.WellFormed) :
    ∃ counts r, (∀ n ∈ counts, n ≤ 1) ∧
      (∀ ms s, PutsAll t entries ms s ↔ ms = counts ∧ s = r) ∧
      (entries.forM fun e => setKey 1 e.1 e.2).run t = r := by
  induction entries generalizing t with
  | nil =>
      refine ⟨[], .ok () t, by simp, fun ms s => ⟨fun hAll => ?_, ?_⟩, rfl⟩
      · cases hAll
        exact ⟨rfl, rfl⟩
      · rintro ⟨rfl, rfl⟩
        exact .nil
  | cons e rest ih =>
      have hKey := hKeys e List.mem_cons_self
      obtain ⟨n, r, hCourse⟩ := course_of_wellFormed hWell hKey e.2
      have hPuts := hCourse.puts_iff
      have hRun := hCourse.setKey_run 0
      rcases setKey_cases hWell hKey 0 e.2 with ⟨t', hDone, hStored⟩ | ⟨_, hRefused⟩
      · rw [hDone] at hRun
        subst hRun
        obtain ⟨counts, r, hOnce, hAll, hRest⟩ :=
          ih (fun d hd => hKeys d (List.mem_cons_of_mem _ hd)) hStored.wellFormed
        refine ⟨n :: counts, r, ?_, fun ms s => ⟨fun hPutsAll => ?_, ?_⟩, ?_⟩
        · exact List.forall_mem_cons.mpr ⟨hCourse.le_one, hOnce⟩
        · cases hPutsAll with
          | cons hPut hPutsRest =>
              obtain ⟨rfl, hStep⟩ := (hPuts _ _).mp hPut
              cases hStep
              obtain ⟨rfl, rfl⟩ := (hAll _ _).mp hPutsRest
              exact ⟨rfl, rfl⟩
          | failed hPut =>
              obtain ⟨_, hStep⟩ := (hPuts _ _).mp hPut
              cases hStep
        · rintro ⟨rfl, rfl⟩
          exact .cons ((hPuts _ _).mpr ⟨rfl, rfl⟩) ((hAll _ _).mpr ⟨rfl, rfl⟩)
        · rw [forM_cons_run, hDone]
          exact hRest
      · rw [hRefused] at hRun
        subst hRun
        refine ⟨[n], .error .outOfMemory t.exhausted, ?_, fun ms s => ⟨fun hPutsAll => ?_, ?_⟩, ?_⟩
        · exact List.forall_mem_singleton.mpr hCourse.le_one
        · cases hPutsAll with
          | cons hPut =>
              obtain ⟨_, hStep⟩ := (hPuts _ _).mp hPut
              cases hStep
          | failed hPut =>
              obtain ⟨rfl, hStep⟩ := (hPuts _ _).mp hPut
              exact ⟨rfl, hStep⟩
        · rintro ⟨rfl, rfl⟩
          exact .failed ((hPuts _ _).mpr ⟨rfl, rfl⟩)
        · rw [forM_cons_run, hRefused]

/-- A resize ends, and the entries that it stores again make one rebuild each at most. The bounded
program gives the same result. -/
theorem resizes_total (hWell : t.WellFormed) (arraySize hashSize : Nat) :
    ∃ counts r, (∀ n ∈ counts, n ≤ 1) ∧
      (∀ ms s, Resizes t arraySize hashSize ms s ↔ ms = counts ∧ s = r) ∧
      (resize arraySize hashSize).run t = r := by
  rw [resize, resizeWith_run]
  by_cases hPast : twoPow Limits.arrayBits < arraySize ∨ Limits.hashBits < ceilLog2 hashSize
  · rw [if_pos hPast]
    refine ⟨[], _, by simp, fun ms s => ⟨fun hResize => ?_, ?_⟩, rfl⟩
    · cases hResize with
      | refused => exact ⟨rfl, rfl⟩
      | within hWithin => exact absurd hPast hWithin
    · rintro ⟨rfl, rfl⟩
      exact .refused hPast
  · rw [if_neg hPast]
    have hLimits := not_or.mp hPast
    obtain ⟨counts, r, hOnce, hAll, hRun⟩ := putsAll_total (t := t.cleared arraySize hashSize)
      (fun e he => (held?_of_mem_displaced hWell.toChained he).1)
      (wellFormed_cleared (Nat.not_lt.mp hLimits.1) (Nat.not_lt.mp hLimits.2))
    refine ⟨counts, r, hOnce, fun ms s => ⟨fun hResize => ?_, fun hEq => ?_⟩, hRun⟩
    · cases hResize with
      | refused hPast' => exact absurd hPast' hPast
      | within _ hPutsAll => exact (hAll ms s).mp hPutsAll
    · exact .within hPast ((hAll ms s).mpr hEq)

/-- The recursion of stores and rebuilds ends. A store makes one rebuild at most,
that rebuild has room for all entries and for the new key or needs too many
buckets, and no store that it makes asks for another one. A resize ends
whatever its sizes, carried out or out of memory, and each rebuild that it comes
to leads to no other. So the bounds under which stores and resizes are run
stop nothing. -/
theorem rebuilds_end (hReachable : t.Reachable) :
    (∀ k v, k ≠ .vacant → ∃ n r, n ≤ 1 ∧ Course t k v n r ∧
      (∀ m s, Puts t k v m s ↔ m = n ∧ s = r) ∧
      (∀ bound, (setKey (bound + 1) k v).run t = r) ∧
      ∀ t', r = .ok () t' → t.Stored t' k v) ∧
    ∀ arraySize hashSize, ∃ counts r, (∀ n ∈ counts, n ≤ 1) ∧
      (∀ ms s, Resizes t arraySize hashSize ms s ↔ ms = counts ∧ s = r) ∧
      (resize arraySize hashSize).run t = r ∧
      ((∃ t', r = .ok () t') ∨ ∃ t', r = .error .outOfMemory t') := by
  have hWell := hReachable.wellFormed
  refine ⟨fun k v hKey => ?_, fun arraySize hashSize => ?_⟩
  · obtain ⟨n, r, hCourse⟩ := course_of_wellFormed hWell hKey v
    refine ⟨n, r, hCourse.le_one, hCourse, hCourse.puts_iff, hCourse.setKey_run, fun t' hDone => ?_⟩
    exact stores_setKey 1 t k v hWell hKey t' ((hCourse.setKey_run 0).trans hDone)
  · obtain ⟨counts, r, hOnce, hResizes, hRun⟩ := resizes_total hWell arraySize hashSize
    refine ⟨counts, r, hOnce, hResizes, hRun, ?_⟩
    rcases resize_cases hWell arraySize hashSize with ⟨t', hDone, _⟩ | ⟨t', _, hRefused⟩
    · exact Or.inl ⟨t', hRun.symm.trans hDone⟩
    · exact Or.inr ⟨t', hRun.symm.trans hRefused⟩

/-- A store into two buckets that are both taken makes one rebuild, for four. -/
theorem rebuilds_end_full : ∃ t t' : Table, t.Reachable ∧ t.bucketCount = 2 ∧
    t'.bucketCount = 4 ∧ ∀ m s, Puts t (.bool true) (.int 3) m s ↔ m = 1 ∧ s = .ok () t' := by
  have hReachable := Reachable.new none
    |>.step (.resize 0 2)
    |>.step (.setStr ⟨0, 0, [102]⟩ (.int 1))
    |>.step (.setStr ⟨1, 0, [103]⟩ (.int 2))
  obtain ⟨n, r, _, hCourse, hPuts, hRun, _⟩ :=
    (rebuilds_end hReachable).1 (.bool true) (.int 3) (by decide)
  obtain ⟨t', rfl, hBuckets⟩ : ∃ t', r = .ok () t' ∧ t'.bucketCount = 4 :=
    ⟨_, (hRun 0).symm.trans rfl, by decide⟩
  have hOne : n = 1 := by
    cases hCourse with
    | settled hSettled => cases hSettled
    | rebuilt => rfl
  exact ⟨_, t', hReachable, by decide, hBuckets, hOne ▸ hPuts⟩

end TaggedRuntime.Table
