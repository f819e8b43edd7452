import TaggedRuntime.Host.Scripted
import TaggedRuntime.Proofs.Heap.Growth
import TaggedRuntime.Proofs.Table.Doubling
import TaggedRuntime.Proofs.Table.Resizing

/-! Making tables. The sizes that a program may ask for are sizes that a table can have, so a new
table is refused before the host is asked or not at all. What a host is asked is seen on a host that
writes it down and hands it on. -/

namespace TaggedRuntime

/-! ### Sizes -/

/-- A hint is past what a program may ask for. -/
def PastLimits (config : Config) (arrayHint recordHint : Int64) : Prop :=
  (twoPow config.maxArrayBits : Int) < arrayHint.toInt ∨
    (twoPow Limits.hashBits : Int) < recordHint.toInt

/-- The comparison that is made on sizes is the one on hints. A hint that is not positive counts as
none. -/
theorem pastLimits_iff (config : Config) (arrayHint recordHint : Int64) :
    (config.maxArraySize < arrayHint.toInt.toNat ∨ maxHashSize < recordHint.toInt.toNat) ↔
      PastLimits config arrayHint recordHint := by
  have hArray := twoPow_pos config.maxArrayBits
  have hHash := twoPow_pos Limits.hashBits
  simp only [PastLimits, Config.maxArraySize, maxHashSize]
  omega

namespace Table

/-- A new table with the parts that were asked for: nothing is in it, and every key reads nil. -/
structure Presized (arrayHint recordHint : Int) (t : Table) : Prop where
  metatable : t.metatable = none
  array : (t.arrayLimit : Int) = max arrayHint 0
  buckets : LeastPower (max recordHint 1).toNat t.bucketCount
  dummy : t.isDummy = true ↔ recordHint ≤ 0
  get : ∀ k, (t.get k).isNil = true
  getInt : ∀ n, (t.getInt n).isNil = true
  getStr : ∀ s, (t.getStr s).isNil = true
  getShortStr : ∀ s, s.isShort = true → (t.getShortStr s).isNil = true

/-- A table that was cleared from nothing holds nothing, in its array part and in its buckets. -/
theorem held?_cleared_new {arraySize : Nat} (hArray : arraySize ≤ twoPow Limits.arrayBits)
    (hashSize : Nat) (k : Key) : (cleared {} arraySize hashSize).held? k = none := by
  cases hHeld : (cleared {} arraySize hashSize).held? k with
  | none => rfl
  | some v =>
      have hOld := held?_of_cleared (Nat.zero_le _) hArray hHeld
      rw [held?_new] at hOld
      cases hOld

/-- A cleared table has the sizes that the hints ask for. The array part is as large as its hint,
and the hash part is the least power of two with room for its own. -/
theorem presized_cleared {arrayHint recordHint : Int}
    (hArray : arrayHint.toNat ≤ twoPow Limits.arrayBits) :
    (cleared {} arrayHint.toNat recordHint.toNat).Presized arrayHint recordHint := by
  have hLookup (k : Key) := (Value.nonNil?_eq_none_iff _).mp
    (held?_cleared_new hArray recordHint.toNat k)
  constructor
  case metatable => rfl
  case array =>
    rw [arrayLimit_cleared]
    omega
  case buckets =>
    have hLog : ceilLog2 recordHint.toNat = ceilLog2 (max recordHint 1).toNat := by
      by_cases hNone : recordHint ≤ 0
      · rw [Int.toNat_of_nonpos hNone, Int.max_eq_right (by omega)]
        rfl
      · rw [Int.max_eq_left (by omega)]
    rw [bucketCount_cleared, hLog]
    exact leastPower_ceilLog2 _
  case dummy => simp [isDummy, cleared]
  case get =>
    intro x
    cases hKey : Key.ofValue x with
    | ok k =>
        rw [get_eq hKey]
        exact hLookup k
    | error e =>
        rw [Table.get, hKey]
        rfl
  case getInt => exact fun n => hLookup (.int n)
  case getStr =>
    intro s
    rw [getStr_eq]
    exact hLookup (.str s)
  case getShortStr =>
    intro s hShort
    rw [getShortStr_eq hShort]
    exact hLookup (.str s)

end Table

/-- What is put in the place of a new object is as if it had been new. So a table that is made and
then resized is as good as one that was made in its size. -/
theorem Heap.withObject_withNew {h : Heap} (hRoom : h.objects.size < Limits.handles)
    (o o' : Object) :
    (h.withNew o).withObject ⟨UInt32.ofNat h.objects.size⟩ o' = h.withNew o' := by
  have hIndex : (UInt32.ofNat h.objects.size).toNat = h.objects.size :=
    UInt32.toNat_ofNat_of_lt' hRoom
  unfold withObject withNew
  congr 1
  apply Array.ext_getElem?
  intro i
  simp only [hIndex, Array.getElem?_modify, Array.getElem?_push]
  grind

/-- Sizes within the limits are sizes that a table can have. -/
theorem sizes_of_within {lookup : String → Option String} {arrayHint recordHint : Int64}
    (hWithin : ¬PastLimits (.ofLookup lookup) arrayHint recordHint) :
    arrayHint.toInt.toNat ≤ twoPow Limits.arrayBits ∧
      ceilLog2 recordHint.toInt.toNat ≤ Limits.hashBits := by
  obtain ⟨hArray, hHash⟩ := not_or.mp (mt (pastLimits_iff _ _ _).mp hWithin)
  rw [ceilLog2_le_iff]
  exact ⟨Nat.le_trans (Nat.not_lt.mp hArray) (Config.maxArraySize_le lookup),
    Nat.not_lt.mp hHash⟩

/-- A table within the limits is made. The heap has to have a handle left, and then nothing can go
wrong: the sizes are within what a table can have. -/
theorem createTable_within {lookup : String → Option String} {arrayHint recordHint : Int64}
    (hWithin : ¬PastLimits (.ofLookup lookup) arrayHint recordHint) (loc : Location)
    {j : Journal Heap} (hRoom : j.host.objects.size < Limits.handles) :
    createTable (σ := Heap) arrayHint recordHint loc (.ofLookup lookup) j =
      .ok ⟨UInt32.ofNat j.host.objects.size⟩
        { j with
          host := j.host.withNew
            (.table (Table.cleared {} arrayHint.toInt.toNat recordHint.toInt.toNat)) } := by
  have hHints := mt (pastLimits_iff _ arrayHint recordHint).mp hWithin
  rw [createTable_run arrayHint recordHint loc _ j rfl, if_neg hHints,
    if_neg (Nat.not_le.mpr hRoom)]
  obtain ⟨hArray, hHash⟩ := sizes_of_within hWithin
  split
  next =>
    rw [Table.resize_new, if_neg (not_or.mpr ⟨Nat.not_lt.mpr hArray, Nat.not_lt.mpr hHash⟩)]
    simp only [Heap.withObject_withNew hRoom]
  next hNone =>
    obtain ⟨hNoArray, hNoHash⟩ := not_or.mp hNone
    rw [Nat.eq_zero_of_not_pos hNoArray, Nat.eq_zero_of_not_pos hNoHash]
    rfl

theorem Run.host_of_ok {σ α : Type} {x : HostM σ α} {j : Journal σ} {a : α} {s : σ}
    (loc : Location) (config : Config) (hRun : x.run j.host = .ok a s) :
    Run.host loc x config j = .ok a { j with host := s } := by
  rw [Run.host_run, hRun]

/-- An operation of a host that fails is a fault, or memory ran out. Neither is an overflow of the
table, which only the runtime itself raises. -/
theorem Run.host_of_error {σ α : Type} {x : HostM σ α} {j : Journal σ} {e : HeapFailure} {s : σ}
    (loc : Location) (config : Config) (hRun : x.run j.host = .error e s) :
    ∃ failure j', Run.host loc x config j = .error failure j' ∧
      failure ≠ .raised (.located .tableOverflow loc) := by
  rw [Run.host_run, hRun]
  cases e with
  | fault f => exact ⟨_, _, rfl, by simp⟩
  | refused e =>
      simp only [Run.raise_run]
      refine ⟨_, _, rfl, fun hSame => ?_⟩
      have hKind := congrArg RuntimeError.kind (Failure.raised.inj hSame)
      rw [RuntimeError.located_kind, RuntimeError.located_kind] at hKind
      cases hKind

/-! ### What a host is asked -/

/-- What the runtime asks of a host. -/
inductive Query (Obj : Type) where
  | isBlack (object : Obj)
  | isWhite (object : Obj)
  | notifyReference (owner child : Obj)
  | typeDescriptor (object : Obj)
  | newTable
  | resizeTable (table : Obj) (arraySize hashSize : Nat)
  | arrayLimit (table : Obj)
  | hasMetatable (table : Obj)
  | ensureCapacity (table : Obj) (length : Nat)

/-- A host with what it was asked so far, in order. -/
structure Watched (σ Obj : Type) where
  host : σ
  asked : List (Query Obj)

namespace Watched

variable {σ Obj α : Type}

/-- Asks the host behind, and writes the query down. -/
def ask (query : Query Obj) (x : HostM σ α) : HostM (Watched σ Obj) α := fun w =>
  match x w.host with
  | .ok a s => .ok a ⟨s, w.asked ++ [query]⟩
  | .error e s => .error e ⟨s, w.asked ++ [query]⟩

instance [HeapManager σ Obj] : HeapManager (Watched σ Obj) Obj where
  isBlack object := ask (.isBlack object) (HeapManager.isBlack object)
  isWhite object := ask (.isWhite object) (HeapManager.isWhite object)
  notifyReference owner child :=
    ask (.notifyReference owner child) (HeapManager.notifyReference owner child)
  typeDescriptor? object := ask (.typeDescriptor object) (HeapManager.typeDescriptor? object)
  newTable := ask .newTable HeapManager.newTable
  resizeTable table arraySize hashSize :=
    ask (.resizeTable table arraySize hashSize) (HeapManager.resizeTable table arraySize hashSize)
  arrayLimit table := ask (.arrayLimit table) (HeapManager.arrayLimit table)
  hasMetatable table := ask (.hasMetatable table) (HeapManager.hasMetatable table)
  ensureCapacity table length :=
    ask (.ensureCapacity table length) (HeapManager.ensureCapacity table length)

/-- A journal with what its host was asked. -/
def journal (asked : List (Query Obj)) (j : Journal σ) : Journal (Watched σ Obj) :=
  ⟨⟨j.host, asked⟩, j.events, j.output⟩

/-- The outcome of an operation, with what its host was asked. -/
def outcome (asked : List (Query Obj)) :
    EStateM.Result Failure (Journal σ) α → EStateM.Result Failure (Journal (Watched σ Obj)) α
  | .ok a j => .ok a (journal asked j)
  | .error e j => .error e (journal asked j)

variable {config : Config} {asked : List (Query Obj)}

/-- An error is made on a watched host as on the host behind, and nothing is asked for it. -/
theorem raise_run (kind : ErrorKind) (loc : Location) (j : Journal σ) :
    (Run.raise kind loc : Run (Watched σ Obj) α) config (journal asked j) =
      outcome asked ((Run.raise kind loc : Run σ α) config j) := by
  rw [Run.raise_run, Run.raise_run, Run.reported, Run.reported]
  split <;> rfl

/-- A query is answered as by the host behind, and written down. The list grows by one, also when
the answer is a refusal. -/
theorem host_run (loc : Location) (query : Query Obj) (x : HostM σ α) (j : Journal σ) :
    Run.host loc (ask query x) config (journal asked j) =
      outcome (asked ++ [query]) (Run.host loc x config j) := by
  have hAsk : (ask query x).run (journal asked j).host =
      match x.run j.host with
      | .ok a s => .ok a ⟨s, asked ++ [query]⟩
      | .error e s => .error e ⟨s, asked ++ [query]⟩ := rfl
  rw [Run.host_run, Run.host_run, hAsk]
  cases x.run j.host with
  | ok a s => rfl
  | error e s =>
      cases e with
      | fault f => rfl
      | refused e => exact raise_run .outOfMemory loc { j with host := s }

end Watched

section Hosts

variable {σ Obj : Type} [HeapManager σ Obj] {config : Config} {arrayHint recordHint : Int64}

/-- A table that was made is resized once if a hint is positive. -/
def resizeQueries (arrayHint recordHint : Int64) :
    EStateM.Result HeapFailure σ Obj → List (Query Obj)
  | .ok table _ =>
    if 0 < arrayHint.toInt ∨ 0 < recordHint.toInt then
      [.resizeTable table arrayHint.toInt.toNat recordHint.toInt.toNat]
    else []
  | .error _ _ => []

/-- A table past the limits is refused before the host is asked for anything. -/
theorem createTable_past (hPast : PastLimits config arrayHint recordHint) (loc : Location)
    (j : Journal σ) :
    createTable arrayHint recordHint loc config j =
      (Run.raise .tableOverflow loc : Run σ Obj) config j := by
  rw [createTable_eq, if_pos ((pastLimits_iff _ _ _).mpr hPast)]

theorem createTable_past_asks (hPast : PastLimits config arrayHint recordHint) (loc : Location)
    (j : Journal σ) (asked : List (Query Obj)) :
    createTable arrayHint recordHint loc config (Watched.journal asked j) =
      Watched.outcome asked (createTable (σ := σ) arrayHint recordHint loc config j) := by
  rw [createTable_past hPast, createTable_past hPast, Watched.raise_run]

/-- A table within the limits is asked for, and then resized if a hint is positive. The resize is
asked for only if the table was made. No query depends on the list of those before it. -/
theorem createTable_asks (hWithin : ¬PastLimits config arrayHint recordHint) (loc : Location)
    (j : Journal σ) (asked : List (Query Obj)) :
    createTable arrayHint recordHint loc config (Watched.journal asked j) =
      Watched.outcome (asked ++ .newTable :: resizeQueries arrayHint recordHint
          ((HeapManager.newTable (σ := σ)).run j.host))
        (createTable (σ := σ) arrayHint recordHint loc config j) := by
  have hHints := mt (pastLimits_iff _ _ _).mp hWithin
  have hNew : Run.host loc (HeapManager.newTable (σ := Watched σ Obj)) config
      (Watched.journal asked j) = _ := Watched.host_run loc .newTable HeapManager.newTable j
  rw [createTable_eq, if_neg hHints, createTable_eq, if_neg hHints, hNew]
  cases hMade : (HeapManager.newTable (σ := σ)).run j.host with
  | ok table s =>
      have hResize : Run.host loc (HeapManager.resizeTable table arrayHint.toInt.toNat
          recordHint.toInt.toNat) config (Watched.journal (asked ++ [.newTable]) { j with host := s })
            = _ := Watched.host_run loc (.resizeTable table _ _) (HeapManager.resizeTable table _ _) _
      have hPositive : (0 < arrayHint.toInt.toNat ∨ 0 < recordHint.toInt.toNat) ↔
          (0 < arrayHint.toInt ∨ 0 < recordHint.toInt) := by omega
      rw [Run.host_of_ok loc config hMade]
      simp only [Watched.outcome, resizeQueries, hPositive, hResize]
      split
      next =>
        rw [List.append_assoc, List.singleton_append]
        cases Run.host loc (HeapManager.resizeTable table arrayHint.toInt.toNat
          recordHint.toInt.toNat) config { j with host := s } <;> rfl
      next => rfl
  | error e s =>
      obtain ⟨failure, j', hFailed, _⟩ := Run.host_of_error loc config hMade
      rw [hFailed]
      rfl

/-- A table within the limits is not refused for its size. What a host refuses is another kind of
error, so this holds on every host. -/
theorem createTable_no_overflow (hWithin : ¬PastLimits config arrayHint recordHint) (loc : Location)
    (j j' : Journal σ) : createTable arrayHint recordHint loc config j ≠
      (.error (.raised (.located .tableOverflow loc)) j' : EStateM.Result _ _ Obj) := by
  rw [createTable_eq, if_neg (mt (pastLimits_iff _ _ _).mp hWithin)]
  intro hRaised
  have hHost {α : Type} (x : HostM σ α) (i : Journal σ) :
      Run.host loc x config i ≠ .error (.raised (.located .tableOverflow loc)) j' := by
    intro hRun
    cases hHost : x.run i.host with
    | ok a s =>
        rw [Run.host_of_ok loc config hHost] at hRun
        cases hRun
    | error e s =>
        obtain ⟨failure, _, hFailed, hOther⟩ := Run.host_of_error loc config hHost
        rw [hFailed] at hRun
        cases hRun
        exact hOther rfl
  split at hRaised
  next table j₁ hNew =>
    split at hRaised
    next =>
      split at hRaised
      next => cases hRaised
      next hResize =>
        cases hRaised
        exact hHost _ _ hResize
    next => cases hRaised
  next hNew =>
    cases hRaised
    exact hHost _ _ hNew

end Hosts

/-- Making a table is refused exactly past the limits, and then the host was not even asked. On a
heap that has a handle left it is never refused memory: within the limits it makes a white table
under the next handle, without a metatable and with the parts that were asked for, and touches no
other object. On any host a table that is made is resized once if a hint is positive. -/
theorem createTable_exact :
    (∀ (lookup : String → Option String) (arrayHint recordHint : Int64) (loc : Location)
      (j : Journal Heap), j.host.objects.size < Limits.handles →
      (PastLimits (.ofLookup lookup) arrayHint recordHint →
        ∃ j', createTable (σ := Heap) arrayHint recordHint loc (.ofLookup lookup) j =
          .error (.raised (.located .tableOverflow loc)) j' ∧ j'.host = j.host) ∧
      (¬PastLimits (.ofLookup lookup) arrayHint recordHint →
        ∃ r t j', createTable (σ := Heap) arrayHint recordHint loc (.ofLookup lookup) j =
            .ok r j' ∧
          r.index.toNat = j.host.objects.size ∧
          j'.host = { j.host with objects := j.host.objects.push ⟨.white, .table t⟩ } ∧
          t.Presized arrayHint.toInt recordHint.toInt)) ∧
    ∀ (σ Obj : Type) [HeapManager σ Obj] (config : Config) (arrayHint recordHint : Int64)
      (loc : Location) (j : Journal σ) (asked : List (Query Obj)),
      (PastLimits config arrayHint recordHint →
        (∃ j', createTable arrayHint recordHint loc config j =
          (.error (.raised (.located .tableOverflow loc)) j' : EStateM.Result _ _ Obj) ∧
            j'.host = j.host) ∧
        createTable arrayHint recordHint loc config (Watched.journal asked j) =
          Watched.outcome asked (createTable (σ := σ) arrayHint recordHint loc config j)) ∧
      (¬PastLimits config arrayHint recordHint →
        (∀ j', createTable arrayHint recordHint loc config j ≠
          (.error (.raised (.located .tableOverflow loc)) j' : EStateM.Result _ _ Obj)) ∧
        createTable arrayHint recordHint loc config (Watched.journal asked j) =
          Watched.outcome (asked ++ .newTable :: resizeQueries arrayHint recordHint
              ((HeapManager.newTable (σ := σ)).run j.host))
            (createTable (σ := σ) arrayHint recordHint loc config j)) := by
  have hRefused {σ Obj : Type} [HeapManager σ Obj] {config : Config} {arrayHint recordHint : Int64}
      (hPast : PastLimits config arrayHint recordHint) (loc : Location) (j : Journal σ) :
      ∃ j', createTable arrayHint recordHint loc config j =
        (.error (.raised (.located .tableOverflow loc)) j' : EStateM.Result _ _ Obj) ∧
          j'.host = j.host :=
    ⟨_, (createTable_past hPast loc j).trans (Run.raise_run ..), Run.host_reported ..⟩
  refine ⟨fun lookup arrayHint recordHint loc j hRoom =>
      ⟨fun hPast => hRefused hPast loc j, fun hWithin => ?_⟩,
    fun σ Obj _ config arrayHint recordHint loc j asked =>
      ⟨fun hPast => ⟨hRefused hPast loc j, createTable_past_asks hPast loc j asked⟩,
        fun hWithin => ⟨createTable_no_overflow hWithin loc j,
          createTable_asks hWithin loc j asked⟩⟩⟩
  exact ⟨_, _, _, createTable_within hWithin loc hRoom, UInt32.toNat_ofNat_of_lt' hRoom, rfl,
    Table.presized_cleared (sizes_of_within hWithin).1⟩

/-- A table of three slots and eight buckets on an empty heap, one that is too large, and what a
host is asked for a table without slots. -/
theorem createTable_exact_presized :
    (∃ r j', ∃ t : Table, createTable (σ := Heap) 3 5 {} (.ofLookup fun _ => none) ⟨{}, [], []⟩ =
        .ok r j' ∧
      r.index.toNat = 0 ∧ j'.host.objects = #[⟨.white, .table t⟩] ∧ t.Presized 3 5) ∧
    (∃ j', createTable (σ := Heap) 0 1073741825 {} (.ofLookup fun _ => none) ⟨{}, [], []⟩ =
      .error (.raised (.located .tableOverflow {})) j' ∧ j'.host = {}) ∧
    createTable (-1) 4 {} {} (Watched.journal [] (⟨{}, [], []⟩ : Journal ScriptedHeap)) =
      Watched.outcome [.newTable, .resizeTable 7 0 4]
        (createTable (σ := ScriptedHeap) (-1) 4 {} {} ⟨{}, [], []⟩) := by
  have hWithin : ¬PastLimits (.ofLookup fun _ => none) 3 5 := by
    unfold PastLimits
    decide
  have hPast : PastLimits (.ofLookup fun _ => none) 0 1073741825 := Or.inr (by decide)
  have hWatched : ¬PastLimits {} (-1) 4 := by
    unfold PastLimits
    decide
  obtain ⟨r, t, j', hRun, hIndex, hHost, hPresized⟩ :=
    (createTable_exact.1 (fun _ => none) 3 5 {} ⟨{}, [], []⟩ (by decide)).2 hWithin
  exact ⟨⟨r, j', t, hRun, hIndex, by rw [hHost]; rfl, hPresized⟩,
    (createTable_exact.1 (fun _ => none) 0 1073741825 {} ⟨{}, [], []⟩ (by decide)).1 hPast,
    ((createTable_exact.2 ScriptedHeap Nat {} (-1) 4 {} ⟨{}, [], []⟩ []).2 hWatched).2⟩

end TaggedRuntime
