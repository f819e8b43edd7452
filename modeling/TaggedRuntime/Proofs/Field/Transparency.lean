import TaggedRuntime.Field
import TaggedRuntime.Proofs.Table.History

/-! Field access with caches at the call sites. A remembered position is used
only if the key is there, and a key is at one position, so neither what a cache
holds nor whether caching is on changes what an access finds. -/

namespace TaggedRuntime

open Table

variable {t : Table} {key : Str} {config : Config} {cache : FieldCache}

/-- Short keys are told apart by identity, and so is the key of a bucket. For a long key this would
fail, since the layout compares by identity and the table by contents. -/
theorem bucketHolds_iff (hShort : key.isShort = true) (t : Table) (n : Nat) :
    TableLayout.bucketHolds t n key = true ↔ (t.node n).key.same (.str key) = true := by
  rw [Key.same_short_iff _ hShort]
  change decide ((t.node n).key.shortStr? = some key) = true ↔ _
  rw [decide_eq_true_iff]
  cases (t.node n).key with
  | str s =>
      simp only [Key.shortStr?, Option.ite_none_right_eq_some, Option.some.injEq, Key.str.injEq]
      constructor
      · exact And.right
      · rintro rfl
        exact ⟨hShort, rfl⟩
  | _ => simp [Key.shortStr?]

theorem bucketNext?_eq {n : Nat} (hn : n < t.bucketCount) :
    TableLayout.bucketNext? t n = some (t.node n).next := by
  have hSize : n < t.nodes.size := hn
  change t.nodes[n]?.map (·.next) = _
  simp [node_eq_getD, hSize]

theorem bucketCell?_eq {n : Nat} (hn : n < t.bucketCount) :
    TableLayout.bucketCell? t n = some (t.node n).value := by
  have hSize : n < t.nodes.size := hn
  change t.nodes[n]?.map (·.value) = _
  simp [node_eq_getD, hSize]

/-- What a walk along a chain finds, if a search finds `found`. -/
def Probe.Walks (found : Option Nat) (p : Probe) : Prop :=
  match found with
  | some n => ∃ steps, p = .walked n steps
  | none => p = .miss

/-- A walk along a chain meets no bucket outside, comes to an end, and finds what a search finds.
The fuel has to reach from the rank of the start to the number of buckets, and the induction is on
the fuel. -/
theorem walkChain_walks (hChained : t.Chained) {rank : Nat → Nat} (hRank : t.Ranking rank)
    (hShort : key.isShort = true) {fuel start : Nat} (hFuel : t.bucketCount ≤ rank start + fuel)
    (hStart : start < t.bucketCount) (steps : Nat) :
    ∃ p, walkChain t key fuel start steps = .ok p ∧
      p.Walks (t.search (fun _ node => node.key.same (.str key)) fuel start) := by
  induction fuel generalizing start steps with
  | zero =>
      have hLt := hRank.lt_bucketCount hChained.bucketCount_pos start
      omega
  | succ fuel ih =>
      simp only [walkChain, search]
      by_cases hHolds : (t.node start).key.same (.str key) = true
      · rw [if_pos ((bucketHolds_iff hShort t start).mpr hHolds), if_pos hHolds]
        exact ⟨_, rfl, steps, rfl⟩
      · rw [if_neg (fun h => hHolds ((bucketHolds_iff hShort t start).mp h)), if_neg hHolds,
          bucketNext?_eq hStart]
        by_cases hNext : (t.node start).next = 0
        · simp only [hNext, if_true]
          exact ⟨_, rfl, rfl⟩
        · obtain ⟨b, hLink, hHeld⟩ := hChained.inside start hNext
          have hClimb := hRank.climbs start b hLink
          have hInside : ¬(start : Int) + (t.node start).next < 0 := by
            rw [hLink.2]
            omega
          simp only [hNext, hInside, if_false]
          rw [hLink.step_eq]
          exact ih (by omega) hHeld.lt (steps + 1)

/-- The walk from the home bucket of a key finds it as the table does. -/
theorem walk_home (hChained : t.Chained) (hShort : key.isShort = true) :
    ∃ p, walkChain t key t.bucketCount (t.home (.str key)) 0 = .ok p ∧
      p.Walks (t.find? (.str key)) := by
  obtain ⟨rank, hRank⟩ := hChained.ranked
  exact walkChain_walks hChained hRank hShort (Nat.le_add_left _ _) (hChained.home_lt (.str key)) 0

/-- The search finds a short key in the bucket that holds it, and nowhere else. -/
theorem find?_short_iff (hChained : t.Chained) (hShort : key.isShort = true) (n : Nat) :
    t.find? (.str key) = some n ↔ (t.node n).key = .str key := by
  rw [hChained.find?_eq_some_iff, Key.same_short_iff _ hShort]

/-- A slot names a bucket by its number as a signed word. The mark of a miss names none. -/
theorem FieldCache.slot?_eq_some_iff (cache : FieldCache) (n : Nat) :
    cache.slot? = some n ↔ cache.raw.toInt = n := by
  have hSign : 0 ≤ cache.raw ↔ 0 ≤ cache.raw.toInt := by simp [Int32.le_iff_toInt_le]
  rw [slot?, Option.ite_none_right_eq_some, Option.some.injEq, hSign]
  omega

/-- A remembered position is used exactly if it is the bucket of the key. -/
theorem cachedBucket?_eq_some_iff (hShort : key.isShort = true) (cache : FieldCache) (n : Nat) :
    cachedBucket? t key cache = some n ↔ cache.raw.toInt = n ∧ (t.node n).key = .str key := by
  rw [cachedBucket?, Option.filter_eq_some_iff, FieldCache.slot?_eq_some_iff, Bool.and_eq_true,
    bucketHolds_iff hShort, Key.same_short_iff _ hShort, decide_eq_true_iff]
  constructor
  · exact fun ⟨hRaw, _, hKey⟩ => ⟨hRaw, hKey⟩
  · intro ⟨hRaw, hKey⟩
    have hHeld : t.Occupied n := by simp [Occupied, hKey]
    exact ⟨hRaw, hHeld.lt, hKey⟩

/-- A long key is not cached: the probe gives up before it looks at the table, and leaves the slot
as it is. -/
theorem probe_long (hLong : key.isShort = false) (t : Table) (config : Config)
    (cache : FieldCache) : probe config t key cache = .ok (.uncached, cache) := by
  have hLong' : TableLayout.isShortKey Table key = false := hLong
  unfold probe
  rw [hLong']
  rfl

/-- A remembered position that is the bucket of the key is used without a walk. -/
theorem probe_hit (hShort : key.isShort = true) (hCaching : config.inlineCache = true) {n : Nat}
    (hCached : cachedBucket? t key cache = some n) :
    probe config t key cache = .ok (.hit n, cache) := by
  have hShort' : TableLayout.isShortKey Table key = true := hShort
  unfold probe
  rw [hShort', hCaching, hCached]
  rfl

/-- Where no remembered position is used, a probe is a walk. What is kept afterwards is the outcome
of the walk, if caching is on. -/
theorem probe_walked (hShort : key.isShort = true) {p : Probe}
    (hWalk : walkChain t key t.bucketCount (t.home (.str key)) 0 = .ok p)
    (hUnused : config.inlineCache = true → cachedBucket? t key cache = none) :
    probe config t key cache =
      .ok (p, if config.inlineCache then cache.after p else cache) := by
  have hShort' : TableLayout.isShortKey Table key = true := hShort
  have hWalk' : walkChain t key (TableLayout.bucketCount t) (TableLayout.homeBucket t key) 0 =
      .ok p := hWalk
  unfold probe
  rw [hShort', hWalk']
  cases hCaching : config.inlineCache with
  | false => rfl
  | true =>
      rw [hUnused hCaching]
      rfl

/-- A probe finds the bucket of a short key, and leaves a long key to the table. -/
def Probe.Finds (t : Table) (key : Str) (p : Probe) : Prop :=
  if key.isShort = true then p ≠ .uncached ∧ p.bucket? = t.find? (.str key) else p = .uncached

/-- A walk that found what the search finds is a probe that found the key. The steps that it counted
are left out of this. -/
theorem Probe.Walks.finds {p : Probe} (hWalks : p.Walks (t.find? (.str key)))
    (hShort : key.isShort = true) : p.Finds t key := by
  unfold Probe.Finds
  rw [if_pos hShort]
  cases hFind : t.find? (.str key) with
  | none =>
      rw [hFind] at hWalks
      cases hWalks
      exact ⟨by simp, rfl⟩
  | some n =>
      rw [hFind] at hWalks
      obtain ⟨steps, rfl⟩ := hWalks
      exact ⟨by simp, rfl⟩

/-- A probe finds a key, whatever the cache holds. No raw word in the slot leads it astray: the
bucket is looked at before it is used. -/
theorem probe_finds (hChained : t.Chained) (key : Str) (config : Config) (cache : FieldCache) :
    ∃ p after, probe config t key cache = .ok (p, after) ∧ p.Finds t key := by
  cases hShort : key.isShort with
  | false => exact ⟨.uncached, cache, probe_long hShort t config cache, by simp [Probe.Finds, hShort]⟩
  | true =>
      obtain ⟨p, hWalk, hWalks⟩ := walk_home hChained hShort
      by_cases hUsed : config.inlineCache = true ∧ ∃ n, cachedBucket? t key cache = some n
      · obtain ⟨hCaching, n, hCached⟩ := hUsed
        have hKey := ((cachedBucket?_eq_some_iff hShort cache n).mp hCached).2
        refine ⟨.hit n, cache, probe_hit hShort hCaching hCached, ?_⟩
        rw [Probe.Finds, if_pos hShort]
        exact ⟨by simp, ((find?_short_iff hChained hShort n).mpr hKey).symm⟩
      · refine ⟨p, _, probe_walked hShort hWalk fun hCaching => ?_, Probe.Walks.finds hWalks hShort⟩
        by_contra hSome
        exact hUsed ⟨hCaching, Option.ne_none_iff_exists'.mp hSome⟩

theorem cellAt_of_find? (hChained : t.Chained) {k : Key} {n : Nat} (h : t.find? k = some n) :
    cellAt t n = .ok (t.node n).value := by
  have hSame := (hChained.find?_eq_some_iff k n).mp h
  unfold cellAt
  rw [bucketCell?_eq (Occupied.lt (Key.ne_vacant_of_same hSame))]

/-- Reading a field gives the cell that the table's own look-up gives. A key that was not found, or
not looked for, is given to the table. -/
theorem getField_of_probe (hChained : t.Chained) {p : Probe} {after : FieldCache}
    (hProbe : probe config t key cache = .ok (p, after)) (hFinds : p.Finds t key) :
    getField config t key cache = .ok (t.getStr key, after) := by
  unfold getField
  rw [hProbe]
  unfold Probe.Finds at hFinds
  split at hFinds
  next =>
    obtain ⟨hSought, hBucket⟩ := hFinds
    have hCell (n : Nat) (hFind : t.find? (.str key) = some n) :
        cellAt t n = .ok (t.getStr key) := by
      rw [cellAt_of_find? hChained hFind, getStr_eq, getNode, hFind]
    cases p with
    | hit n => exact congrArg (·.bind fun v => .ok (v, after)) (hCell n hBucket.symm)
    | walked n _ => exact congrArg (·.bind fun v => .ok (v, after)) (hCell n hBucket.symm)
    | miss =>
        have hNone : t.find? (.str key) = none := hBucket.symm
        rw [getStr_eq, getNode, hNone]
        rfl
    | uncached => exact False.elim (hSought rfl)
  next =>
    cases hFinds
    rfl

/-- Overwriting a field overwrites the cell that the table's own look-up finds. Where the table has
none nothing is written, and the value is handed back to be stored. -/
theorem overwriteField_of_probe (hChained : t.Chained) {p : Probe} {after : FieldCache}
    (hProbe : probe config t key cache = .ok (p, after)) (hFinds : p.Finds t key) (v : Value) :
    overwriteField config t key v cache = .ok (t.overwriteStr? key v, after) := by
  unfold overwriteField
  rw [hProbe]
  unfold Probe.Finds at hFinds
  split at hFinds
  next =>
    obtain ⟨hSought, hBucket⟩ := hFinds
    have hCell (n : Nat) (hFind : t.find? (.str key) = some n) :
        (cellAt t n).bind (fun old => .ok (some (old, t.setBucketValue n v), after)) =
          (.ok (t.overwriteStr? key v, after) : Except Fault _) := by
      rw [cellAt_of_find? hChained hFind, overwriteStr?, hFind]
      rfl
    cases p with
    | hit n => exact hCell n hBucket.symm
    | walked n _ => exact hCell n hBucket.symm
    | miss =>
        have hNone : t.find? (.str key) = none := hBucket.symm
        rw [overwriteStr?, hNone]
        rfl
    | uncached => exact False.elim (hSought rfl)
  next =>
    cases hFinds
    rfl

/-- A field is read as the table itself would read it, whatever the cache holds and whether caching
is on or off. -/
theorem getField_eq (hChained : t.Chained) (key : Str) (config : Config) (cache : FieldCache) :
    ∃ after, getField config t key cache = .ok (t.getStr key, after) := by
  obtain ⟨p, after, hProbe, hFinds⟩ := probe_finds hChained key config cache
  exact ⟨after, getField_of_probe hChained hProbe hFinds⟩

/-- A field is overwritten as the table itself would do it, and not at all where the table has no
cell for it. -/
theorem overwriteField_eq (hChained : t.Chained) (key : Str) (config : Config)
    (cache : FieldCache) (v : Value) :
    ∃ after, overwriteField config t key v cache = .ok (t.overwriteStr? key v, after) := by
  obtain ⟨p, after, hProbe, hFinds⟩ := probe_finds hChained key config cache
  exact ⟨after, overwriteField_of_probe hChained hProbe hFinds v⟩

/-! ### Programs with call sites -/

/-- The caches of the call sites of a program. -/
abbrev Slots := Nat → FieldCache

/-- What a program asks of its tables: an operation on one of them, or access to
a field at a call site. -/
inductive Request where
  | change (table : Nat) (op : Operation)
  | read (table : Nat) (key : Str) (site : Nat)
  | write (table : Nat) (key : Str) (v : Value) (site : Nat)

inductive Reply where
  | done
  | refused (e : StoreError)
  | cell (v : Value)
  | overwritten (old : Option Value)

structure Session where
  tables : Nat → Table
  slots : Slots

/-- Serves a request. A write goes to the cell that the field has, if it has one. -/
def serve (config : Config) (s : Session) : Request → Except Fault (Reply × Session)
  | .change i op =>
    match op.change.run (s.tables i) with
    | .ok _ t => .ok (.done, { s with tables := Function.update s.tables i t })
    | .error e t => .ok (.refused e, { s with tables := Function.update s.tables i t })
  | .read i key site => do
    let (v, after) ← getField config (s.tables i) key (s.slots site)
    return (.cell v, { s with slots := Function.update s.slots site after })
  | .write i key v site => do
    let (overwritten, after) ← overwriteField config (s.tables i) key v (s.slots site)
    let slots := Function.update s.slots site after
    match overwritten with
    | some (old, t) =>
      return (.overwritten (some old), { tables := Function.update s.tables i t, slots })
    | none => return (.overwritten none, { s with slots })

/-- Serves requests in order. Before each one the slots are tampered with in a
way that depends on how many requests are left. -/
def serveAll (config : Config) (tamper : Nat → Slots → Slots) :
    List Request → Session → Except Fault (List Reply × Session)
  | [], s => .ok ([], s)
  | request :: rest, s => do
    let (reply, s) ← serve config { s with slots := tamper rest.length s.slots } request
    let (replies, s) ← serveAll config tamper rest s
    return (reply :: replies, s)

/-- Serves a request by the look-ups of the tables, without any cache. -/
def serveUncached (tables : Nat → Table) : Request → Reply × (Nat → Table)
  | .change i op =>
    match op.change.run (tables i) with
    | .ok _ t => (.done, Function.update tables i t)
    | .error e t => (.refused e, Function.update tables i t)
  | .read i key _ => (.cell ((tables i).getStr key), tables)
  | .write i key v _ =>
    match (tables i).overwriteStr? key v with
    | some (old, t) => (.overwritten (some old), Function.update tables i t)
    | none => (.overwritten none, tables)

def serveAllUncached : List Request → (Nat → Table) → List Reply × (Nat → Table)
  | [], tables => ([], tables)
  | request :: rest, tables =>
    let (reply, tables) := serveUncached tables request
    let (replies, tables) := serveAllUncached rest tables
    (reply :: replies, tables)

/-- One request, with caches and without: the replies and the tables are the same. What becomes of
the slots is left open, since no reply depends on it. -/
theorem serve_eq {s : Session} (hReachable : ∀ i, (s.tables i).Reachable) (config : Config)
    (request : Request) : ∃ slots, serve config s request =
      .ok ((serveUncached s.tables request).1, ⟨(serveUncached s.tables request).2, slots⟩) := by
  cases request with
  | change i op =>
      refine ⟨s.slots, ?_⟩
      simp only [serve, serveUncached]
      cases op.change.run (s.tables i) <;> rfl
  | read i key site =>
      obtain ⟨after, hRead⟩ :=
        getField_eq (hReachable i).wellFormed.toChained key config (s.slots site)
      refine ⟨Function.update s.slots site after, ?_⟩
      rw [serve, hRead]
      rfl
  | write i key v site =>
      obtain ⟨after, hWrite⟩ :=
        overwriteField_eq (hReachable i).wellFormed.toChained key config (s.slots site) v
      refine ⟨Function.update s.slots site after, ?_⟩
      rw [serve, hWrite, serveUncached]
      cases (s.tables i).overwriteStr? key v <;> rfl

/-- Requests are operations on tables, so tables that were reached lead to tables that are. -/
theorem reachable_serveUncached {tables : Nat → Table} (hReachable : ∀ i, (tables i).Reachable)
    (request : Request) (i : Nat) : ((serveUncached tables request).2 i).Reachable := by
  have hUpdate (j : Nat) (t : Table) (ht : t.Reachable) :
      (Function.update tables j t i).Reachable := by
    rw [Function.update_apply]
    split
    next => exact ht
    next => exact hReachable i
  cases request with
  | change j op =>
      have hStep := (hReachable j).step op
      unfold Operation.apply at hStep
      simp only [serveUncached]
      cases hRun : op.change.run (tables j) with
      | ok _ t =>
          rw [hRun] at hStep
          exact hUpdate j t hStep
      | error e t =>
          rw [hRun] at hStep
          exact hUpdate j t hStep
  | read j key site => exact hReachable i
  | write j key v site =>
      have hStep := (hReachable j).step (.overwriteStr key v)
      change (((tables j).overwriteStr? key v).map (·.2)).getD (tables j) |>.Reachable at hStep
      simp only [serveUncached]
      cases hWrite : (tables j).overwriteStr? key v with
      | none => exact hReachable i
      | some written =>
          rw [hWrite] at hStep
          exact hUpdate j written.2 hStep

/-- A program gets the replies, and leaves the tables, that it would get and leave without any
cache. In between the requests all slots may be tampered with in any way. -/
theorem serveAll_eq (config : Config) (tamper : Nat → Slots → Slots) (requests : List Request)
    {s : Session} (hReachable : ∀ i, (s.tables i).Reachable) :
    ∃ slots, serveAll config tamper requests s =
      .ok ((serveAllUncached requests s.tables).1,
        ⟨(serveAllUncached requests s.tables).2, slots⟩) := by
  induction requests generalizing s with
  | nil => exact ⟨s.slots, rfl⟩
  | cons request rest ih =>
      obtain ⟨slots, hServe⟩ := serve_eq (s := ⟨s.tables, tamper rest.length s.slots⟩) hReachable
        config request
      obtain ⟨slots', hRest⟩ := ih (s := ⟨(serveUncached s.tables request).2, slots⟩)
        (reachable_serveUncached hReachable request)
      refine ⟨slots', ?_⟩
      rw [serveAll, hServe]
      change (serveAll config tamper rest ⟨(serveUncached s.tables request).2, slots⟩).bind _ = _
      rw [hRest]
      rfl

/-- Caches change no answer. On every table that is reached, an access through
any cache under any setting ends without a fault in the one bucket that holds
the key, or finds the field absent if none does, as the table's own look-ups do. Two
runs of a program that differ in the setting, in what the slots hold at first
and in what is done to them on the way get the same replies and leave the same
tables. -/
theorem fieldCache_transparent :
    (∀ t : Table, t.Reachable → ∀ (key : Str) (config : Config) (cache : FieldCache) (v : Value),
      ∃ p after, probe config t key cache = .ok (p, after) ∧
        getField config t key cache = .ok (t.getStr key, after) ∧
        overwriteField config t key v cache = .ok (t.overwriteStr? key v, after) ∧
        (∀ n, (t.node n).key.same (.str key) = true →
          t.getStr key = (t.node n).value ∧
          t.overwriteStr? key v = some ((t.node n).value, t.setBucketValue n v) ∧
          (key.isShort = true → p.bucket? = some n)) ∧
        ((∀ n, (t.node n).key.same (.str key) = false) →
          t.getStr key = .absent ∧ t.overwriteStr? key v = none ∧ p.bucket? = none)) ∧
    (∀ (tables : Nat → Table), (∀ i, (tables i).Reachable) →
      ∀ (requests : List Request) (config₁ config₂ : Config) (slots₁ slots₂ : Slots)
        (tamper₁ tamper₂ : Nat → Slots → Slots), ∃ replies tables' slots₁' slots₂',
        serveAll config₁ tamper₁ requests ⟨tables, slots₁⟩ = .ok (replies, ⟨tables', slots₁'⟩) ∧
        serveAll config₂ tamper₂ requests ⟨tables, slots₂⟩ = .ok (replies, ⟨tables', slots₂'⟩)) := by
  constructor
  · intro t hReachable key config cache v
    have hChained := hReachable.wellFormed.toChained
    obtain ⟨p, after, hProbe, hFinds⟩ := probe_finds hChained key config cache
    refine ⟨p, after, hProbe, getField_of_probe hChained hProbe hFinds,
      overwriteField_of_probe hChained hProbe hFinds v, fun n hSame => ?_, fun hNone => ?_⟩
    · have hFind := (hChained.find?_eq_some_iff (.str key) n).mpr hSame
      refine ⟨by rw [getStr_eq, getNode, hFind], by rw [overwriteStr?, hFind]; rfl,
        fun hShort => ?_⟩
      rw [Probe.Finds, if_pos hShort] at hFinds
      exact hFinds.2.trans hFind
    · have hFind := (hChained.find?_eq_none_iff (.str key)).mpr hNone
      refine ⟨by rw [getStr_eq, getNode, hFind], by rw [overwriteStr?, hFind]; rfl, ?_⟩
      unfold Probe.Finds at hFinds
      split at hFinds
      next => exact hFinds.2.trans hFind
      next =>
        rw [hFinds]
        rfl
  · intro tables hReachable requests config₁ config₂ slots₁ slots₂ tamper₁ tamper₂
    obtain ⟨slots₁', hFirst⟩ :=
      serveAll_eq config₁ tamper₁ requests (s := ⟨tables, slots₁⟩) hReachable
    obtain ⟨slots₂', hSecond⟩ :=
      serveAll_eq config₂ tamper₂ requests (s := ⟨tables, slots₂⟩) hReachable
    exact ⟨_, _, slots₁', slots₂', hFirst, hSecond⟩

/-- A slot left by another table, once read and once not. -/
theorem fieldCache_transparent_foreign : ∃ t : Table, t.Reachable ∧
    t.getStr ⟨0, 0, [102]⟩ = .int 7 ∧
    (∃ after, getField {} t ⟨0, 0, [102]⟩ ⟨3⟩ = .ok (t.getStr ⟨0, 0, [102]⟩, after)) ∧
    ∃ replies tables' slots₁ slots₂,
      serveAll {} (fun _ slots => slots) [.read 0 ⟨0, 0, [102]⟩ 0] ⟨fun _ => t, fun _ => ⟨3⟩⟩ =
        .ok (replies, ⟨tables', slots₁⟩) ∧
      serveAll { inlineCache := false } (fun _ _ _ => .miss) [.read 0 ⟨0, 0, [102]⟩ 0]
        ⟨fun _ => t, fun _ => .unset⟩ = .ok (replies, ⟨tables', slots₂⟩) := by
  have hReachable := Reachable.new none |>.step (.setStr ⟨0, 0, [102]⟩ (.int 7))
  obtain ⟨p, after, _, hRead, _⟩ :=
    fieldCache_transparent.1 _ hReachable ⟨0, 0, [102]⟩ {} ⟨3⟩ .nil
  exact ⟨_, hReachable, by decide, ⟨after, hRead⟩,
    fieldCache_transparent.2 _ (fun _ => hReachable) _ _ _ _ _ _ _⟩

end TaggedRuntime
