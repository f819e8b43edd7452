import TaggedRuntime.Proofs.Field.Transparency
import TaggedRuntime.Proofs.Table.Operation
import TaggedRuntime.Proofs.Table.Loops
import TaggedRuntime.Proofs.Table.Overwriting

/-! What a probe answers, and what it leaves in the slot of its call site. A key is in one bucket,
on the chain of its home bucket, so where it is found and over how many links is settled by the
table. Writes under keys that have a cell move no bucket, so a slot that leads to a field goes on to
lead there, also when the field is erased. -/

namespace TaggedRuntime

open Table

variable {t : Table} {key : Str} {config : Config} {cache : FieldCache} {n : Nat}

namespace Table

/-! ### Links counted -/

/-- A chain leads from one bucket to another over a number of links. -/
inductive LinkedBy (t : Table) : (links : Nat) → Nat → Nat → Prop where
  | here (n : Nat) : LinkedBy t 0 n n
  | behind (hLink : t.Link a b) (hRest : LinkedBy t links b c) : LinkedBy t (links + 1) a c

theorem LinkedBy.transGen {links a b c : Nat} (hLink : t.Link a b) (hRest : t.LinkedBy links b c) :
    Relation.TransGen t.Link a c := by
  induction hRest generalizing a with
  | here n => exact .single hLink
  | behind hNext _ ih => exact .head hLink (ih hNext)

/-- No chain is a cycle, so it leads to a bucket over one number of links only. The induction is on
the first of the two ways, and a bucket has one successor at most. -/
theorem LinkedBy.unique (hChained : t.Chained) {links links' a c : Nat}
    (h : t.LinkedBy links a c) (h' : t.LinkedBy links' a c) : links = links' := by
  induction h generalizing links' with
  | here n =>
      cases h' with
      | here => rfl
      | behind hLink hRest => exact absurd (hRest.transGen hLink) (hChained.acyclic n)
  | behind hLink hRest ih =>
      cases h' with
      | here => exact absurd (hRest.transGen hLink) (hChained.acyclic _)
      | behind hLink' hRest' =>
          obtain rfl := hLink.right_unique hLink'
          rw [ih hRest']

end Table

/-! ### Walks -/

theorem next_of_bucketNext? {next : Int} (h : TableLayout.bucketNext? t n = some next) :
    (t.node n).next = next := by
  change t.nodes[n]?.map (·.next) = some next at h
  obtain ⟨node, hNode, rfl⟩ := Option.map_eq_some_iff.mp h
  rw [node_eq_getD, hNode, Option.getD_some]

/-- A walk counts the links that it passes, and passes fewer than it may visit buckets. The count
goes on from what it was at the start, so the induction is on the fuel with the count generalised.
-/
theorem linkedBy_of_walkChain {fuel start steps total : Nat}
    (h : walkChain t key fuel start steps = .ok (.walked n total)) :
    ∃ links < fuel, total = steps + links ∧ t.LinkedBy links start n := by
  induction fuel generalizing start steps with
  | zero => cases h
  | succ fuel ih =>
      simp only [walkChain] at h
      split at h
      next =>
        cases h
        exact ⟨0, Nat.succ_pos fuel, rfl, .here _⟩
      next =>
        split at h
        next => cases h
        next next hNext =>
          split at h
          next => cases h
          next hGoes =>
            split at h
            next => cases h
            next hInside =>
              have hLink : t.Link start (step start next) := by
                rw [← next_of_bucketNext? hNext] at hGoes hInside ⊢
                exact ⟨hGoes, by simp only [step]; omega⟩
              obtain ⟨links, hLt, hTotal, hRest⟩ := ih h
              exact ⟨links + 1, Nat.succ_lt_succ hLt, by omega, .behind hLink hRest⟩

/-- A walk from the home bucket ended at the one bucket of a key, or there is none. -/
def Probe.Located (t : Table) (key : Str) : Probe → Prop
  | .walked n steps =>
    (∀ m, (t.node m).key = .str key ↔ m = n) ∧ steps < t.bucketCount ∧
      ∀ links, t.LinkedBy links (t.home (.str key)) n ↔ links = steps
  | .miss => ∀ n, (t.node n).key ≠ .str key
  | _ => False

/-- A short key is in one bucket only. Chains are well-formed here, so this is a fact about the
table and not about the search. -/
theorem one_bucket (hChained : t.Chained) (hShort : key.isShort = true)
    (hKey : (t.node n).key = .str key) (m : Nat) : (t.node m).key = .str key ↔ m = n := by
  rw [← find?_short_iff hChained hShort] at hKey ⊢
  rw [hKey, Option.some.injEq, eq_comm]

/-- The walk of a probe ends at the bucket of the key with the number of links that lead there, or
finds that there is none. The fuel is the number of buckets, and it is enough for every chain. -/
theorem walk_located (hChained : t.Chained) (hShort : key.isShort = true) :
    ∃ p, walkChain t key t.bucketCount (t.home (.str key)) 0 = .ok p ∧ p.Located t key := by
  obtain ⟨p, hWalk, hWalks⟩ := walk_home hChained hShort
  refine ⟨p, hWalk, ?_⟩
  cases hFind : t.find? (.str key) with
  | none =>
      rw [hFind] at hWalks
      cases hWalks
      intro n hKey
      rw [← find?_short_iff hChained hShort, hFind] at hKey
      cases hKey
  | some n =>
      rw [hFind] at hWalks
      obtain ⟨steps, rfl⟩ := hWalks
      obtain ⟨links, hLt, hTotal, hLinked⟩ := linkedBy_of_walkChain hWalk
      obtain rfl : steps = links := by omega
      refine ⟨one_bucket hChained hShort ((find?_short_iff hChained hShort n).mp hFind), hLt,
        fun links => ⟨fun hOther => hOther.unique hChained hLinked, ?_⟩⟩
      rintro rfl
      exact hLinked

/-! ### Slots -/

/-- The positions of buckets fit into a slot. -/
theorem FieldCache.raw_remember (hLt : n < twoPow 31) : (remember n).raw.toInt = n := by
  rw [remember, if_pos hLt]
  exact Int32.toInt_ofNat_of_lt hLt

theorem bucketCount_lt (hChained : t.Chained) : t.bucketCount < twoPow 31 := by
  obtain ⟨bits, hBits, hCount⟩ := hChained.buckets
  rw [hCount]
  exact Nat.lt_of_le_of_lt (twoPow_le_twoPow hBits) (by decide)

/-! ### Probes -/

/-- With caching off a probe is a walk, whatever the slot holds. -/
theorem probe_uncached (hChained : t.Chained) (hShort : key.isShort = true)
    (hOff : config.inlineCache = false) :
    ∃ p, p.Located t key ∧ ∀ cache, probe config t key cache = .ok (p, cache) := by
  obtain ⟨p, hWalk, hLocated⟩ := walk_located hChained hShort
  refine ⟨p, hLocated, fun cache => ?_⟩
  rw [probe_walked hShort hWalk (by simp [hOff]), hOff]
  rfl

/-- With caching on a probe leaves the slot at the bucket of the key. It hits exactly where the slot
led there before; otherwise it walks and counts, or misses and marks the slot. -/
theorem probe_cached (hChained : t.Chained) (hShort : key.isShort = true)
    (hCaching : config.inlineCache = true) (cache : FieldCache) :
    ∃ p after, probe config t key cache = .ok (p, after) ∧
      (∀ n, (t.node n).key = .str key → after.raw.toInt = n ∧
        (p = .hit n ∧ cache.raw.toInt = n ∨
          cache.raw.toInt ≠ n ∧ ∃ steps, p = .walked n steps ∧ p.Located t key)) ∧
      ((∀ n, (t.node n).key ≠ .str key) → p = .miss ∧ after = .miss) := by
  cases hCached : cachedBucket? t key cache with
  | some b =>
      obtain ⟨hRaw, hKey⟩ := (cachedBucket?_eq_some_iff hShort cache b).mp hCached
      refine ⟨.hit b, cache, probe_hit hShort hCaching hCached, fun n hn => ?_,
        fun hNone => absurd hKey (hNone b)⟩
      obtain rfl := (one_bucket hChained hShort hKey n).mp hn
      exact ⟨hRaw, Or.inl ⟨rfl, hRaw⟩⟩
  | none =>
      obtain ⟨p, hWalk, hLocated⟩ := walk_located hChained hShort
      have hProbe : probe config t key cache = _ := probe_walked hShort hWalk fun _ => hCached
      rw [if_pos hCaching] at hProbe
      refine ⟨p, cache.after p, hProbe, fun n hn => ?_, fun hNone => ?_⟩
      · have hOther : cache.raw.toInt ≠ n := by
          intro hRaw
          have hUsed := (cachedBucket?_eq_some_iff hShort cache n).mpr ⟨hRaw, hn⟩
          rw [hCached] at hUsed
          cases hUsed
        cases p with
        | walked m steps =>
            obtain rfl := (hLocated.1 n).mp hn
            have hHeld : t.Occupied n := by simp [Occupied, hn]
            have hFits := Nat.lt_trans hHeld.lt (bucketCount_lt hChained)
            exact ⟨FieldCache.raw_remember hFits, Or.inr ⟨hOther, steps, rfl, hLocated⟩⟩
        | miss => exact absurd hn (hLocated n)
        | hit => exact hLocated.elim
        | uncached => exact hLocated.elim
      · cases p with
        | walked m steps => exact absurd ((hLocated.1 m).mpr rfl) (hNone m)
        | miss => exact ⟨rfl, rfl⟩
        | hit => exact hLocated.elim
        | uncached => exact hLocated.elim

/-- A slot that leads to the bucket of a key is left as it is by a probe for that key. This holds
with caching off as well, where the slot is not looked at. -/
theorem probe_keeps (hChained : t.Chained) (hShort : key.isShort = true)
    (hKey : (t.node n).key = .str key) (hRaw : cache.raw.toInt = n) (config : Config) :
    ∃ p, probe config t key cache = .ok (p, cache) ∧ p.Finds t key := by
  obtain ⟨p, after, hProbe, hFinds⟩ := probe_finds hChained key config cache
  refine ⟨p, ?_, hFinds⟩
  cases hCaching : config.inlineCache with
  | true =>
      have hHit := probe_hit hShort hCaching
        ((cachedBucket?_eq_some_iff hShort cache n).mpr ⟨hRaw, hKey⟩)
      rw [hHit] at hProbe
      cases hProbe
      exact hHit
  | false =>
      obtain ⟨_, _, hWalked⟩ := probe_uncached hChained hShort hCaching
      rw [hWalked] at hProbe
      cases hProbe
      exact hWalked cache

/-! ### Sessions that leave a field where it is -/

variable {b i site : Nat} {s : Session}

/-- A request leaves a field where it is: at the call site it accesses that field, and what it does
to the table of the field are writes under keys that have a cell. -/
def Request.Spares (t : Table) (i : Nat) (key : Str) (site : Nat) : Request → Prop
  | .change j op => j = i → ∃ w, op.write? t = some w ∧ t.HasCell w.1
  | .read j other access => access = site → j = i ∧ other = key
  | .write j other _ access => access = site → j = i ∧ other = key

/-- A change of a table is served without the caches, and their slots stay as they are. -/
theorem serve_change (config : Config) (s : Session) (j : Nat) (op : Operation) :
    ∃ reply, serve config s (.change j op) =
      .ok (reply, { s with tables := Function.update s.tables j (op.apply (s.tables j)) }) := by
  simp only [serve, Operation.apply]
  cases op.change.run (s.tables j) with
  | ok _ t' => exact ⟨.done, rfl⟩
  | error e t' => exact ⟨.refused e, rfl⟩

/-- The tables of a session are sound, one of them has the shape that it had, and so has a slot what
it held. -/
structure Holding (t : Table) (i site : Nat) (cache : FieldCache) (s : Session) : Prop where
  wellFormed : ∀ j, (s.tables j).WellFormed
  shape : t.SameShape (s.tables i)
  slot : s.slots site = cache

namespace Holding

/-- One table of a session is replaced. If it is the one that holds the field, it has to keep its
shape; if not, it has to be well-formed and no more. -/
theorem update (hHolding : Holding t i site cache s) {j : Nat} {t' : Table}
    (hWell : t'.WellFormed) (hShape : j = i → t.SameShape t') {slots : Slots}
    (hSlot : slots site = cache) : Holding t i site cache ⟨Function.update s.tables j t', slots⟩ := by
  refine ⟨fun l => ?_, ?_, hSlot⟩
  · simp only [Function.update_apply]
    split
    next => exact hWell
    next => exact hHolding.wellFormed l
  · simp only [Function.update_apply]
    split
    next hThere => exact hShape hThere.symm
    next => exact hHolding.shape

/-- An access leaves the slot of a field as it is. The access may be at the same call site only if
it is for the same field, for otherwise it would take the slot. -/
theorem probe_spares (hHolding : Holding t i site cache s) (hShort : key.isShort = true)
    (hKey : (t.node b).key = .str key) (hRaw : cache.raw.toInt = b) (config : Config)
    {j access : Nat} {other : Str} (hSpares : access = site → j = i ∧ other = key) :
    ∃ p after, probe config (s.tables j) other (s.slots access) = .ok (p, after) ∧
      p.Finds (s.tables j) other ∧ Function.update s.slots access after site = cache := by
  by_cases hSite : access = site
  · obtain ⟨rfl, rfl⟩ := hSpares hSite
    have hKey' : ((s.tables j).node b).key = .str other := by rw [hHolding.shape.key, hKey]
    obtain ⟨p, hProbe, hFinds⟩ :=
      probe_keeps (hHolding.wellFormed j).toChained hShort hKey' hRaw config
    rw [hSite, hHolding.slot]
    exact ⟨p, cache, hProbe, hFinds, Function.update_self ..⟩
  · obtain ⟨p, after, hProbe, hFinds⟩ :=
      probe_finds (hHolding.wellFormed j).toChained other config (s.slots access)
    refine ⟨p, after, hProbe, hFinds, ?_⟩
    rw [Function.update_of_ne (Ne.symm hSite), hHolding.slot]

/-- A write under a key that has a cell leaves the shape of the table; what is done to another table
leaves it sound. So neither can move the key to another bucket. -/
theorem change_spares (hHolding : Holding t i site cache s) (hChained : t.Chained) {j : Nat}
    {op : Operation} (hSpares : j = i → ∃ w, op.write? t = some w ∧ t.HasCell w.1) :
    (op.apply (s.tables j)).WellFormed ∧ (j = i → t.SameShape (op.apply (s.tables j))) := by
  refine ⟨op.wellFormed_apply (hHolding.wellFormed j), ?_⟩
  rintro rfl
  obtain ⟨w, hWrite, hCell⟩ := hSpares rfl
  rw [← hHolding.shape.write?_eq hChained] at hWrite
  rw [← hHolding.shape.hasCell_iff] at hCell
  obtain ⟨t', hRun, hDone⟩ := op.run_of_hasCell (hHolding.wellFormed j) hWrite hCell
  rw [Operation.apply, hRun]
  exact hHolding.shape.trans hDone.shape

/-- A request that spares a field is served, and the slot of the field holds what it held. There is
one case for each kind of request. -/
theorem serve_spares (hHolding : Holding t i site cache s) (hChained : t.Chained)
    (hShort : key.isShort = true) (hKey : (t.node b).key = .str key) (hRaw : cache.raw.toInt = b)
    (config : Config) {request : Request} (hSpares : request.Spares t i key site) :
    ∃ reply s', serve config s request = .ok (reply, s') ∧ Holding t i site cache s' := by
  cases request with
  | change j op =>
      obtain ⟨hWell, hShape⟩ := hHolding.change_spares hChained hSpares
      obtain ⟨reply, hServe⟩ := serve_change config s j op
      exact ⟨reply, _, hServe, hHolding.update hWell hShape hHolding.slot⟩
  | read j other access =>
      obtain ⟨p, after, hProbe, hFinds, hSlot⟩ :=
        hHolding.probe_spares hShort hKey hRaw config hSpares
      have hRead := getField_of_probe (hHolding.wellFormed j).toChained hProbe hFinds
      rw [serve, hRead]
      exact ⟨_, _, rfl, hHolding.wellFormed, hHolding.shape, hSlot⟩
  | write j other v access =>
      obtain ⟨p, after, hProbe, hFinds, hSlot⟩ :=
        hHolding.probe_spares hShort hKey hRaw config hSpares
      have hWell := hHolding.wellFormed j
      have hWrite := overwriteField_of_probe hWell.toChained hProbe hFinds v
      rw [serve, hWrite]
      cases hCell : (s.tables j).overwriteStr? other v with
      | none => exact ⟨_, _, rfl, hHolding.wellFormed, hHolding.shape, hSlot⟩
      | some written =>
          have hDone := overwritten_of_overwriteStr? hWell hCell
          have hLeft := hHolding.update hDone.stored.wellFormed (j := j)
            (fun hTable => hHolding.shape.trans (hTable ▸ hDone.shape)) hSlot
          exact ⟨_, _, rfl, hLeft⟩

/-- A run of requests that spare a field leaves its slot where it leads. The induction is on the
requests, with the session before each of them holding the field. -/
theorem serveAll_spares (hHolding : Holding t i site cache s) (hChained : t.Chained)
    (hShort : key.isShort = true) (hKey : (t.node b).key = .str key) (hRaw : cache.raw.toInt = b)
    (config : Config) {requests : List Request}
    (hSpares : ∀ request ∈ requests, request.Spares t i key site) :
    ∃ replies s', serveAll config (fun _ slots => slots) requests s = .ok (replies, s') ∧
      Holding t i site cache s' := by
  induction requests generalizing s with
  | nil => exact ⟨[], s, rfl, hHolding⟩
  | cons request rest ih =>
      obtain ⟨hFirst, hRest⟩ := List.forall_mem_cons.mp hSpares
      obtain ⟨reply, s₁, hServe, hHolding₁⟩ :=
        hHolding.serve_spares hChained hShort hKey hRaw config hFirst
      obtain ⟨replies, s', hServeAll, hHolding'⟩ := ih hHolding₁ hRest
      refine ⟨reply :: replies, s', ?_, hHolding'⟩
      rw [serveAll, hServe]
      change (serveAll config (fun _ slots => slots) rest s₁).bind _ = _
      rw [hServeAll]
      rfl

end Holding

/-- What a probe answers and leaves in the slot is exact. With caching on the slot leads to the
bucket of the key, or holds the mark of a miss if there is none, and the probe hits exactly if the
slot led there before. With caching off the slot is neither read nor changed, and for a long key
neither. Once the slot leads to a bucket, whatever is looked up and written under keys that have a
cell, a probe at the site hits that bucket. -/
theorem probe_exact :
    (∀ t : Table, t.Reachable → ∀ (key : Str) (config : Config),
      (key.isShort = true → config.inlineCache = true → ∀ cache, ∃ p after,
        probe config t key cache = .ok (p, after) ∧
        (∀ n, (t.node n).key = .str key → after.raw.toInt = n ∧
          (p = .hit n ∧ cache.raw.toInt = n ∨
            cache.raw.toInt ≠ n ∧ ∃ steps, p = .walked n steps ∧ p.Located t key)) ∧
        ((∀ n, (t.node n).key ≠ .str key) → p = .miss ∧ after = .miss)) ∧
      (key.isShort = true → config.inlineCache = false →
        ∃ p, p.Located t key ∧ ∀ cache, probe config t key cache = .ok (p, cache)) ∧
      (key.isShort = false → ∀ cache, probe config t key cache = .ok (.uncached, cache))) ∧
    ∀ (s : Session), (∀ j, (s.tables j).Reachable) →
      ∀ (i : Nat) (key : Str) (site b : Nat) (config : Config) (p : Probe) (cache : FieldCache),
        config.inlineCache = true → key.isShort = true →
        probe config (s.tables i) key cache = .ok (p, s.slots site) →
        (s.slots site).slot? = some b →
        ∀ (config' : Config) (requests : List Request),
          (∀ request ∈ requests, request.Spares (s.tables i) i key site) →
          ∃ replies s', serveAll config' (fun _ slots => slots) requests s = .ok (replies, s') ∧
            probe config (s'.tables i) key (s'.slots site) = .ok (.hit b, s'.slots site) := by
  constructor
  · intro t hReachable key config
    have hChained := hReachable.wellFormed.toChained
    exact ⟨fun hShort hCaching => probe_cached hChained hShort hCaching,
      fun hShort hOff => probe_uncached hChained hShort hOff,
      fun hLong cache => probe_long hLong t config cache⟩
  · intro s hReachable i key site b config p cache hCaching hShort hProbe hSlot config' requests hSpares
    have hChained := (hReachable i).wellFormed.toChained
    have hRaw := (FieldCache.slot?_eq_some_iff _ b).mp hSlot
    have hKey : ((s.tables i).node b).key = .str key := by
      obtain ⟨p', after, hProbe', hThere, hNowhere⟩ := probe_cached hChained hShort hCaching cache
      rw [hProbe] at hProbe'
      cases hProbe'
      by_contra hOther
      by_cases hSome : ∃ n, ((s.tables i).node n).key = .str key
      · obtain ⟨n, hn⟩ := hSome
        have hBucket : b = n := by exact_mod_cast hRaw.symm.trans (hThere n hn).1
        exact hOther (hBucket ▸ hn)
      · have hMiss := (hNowhere (not_exists.mp hSome)).2
        rw [hMiss] at hSlot
        cases hSlot
    have hHolding : Holding (s.tables i) i site (s.slots site) s :=
      ⟨fun j => (hReachable j).wellFormed, .refl _, rfl⟩
    obtain ⟨replies, s', hServe, hLeft⟩ :=
      hHolding.serveAll_spares hChained hShort hKey hRaw config' hSpares
    refine ⟨replies, s', hServe, ?_⟩
    have hKey' : ((s'.tables i).node b).key = .str key := by rw [hLeft.shape.key, hKey]
    exact probe_hit hShort hCaching ((cachedBucket?_eq_some_iff hShort _ b).mpr
      ⟨by rw [hLeft.slot, hRaw], hKey'⟩)

/-- A field behind one link, found once, is still where its slot leads when it was erased and the
key before it overwritten. -/
theorem probe_exact_erased : ∃ t replies s', t.Reachable ∧
    probe {} t ⟨1, 0, [104]⟩ .unset = .ok (.walked 0 1, ⟨0⟩) ∧
    serveAll {} (fun _ slots => slots)
      [.write 0 ⟨1, 0, [104]⟩ .nil 0, .change 0 (.setStr ⟨0, 0, [102]⟩ (.int 3)),
        .read 0 ⟨0, 0, [102]⟩ 1] ⟨fun _ => t, fun _ => ⟨0⟩⟩ = .ok (replies, s') ∧
    probe {} (s'.tables 0) ⟨1, 0, [104]⟩ (s'.slots 0) = .ok (.hit 0, s'.slots 0) := by
  have hReachable := Reachable.new none
    |>.step (.resize 0 2)
    |>.step (.setStr ⟨0, 0, [102]⟩ (.int 1))
    |>.step (.setStr ⟨1, 0, [104]⟩ (.int 2))
  have hProbe : probe {} (Operation.apply (.setStr ⟨1, 0, [104]⟩ (.int 2))
      (Operation.apply (.setStr ⟨0, 0, [102]⟩ (.int 1)) (Operation.apply (.resize 0 2) {})))
      ⟨1, 0, [104]⟩ .unset = .ok (.walked 0 1, ⟨0⟩) := by decide
  obtain ⟨replies, s', hServe, hHit⟩ := probe_exact.2 ⟨fun _ => _, fun _ => ⟨0⟩⟩ (fun _ => hReachable)
    0 ⟨1, 0, [104]⟩ 0 0 {} _ _ rfl (by decide) hProbe (by decide) {}
    [.write 0 ⟨1, 0, [104]⟩ .nil 0, .change 0 (.setStr ⟨0, 0, [102]⟩ (.int 3)),
      .read 0 ⟨0, 0, [102]⟩ 1] (by
        simp only [List.forall_mem_cons]
        refine ⟨fun _ => ⟨rfl, rfl⟩, fun _ => ⟨_, rfl, Or.inr ⟨1, by decide⟩⟩,
          fun h => absurd h (by decide), by simp⟩)
  exact ⟨_, replies, s', hReachable, hProbe, hServe, hHit⟩

end TaggedRuntime
