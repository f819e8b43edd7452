import TaggedRuntime.Proofs.Effects
import TaggedRuntime.Proofs.Table.Splice

/-! Stores that need no rebuild. A store keeps the invariant and changes the
entry of its key alone. It asks for a rebuild only when it needs a bucket and
all of them hold keys. -/

namespace TaggedRuntime.Table

variable {t t' : Table} {k l : Key} {v : Value} {grow : Key → Value → Store Unit}

/-! ### Overwriting -/

/-- Tables whose buckets differ in the values of some that hold keys. -/
structure SameShape (t t' : Table) : Prop where
  array : t'.arrayLimit = t.arrayLimit
  count : t'.bucketCount = t.bucketCount
  key : ∀ m, (t'.node m).key = (t.node m).key
  next : ∀ m, (t'.node m).next = (t.node m).next
  vacant : ∀ m, ¬t.Occupied m → t'.node m = t.node m

namespace SameShape

theorem occupied_iff (h : t.SameShape t') (m : Nat) : t'.Occupied m ↔ t.Occupied m := by
  simp [Occupied, h.key]

theorem link_iff (h : t.SameShape t') (a b : Nat) : t'.Link a b ↔ t.Link a b := by
  simp [Link, h.next]

theorem home_eq (h : t.SameShape t') (k : Key) : t'.home k = t.home k := by
  simp [home, h.count]

theorem slot?_eq (h : t.SameShape t') (k : Key) : t'.slot? k = t.slot? k := by
  have hSize : t'.array.size = t.array.size := h.array
  cases k <;> simp [slot?, arrayIndex?, hSize]

theorem occupied_eq (h : t.SameShape t') : t'.occupied = t.occupied := by
  simp only [Table.occupied, h.count, h.occupied_iff]

/-- Well-formed chains depend on the shape of a table only. Values play no part in them. -/
theorem chained (h : t.SameShape t') (hChained : t.Chained) : t'.Chained where
  buckets := h.count.symm ▸ hChained.buckets
  slots := h.array.symm ▸ hChained.slots
  vacant m hm := by
    rw [h.occupied_iff] at hm
    rw [h.vacant m hm]
    exact hChained.vacant m hm
  inside a hNext := by
    simp only [h.link_iff, h.occupied_iff]
    exact hChained.inside a (h.next a ▸ hNext)
  joinless a b c hac hbc :=
    hChained.joinless a b c ((h.link_iff a c).mp hac) ((h.link_iff b c).mp hbc)
  ranked := by
    obtain ⟨rank, hRank⟩ := hChained.ranked
    refine ⟨rank, fun a b hLink => hRank.climbs a b ((h.link_iff a b).mp hLink), fun m => ?_⟩
    rw [h.occupied_eq]
    exact hRank.below m
  distinct a b hSame := by
    rw [h.key, h.key] at hSame
    exact hChained.distinct a b hSame
  reached m hm := by
    rw [h.key, h.home_eq]
    have hReach := hChained.reached m ((h.occupied_iff m).mp hm)
    exact Relation.ReflTransGen.mono (fun a b => (h.link_iff a b).mpr) _ _ hReach
  homes m hm := by
    simp only [h.key, h.home_eq, h.occupied_iff]
    exact hChained.homes m ((h.occupied_iff m).mp hm)
  unshadowed m := by
    rw [h.key, h.slot?_eq]
    exact hChained.unshadowed m

end SameShape

/-- The table with another bound below which free buckets are sought. -/
def withLastFree (t : Table) (bound : Option Nat) : Table := { t with lastFree := bound }

theorem sameShape_withLastFree (t : Table) (bound : Option Nat) :
    t.SameShape (t.withLastFree bound) :=
  ⟨rfl, rfl, fun _ => rfl, fun _ => rfl, fun _ _ => rfl⟩

/-- One cell is written, and its key and link are as they were. -/
theorem node_setBucketValue {n : Nat} (h : n < t.bucketCount) (v : Value) (m : Nat) :
    (t.setBucketValue n v).node m =
      if m = n then { t.node n with value := v } else t.node m :=
  node_modifyNode h _ m

/-- Writing a cell keeps the shape. The bucket has to hold a key: a vacant one with a value would
not be vacant any more. -/
theorem sameShape_setBucketValue {n : Nat} (h : t.Occupied n) (v : Value) :
    t.SameShape (t.setBucketValue n v) where
  array := rfl
  count := bucketCount_modifyNode ..
  key m := by
    rw [node_setBucketValue h.lt]
    split
    next hEq => rw [hEq]
    next => rfl
  next m := by
    rw [node_setBucketValue h.lt]
    split
    next hEq => rw [hEq]
    next => rfl
  vacant m hm := by
    rw [node_setBucketValue h.lt, if_neg]
    rintro rfl
    exact hm h

theorem sameShape_setSlot (t : Table) (i : Nat) (v : Value) :
    t.SameShape { t with array := t.array.setIfInBounds i v } :=
  ⟨by simp [arrayLimit], rfl, fun _ => rfl, fun _ => rfl, fun _ _ => rfl⟩

/-- Writing the cell of a key changes the entry under that key and no other. A nil erases the entry;
the key stays in its bucket. -/
theorem held?_setBucketValue (hChained : t.Chained) {n : Nat}
    (hSame : (t.node n).key.same k = true) (v : Value) (l : Key) :
    (t.setBucketValue n v).held? l = if k.same l then v.nonNil? else t.held? l := by
  have hHeld : t.Occupied n := Key.ne_vacant_of_same hSame
  have hShape := sameShape_setBucketValue hHeld v
  have hSlotless : t.slot? k = none := slot?_eq_of_same hSame t ▸ hChained.unshadowed n
  unfold held?
  rw [lookup_eq, lookup_eq, hShape.slot?_eq]
  split
  next i hSlot =>
    have hDiffers : k.same l ≠ true := not_same_of_slot? hSlotless hSlot (by simp)
    rw [if_neg hDiffers]
    rfl
  next =>
    split
    next hkl =>
      have hNode : ((t.setBucketValue n v).node n).key.same l = true := by
        rw [hShape.key]
        exact Key.same_trans hSame hkl
      rw [(hShape.chained hChained).getNode_eq_of_same hNode, node_setBucketValue hHeld.lt,
        if_pos rfl]
    next hkl =>
      apply Option.ext
      intro w
      rw [(hShape.chained hChained).getNode_nonNil?_eq_some_iff,
        hChained.getNode_nonNil?_eq_some_iff]
      refine and_congr_right fun _ => exists_congr fun m => ?_
      rw [hShape.key]
      refine and_congr_right fun hml => ?_
      rw [node_setBucketValue hHeld.lt, if_neg]
      rintro rfl
      exact hkl (Key.same_trans (Key.same_symm hSame) hml)

/-- Writing the slot of a key changes the entry under that key and no other. -/
theorem held?_setSlot {i : Nat} (hSlot : t.slot? k = some i) (v : Value) (l : Key) :
    held? { t with array := t.array.setIfInBounds i v } l =
      if k.same l then v.nonNil? else t.held? l := by
  have hLt := slot?_lt hSlot
  unfold held?
  rw [lookup_eq, lookup_eq, (sameShape_setSlot t i v).slot?_eq]
  cases hl : t.slot? l with
  | none =>
      have hDiffers : k.same l ≠ true := not_same_of_slot? hSlot hl (by simp)
      rw [if_neg hDiffers]
      have hNodes : nodes { t with array := t.array.setIfInBounds i v } = t.nodes := rfl
      simp only [getNode_congr hNodes]
  | some j =>
      by_cases hij : i = j
      · subst hij
        simp [same_of_slot? hSlot hl, hLt]
      · have hDiffers : k.same l ≠ true := not_same_of_slot? hSlot hl (by simp [hij])
        simp [hDiffers, hij]

/-! ### Free buckets -/

/-- The search for a free bucket goes down from the bound and stops at the first one, so all above
it are taken. This is why the bound only ever goes down. -/
theorem vacantBelow_eq_some {bound free : Nat} (h : t.vacantBelow bound = some free) :
    free < bound ∧ ¬t.Occupied free ∧ ∀ m, free < m → m < bound → t.Occupied m := by
  induction bound with
  | zero => cases h
  | succ n ih =>
      simp only [vacantBelow] at h
      split at h
      next hVacant =>
        cases h
        refine ⟨Nat.lt_succ_self _, ?_, fun m _ _ => by omega⟩
        simpa [Occupied] using hVacant
      next hHeld =>
        obtain ⟨hLt, hFree, hAbove⟩ := ih h
        refine ⟨by omega, hFree, fun m hm hBound => ?_⟩
        by_cases hEq : m = n
        · simpa [hEq, Occupied] using hHeld
        · exact hAbove m hm (by omega)

/-- Where no free bucket is found all below the bound are taken. -/
theorem vacantBelow_eq_none {bound : Nat} (h : t.vacantBelow bound = none) (m : Nat)
    (hm : m < bound) : t.Occupied m := by
  induction bound with
  | zero => omega
  | succ n ih =>
      simp only [vacantBelow] at h
      split at h
      next => cases h
      next hHeld =>
        by_cases hEq : m = n
        · simpa [hEq, Occupied] using hHeld
        · exact ih h (by omega)

/-! ### The cases of a new key -/

/-- The table of which a free bucket was asked in vain. -/
def exhausted (t : Table) : Table := t.withLastFree (t.lastFree.map fun _ => 0)

theorem newKey_of_dead (hDead : (t.node (t.home k)).value.isNil = true)
    (hReal : t.isDummy = false) :
    (newKey grow k v).run t = .ok () (t.fillNode (t.home k) k v) := by
  simp [newKey, hDead, hReal]

theorem exhausted_of_dummy (hDummy : t.lastFree = none) : t.exhausted = t := by
  rw [exhausted, hDummy, Option.map_none, ← hDummy]
  rfl

theorem newKey_of_dummy (hDummy : t.lastFree = none) :
    (newKey grow k v).run t = (grow k v).run t.exhausted := by
  rw [exhausted_of_dummy hDummy]
  simp [newKey, takeFree, hDummy, isDummy]

/-- A new key for which no bucket is free asks for a rebuild, and the bound is at zero then. -/
theorem newKey_of_exhausted {bound : Nat} (hLive : (t.node (t.home k)).value.isNil = false)
    (hLast : t.lastFree = some bound) (hNone : t.vacantBelow bound = none) :
    (newKey grow k v).run t = (grow k v).run t.exhausted := by
  simp [newKey, takeFree, hLive, hLast, hNone, isDummy, exhausted, withLastFree]

/-- A new key gets the free bucket, or moves the entry at its main position there. It moves the
entry if that one is not at its own main position. -/
theorem newKey_of_free {bound free : Nat} (hLive : (t.node (t.home k)).value.isNil = false)
    (hLast : t.lastFree = some bound) (hFree : t.vacantBelow bound = some free) :
    (newKey grow k v).run t = .ok ()
      (if t.home (t.node (t.home k)).key = t.home k then
        (t.withLastFree (some free)).append (t.home k) free k v
      else
        (t.withLastFree (some free)).displace (t.home (t.node (t.home k)).key) (t.home k) free
          k v) := by
  simp only [newKey, takeFree, isDummy, hLive, hLast, hFree, EStateM.run_bind, EStateM.run_pure,
    EStateM.run_modify, run_getThe, Bool.not_false, Bool.true_or, if_true, Option.getD_some]
  split <;> rfl

/-! ### What a store does -/

/-- The table after a store under a key. -/
structure Stored (t t' : Table) (k : Key) (v : Value) : Prop where
  wellFormed : t'.WellFormed
  entry : ∀ l, t'.held? l = if k.same l then v.nonNil? else t.held? l

/-- The table after a write under a key that has a cell. -/
structure Overwritten (t t' : Table) (k : Key) (v : Value) : Prop where
  shape : t.SameShape t'
  stored : t.Stored t' k v

/-- Tables with parts of the same sizes. -/
structure SameSizes (t t' : Table) : Prop where
  arrayLimit : t'.arrayLimit = t.arrayLimit
  bucketCount : t'.bucketCount = t.bucketCount
  dummy : t'.isDummy = t.isDummy

theorem SameSizes.trans {t₁ t₂ t₃ : Table} (h₁ : t₁.SameSizes t₂) (h₂ : t₂.SameSizes t₃) :
    t₁.SameSizes t₃ :=
  ⟨h₂.arrayLimit.trans h₁.arrayLimit, h₂.bucketCount.trans h₁.bucketCount, h₂.dummy.trans h₁.dummy⟩

/-- The number of keys that the hash part can hold. -/
def capacity (t : Table) : Nat := if t.isDummy then 0 else t.bucketCount

theorem held?_congr (hNodes : t'.nodes = t.nodes) (hArray : t'.array = t.array) :
    t'.held? = t.held? := by
  funext l
  have hSlot : t'.slot? l = t.slot? l := by cases l <;> simp [slot?, arrayIndex?, hArray]
  simp only [held?, lookup_eq, getNode_congr hNodes, hSlot, hArray]

@[simp] theorem held?_withLastFree (t : Table) (bound : Option Nat) :
    (t.withLastFree bound).held? = t.held? := held?_congr rfl rfl

/-- Writing the cell of a bucket that holds a key keeps the invariant. The bound for free buckets
and the dummy are not touched by it. -/
theorem WellFormed.overwritten (hWell : t.WellFormed) {n : Nat} (hHeld : t.Occupied n)
    (v : Value) : (t.setBucketValue n v).WellFormed where
  toChained := (sameShape_setBucketValue hHeld v).chained hWell.toChained
  dummy hDummy := by
    have hVacant : ¬t.Occupied n := by
      have hOut : t.nodes.getD n {} = {} := by
        rw [hWell.dummy hDummy]
        cases n <;> simp
      simp [Occupied, node, hOut]
    exact False.elim (hVacant hHeld)
  bound b hb := by
    rw [(sameShape_setBucketValue hHeld v).count]
    exact hWell.bound b hb
  taken b hb m hbm hm := by
    rw [(sameShape_setBucketValue hHeld v).occupied_iff]
    rw [(sameShape_setBucketValue hHeld v).count] at hm
    exact hWell.taken b hb m hbm hm

theorem WellFormed.slotSet (hWell : t.WellFormed) (i : Nat) (v : Value) :
    WellFormed { t with array := t.array.setIfInBounds i v } where
  toChained := (sameShape_setSlot t i v).chained hWell.toChained
  dummy := hWell.dummy
  bound := hWell.bound
  taken := hWell.taken

theorem overwritten_setBucketValue (hWell : t.WellFormed) {n : Nat}
    (hSame : (t.node n).key.same k = true) (v : Value) :
    t.Overwritten (t.setBucketValue n v) k v := by
  have hHeld : t.Occupied n := Key.ne_vacant_of_same hSame
  exact ⟨sameShape_setBucketValue hHeld v, hWell.overwritten hHeld v,
    held?_setBucketValue hWell.toChained hSame v⟩

theorem overwritten_setSlot (hWell : t.WellFormed) {i : Nat} (hSlot : t.slot? k = some i)
    (v : Value) : t.Overwritten { t with array := t.array.setIfInBounds i v } k v :=
  ⟨sameShape_setSlot t i v, hWell.slotSet i v, held?_setSlot hSlot v⟩

/-- The bound for free buckets may be moved to zero when there are none. All buckets above zero are
taken then, which is what the invariant asks for. -/
theorem WellFormed.exhausted (hWell : t.WellFormed)
    (hFull : t.lastFree = none ∨ ∀ n < t.bucketCount, t.Occupied n) : t.exhausted.WellFormed where
  toChained := (sameShape_withLastFree t _).chained hWell.toChained
  dummy hDummy := hWell.dummy (by simpa [Table.exhausted, withLastFree] using hDummy)
  bound b hb := by
    have hZero : b = 0 := by
      simp only [Table.exhausted, withLastFree, Option.map_eq_some_iff] at hb
      omega
    omega
  taken b hb n _ hn := by
    rcases hFull with hDummy | hAll
    · simp [Table.exhausted, withLastFree, hDummy] at hb
    · exact hAll n hn

/-! ### A store of a key -/

/-- Whether a key is new depends on the shape. -/
theorem Insertable.congr (hNew : t.Insertable k) (hShape : t.SameShape t') : t'.Insertable k where
  key := hNew.key
  absent n := by
    rw [hShape.key]
    exact hNew.absent n
  slotless := by
    rw [hShape.slot?_eq]
    exact hNew.slotless

/-- A splice at the free bucket that was found last keeps the invariant: all buckets above it are
taken. -/
theorem Spliced.wellFormed {x n free : Nat} (hSpliced : t.Spliced t' x n free)
    (hChained : t'.Chained) (hLast : t'.lastFree = some free) (hFree : free < t.bucketCount)
    (hAbove : ∀ m, free < m → m < t.bucketCount → t.Occupied m) : t'.WellFormed where
  toChained := hChained
  dummy hDummy := by
    rw [hLast] at hDummy
    cases hDummy
  bound b hb := by
    rw [hLast, Option.some.injEq] at hb
    rw [hSpliced.count]
    omega
  taken b hb m hbm hm := by
    rw [hLast, Option.some.injEq] at hb
    rw [hSpliced.count] at hm
    rw [hSpliced.occupied]
    by_cases hEq : m = free
    · exact Or.inl hEq
    · exact Or.inr (hAbove m (by omega) hm)

/-- A key that is put into a dead bucket is stored. One bucket more is taken at most, and the sizes
stay. -/
theorem fillNode_stored (hWell : t.WellFormed) (hNew : t.Insertable k)
    (hDead : (t.node (t.home k)).value.isNil = true) (hReal : t.isDummy = false) (v : Value) :
    t.Stored (t.fillNode (t.home k) k v) k v ∧ t.SameSizes (t.fillNode (t.home k) k v) ∧
      (t.fillNode (t.home k) k v).occupied ≤ t.occupied + 1 := by
  have hChained := chained_fillNode hWell.toChained hNew rfl hDead v
  have hPlaced := placed_fillNode hWell.toChained rfl hDead v
  refine ⟨⟨⟨hChained, fun hDummy => ?_, fun b hb => ?_, fun b hb m hbm hm => ?_⟩,
    hPlaced.held? hWell.toChained hChained hNew⟩, ⟨rfl, hPlaced.count, rfl⟩, ?_⟩
  · have hNone : t.lastFree = none := hDummy
    simp [isDummy, hNone] at hReal
  · rw [hPlaced.count]
    exact hWell.bound b hb
  · rw [hPlaced.count] at hm
    exact (occupied_iff_fillNode hWell.toChained hNew rfl v m).mpr
      (Or.inr (hWell.taken b hb m hbm hm))
  · have hOccupied := occupied_fillNode hWell.toChained hNew rfl v
    split at hOccupied <;> omega

/-- A key that is placed in a free bucket, linked into a chain, is stored. This covers both ways to
link it in. -/
theorem spliced_stored (hWell : t.WellFormed) (hNew : t.Insertable k) {free x n p : Nat}
    {move : Nat → Nat} (hReal : t.isDummy = false) (hFree : free < t.bucketCount)
    (hVacant : ¬t.Occupied free) (hAbove : ∀ m, free < m → m < t.bucketCount → t.Occupied m)
    (hPlaced : (t.withLastFree (some free)).Placed t' k v p move)
    (hSpliced : (t.withLastFree (some free)).Spliced t' x n free) (hChained : t'.Chained)
    (hLast : t'.lastFree = some free) :
    t.Stored t' k v ∧ t.SameSizes t' ∧ t'.occupied ≤ t.occupied + 1 := by
  have hShape := sameShape_withLastFree t (some free)
  refine ⟨⟨hSpliced.wellFormed hChained hLast hFree hAbove, fun l => ?_⟩,
    ⟨congrArg Array.size hPlaced.array, hPlaced.count, ?_⟩,
    (hSpliced.occupied_eq hVacant hFree).le⟩
  · have hEntry := hPlaced.held? (hShape.chained hWell.toChained) hChained (hNew.congr hShape) l
    rw [held?_withLastFree] at hEntry
    exact hEntry
  · rw [hReal, isDummy, hLast]
    rfl

/-- A key that gets a free bucket is stored, in either of the two ways. Which one it is depends on
the entry at the main position. -/
theorem spliceNode_stored (hWell : t.WellFormed) (hNew : t.Insertable k)
    (hLive : (t.node (t.home k)).value.isNil = false) {bound free : Nat}
    (hLast : t.lastFree = some bound) (hFound : t.vacantBelow bound = some free) (v : Value) :
    ∃ t', (newKey grow k v).run t = .ok () t' ∧ t.Stored t' k v ∧ t.SameSizes t' ∧
      t'.occupied ≤ t.occupied + 1 := by
  obtain ⟨hLt, hVacant, hAbove⟩ := vacantBelow_eq_some hFound
  have hFree : free < t.bucketCount := Nat.lt_of_lt_of_le hLt (hWell.bound bound hLast)
  have hAll (m : Nat) (hm : free < m) (hIn : m < t.bucketCount) : t.Occupied m := by
    by_cases hBelow : m < bound
    · exact hAbove m hm hBelow
    · exact hWell.taken bound hLast m (Nat.le_of_not_lt hBelow) hIn
  have hShape := sameShape_withLastFree t (some free)
  have hChained := hShape.chained hWell.toChained
  have hNew' := hNew.congr hShape
  have hHeld : t.Occupied (t.home k) := by
    by_contra hOut
    rw [hWell.vacant _ hOut] at hLive
    cases hLive
  have hReal : t.isDummy = false := by simp [isDummy, hLast]
  rw [newKey_of_free hLive hLast hFound]
  refine ⟨_, rfl, ?_⟩
  split
  next hOwn =>
    exact spliced_stored hWell hNew hReal hFree hVacant hAll
      (placed_append (k := k) hChained hHeld hFree hVacant v)
      (spliced_append hChained hNew' hHeld hFree hVacant v)
      (chained_append hChained hNew' rfl hHeld hOwn hFree hVacant v) rfl
  next hAway =>
    exact spliced_stored hWell hNew hReal hFree hVacant hAll
      (placed_displace (k := k) hChained hHeld rfl hAway hFree hVacant v)
      (spliced_displace hChained hNew' hHeld rfl hAway hFree hVacant v)
      (chained_displace hChained hNew' rfl hHeld rfl hAway hFree hVacant v) rfl

/-- Where no free bucket is found, every bucket holds a key. -/
theorem WellFormed.full (hWell : t.WellFormed) {bound : Nat} (hLast : t.lastFree = some bound)
    (hNone : t.vacantBelow bound = none) (n : Nat) (hn : n < t.bucketCount) : t.Occupied n := by
  by_cases hBelow : n < bound
  · exact vacantBelow_eq_none hNone n hBelow
  · exact hWell.taken bound hLast n (Nat.le_of_not_lt hBelow) hn

/-- A new key is stored at once, unless every bucket holds a key. In the second case nothing has
changed but the bound, and what is done next is up to the caller. -/
theorem newKey_cases (hWell : t.WellFormed) (hNew : t.Insertable k)
    (grow : Key → Value → Store Unit) (v : Value) :
    (∃ t', (newKey grow k v).run t = .ok () t' ∧ t.Stored t' k v ∧ t.SameSizes t' ∧
      t'.occupied ≤ t.occupied + 1) ∨
    (t.capacity ≤ t.occupied ∧ t.exhausted.WellFormed ∧
      (newKey grow k v).run t = (grow k v).run t.exhausted) := by
  cases hLast : t.lastFree with
  | none =>
      exact Or.inr ⟨by simp [capacity, isDummy, hLast], hWell.exhausted (Or.inl hLast),
        newKey_of_dummy hLast⟩
  | some bound =>
      have hReal : t.isDummy = false := by simp [isDummy, hLast]
      cases hDead : (t.node (t.home k)).value.isNil with
      | true =>
          exact Or.inl ⟨_, newKey_of_dead hDead hReal, fillNode_stored hWell hNew hDead hReal v⟩
      | false =>
          cases hFound : t.vacantBelow bound with
          | some free => exact Or.inl (spliceNode_stored hWell hNew hDead hLast hFound v)
          | none =>
              have hAll := hWell.full hLast hFound
              have hFull : t.bucketCount ≤ t.occupied := by
                by_contra hRoom
                obtain ⟨n, hn, hVacant⟩ := occupied_lt_iff.mp (Nat.lt_of_not_le hRoom)
                exact hVacant (hAll n hn)
              exact Or.inr ⟨by simpa [capacity, hReal] using hFull,
                hWell.exhausted (Or.inr hAll), newKey_of_exhausted hDead hLast hFound⟩

/-- What a store that starts no rebuild does: the key is in its slot, its bucket
or a new bucket, and a nil that would need a new bucket is left out. -/
structure Settled (t t' : Table) (k : Key) (v : Value) : Prop extends Stored t t' k v where
  sizes : t.SameSizes t'
  fills : t'.occupied ≤ t.occupied + if (t.slot? k).isSome then 0 else 1

/-- A store looks for a slot, then for a bucket, and makes a new key of what has neither. A nil is
not stored under a new key. -/
theorem setKeyWith_run (grow : Key → Value → Store Unit) (k : Key) (v : Value) (t : Table) :
    (setKeyWith grow k v).run t =
      match t.slot? k with
      | some i => .ok () { t with array := t.array.setIfInBounds i v }
      | none =>
        match t.find? k with
        | some n => .ok () (t.setBucketValue n v)
        | none => if v.isNil then .ok () t else (newKey grow k v).run t := by
  have hSlot : (setKeyWith grow k v).run t =
      EStateM.run (match t.slot? k with
        | some i => modify fun t => { t with array := t.array.setIfInBounds i v }
        | none =>
          match t.find? k with
          | some n => modify fun t => t.setBucketValue n v
          | none => if v.isNil then return () else newKey grow k v) t := by
    cases k <;> rfl
  rw [hSlot]
  cases t.slot? k with
  | some i => rfl
  | none =>
      cases t.find? k with
      | some n => rfl
      | none => cases v.isNil <;> rfl

/-- The store of a key that has a slot is one write. -/
theorem setKey_of_slot {i : Nat} (hSlot : t.slot? k = some i) (rebuilds : Nat) (v : Value) :
    (setKey rebuilds k v).run t = .ok () { t with array := t.array.setIfInBounds i v } := by
  cases rebuilds <;> rw [setKey, setKeyWith_run, hSlot]

/-- So is the store of a key that has a bucket. -/
theorem setKey_of_bucket {n : Nat} (hSlot : t.slot? k = none) (hFind : t.find? k = some n)
    (rebuilds : Nat) (v : Value) :
    (setKey rebuilds k v).run t = .ok () (t.setBucketValue n v) := by
  cases rebuilds <;> rw [setKey, setKeyWith_run, hSlot, hFind]

/-- Nothing is held under a new key. -/
theorem Insertable.held?_eq_none (hNew : t.Insertable k) (hChained : t.Chained)
    (hSame : k.same l = true) : t.held? l = none := by
  have hNone : t.find? l = none := by
    rw [hChained.find?_eq_none_iff]
    intro n
    rw [Key.same_comm, ← Key.same_congr hSame, Key.same_comm]
    exact hNew.absent n
  have hGet : t.lookup l = .absent := by
    rw [lookup_eq, ← slot?_eq_of_same hSame, hNew.slotless]
    simp [getNode, hNone]
  rw [held?, hGet]
  rfl

/-- A nil under a key that is not there is stored by doing nothing. -/
theorem Insertable.stored_nil (hNew : t.Insertable k) (hWell : t.WellFormed)
    (hNil : v.isNil = true) : t.Stored t k v where
  wellFormed := hWell
  entry l := by
    split
    next hSame =>
      rw [(Value.nonNil?_eq_none_iff v).mpr hNil, hNew.held?_eq_none hWell.toChained hSame]
    next => rfl

/-- A store ends without a rebuild unless its key is new and every bucket holds another. What a
rebuild would do is a parameter here, so the cases hold for each bound on rebuilds. -/
theorem setKeyWith_cases (hWell : t.WellFormed) (hKey : k ≠ .vacant)
    (grow : Key → Value → Store Unit) (v : Value) :
    (∃ t', (setKeyWith grow k v).run t = .ok () t' ∧ t.Settled t' k v) ∨
    (t.capacity ≤ t.occupied ∧ t.exhausted.WellFormed ∧ t.Insertable k ∧ v.isNil = false ∧
      (setKeyWith grow k v).run t = (grow k v).run t.exhausted) := by
  rw [setKeyWith_run]
  cases hSlot : t.slot? k with
  | some i =>
      have hDone := overwritten_setSlot hWell hSlot v
      refine Or.inl ⟨_, rfl, hDone.stored, ⟨hDone.shape.array, rfl, rfl⟩, ?_⟩
      rw [hDone.shape.occupied_eq]
      exact Nat.le_add_right _ _
  | none =>
      cases hFind : t.find? k with
      | some n =>
          have hSame := (hWell.find?_eq_some_iff k n).mp hFind
          have hDone := overwritten_setBucketValue hWell hSame v
          refine Or.inl ⟨_, rfl, hDone.stored, ⟨hDone.shape.array, hDone.shape.count, rfl⟩, ?_⟩
          rw [hDone.shape.occupied_eq]
          exact Nat.le_add_right _ _
      | none =>
          have hAbsent := (hWell.find?_eq_none_iff k).mp hFind
          have hNew : t.Insertable k := ⟨hKey, hAbsent, hSlot⟩
          cases hNil : v.isNil with
          | true =>
              exact Or.inl ⟨t, rfl, hNew.stored_nil hWell hNil, ⟨rfl, rfl, rfl⟩,
                Nat.le_add_right _ _⟩
          | false =>
              rcases newKey_cases hWell hNew grow v with
                ⟨t', hRun, hStored, hSizes, hFills⟩ | ⟨hFull, hExhausted, hRun⟩
              · exact Or.inl ⟨t', hRun, hStored, hSizes, by simpa [hSlot] using hFills⟩
              · exact Or.inr ⟨hFull, hExhausted, hNew, rfl, hRun⟩

end TaggedRuntime.Table
