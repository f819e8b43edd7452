import TaggedRuntime.Proofs.Table.Placement

/-! A vacant bucket that is linked into a chain, with a new key behind the
entry at its main position or with an entry that makes room there. Both change
the links in one way: one bucket leads to the free one, and that takes over a
link. -/

namespace TaggedRuntime.Table

variable {t t' : Table} {k : Key}

/-- A vacant bucket is linked in behind `x`, and takes over the link of `n`. -/
structure Spliced (t t' : Table) (x n free : Nat) : Prop where
  count : t'.bucketCount = t.bucketCount
  occupied : ∀ m, t'.Occupied m ↔ m = free ∨ t.Occupied m
  same : ∀ m, m ≠ x → m ≠ n → m ≠ free → t'.node m = t.node m
  link : ∀ a b, t'.Link a b ↔ (a = x ∧ b = free) ∨ (a = free ∧ t.Link n b) ∨
    (a ≠ x ∧ a ≠ n ∧ a ≠ free ∧ t.Link a b)
  linked : ∀ a, (t'.node a).next ≠ 0 → a = x ∨ (a = free ∧ (t.node n).next ≠ 0) ∨
    (a ≠ x ∧ a ≠ n ∧ a ≠ free ∧ (t.node a).next ≠ 0)

namespace Spliced

variable {x n free : Nat} (hSpliced : t.Spliced t' x n free) (hChained : t.Chained)
  (hVacant : ¬t.Occupied free)
include hSpliced hChained

theorem vacant (hx : t.Occupied x) (hn : t.Occupied n) (m : Nat) (hm : ¬t'.Occupied m) :
    t'.node m = {} := by
  rw [hSpliced.occupied, not_or] at hm
  have hmx : m ≠ x := fun h => hm.2 (h ▸ hx)
  have hmn : m ≠ n := fun h => hm.2 (h ▸ hn)
  rw [hSpliced.same m hmx hmn hm.1]
  exact hChained.vacant m hm.2

/-- Each link leads to a bucket that is taken. Links are three kinds here: the two new ones and
those that stayed. -/
theorem inside (a : Nat) (hNext : (t'.node a).next ≠ 0) :
    ∃ b, t'.Link a b ∧ t'.Occupied b := by
  simp only [hSpliced.link, hSpliced.occupied]
  rcases hSpliced.linked a hNext with rfl | ⟨rfl, hOld⟩ | ⟨hax, han, haf, hOld⟩
  · exact ⟨free, Or.inl ⟨rfl, rfl⟩, Or.inl rfl⟩
  · obtain ⟨b, hLink, hb⟩ := hChained.inside n hOld
    exact ⟨b, Or.inr (Or.inl ⟨rfl, hLink⟩), Or.inr hb⟩
  · obtain ⟨b, hLink, hb⟩ := hChained.inside a hOld
    exact ⟨b, Or.inr (Or.inr ⟨hax, han, haf, hLink⟩), Or.inr hb⟩

include hVacant

/-- No two links lead to the same bucket. The free bucket had none before, so the new link to it is
the only one. -/
theorem joinless (a b c : Nat) (hac : t'.Link a c) (hbc : t'.Link b c) : a = b := by
  have hFree (a : Nat) : ¬t.Link a free := fun h => hVacant (hChained.occupied_right h)
  rw [hSpliced.link] at hac hbc
  rcases hac with ⟨rfl, rfl⟩ | ⟨rfl, hac⟩ | ⟨_, han, _, hac⟩
  · rcases hbc with ⟨rfl, _⟩ | ⟨_, hbc⟩ | ⟨_, _, _, hbc⟩
    · rfl
    · exact False.elim (hFree n hbc)
    · exact False.elim (hFree b hbc)
  · rcases hbc with ⟨_, rfl⟩ | ⟨rfl, _⟩ | ⟨_, hbn, _, hbc⟩
    · exact False.elim (hFree n hac)
    · rfl
    · exact False.elim (hbn (hChained.joinless b n c hbc hac))
  · rcases hbc with ⟨_, rfl⟩ | ⟨_, hbc⟩ | ⟨_, _, _, hbc⟩
    · exact False.elim (hFree a hac)
    · exact False.elim (han (hChained.joinless a n c hac hbc))
    · exact hChained.joinless a b c hac hbc

omit hChained in
theorem occupied_eq (hFree : free < t.bucketCount) : t'.occupied = t.occupied + 1 := by
  rw [occupied_insert hSpliced.count hFree hSpliced.occupied, if_neg hVacant]

end Spliced

section Append

variable {n free : Nat} (hChained : t.Chained) (hNew : t.Insertable k) (hHome : t.home k = n)
  (hHeld : t.Occupied n) (hOwn : t.home (t.node n).key = n)
  (hFree : free < t.bucketCount) (hVacant : ¬t.Occupied free)

include hHeld hFree hVacant

/-- What the buckets hold when the new key goes to the free bucket: the entry at the main position
stays where it is. -/
theorem node_append (v : Value) (m : Nat) : (t.append n free k v).node m =
    if m = n then { t.node n with next := (free : Int) - n }
    else if m = free then
      { key := k, value := v
        next := if (t.node n).next = 0 then 0 else (t.node n).next + ((n : Int) - free) }
    else t.node m := by
  have hne : n ≠ free := fun h => hVacant (h ▸ hHeld)
  unfold append
  rw [node_modifyNode (by simpa using hHeld.lt), node_modifyNode hFree, node_modifyNode hFree,
    if_neg hne]

include hChained

/-- The free bucket is linked in right behind the main position, and what followed it follows the
free bucket. -/
theorem link_append (v : Value) (a b : Nat) : (t.append n free k v).Link a b ↔
    (a = n ∧ b = free) ∨ (a = free ∧ t.Link n b) ∨
      (a ≠ n ∧ a ≠ n ∧ a ≠ free ∧ t.Link a b) := by
  have hne : free ≠ n := fun h => hVacant (h ▸ hHeld)
  have hNever : ¬t.Link n free := fun h => hVacant (hChained.occupied_right h)
  simp only [Link, node_append hHeld hFree hVacant] at hNever ⊢
  by_cases han : a = n
  · subst han
    simp only [if_true, hne.symm, false_and, not_true, ne_eq, or_false, true_and]
    omega
  · by_cases haf : a = free
    · subst haf
      simp only [han, if_false, if_true, false_and, not_true, ne_eq, or_false, true_and, false_or,
        and_false]
      split <;> omega
    · simp [han, haf]

include hNew

omit hChained in
/-- The free bucket is taken, and no other that was not. -/
theorem occupied_iff_append (v : Value) (m : Nat) :
    (t.append n free k v).Occupied m ↔ m = free ∨ t.Occupied m := by
  simp only [Occupied, node_append hHeld hFree hVacant]
  have hne : free ≠ n := fun h => hVacant (h ▸ hHeld)
  by_cases hmn : m = n
  · subst hmn
    simp only [if_true, hne.symm, false_or]
  · by_cases hmf : m = free
    · subst hmf
      simp [hne, hNew.key]
    · simp [hmn, hmf]

/-- Appending is a splice at the main position itself. -/
theorem spliced_append (v : Value) : t.Spliced (t.append n free k v) n n free where
  count := by simp [append]
  occupied := occupied_iff_append hNew hHeld hFree hVacant v
  same m hmn _ hmf := by rw [node_append hHeld hFree hVacant, if_neg hmn, if_neg hmf]
  link := link_append hChained hHeld hFree hVacant v
  linked a hNext := by
    rw [node_append hHeld hFree hVacant] at hNext
    grind

omit hNew in
/-- Appending is a placement in which nothing moves. The new key is in the free bucket. -/
theorem placed_append (v : Value) : t.Placed (t.append n free k v) k v free id where
  array := rfl
  count := by simp [append]
  key := by
    have hne : free ≠ n := fun h => hVacant (h ▸ hHeld)
    simp [node_append hHeld hFree hVacant, hne]
  value := by
    have hne : free ≠ n := fun h => hVacant (h ▸ hHeld)
    simp [node_append hHeld hFree hVacant, hne]
  old m hm _ := by
    refine ⟨m, rfl, ?_⟩
    rw [node_append hHeld hFree hVacant, if_neg hm]
    split
    next h => simp [h]
    next => exact ⟨rfl, rfl⟩
  kept m hLive := by
    have hm : m ≠ free := by
      rintro rfl
      rw [hChained.vacant m hVacant] at hLive
      cases hLive
    rw [id, node_append hHeld hFree hVacant, if_neg hm]
    split
    next h => simp [h]
    next => exact ⟨rfl, rfl⟩

/-- The new bucket ranks right above the one it is linked behind. All that ranked above it go up by
one. -/
theorem ranking_append {rank : Nat → Nat} (hRank : t.Ranking rank) (v : Value) :
    (t.append n free k v).Ranking fun m =>
      if m = free then rank n + 1 else if rank n < rank m then rank m + 1 else rank m where
  climbs a b hLink := by
    have hne : n ≠ free := fun h => hVacant (h ▸ hHeld)
    have hNever (a b : Nat) (h : t.Link a b) : b ≠ free :=
      fun hb => hVacant (hb ▸ hChained.occupied_right h)
    rcases (link_append hChained hHeld hFree hVacant v a b).mp hLink with
      ⟨rfl, rfl⟩ | ⟨rfl, hOld⟩ | ⟨_, _, haf, hOld⟩
    · simp [hne]
    · have hClimb := hRank.climbs n b hOld
      simp [hNever n b hOld, hClimb]
    · have hClimb := hRank.climbs a b hOld
      simp only [haf, hNever a b hOld, if_false]
      split <;> split <;> omega
  below m := by
    have hPos := occupied_pos hHeld
    have hCount := (spliced_append hChained hNew hHeld hFree hVacant v).occupied_eq hVacant hFree
    have hn := hRank.below n
    have hm := hRank.below m
    grind

omit hChained hNew in
theorem key_append (v : Value) {m : Nat} (hm : m ≠ free) :
    ((t.append n free k v).node m).key = (t.node m).key := by
  rw [node_append hHeld hFree hVacant, if_neg hm]
  split
  next h => rw [h]
  next => rfl

omit hNew in
/-- A link out of the entry at the main position becomes two, by way of the new
bucket. -/
theorem reaches_append (v : Value) {a b : Nat} (h : t.Link a b) :
    (t.append n free k v).Reaches a b := by
  have hLink := link_append (k := k) hChained hHeld hFree hVacant v
  by_cases han : a = n
  · subst han
    have hOn := (hLink free b).mpr (Or.inr (Or.inl ⟨rfl, h⟩))
    exact (Relation.ReflTransGen.single ((hLink a free).mpr (Or.inl ⟨rfl, rfl⟩))).tail hOn
  · have haf : a ≠ free := fun ha => hVacant (ha ▸ hChained.occupied_left h)
    exact Relation.ReflTransGen.single ((hLink a b).mpr (Or.inr (Or.inr ⟨han, han, haf, h⟩)))

include hHome

/-- Each key is on the chain from its main position, the new one right behind the first. -/
theorem reached_append (v : Value) (m : Nat) (hm : (t.append n free k v).Occupied m) :
    (t.append n free k v).Reaches (t.home ((t.append n free k v).node m).key) m := by
  by_cases hmf : m = free
  · rw [hmf, (placed_append hChained hHeld hFree hVacant v).key, hHome]
    exact Relation.ReflTransGen.single
      ((link_append hChained hHeld hFree hVacant v n free).mpr (Or.inl ⟨rfl, rfl⟩))
  · rw [key_append hHeld hFree hVacant v hmf]
    have hOld := ((occupied_iff_append hNew hHeld hFree hVacant v m).mp hm).resolve_left hmf
    exact Relation.ReflTransGen.lift' id
      (fun _ _ h => reaches_append hChained hHeld hFree hVacant v h) _ _ (hChained.reached m hOld)

include hOwn

/-- The main position of each key is taken by a key of that position. The new key shares the one of
the entry that was there. -/
theorem homes_append (v : Value) (m : Nat) (hm : (t.append n free k v).Occupied m) :
    (t.append n free k v).Occupied (t.home ((t.append n free k v).node m).key) ∧
      t.home ((t.append n free k v).node (t.home ((t.append n free k v).node m).key)).key =
        t.home ((t.append n free k v).node m).key := by
  have hKey {m : Nat} (hm : m ≠ free) : ((t.append n free k v).node m).key = (t.node m).key :=
    key_append hHeld hFree hVacant v hm
  rw [occupied_iff_append hNew hHeld hFree hVacant] at hm ⊢
  by_cases hmf : m = free
  · rw [hmf, (placed_append hChained hHeld hFree hVacant v).key, hHome,
      hKey fun h => hVacant (h ▸ hHeld)]
    exact ⟨Or.inr hHeld, hOwn⟩
  · rw [hKey hmf]
    obtain ⟨hHeldHome, hOwnHome⟩ := hChained.homes m (hm.resolve_left hmf)
    rw [hKey fun h => hVacant (h ▸ hHeldHome)]
    exact ⟨Or.inr hHeldHome, hOwnHome⟩

/-- Chains stay well-formed when a key is appended. -/
theorem chained_append (v : Value) : (t.append n free k v).Chained := by
  have hSpliced := spliced_append hChained hNew hHeld hFree hVacant v
  apply (placed_append hChained hHeld hFree hVacant v).chained hChained hNew
  · exact hSpliced.vacant hChained hHeld hHeld
  · exact hSpliced.inside hChained
  · exact hSpliced.joinless hChained hVacant
  · obtain ⟨rank, hRank⟩ := hChained.ranked
    exact ⟨_, ranking_append hChained hNew hHeld hFree hVacant hRank v⟩
  · exact reached_append hChained hNew hHome hHeld hFree hVacant v
  · exact homes_append hChained hNew hHome hHeld hOwn hFree hVacant v

end Append

/-! ### An entry moved to a free bucket -/

section Displace

/-- The search along a chain for the bucket before another finds it. It starts at the main position
of the entry there, and it has to lead to the bucket. -/
theorem link_predecessor (hChained : t.Chained) {start n : Nat} (hReach : t.Reaches start n)
    (hne : start ≠ n) : t.Link (t.predecessor start n) n := by
  obtain ⟨rank, hRank⟩ := hChained.ranked
  obtain hEq | ⟨last, hToLast, hLast⟩ := Relation.ReflTransGen.cases_tail hReach
  · exact False.elim (hne hEq.symm)
  obtain ⟨m, hSearch, hBefore⟩ := hRank.onChain_isSome hChained.bucketCount_pos
    (fun p node => step p node.next = n) hToLast (by simpa using hLast.step_eq)
  have hStep : step m (t.node m).next = n := by
    simpa using test_of_search (fun p node => decide (step p node.next = n)) hSearch
  have hNext : (t.node m).next ≠ 0 := by
    intro hEnd
    have hmn : m = n := by simpa [hEnd, step] using hStep
    -- The search would have stopped at `n` itself, which lies behind `last`.
    have hLe := hRank.le_of_reaches (hmn ▸ hBefore)
    exact Nat.not_lt_of_le hLe (hRank.climbs last n hLast)
  obtain ⟨b, hLink, _⟩ := hChained.inside m hNext
  have hb : b = n := hLink.step_eq.symm.trans hStep
  have hFound : t.predecessor start n = m := by simp [predecessor, hSearch]
  rw [hFound]
  exact hb ▸ hLink

variable {start n free : Nat} (hChained : t.Chained) (hNew : t.Insertable k)
  (hHome : t.home k = n) (hHeld : t.Occupied n) (hStart : t.home (t.node n).key = start)
  (hAway : start ≠ n) (hFree : free < t.bucketCount) (hVacant : ¬t.Occupied free)

include hChained hHeld hStart hAway

/-- There is a bucket before one that is not at the start of its chain, and it is the one that is
found. -/
theorem link_before : t.Link (t.predecessor start n) n :=
  link_predecessor hChained (hStart ▸ hChained.reached n hHeld) hAway

theorem before_ne : t.predecessor start n ≠ n := by
  intro hEq
  have hLink := link_before hChained hHeld hStart hAway
  rw [hEq] at hLink
  exact hChained.not_link_self n hLink

include hFree hVacant

/-- What the buckets hold when the entry at the main position moves to the free bucket and the new
key takes its place. -/
theorem node_displace (v : Value) (m : Nat) : (t.displace start n free k v).node m =
    if m = n then { key := k, value := v, next := 0 }
    else if m = free then
      { t.node n with
        next := if (t.node n).next = 0 then 0 else (t.node n).next + ((n : Int) - free) }
    else if m = t.predecessor start n then
      { t.node m with next := (free : Int) - t.predecessor start n }
    else t.node m := by
  have hBefore := (link_before hChained hHeld hStart hAway).lt_bucketCount
  have hn := hHeld.lt
  have hnf : n ≠ free := fun h => hVacant (h ▸ hHeld)
  simp only [displace, fillNode, node_modifyNode, bucketCount_modifyNode, hBefore, hn, hFree, hnf,
    if_true, if_false]
  grind

/-- The free bucket takes the place of the one that was moved in its chain. The new key starts a
chain of its own. -/
theorem link_displace (v : Value) (a b : Nat) : (t.displace start n free k v).Link a b ↔
    (a = t.predecessor start n ∧ b = free) ∨ (a = free ∧ t.Link n b) ∨
      (a ≠ t.predecessor start n ∧ a ≠ n ∧ a ≠ free ∧ t.Link a b) := by
  have hBefore := link_before hChained hHeld hStart hAway
  have hbn := before_ne hChained hHeld hStart hAway
  have hbf : t.predecessor start n ≠ free := fun h => hVacant (h ▸ hChained.occupied_left hBefore)
  have hnf : n ≠ free := fun h => hVacant (h ▸ hHeld)
  have hNever : ¬t.Link n free := fun h => hVacant (hChained.occupied_right h)
  simp only [Link, node_displace hChained hHeld hStart hAway hFree hVacant] at hNever ⊢
  by_cases han : a = n
  · simp [han, hnf, hbn.symm]
  · by_cases haf : a = free
    · subst haf
      simp only [han, if_false, if_true, hbf.symm, false_and, not_true, ne_eq, or_false, true_and,
        false_or, and_false]
      split <;> omega
    · by_cases hab : a = t.predecessor start n
      · simp only [hab, hbn, hbf, if_true, if_false, not_true, ne_eq, or_false, true_and,
          false_and]
        omega
      · simp [han, haf, hab]

include hNew

theorem occupied_iff_displace (v : Value) (m : Nat) :
    (t.displace start n free k v).Occupied m ↔ m = free ∨ t.Occupied m := by
  have hBefore := hChained.occupied_left (link_before hChained hHeld hStart hAway)
  simp only [Occupied, node_displace hChained hHeld hStart hAway hFree hVacant] at hHeld hBefore ⊢
  have hKey := hNew.key
  grind

/-- Displacing is a splice behind the bucket before the one that moves. -/
theorem spliced_displace (v : Value) :
    t.Spliced (t.displace start n free k v) (t.predecessor start n) n free where
  count := by simp [displace, fillNode]
  occupied := occupied_iff_displace hChained hNew hHeld hStart hAway hFree hVacant v
  same m hmb hmn hmf := by
    rw [node_displace hChained hHeld hStart hAway hFree hVacant, if_neg hmn, if_neg hmf, if_neg hmb]
  link := link_displace hChained hHeld hStart hAway hFree hVacant v
  linked a hNext := by
    rw [node_displace hChained hHeld hStart hAway hFree hVacant] at hNext
    grind

omit hNew in
/-- Displacing is a placement in which one entry moves to the free bucket. The new key is where that
entry was. -/
theorem placed_displace (v : Value) : t.Placed (t.displace start n free k v) k v n
    fun m => if m = n then free else m where
  array := rfl
  count := by simp [displace, fillNode]
  key := by simp [node_displace hChained hHeld hStart hAway hFree hVacant]
  value := by simp [node_displace hChained hHeld hStart hAway hFree hVacant]
  old m hm _ := by
    rw [node_displace hChained hHeld hStart hAway hFree hVacant, if_neg hm]
    by_cases hmf : m = free
    · exact ⟨n, by simp [hmf], by simp [hmf]⟩
    · refine ⟨m, by simp [hm], ?_⟩
      rw [if_neg hmf]
      split <;> exact ⟨rfl, rfl⟩
  kept m hLive := by
    rw [node_displace hChained hHeld hStart hAway hFree hVacant]
    have hnf : free ≠ n := fun h => hVacant (h ▸ hHeld)
    by_cases hmn : m = n
    · simp [hmn, hnf]
    · have hmf : m ≠ free := by
        rintro rfl
        rw [hChained.vacant m hVacant] at hLive
        cases hLive
      simp only [hmn, hmf, if_false]
      split <;> exact ⟨rfl, rfl⟩

/-- The entry that moves takes its rank along. The new key has rank zero, since nothing leads to it
and nothing follows. -/
theorem ranking_displace {rank : Nat → Nat} (hRank : t.Ranking rank) (v : Value) :
    (t.displace start n free k v).Ranking fun m =>
      if m = free then rank n else if m = n then 0 else rank m where
  climbs a b hLink := by
    have hBefore := link_before hChained hHeld hStart hAway
    have hbn := before_ne hChained hHeld hStart hAway
    have hbf : t.predecessor start n ≠ free := fun h => hVacant (h ▸ hChained.occupied_left hBefore)
    have hNever (a b : Nat) (h : t.Link a b) : b ≠ free :=
      fun hb => hVacant (hb ▸ hChained.occupied_right h)
    rcases (link_displace hChained hHeld hStart hAway hFree hVacant v a b).mp hLink with
      ⟨rfl, rfl⟩ | ⟨rfl, hOld⟩ | ⟨hab, han, haf, hOld⟩
    · simpa [hbf, hbn] using hRank.climbs _ _ hBefore
    · have hn : b ≠ n := fun hb => hChained.not_link_self n (hb ▸ hOld)
      simpa [hNever n b hOld, hn] using hRank.climbs _ _ hOld
    · have hn : b ≠ n := fun hb => hab (hChained.joinless a _ n (hb ▸ hOld) hBefore)
      simpa [haf, han, hNever a b hOld, hn] using hRank.climbs _ _ hOld
  below m := by
    have hCount := (spliced_displace hChained hNew hHeld hStart hAway hFree hVacant v).occupied_eq
      hVacant hFree
    have hn := hRank.below n
    have hm := hRank.below m
    grind

omit hNew in
theorem key_displace (v : Value) {m : Nat} (hmn : m ≠ n) (hmf : m ≠ free) :
    ((t.displace start n free k v).node m).key = (t.node m).key := by
  rw [node_displace hChained hHeld hStart hAway hFree hVacant, if_neg hmn, if_neg hmf]
  split <;> rfl

omit hNew in
theorem key_displace_free (v : Value) :
    ((t.displace start n free k v).node free).key = (t.node n).key := by
  have hne : free ≠ n := fun h => hVacant (h ▸ hHeld)
  rw [node_displace hChained hHeld hStart hAway hFree hVacant, if_neg hne, if_pos rfl]

omit hNew hHeld hFree hVacant in
/-- No key has the bucket for its main position whose entry moves, since that
bucket belongs to another chain. -/
theorem home_ne {m : Nat} (hm : t.Occupied m) : t.home (t.node m).key ≠ n := by
  intro hEq
  have hOwn := (hChained.homes m hm).2
  rw [hEq, hStart] at hOwn
  exact hAway hOwn

omit hNew in
/-- Chains that led by way of the entry that moves lead by way of the free bucket, where it is now.
Links from before are one link still, or two by way of the free bucket. -/
theorem reaches_displace (v : Value) {a b : Nat} (h : t.Link a b) :
    (t.displace start n free k v).Reaches
      (if a = n then free else a) (if b = n then free else b) := by
  have hBefore := link_before hChained hHeld hStart hAway
  apply Relation.ReflTransGen.single
  rw [link_displace hChained hHeld hStart hAway hFree hVacant]
  by_cases han : a = n
  · subst han
    have hb : b ≠ a := fun hb => hChained.not_link_self a (hb ▸ h)
    simp [hb, h]
  · have haf : a ≠ free := fun ha => hVacant (ha ▸ hChained.occupied_left h)
    by_cases hb : b = n
    · have hab := hChained.joinless a _ n (hb ▸ h) hBefore
      rw [if_neg han, if_pos hb]
      exact Or.inl ⟨hab, rfl⟩
    · have hab : a ≠ t.predecessor start n := fun hab => hb ((hab ▸ h).right_unique hBefore)
      simp [han, haf, hab, hb, h]

omit hNew in
/-- Every key that was on the chain from its main position still is, wherever it is now. -/
theorem reaches_home_displace (v : Value) {m : Nat} (hm : t.Occupied m) :
    (t.displace start n free k v).Reaches (t.home (t.node m).key) (if m = n then free else m) := by
  have hReach := Relation.ReflTransGen.lift' (fun a => if a = n then free else a)
    (fun _ _ h => reaches_displace (k := k) hChained hHeld hStart hAway hFree hVacant v h) _ _
    (hChained.reached m hm)
  simpa [Function.onFun, home_ne hChained hStart hAway hm] using hReach

include hHome

/-- Each key is on the chain from its main position, the new one at the start of its own. -/
theorem reached_displace (v : Value) (m : Nat) (hm : (t.displace start n free k v).Occupied m) :
    (t.displace start n free k v).Reaches
      (t.home ((t.displace start n free k v).node m).key) m := by
  by_cases hmn : m = n
  · rw [hmn, (placed_displace hChained hHeld hStart hAway hFree hVacant v).key, hHome]
  · by_cases hmf : m = free
    · have hReach := reaches_home_displace (k := k) hChained hHeld hStart hAway hFree hVacant v hHeld
      rw [if_pos rfl] at hReach
      rw [hmf, key_displace_free hChained hHeld hStart hAway hFree hVacant]
      exact hReach
    · rw [occupied_iff_displace hChained hNew hHeld hStart hAway hFree hVacant] at hm
      have hReach := reaches_home_displace (k := k) hChained hHeld hStart hAway hFree hVacant v
        (hm.resolve_left hmf)
      rw [if_neg hmn] at hReach
      rw [key_displace hChained hHeld hStart hAway hFree hVacant v hmn hmf]
      exact hReach

/-- The main position of each key is taken by a key of that position. The entry that moved was not
at its own. -/
theorem homes_displace (v : Value) (m : Nat) (hm : (t.displace start n free k v).Occupied m) :
    (t.displace start n free k v).Occupied (t.home ((t.displace start n free k v).node m).key) ∧
      t.home ((t.displace start n free k v).node
        (t.home ((t.displace start n free k v).node m).key)).key =
          t.home ((t.displace start n free k v).node m).key := by
  have hKey := (placed_displace (k := k) hChained hHeld hStart hAway hFree hVacant v).key
  rw [occupied_iff_displace hChained hNew hHeld hStart hAway hFree hVacant] at hm ⊢
  by_cases hmn : m = n
  · rw [hmn, hKey, hHome, hKey, hHome]
    exact ⟨Or.inr hHeld, rfl⟩
  · -- The key at `m` was at some bucket before, and its main position is as it was.
    obtain ⟨x, hx, hKeyX⟩ : ∃ x, t.Occupied x ∧
        ((t.displace start n free k v).node m).key = (t.node x).key := by
      by_cases hmf : m = free
      · rw [hmf]
        exact ⟨n, hHeld, key_displace_free hChained hHeld hStart hAway hFree hVacant v⟩
      · exact ⟨m, hm.resolve_left hmf,
          key_displace hChained hHeld hStart hAway hFree hVacant v hmn hmf⟩
    obtain ⟨hHeldHome, hOwnHome⟩ := hChained.homes x hx
    rw [hKeyX, key_displace hChained hHeld hStart hAway hFree hVacant v
      (home_ne hChained hStart hAway hx) fun h => hVacant (h ▸ hHeldHome)]
    exact ⟨Or.inr hHeldHome, hOwnHome⟩

/-- Chains stay well-formed when an entry is displaced. Each part of the invariant is one of the
lemmas before this. -/
theorem chained_displace (v : Value) : (t.displace start n free k v).Chained := by
  have hSpliced := spliced_displace hChained hNew hHeld hStart hAway hFree hVacant v
  have hBefore := hChained.occupied_left (link_before hChained hHeld hStart hAway)
  apply (placed_displace hChained hHeld hStart hAway hFree hVacant v).chained hChained hNew
  · exact hSpliced.vacant hChained hBefore hHeld
  · exact hSpliced.inside hChained
  · exact hSpliced.joinless hChained hVacant
  · obtain ⟨rank, hRank⟩ := hChained.ranked
    exact ⟨_, ranking_displace hChained hNew hHeld hStart hAway hFree hVacant hRank v⟩
  · exact reached_displace hChained hNew hHome hHeld hStart hAway hFree hVacant v
  · exact homes_displace hChained hNew hHome hHeld hStart hAway hFree hVacant v

end Displace
end TaggedRuntime.Table
