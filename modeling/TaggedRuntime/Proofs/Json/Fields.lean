import TaggedRuntime.Json.Basic
import TaggedRuntime.Proofs.Text.Order

/-! Objects whose fields are in order. A key stands once in such an object, and a field that is
added or overridden leaves the others as they are. -/

namespace TaggedRuntime.Json

/-- The values that stand directly inside a value. -/
def children : Json → List Json
  | .array items => items
  | .object fields => fields.map Prod.snd
  | _ => []

/-- A property of a value and of every value inside it, at any depth. -/
inductive Everywhere (p : Json → Prop) : Json → Prop where
  | intro {v : Json} (hHere : p v) (hInside : ∀ child ∈ v.children, Everywhere p child) :
      Everywhere p v

/-- Fields in the order of the UTF-8 bytes of their keys. -/
def InOrder (fields : List (String × Json)) : Prop :=
  fields.Pairwise fun field later => Text.toBytes field.1 < Text.toBytes later.1

/-- An object has its fields in order. -/
def Ordered : Json → Prop
  | .object fields => InOrder fields
  | _ => True

variable {key : String} {value : Json} {fields added : List (String × Json)}

/-- What holds of an object and everywhere in the values of its fields holds everywhere in it. Keys
are no values, so nothing is said of them. -/
theorem Everywhere.object {p : Json → Prop} (hHere : p (.object fields))
    (hInside : ∀ field ∈ fields, field.2.Everywhere p) : (Json.object fields).Everywhere p := by
  refine .intro hHere fun child hChild => ?_
  obtain ⟨field, hField, rfl⟩ := List.mem_map.mp hChild
  exact hInside field hField

/-- What holds everywhere in an object holds everywhere in each of its fields. -/
theorem Everywhere.of_field {p : Json → Prop} (hObject : (Json.object fields).Everywhere p) :
    ∀ field ∈ fields, field.2.Everywhere p := by
  obtain ⟨-, hInside⟩ := hObject
  exact fun field hField => hInside _ (List.mem_map_of_mem hField)

theorem InOrder.nodup (hOrder : InOrder fields) : (fields.map Prod.fst).Nodup := by
  refine List.pairwise_map.mpr (hOrder.imp fun hLess hSame => ?_)
  rw [hSame] at hLess
  exact List.lt_irrefl _ hLess

/-! ### One field -/

theorem lookup_cons (key' : String) (value : Json) (rest : List (String × Json)) :
    ((key', value) :: rest).lookup key = if key = key' then some value else rest.lookup key := by
  rw [List.lookup_cons]
  by_cases hSame : key = key'
  · rw [if_pos hSame, hSame, beq_self_eq_true]
  · rw [if_neg hSame, beq_false_of_ne hSame]

/-- What an added field changes in the look-up is its own key. Order plays no part in it. -/
theorem lookup_insertField (key' : String) (value : Json) (fields : List (String × Json)) :
    (insertField key' value fields).lookup key =
      if key = key' then some value else fields.lookup key := by
  induction fields with
  | nil => exact lookup_cons key' value []
  | cons first rest ih =>
      obtain ⟨other, old⟩ := first
      rw [insertField]
      split
      next => exact lookup_cons key' value _
      split
      next hSame =>
        rw [lookup_cons, lookup_cons, hSame]
        split <;> rfl
      next hOther =>
        rw [lookup_cons, lookup_cons, ih]
        by_cases hFirst : key = other
        · rw [if_pos hFirst, if_neg (hFirst ▸ Ne.symm hOther), if_pos hFirst]
        · rw [if_neg hFirst, if_neg hFirst]

theorem insertField_nil (key : String) (value : Json) : insertField key value [] = [(key, value)] :=
  rfl

theorem insertField_before {other : String} (hLess : key < other) (value old : Json)
    (rest : List (String × Json)) :
    insertField key value ((other, old) :: rest) = (key, value) :: (other, old) :: rest := by
  rw [insertField, if_pos hLess]

theorem insertField_behind {other : String} (hLess : other < key) (value old : Json)
    (rest : List (String × Json)) :
    insertField key value ((other, old) :: rest) = (other, old) :: insertField key value rest := by
  rw [insertField, if_neg (lt_asymm hLess), if_neg hLess.ne']

/-- Nothing but the new field comes in. A field of the same key is replaced, so not all that was
there need be there still. -/
theorem mem_insertField {field : String × Json} (hField : field ∈ insertField key value fields) :
    field = (key, value) ∨ field ∈ fields := by
  induction fields with
  | nil => exact .inl (List.mem_singleton.mp hField)
  | cons first rest ih =>
      obtain ⟨other, old⟩ := first
      rw [insertField] at hField
      split at hField
      next => exact List.mem_cons.mp hField
      split at hField
      next => exact (List.mem_cons.mp hField).imp_right (List.mem_cons_of_mem _)
      next =>
        rcases List.mem_cons.mp hField with rfl | hRest
        · exact .inr List.mem_cons_self
        · exact (ih hRest).imp_right (List.mem_cons_of_mem _)

/-- Adding a field keeps the order, whether its key is new or not. -/
theorem InOrder.insertField (hOrder : InOrder fields) (key : String) (value : Json) :
    InOrder (insertField key value fields) := by
  induction fields with
  | nil => exact List.pairwise_singleton _ _
  | cons first rest ih =>
      obtain ⟨other, old⟩ := first
      obtain ⟨hFirst, hRest⟩ := List.pairwise_cons.mp hOrder
      rw [Json.insertField]
      split
      next hLess =>
        have hBytes := (Text.toBytes_lt_iff key other).mpr hLess
        refine List.pairwise_cons.mpr ⟨fun field hField => ?_, hOrder⟩
        rcases List.mem_cons.mp hField with rfl | hField
        · exact hBytes
        · exact List.lt_trans hBytes (hFirst field hField)
      split
      next hSame => exact List.pairwise_cons.mpr ⟨hSame ▸ hFirst, hRest⟩
      next hNotLess hOther =>
        refine List.pairwise_cons.mpr ⟨fun field hField => ?_, ih hRest⟩
        rcases mem_insertField hField with rfl | hField
        · have hLess : other < key := lt_of_le_of_ne (not_lt.mp hNotLess) (Ne.symm hOther)
          exact (Text.toBytes_lt_iff other key).mpr hLess
        · exact hFirst field hField

/-- A field whose key is past all others goes to the end. -/
theorem insertField_append (hLast : ∀ field ∈ fields, Text.toBytes field.1 < Text.toBytes key)
    (value : Json) : insertField key value fields = fields ++ [(key, value)] := by
  induction fields with
  | nil => rfl
  | cons first rest ih =>
      obtain ⟨other, old⟩ := first
      obtain ⟨hFirst, hRest⟩ := List.forall_mem_cons.mp hLast
      have hLess : other < key := (Text.toBytes_lt_iff other key).mp hFirst
      rw [insertField_behind hLess, ih hRest, List.cons_append]

/-! ### Fields in turn -/

/-- Fields that are added in turn are found under their keys, and the other keys are as they were.
The added keys have to differ, for otherwise the last of them counts. -/
theorem lookup_extend (hKeys : (added.map Prod.fst).Nodup) (fields : List (String × Json))
    (key : String) :
    (extend fields added).lookup key = (added.lookup key).or (fields.lookup key) := by
  induction added generalizing fields with
  | nil => rfl
  | cons first rest ih =>
      obtain ⟨other, new⟩ := first
      obtain ⟨(hFirst : other ∉ rest.map Prod.fst), hRest⟩ := List.nodup_cons.mp hKeys
      have hStep :
          extend fields ((other, new) :: rest) = extend (insertField other new fields) rest := rfl
      rw [hStep, ih hRest, lookup_insertField, lookup_cons]
      by_cases hSame : key = other
      · have hNone : rest.lookup key = none := by
          refine List.lookup_eq_none_iff.mpr fun field hField => bne_iff_ne.mpr fun hKey => ?_
          apply hFirst
          rw [← hSame, hKey]
          exact List.mem_map_of_mem hField
        rw [if_pos hSame, if_pos hSame, hNone, Option.none_or, Option.some_or]
      · rw [if_neg hSame, if_neg hSame]

/-- A field of an extended object was there before or was added. -/
theorem mem_extend {field : String × Json} (hField : field ∈ extend fields added) :
    field ∈ fields ∨ field ∈ added := by
  induction added generalizing fields with
  | nil => exact .inl hField
  | cons first rest ih =>
      rcases ih hField with hBefore | hRest
      · rcases mem_insertField hBefore with rfl | hBefore
        · exact .inr List.mem_cons_self
        · exact .inl hBefore
      · exact .inr (List.mem_cons_of_mem _ hRest)

theorem InOrder.extend (hOrder : InOrder fields) (added : List (String × Json)) :
    InOrder (extend fields added) := by
  induction added generalizing fields with
  | nil => exact hOrder
  | cons first rest ih => exact ih (hOrder.insertField first.1 first.2)

/-- An object that is made of fields has everywhere what its fields have, if an object in order has
it. -/
theorem Everywhere.ofFields {p : Json → Prop} (hHere : ∀ fields, InOrder fields → p (.object fields))
    (hInside : ∀ field ∈ added, field.2.Everywhere p) : (ofFields added).Everywhere p := by
  refine .object (hHere _ (InOrder.extend .nil added)) fun field hField => ?_
  rcases mem_extend hField with hNone | hAdded
  · exact absurd hNone List.not_mem_nil
  · exact hInside field hAdded

end TaggedRuntime.Json
