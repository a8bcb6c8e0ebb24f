import Omnara.Lib.Fallible
import Omnara.Lib.JsonValue

/-!
# JSON values in a `jsonb` column

Postgres keeps an object as a map: the last member of each name, shorter names first and names of one
length bytewise. A number keeps its value and may be written anew; `number` stands for that, and what
the writing does to the value is up to the user of this module. Everything else comes back as it was
(`jsonb`).

Go's decoding into a struct depends on the order of the members, so a struct that is read from the
stored form may differ. It does not if each of its names is the name of at most one member: a field is
then read from the stored form of its one member (`PlainNames.stringField_jsonb`,
`PlainNames.listField_jsonb`, `PlainNames.structsField_jsonb` and so on).
-/

namespace Json

open List

/-- The order of the names in a `jsonb` object. -/
def shorter (left right : Bytes) : Bool :=
  left.length < right.length || left.length = right.length && left < right

/-- The value a `jsonb` column gives back. -/
abbrev jsonb (number : Bytes → Bytes) (value : Value) : Value := reorder shorter number value

abbrev jsonbMembers (number : Bytes → Bytes) (members : Members) : Members :=
  mapBy shorter (reorderMembers shorter number members)

section
variable {before : Bytes → Bytes → Bool} {number : Bytes → Bytes} {key : Bytes} {value : Value}
  {members : Members} {names : List String} {name : String}

/-! ## Plain names in rewritten maps -/

section
variable (h : PlainNames names members)
include h

theorem PlainNames.mapBy : PlainNames names (mapBy before members) := by
  intro name hname
  rw [fieldMembers_mapBy (h.length_le hname)]
  exact h name hname

theorem PlainNames.fieldMembers_insertMember (hname : name ∈ names) (hkey : foldName key = key) :
    fieldMembers (insertMember before key value members) name =
      if key = ascii name then [(key, value)] else fieldMembers members name := by
  split
  · rename_i heq
    exact fieldMembers_insertMember_self (hkey.trans heq) (heq ▸ h.key_eq hname)
  · exact fieldMembers_insertMember_of_ne (by rwa [hkey])

theorem PlainNames.fieldMembers_eraseMember (hname : name ∈ names) (hkey : foldName key = key) :
    fieldMembers (eraseMember key members) name =
      if key = ascii name then [] else fieldMembers members name := by
  split
  · rename_i heq
    exact fieldMembers_eraseMember_self (heq ▸ h.key_eq hname)
  · exact fieldMembers_eraseMember_of_ne (by rwa [hkey])

theorem PlainNames.insertMember (hkey : foldName key = key) :
    PlainNames names (insertMember before key value members) := by
  intro name hname
  rw [h.fieldMembers_insertMember hname hkey]
  split
  · rename_i heq
    simp [heq]
  · exact h name hname

theorem PlainNames.eraseMember (hkey : foldName key = key) :
    PlainNames names (eraseMember key members) := by
  intro name hname
  rw [h.fieldMembers_eraseMember hname hkey]
  split
  · simp
  · exact h name hname

/-! ## Fields of the stored form -/

theorem PlainNames.fieldValues_jsonb (hname : name ∈ names) :
    fieldValues (jsonbMembers number members) name =
      (fieldValues members name).map (jsonb number) := by
  have hmap : fieldMembers (reorderMembers shorter number members) name =
      (fieldMembers members name).map fun m => (m.1, jsonb number m.2) := by
    rw [reorderMembers_eq, fieldMembers, filter_map]
    rfl
  unfold fieldValues
  rw [fieldMembers_mapBy (by rw [hmap, length_map]; exact h.length_le hname), hmap, map_map, map_map]
  rfl

end

theorem setString_jsonb (text : Bytes) (value : Value) :
    setString text (jsonb number value) = setString text value := by
  cases value <;> simp [reorder, setString]

theorem PlainNames.stringField_jsonb (h : PlainNames names members) (hname : name ∈ names) :
    stringField (jsonbMembers number members) name = stringField members name := by
  unfold stringField
  rw [h.fieldValues_jsonb hname, foldlM_map]
  simp only [setString_jsonb]

theorem PlainNames.rawField_jsonb (h : PlainNames names members) (hname : name ∈ names) :
    rawField (jsonbMembers number members) name = (rawField members name).map (jsonb number) := by
  unfold rawField
  rw [h.fieldValues_jsonb hname, getLast?_map]

theorem PlainNames.laxStringField_jsonb (h : PlainNames names members) (hname : name ∈ names) :
    laxStringField (jsonbMembers number members) name = laxStringField members name := by
  unfold laxStringField
  rw [h.rawField_jsonb hname]
  cases rawField members name with
  | none => rfl
  | some value => cases value <;> simp [reorder]

theorem structMembers_jsonb (value : Value) :
    structMembers (jsonb number value) = (structMembers value).map (jsonbMembers number) := by
  cases value <;> simp [reorder, structMembers, reorderMembers, Json.mapBy]

theorem listItems_jsonb (value : Value) :
    listItems (jsonb number value) = (listItems value).map (List.map (jsonb number)) := by
  cases value <;> simp [reorder, listItems, reorderItems_eq]

/-- A field whose name is plain has one member at most. -/
theorem PlainNames.fieldValues_cases (h : PlainNames names members) (hname : name ∈ names) :
    fieldValues members name = [] ∨ ∃ value, fieldValues members name = [value] := by
  have hlen := h.length_le hname
  rw [← length_map Prod.snd] at hlen
  unfold fieldValues
  match (fieldMembers members name).map Prod.snd, hlen with
  | [], _ => exact .inl rfl
  | [value], _ => exact .inr ⟨value, rfl⟩

theorem PlainNames.listField_jsonb (h : PlainNames names members) (hname : name ∈ names) :
    listField (jsonbMembers number members) name =
      (listField members name).map (List.map (jsonb number)) := by
  unfold listField
  rw [h.fieldValues_jsonb hname]
  rcases h.fieldValues_cases hname with hv | ⟨value, hv⟩
  · rw [hv]
    rfl
  · rw [hv, map_singleton, foldlM_cons, foldlM_cons, listItems_jsonb]
    cases listItems value <;> rfl

/-! ## Slices of structs -/

section
variable {α : Type} {read : Members → Option α}

theorem mergeItems_nil (items : List Value) : mergeItems [] items = items.mapM structMembers := by
  induction items with
  | nil => rfl
  | cons item items ih => rw [mergeItems, mapM_cons, ih]

theorem mapM_bind_mapM {β γ : Type} (f : β → Option γ) (g : γ → Option α) : ∀ as : List β,
    (as.mapM f).bind (List.mapM g) = as.mapM fun a => (f a).bind g
  | [] => rfl
  | a :: as => by
    rw [mapM_cons, mapM_cons, ← mapM_bind_mapM f g as]
    cases f a with
    | none => rfl
    | some b =>
      cases as.mapM f with
      | none => cases hg : g b <;> simp [hg]
      | some bs => simp [mapM_cons]

theorem length_of_mapM_some {β : Type} {f : β → Option α} {as : List β} {bs : List α}
    (h : as.mapM f = some bs) : bs.length = as.length := by
  have hlen := congrArg length (Fallible.map_of_mapM_some h)
  simpa using hlen.symm

/-- A slice that one member gives is the structs of its items. -/
theorem PlainNames.structsField_eq (h : PlainNames names members) (hname : name ∈ names) :
    structsField read members name = (listField members name).bind fun items =>
      items.mapM fun item => (structMembers item).bind read := by
  unfold structsField listField
  rcases h.fieldValues_cases hname with hv | ⟨value, hv⟩
  · rw [hv]
    rfl
  rw [hv, foldlM_cons, foldlM_cons]
  unfold setStructs
  cases listItems value with
  | none => rfl
  | some items =>
    cases items with
    | nil => rfl
    | cons item items =>
      have hitems := mapM_bind_mapM structMembers read (item :: items)
      simp only [mergeItems_nil, foldlM_nil, Option.bind_eq_bind, Option.bind_some, Option.pure_def]
      rw [← hitems]
      cases hms : (item :: items).mapM structMembers with
      | none => rfl
      | some elements =>
        cases hread : elements.mapM read with
        | none => simp [hread]
        | some structs =>
          have hlen := (length_of_mapM_some hread).trans (length_of_mapM_some hms)
          simp [hread, ← hlen]

theorem PlainNames.structsField_jsonb (h : PlainNames names members) (hname : name ∈ names)
    (hread : ∀ items ∈ listField members name, ∀ item ∈ items, ∀ inner ∈ structMembers item,
      read (jsonbMembers number inner) = read inner) :
    structsField read (jsonbMembers number members) name = structsField read members name := by
  have hstored : PlainNames names (jsonbMembers number members) := by
    refine PlainNames.mapBy fun name hname => ?_
    have hkeys := h name hname
    rw [reorderMembers_eq, fieldMembers, filter_map, map_map]
    exact hkeys
  rw [hstored.structsField_eq hname, h.structsField_eq hname, h.listField_jsonb hname]
  cases hitems : listField members name with
  | none => rfl
  | some items =>
    rw [Option.map_some, Option.bind_some, Option.bind_some, mapM_map]
    refine Fallible.mapM_congr fun item hitem => ?_
    rw [Function.comp_apply, structMembers_jsonb]
    cases hinner : structMembers item with
    | none => rfl
    | some inner => exact hread items hitems item hitem inner hinner

end

end

end Json
