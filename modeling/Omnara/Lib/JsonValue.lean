import Omnara.Lib.Json

/-!
# JSON values and the decoding of structs

`decode` is the value a JSON text spells. Objects keep the order of their members and members of the
same name, because Go's decoding into a struct depends on both: a member belongs to a field if their
names agree without regard to case (`foldName`), a later member replaces an earlier one, and `null`
leaves a string alone. White space, escapes and nothing else is forgotten; a number is its literal.
-/

namespace Json

open List

inductive Value
  | null
  | bool (value : Bool)
  | num (literal : Bytes)
  | str (value : Bytes)
  | arr (items : List Value)
  | obj (members : List (Bytes × Value))

abbrev Members := List (Bytes × Value)

mutual

def Value.same : Value → Value → Bool
  | .null, .null => true
  | .bool left, .bool right => left == right
  | .num left, .num right => left == right
  | .str left, .str right => left == right
  | .arr left, .arr right => sameItems left right
  | .obj left, .obj right => sameMembers left right
  | _, _ => false

def sameItems : List Value → List Value → Bool
  | [], [] => true
  | left :: lefts, right :: rights => left.same right && sameItems lefts rights
  | _, _ => false

def sameMembers : Members → Members → Bool
  | [], [] => true
  | (name, left) :: lefts, (name', right) :: rights =>
    name == name' && left.same right && sameMembers lefts rights
  | _, _ => false

end

mutual

theorem same_iff : ∀ {left right : Value}, left.same right ↔ left = right
  | .null, right => by cases right <;> simp [Value.same]
  | .bool _, right => by cases right <;> simp [Value.same]
  | .num _, right => by cases right <;> simp [Value.same]
  | .str _, right => by cases right <;> simp [Value.same]
  | .arr items, right => by cases right <;> simp [Value.same, sameItems_iff]
  | .obj members, right => by cases right <;> simp [Value.same, sameMembers_iff]

theorem sameItems_iff : ∀ {lefts rights : List Value}, sameItems lefts rights ↔ lefts = rights
  | [], rights => by cases rights <;> simp [sameItems]
  | left :: lefts, rights => by
    cases rights with
    | nil => simp [sameItems]
    | cons right rights => simp [sameItems, @same_iff left right, @sameItems_iff lefts rights]

theorem sameMembers_iff : ∀ {lefts rights : Members}, sameMembers lefts rights ↔ lefts = rights
  | [], rights => by cases rights <;> simp [sameMembers]
  | (name, left) :: lefts, rights => by
    cases rights with
    | nil => simp [sameMembers]
    | cons m rights =>
      simp [sameMembers, Prod.ext_iff, @same_iff left m.2, @sameMembers_iff lefts rights]

end

instance : DecidableEq Value := fun _ _ => decidable_of_iff _ same_iff

/-- The value of a valid text without white space around it. The parts of a container are shorter than
the container, so the length of the input is enough fuel. -/
def valueOf : Nat → Bytes → Value
  | 0, _ => .null
  | fuel + 1, data =>
    match data.head? with
    | some 110 => .null
    | some 116 => .bool true
    | some 102 => .bool false
    | some 34 => .str (unquote data)
    | some 91 => .arr ((segments .reset [] data).map fun s => valueOf fuel s.raw)
    | some 123 =>
      .obj ((members (segments .reset [] data)).map fun (key, raw) => (key, valueOf fuel raw))
    | _ => .num data

def decode (data : Bytes) : Option Value :=
  if checkValid data then some (valueOf (trim data).length (trim data)) else none

/-! ## Members of objects -/

/-- `foldName`, as far as a name of ASCII letters can match: the Kelvin sign and the long s fold to
letters, too. -/
def foldName : Bytes → Bytes
  | 0xE2 :: 0x84 :: 0xAA :: rest => 107 :: foldName rest
  | 0xC5 :: 0xBF :: rest => 115 :: foldName rest
  | c :: rest => (if 65 ≤ c && c ≤ 90 then c + 32 else c) :: foldName rest
  | [] => []

def fieldMembers (members : Members) (name : String) : Members :=
  members.filter fun m => foldName m.1 = ascii name

def fieldValues (members : Members) (name : String) : List Value :=
  (fieldMembers members name).map Prod.snd

/-- A value for a string; `none` is a type error. -/
def setString (text : Bytes) : Value → Option Bytes
  | .str new => some new
  | .null => some text
  | _ => none

def stringField (members : Members) (name : String) : Option Bytes :=
  (fieldValues members name).foldlM setString []

/-- A field of type `json.RawMessage`, `none` if no member belongs to it. -/
def rawField (members : Members) (name : String) : Option Value :=
  (fieldValues members name).getLast?

/-- `json.Unmarshal` into a struct: the members it is made of. -/
def structMembers : Value → Option Members
  | .null => some []
  | .obj members => some members
  | _ => none

/-- A field that is a struct: the members of all its members, which one struct takes up. -/
def structField (members : Members) (name : String) : Option Members :=
  (fieldValues members name).foldlM (fun inner value =>
    (structMembers value).map fun more => inner ++ more) []

/-- `json.Unmarshal` into `[]json.RawMessage`. -/
def listItems : Value → Option (List Value)
  | .null => some []
  | .arr items => some items
  | _ => none

/-- A field of type `[]json.RawMessage`. -/
def listField (members : Members) (name : String) : Option (List Value) :=
  (fieldValues members name).foldlM (fun _ value => listItems value) []

/-- The elements of a slice of structs after another array for it: an item adds its members to those
the element at its place has taken up, and elements beyond the array stay behind the slice. -/
def mergeItems : List Members → List Value → Option (List Members)
  | elements, [] => some elements
  | [], item :: items => do return (← structMembers item) :: (← mergeItems [] items)
  | element :: elements, item :: items => do
    return (element ++ (← structMembers item)) :: (← mergeItems elements items)

/-- One member for a slice of structs: the elements, with those behind the slice, and the slice. `null`
and an empty array give a new slice. -/
def setStructs {α : Type} (read : Members → Option α) (slice : List Members × List α)
    (value : Value) : Option (List Members × List α) :=
  match listItems value with
  | none => none
  | some [] => some ([], [])
  | some items => do
    let elements ← mergeItems slice.1 items
    return (elements, (← elements.mapM read).take items.length)

/-- A field that is a slice of structs, each read from the members it takes up. -/
def structsField {α : Type} (read : Members → Option α) (members : Members) (name : String) :
    Option (List α) :=
  ((fieldValues members name).foldlM (setStructs read) ([], [])).map Prod.snd

/-- A field of type `int`. -/
def intField (members : Members) (name : String) : Option Int :=
  (fieldValues members name).foldlM (fun int value =>
    match value with
    | .num literal => unmarshalInt literal
    | .null => some int
    | _ => none) 0

/-- A string field that takes a value of another type for the empty text. -/
def laxStringField (members : Members) (name : String) : Bytes :=
  match rawField members name with
  | some (.str text) => text
  | _ => []

/-- An `int` field that takes a value of another type for 0. -/
def laxIntField (members : Members) (name : String) : Int :=
  match rawField members name with
  | some (.num literal) => (unmarshalInt literal).getD 0
  | _ => 0

/-- A member of a struct that is left out if its value is empty. -/
def optionalMember (name : String) (empty : Bool) (value : Value) : Members :=
  if empty then [] else [(ascii name, value)]

abbrev optionalText (name : String) (text : Bytes) : Members :=
  optionalMember name text.isEmpty (.str text)

abbrev optionalList (name : String) (items : List Value) : Members :=
  optionalMember name items.isEmpty (.arr items)

/-! ## Maps -/

/-- A member of a map that is written in the order `before` of the names. -/
def insertMember (before : Bytes → Bytes → Bool) (key : Bytes) (value : Value) (members : Members) :
    Members :=
  let others := members.filter fun m => m.1 ≠ key
  (others.takeWhile fun m => before m.1 key) ++
    (key, value) :: others.dropWhile fun m => before m.1 key

def eraseMember (key : Bytes) (members : Members) : Members := members.filter fun m => m.1 ≠ key

def mapBy (before : Bytes → Bytes → Bool) (members : Members) : Members :=
  members.foldl (fun map (key, value) => insertMember before key value map) []

/-- The order in which `json.Marshal` writes the names of a map. -/
def bytewise (left right : Bytes) : Bool := left < right

abbrev setMember (key : Bytes) (value : Value) (members : Members) : Members :=
  insertMember bytewise key value members

/-- The map of the members, as `json.Marshal` writes it. -/
abbrev toMap (members : Members) : Members := mapBy bytewise members

/-- Map lookup: the last member of exactly this name. -/
def lookupMember (members : Members) (key : String) : Option Value :=
  members.reverse.lookup (ascii key)

def textMember (members : Members) (key : String) : Bytes :=
  match lookupMember members key with
  | some (.str text) => text
  | _ => []

mutual

/-- Every object becomes a map in the order `before`, and `number` writes the numbers. -/
def reorder (before : Bytes → Bytes → Bool) (number : Bytes → Bytes) : Value → Value
  | .num literal => .num (number literal)
  | .arr items => .arr (reorderItems before number items)
  | .obj members => .obj (mapBy before (reorderMembers before number members))
  | value => value

def reorderItems (before : Bytes → Bytes → Bool) (number : Bytes → Bytes) :
    List Value → List Value
  | [] => []
  | item :: items => reorder before number item :: reorderItems before number items

def reorderMembers (before : Bytes → Bytes → Bool) (number : Bytes → Bytes) : Members → Members
  | [] => []
  | (key, value) :: rest => (key, reorder before number value) :: reorderMembers before number rest

end

/-- The members of a `map[string]any` that `json.Marshal` writes again: every object is a map. -/
abbrev memberMaps (members : Members) : Members := reorderMembers bytewise id members

/-- Each of the names is the name of at most one member, and no member spells it another way. -/
def PlainNames (names : List String) (members : Members) : Prop :=
  ∀ name ∈ names, (fieldMembers members name).map Prod.fst ∈ [[], [ascii name]]

instance (names : List String) (members : Members) : Decidable (PlainNames names members) :=
  inferInstanceAs (Decidable (∀ name ∈ names, _))

/-! ## Fields of a rewritten map -/

section
variable {before : Bytes → Bytes → Bool} {key : Bytes} {value : Value} {name : String}
  {members : Members}

theorem fieldMembers_append (left right : Members) :
    fieldMembers (left ++ right) name = fieldMembers left name ++ fieldMembers right name :=
  filter_append ..

theorem fieldMembers_insertMember : ∃ front back,
    fieldMembers (members.filter fun m => m.1 ≠ key) name = front ++ back ∧
      fieldMembers (insertMember before key value members) name =
        front ++ fieldMembers [(key, value)] name ++ back := by
  refine ⟨fieldMembers ((members.filter fun m => m.1 ≠ key).takeWhile fun m => before m.1 key) name,
    fieldMembers ((members.filter fun m => m.1 ≠ key).dropWhile fun m => before m.1 key) name, ?_, ?_⟩
  · rw [← fieldMembers_append, takeWhile_append_dropWhile]
  · rw [insertMember, fieldMembers_append, ← singleton_append, fieldMembers_append, append_assoc]

theorem fieldMembers_cons_of_ne (h : foldName key ≠ ascii name) :
    fieldMembers [(key, value)] name = [] :=
  filter_cons_of_neg (by simpa using h)

theorem fieldMembers_eraseMember_of_ne (h : foldName key ≠ ascii name) :
    fieldMembers (eraseMember key members) name = fieldMembers members name := by
  unfold fieldMembers eraseMember
  rw [filter_filter]
  apply filter_congr
  intro m _
  by_cases hm : foldName m.1 = ascii name
  · have hne : m.1 ≠ key := by
      intro hkey
      exact h (hkey ▸ hm)
    simp [hm, hne]
  · simp [hm]

theorem fieldMembers_insertMember_of_ne (h : foldName key ≠ ascii name) :
    fieldMembers (insertMember before key value members) name = fieldMembers members name := by
  obtain ⟨front, back, hoths, hset⟩ := @fieldMembers_insertMember before key value name members
  rw [hset, fieldMembers_cons_of_ne h, append_nil, ← hoths]
  exact fieldMembers_eraseMember_of_ne h

theorem fieldMembers_eraseMember_self (honly : ∀ m ∈ fieldMembers members name, m.1 = key) :
    fieldMembers (eraseMember key members) name = [] := by
  rw [fieldMembers, eraseMember, filter_filter, filter_eq_nil_iff]
  intro m hm
  by_cases hfold : foldName m.1 = ascii name
  · simp [honly m (mem_filter.mpr ⟨hm, by simpa using hfold⟩)]
  · simp [hfold]

theorem fieldMembers_insertMember_self (h : foldName key = ascii name)
    (honly : ∀ m ∈ fieldMembers members name, m.1 = key) :
    fieldMembers (insertMember before key value members) name = [(key, value)] := by
  obtain ⟨front, back, hoths, hset⟩ := @fieldMembers_insertMember before key value name members
  rw [← eraseMember, fieldMembers_eraseMember_self honly] at hoths
  obtain ⟨rfl, rfl⟩ := append_eq_nil_iff.mp hoths.symm
  rw [hset, fieldMembers, filter_cons_of_pos (by simpa using h)]
  rfl

theorem fieldMembers_foldl_insertMember : ∀ (members map : Members),
    (fieldMembers map name ++ fieldMembers members name).length ≤ 1 →
      fieldMembers (members.foldl (fun map (key, value) => insertMember before key value map) map) name =
        fieldMembers map name ++ fieldMembers members name
  | [], map, _ => by simp [fieldMembers]
  | (key, value) :: rest, map, hlen => by
    rw [foldl_cons]
    by_cases hkey : foldName key = ascii name
    · have hcons : fieldMembers ((key, value) :: rest) name =
          (key, value) :: fieldMembers rest name :=
        filter_cons_of_pos (by simpa using hkey)
      rw [hcons] at hlen ⊢
      obtain ⟨hmap, hrest⟩ : fieldMembers map name = [] ∧ fieldMembers rest name = [] := by
        simp only [length_append, length_cons] at hlen
        exact ⟨length_eq_zero_iff.mp (by omega), length_eq_zero_iff.mp (by omega)⟩
      have hset : fieldMembers (insertMember before key value map) name = [(key, value)] :=
        fieldMembers_insertMember_self hkey (by rw [hmap]; nofun)
      rw [fieldMembers_foldl_insertMember rest _ (by rw [hset, hrest]; simp), hset, hrest, hmap]
      rfl
    · have hcons : fieldMembers ((key, value) :: rest) name = fieldMembers rest name :=
        filter_cons_of_neg (by simpa using hkey)
      rw [hcons] at hlen ⊢
      have hset := @fieldMembers_insertMember_of_ne before key value name map hkey
      rw [fieldMembers_foldl_insertMember rest _ (by rw [hset]; exact hlen), hset]

theorem fieldMembers_mapBy (h : (fieldMembers members name).length ≤ 1) :
    fieldMembers (mapBy before members) name = fieldMembers members name :=
  fieldMembers_foldl_insertMember members [] h

/-! ## Lookups in a rewritten map -/

theorem lookup_filter_of_ne {key other : Bytes} (h : key ≠ other) : ∀ members : Members,
    (members.filter fun m => m.1 ≠ key).lookup other = members.lookup other
  | [] => rfl
  | (k, value) :: rest => by
    have ih := lookup_filter_of_ne h rest
    by_cases hk : k = key
    · have hne : (other == k) = false := by simpa [hk] using h.symm
      rw [filter_cons_of_neg (by simpa using hk), lookup_cons, hne, ih]
    · rw [filter_cons_of_pos (by simpa using hk), lookup_cons, lookup_cons, ih]

theorem lookup_insertMember {other : Bytes} :
    (insertMember before key value members).reverse.lookup other =
      if key = other then some value else members.reverse.lookup other := by
  have hoths : ∀ m ∈ members.filter (fun m => m.1 ≠ key), m.1 ≠ key :=
    fun m hm => by simpa using (mem_filter.mp hm).2
  unfold insertMember
  extract_lets others
  have hsplit : others.reverse = (others.dropWhile fun m => before m.1 key).reverse ++
      (others.takeWhile fun m => before m.1 key).reverse := by
    rw [← reverse_append, takeWhile_append_dropWhile]
  rw [reverse_append, reverse_cons, append_assoc, singleton_append, lookup_append, lookup_cons]
  by_cases hkey : key = other
  · have hback : (others.dropWhile fun m => before m.1 key).reverse.lookup other = none := by
      rw [lookup_eq_none_iff]
      intro m hm
      have hne := hoths m (dropWhile_subset _ (mem_reverse.mp hm))
      simpa [hkey] using hne.symm
    rw [hback, if_pos hkey, beq_iff_eq.mpr hkey.symm]
    rfl
  · have hbeq : (other == key) = false := by simpa using Ne.symm hkey
    rw [hbeq, if_neg hkey, ← lookup_append, ← hsplit, ← filter_reverse]
    exact lookup_filter_of_ne hkey _

theorem lookup_reverse_cons {other : Bytes} : ((key, value) :: members).reverse.lookup other =
    (members.reverse.lookup other).or (if other == key then some value else none) := by
  rw [reverse_cons, lookup_append, lookup_cons]
  cases other == key <;> rfl

theorem lookup_foldl_insertMember (other : Bytes) : ∀ members map : Members,
    (members.foldl (fun map (key, value) => insertMember before key value map) map).reverse.lookup
        other =
      (members.reverse.lookup other).or (map.reverse.lookup other)
  | [], _ => rfl
  | (key, value) :: rest, map => by
    rw [foldl_cons, lookup_foldl_insertMember other rest, lookup_insertMember, lookup_reverse_cons,
      Option.or_assoc]
    by_cases hkey : key = other
    · simp [hkey]
    · simp [hkey, Ne.symm hkey]

theorem lookup_mapBy (other : Bytes) :
    (mapBy before members).reverse.lookup other = members.reverse.lookup other := by
  rw [mapBy, lookup_foldl_insertMember]
  exact Option.or_none

/-! ## Reordered values -/

variable {number : Bytes → Bytes}

theorem reorderItems_eq : ∀ items : List Value,
    reorderItems before number items = items.map (reorder before number)
  | [] => by rw [reorderItems]; rfl
  | item :: items => by rw [reorderItems, reorderItems_eq items]; rfl

theorem reorderMembers_eq : ∀ members : Members,
    reorderMembers before number members = members.map fun m => (m.1, reorder before number m.2)
  | [] => by rw [reorderMembers]; rfl
  | (key, value) :: rest => by rw [reorderMembers, reorderMembers_eq rest]; rfl

theorem lookup_reorderMembers (key : Bytes) (members : Members) :
    (reorderMembers before number members).reverse.lookup key =
      (members.reverse.lookup key).map (reorder before number) := by
  rw [reorderMembers_eq, ← map_reverse]
  induction members.reverse with
  | nil => rfl
  | cons m ms ih =>
    rw [map_cons, lookup_cons, lookup_cons, ih]
    cases key == m.1 <;> rfl

theorem textMember_reorderMembers (members : Members) (name : String) :
    textMember (mapBy before (reorderMembers before number members)) name =
      textMember members name := by
  unfold textMember lookupMember
  rw [lookup_mapBy, lookup_reorderMembers]
  cases members.reverse.lookup (ascii name) with
  | none => rfl
  | some value => cases value <;> simp [reorder]

/-! ## String fields -/

theorem stringField_of_single {text : Bytes} (h : fieldMembers members name = [(key, .str text)]) :
    stringField members name = some text := by
  unfold stringField fieldValues
  rw [h]
  rfl

theorem PlainNames.length_le {names : List String} (h : PlainNames names members)
    (hname : name ∈ names) : (fieldMembers members name).length ≤ 1 := by
  have hkeys := h name hname
  rw [← length_map Prod.fst]
  rcases mem_pair.mp hkeys with hkeys | hkeys <;> rw [hkeys] <;> simp

theorem PlainNames.key_eq {names : List String} (h : PlainNames names members)
    (hname : name ∈ names) : ∀ m ∈ fieldMembers members name, m.1 = ascii name := by
  intro m hm
  have hkeys := h name hname
  have hmem := mem_map_of_mem (f := Prod.fst) hm
  rcases mem_pair.mp hkeys with hkeys | hkeys
  · rw [hkeys] at hmem
    cases hmem
  · rw [hkeys] at hmem
    exact mem_singleton.mp hmem

/-! ## Structs as they are written -/

theorem lookupMember_append (left right : Members) (name : String) :
    lookupMember (left ++ right) name = (lookupMember right name).or (lookupMember left name) := by
  unfold lookupMember
  rw [reverse_append, lookup_append]

theorem lookupMember_cons_of_ne (h : key ≠ ascii name) : lookupMember [(key, value)] name = none := by
  simp [lookupMember, Ne.symm h]

theorem lookupMember_cons_self : lookupMember [(ascii name, value)] name = some value := by
  simp [lookupMember]

theorem fieldMembers_cons_self (h : foldName key = ascii name) :
    fieldMembers [(key, value)] name = [(key, value)] :=
  filter_cons_of_pos (by simpa using h)

variable {other : String} {empty : Bool} {text : Bytes} {items : List Value}

theorem fieldMembers_optional_of_ne (h : foldName (ascii other) ≠ ascii name) :
    fieldMembers (optionalMember other empty value) name = [] := by
  cases empty with
  | true => rfl
  | false => exact fieldMembers_cons_of_ne h

theorem fieldMembers_optional_self (h : foldName (ascii name) = ascii name) :
    fieldMembers (optionalMember name empty value) name = optionalMember name empty value := by
  cases empty with
  | true => rfl
  | false => exact fieldMembers_cons_self h

theorem lookupMember_optional_of_ne (h : ascii other ≠ ascii name) :
    lookupMember (optionalMember other empty value) name = none := by
  cases empty with
  | true => rfl
  | false => exact lookupMember_cons_of_ne h

theorem stringField_of_optionalText (h : fieldMembers members name = optionalText name text) :
    stringField members name = some text := by
  unfold stringField fieldValues
  rw [h]
  cases text <;> rfl

theorem laxStringField_of_optionalText (h : fieldMembers members name = optionalText name text) :
    laxStringField members name = text := by
  unfold laxStringField rawField fieldValues
  rw [h]
  cases text <;> rfl

theorem listField_of_optionalList (h : fieldMembers members name = optionalList name items) :
    listField members name = some items := by
  unfold listField fieldValues
  rw [h]
  cases items <;> rfl

end

end Json
