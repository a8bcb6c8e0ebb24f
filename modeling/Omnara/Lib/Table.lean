import Mathlib.Data.List.Nodup

/-!
# Tables with a primary key

A `Table key` is a list of rows no two of which have the same key. A row is read by its key (`get`);
rows are inserted with a fresh key, replaced under their key and deleted by a condition. What each of
these does is said by membership: `get_eq_some`, `mem_of_insert`, `mem_replace`, `mem_deleteWhere`.
-/

universe u v

structure Table {α : Type u} {κ : Type v} (key : α → κ) where
  rows : List α
  keyed : (rows.map key).Nodup

namespace Table

open List

variable {α : Type u} {κ : Type v} {key : α → κ}

instance : Membership α (Table key) := ⟨fun t a => a ∈ t.rows⟩

theorem mem_rows {t : Table key} {a : α} : a ∈ t ↔ a ∈ t.rows := Iff.rfl

instance [DecidableEq α] : DecidableEq (Table key) := fun s t =>
  decidable_of_iff (s.rows = t.rows) ⟨fun h => by cases s; cases t; cases h; rfl, fun h => h ▸ rfl⟩

def empty : Table key := ⟨[], List.nodup_nil⟩

@[simp]
theorem not_mem_empty (a : α) : a ∉ (empty : Table key) := not_mem_nil

theorem eq_of_key {t : Table key} {a b : α} (ha : a ∈ t) (hb : b ∈ t) (h : key a = key b) : a = b :=
  inj_on_of_nodup_map t.keyed ha hb h

/-- The rows a condition deletes are those it holds of. -/
def deleteWhere (t : Table key) (p : α → Bool) : Table key :=
  ⟨t.rows.filter (!p ·), t.keyed.sublist (List.filter_sublist.map key)⟩

@[simp]
theorem mem_deleteWhere {t : Table key} {p : α → Bool} {a : α} :
    a ∈ t.deleteWhere p ↔ a ∈ t ∧ p a = false := by
  simp [mem_rows, deleteWhere]

variable [DecidableEq κ]

def get (t : Table key) (k : κ) : Option α := t.rows.find? (key · = k)

theorem get_eq_some {t : Table key} {k : κ} {a : α} : t.get k = some a ↔ a ∈ t ∧ key a = k := by
  constructor
  · intro h
    exact ⟨mem_of_find?_eq_some h, by simpa using List.find?_some h⟩
  · rintro ⟨ha, rfl⟩
    obtain ⟨b, hb⟩ : ∃ b, t.rows.find? (key · = key a) = some b :=
      Option.isSome_iff_exists.1 (List.find?_isSome.2 ⟨a, ha, by simp⟩)
    have hkey : key b = key a := by simpa using List.find?_some hb
    rw [get, hb, eq_of_key (mem_of_find?_eq_some hb) ha hkey]

theorem get_eq_none {t : Table key} {k : κ} : t.get k = none ↔ ∀ a ∈ t, key a ≠ k := by
  simp [mem_rows, get]

/-- The insert of a row; it fails when the key is taken. -/
def insert (t : Table key) (a : α) : Option (Table key) :=
  if h : key a ∈ t.rows.map key then none
  else some ⟨t.rows ++ [a], by
    rw [List.map_append, List.map_singleton]
    exact t.keyed.append (List.nodup_singleton _) (by simpa using h)⟩

theorem mem_of_insert {t t' : Table key} {a : α} (h : t.insert a = some t') {b : α} :
    b ∈ t' ↔ b ∈ t ∨ b = a := by
  rw [insert, Option.dite_none_left_eq_some] at h
  obtain ⟨hfr, h⟩ := h
  rw [← Option.some.inj h]
  simp [mem_rows]

theorem forall_insert {t t' : Table key} {a : α} (h : t.insert a = some t') {P : α → Prop}
    (hold : ∀ b ∈ t, P b) (hnew : P a) : ∀ b ∈ t', P b := fun b hb =>
  ((mem_of_insert h).1 hb).elim (hold b) (· ▸ hnew)

theorem fresh_of_insert {t t' : Table key} {a : α} (h : t.insert a = some t') :
    ∀ b ∈ t, key b ≠ key a := by
  rw [insert, Option.dite_none_left_eq_some] at h
  obtain ⟨hfr, -⟩ := h
  intro b hb hkey
  exact hfr (hkey ▸ mem_map_of_mem hb)

/-- The update of the row under the key of `a`, which becomes `a`. -/
def replace (t : Table key) (a : α) : Table key :=
  ⟨t.rows.map fun b => if key b = key a then a else b, by
    have hkeys : (fun b => key (if key b = key a then a else b)) = key := by
      funext b
      split <;> simp_all
    rw [List.map_map]
    exact (congrArg (fun f => (t.rows.map f).Nodup) hkeys).mpr t.keyed⟩

theorem mem_replace {t : Table key} {a : α} (ha : ∃ b ∈ t, key b = key a) {b : α} :
    b ∈ t.replace a ↔ b = a ∨ b ∈ t ∧ key b ≠ key a := by
  constructor
  · intro h
    obtain ⟨c, hc, rfl⟩ := mem_map.1 h
    split
    · exact .inl rfl
    · exact .inr ⟨hc, ‹_›⟩
  · rintro (rfl | ⟨hb, hne⟩)
    · obtain ⟨c, hc, hkey⟩ := ha
      exact mem_map.2 ⟨c, hc, if_pos hkey⟩
    · exact mem_map.2 ⟨b, hb, if_neg hne⟩

theorem forall_replace {t : Table key} {a : α} {P : α → Prop} (hnew : P a) (hold : ∀ b ∈ t, P b) :
    ∀ b ∈ t.replace a, P b := by
  intro b hb
  obtain ⟨c, hc, rfl⟩ := mem_map.1 hb
  split
  · exact hnew
  · exact hold c hc

theorem replace_self {t : Table key} {a : α} (ha : a ∈ t) : t.replace a = t := by
  have hrows : t.rows.map (fun b => if key b = key a then a else b) = t.rows.map id := by
    refine map_congr_left fun b hb => ?_
    split
    · exact eq_of_key ha hb (Eq.symm ‹_›)
    · rfl
  cases t
  simp only [replace, mk.injEq]
  simpa using hrows

theorem replace_replace {t : Table key} {a b : α} (h : key a = key b) :
    (t.replace a).replace b = t.replace b := by
  simp only [replace, mk.injEq, map_map]
  refine map_congr_left fun c _ => ?_
  by_cases hc : key c = key a
  · simp [hc, h]
  · simp [hc]

end Table
