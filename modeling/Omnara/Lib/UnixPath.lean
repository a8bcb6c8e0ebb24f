import Mathlib.Data.List.Basic

/-!
# Path names on Unix

Path names are strings of bytes. `clean`, `joinPath` and `dir` are the documented lexical functions of Go's
`path` and `path/filepath`: the name is split at slashes and the components go through a stack.
A component is plain when it is none of `""`, `"."` and `".."`; `clean_absolute` and `clean_relative`
say what a cleaned name is made of, and `names_rooted`, `joinPath_rooted` and `dir_rooted` that plain
components are joined, found and dropped without any further effect.
-/

namespace UnixPath

open List

abbrev Name := List UInt8

def slash : UInt8 := 47

def dot : Name := [46]

def dotdot : Name := [46, 46]

/-- `strings.Split(p, "/")`. -/
def split (p : Name) : List Name := p.splitOn slash

/-- `strings.Join(names, "/")`. -/
def join (names : List Name) : Name := [slash].intercalate names

def isAbs (p : Name) : Bool := p.head? = some slash

def push (abs : Bool) (stack : List Name) (name : Name) : List Name :=
  if name = [] ∨ name = dot then stack
  else if name = dotdot then
    match stack with
    | [] => if abs then [] else [dotdot]
    | top :: rest => if top = dotdot then dotdot :: top :: rest else rest
  else name :: stack

def cleanNames (abs : Bool) (names : List Name) : List Name := (names.foldl (push abs) []).reverse

def clean (p : Name) : Name :=
  if isAbs p then slash :: join (cleanNames true (split p))
  else if cleanNames false (split p) = [] then dot
  else join (cleanNames false (split p))

/-- `filepath.Join` of two elements. -/
def joinPath (a b : Name) : Name :=
  match [a, b].filter (· ≠ []) with
  | [] => []
  | elements => clean (join elements)

/-- `filepath.Dir`. -/
def dir (p : Name) : Name :=
  match (split p).dropLast with
  | [] => clean []
  | init => clean (join init ++ [slash])

/-- `filepath.Abs` in the directory `cwd`. -/
def abs (cwd p : Name) : Name := if isAbs p then clean p else joinPath cwd p

/-- The components of a name as the system sees them. -/
def names (p : Name) : List Name := (split p).filter (· ≠ [])

structure Plain (n : Name) : Prop where
  ne_nil : n ≠ []
  ne_dot : n ≠ dot
  ne_dotdot : n ≠ dotdot
  slash_notMem : slash ∉ n

/-! ## Splitting and joining -/

variable {n p : Name} {ns stack : List Name}

theorem slash_notMem_of_split (h : n ∈ split p) : slash ∉ n := by
  unfold split at h
  induction p generalizing n with
  | nil => simp_all
  | cons c p ih =>
    rw [splitOn_cons_eq_if_modifyHead] at h
    split at h
    · obtain rfl | h := mem_cons.1 h
      · exact not_mem_nil
      · exact ih h
    · rename_i hc
      cases hsplit : p.splitOn slash with
      | nil => simp [hsplit] at h
      | cons m ms =>
        rw [hsplit] at h ih
        obtain rfl | h := mem_cons.1 h
        · simp only [mem_cons, not_or]
          exact ⟨fun heq => hc (by simp [heq]), ih mem_cons_self⟩
        · exact ih (mem_cons_of_mem _ h)

theorem split_append_slash (p q : Name) : split (p ++ slash :: q) = split p ++ split q :=
  splitOn_append_cons_self ..

theorem split_join (hne : ns ≠ []) (h : ∀ n ∈ ns, slash ∉ n) : split (join ns) = ns :=
  splitOn_intercalate slash h hne

theorem join_cons_cons (n m : Name) (ns : List Name) :
    join (n :: m :: ns) = n ++ slash :: join (m :: ns) := by
  simp [join, intercalate_cons_cons]

theorem join_singleton (n : Name) : join [n] = n := by simp [join]

/-! ## Cleaning -/

theorem push_plain (h : Plain n) (abs : Bool) (stack : List Name) : push abs stack n = n :: stack := by
  simp [push, h.ne_nil, h.ne_dot, h.ne_dotdot]

theorem push_nil (abs : Bool) (stack : List Name) : push abs stack [] = stack := by simp [push]

theorem foldl_push_plain (h : ∀ n ∈ ns, n = [] ∨ Plain n) (abs : Bool)
    (stack : List Name) : ns.foldl (push abs) stack = (ns.filter (· ≠ [])).reverse ++ stack := by
  induction ns generalizing stack with
  | nil => rfl
  | cons n ns ih =>
    rw [foldl_cons, ih fun m hm => h m (mem_cons_of_mem _ hm)]
    obtain rfl | hn := h n mem_cons_self
    · rw [push_nil, filter_cons_of_neg (by simp)]
    · rw [push_plain hn, filter_cons_of_pos (by simpa using hn.ne_nil)]
      simp

theorem mem_push {abs : Bool} {m : Name} (h : n ∈ push abs stack m) :
    n ∈ stack ∨ n = m ∧ n ≠ [] ∧ n ≠ dot := by
  unfold push at h
  split at h
  · exact .inl h
  · rename_i hm
    rw [not_or] at hm
    have hself : n = m → n = m ∧ n ≠ [] ∧ n ≠ dot := fun heq => ⟨heq, heq ▸ hm.1, heq ▸ hm.2⟩
    split at h
    · rename_i hdotdot
      cases stack with
      | nil =>
        simp only at h
        split at h
        · exact absurd h not_mem_nil
        · exact .inr (hself ((mem_singleton.1 h).trans hdotdot.symm))
      | cons top rest =>
        simp only at h
        split at h
        · exact (mem_cons.1 h).symm.imp_right fun heq => hself (heq.trans hdotdot.symm)
        · exact .inl (mem_cons_of_mem _ h)
    · exact (mem_cons.1 h).symm.imp_right hself

theorem mem_foldl_push {abs : Bool}
    (h : n ∈ ns.foldl (push abs) stack) : n ∈ stack ∨ n ∈ ns ∧ n ≠ [] ∧ n ≠ dot := by
  induction ns generalizing stack with
  | nil => exact .inl h
  | cons m ns ih =>
    obtain h | ⟨h, hne⟩ := ih h
    · obtain h | ⟨rfl, hne⟩ := mem_push h
      · exact .inl h
      · exact .inr ⟨mem_cons_self, hne⟩
    · exact .inr ⟨mem_cons_of_mem _ h, hne⟩

theorem dotdot_notMem_foldl_push (h : dotdot ∉ stack) : dotdot ∉ ns.foldl (push true) stack := by
  induction ns generalizing stack with
  | nil => exact h
  | cons n ns ih =>
    refine ih fun hmem => ?_
    unfold push at hmem
    split at hmem
    · exact h hmem
    · split at hmem
      · cases stack with
        | nil => simp at hmem
        | cons top rest =>
          simp only at hmem
          split at hmem
          · rename_i htop
            exact h (htop ▸ mem_cons_self)
          · exact h (mem_cons_of_mem _ hmem)
      · rename_i hne
        obtain heq | hmem := mem_cons.1 hmem
        · exact hne heq.symm
        · exact h hmem

theorem mem_cleanNames {abs : Bool} (h : n ∈ cleanNames abs ns) : n ∈ ns ∧ n ≠ [] ∧ n ≠ dot :=
  (mem_foldl_push (mem_reverse.1 h)).resolve_left not_mem_nil

theorem clean_absolute (h : isAbs p = true) :
    ∃ ns, (∀ n ∈ ns, Plain n) ∧ clean p = slash :: join ns := by
  refine ⟨cleanNames true (split p), fun n hn => ?_, if_pos h⟩
  obtain ⟨hmem, hnil, hdot⟩ := mem_cleanNames hn
  refine ⟨hnil, hdot, ?_, slash_notMem_of_split hmem⟩
  rintro rfl
  exact dotdot_notMem_foldl_push not_mem_nil (mem_reverse.1 hn)

theorem abs_absolute {cwd : Name} (h : isAbs cwd = true) (p : Name) :
    ∃ ns, (∀ n ∈ ns, Plain n) ∧ abs cwd p = slash :: join ns := by
  unfold abs
  split
  · exact clean_absolute ‹_›
  · obtain ⟨c, cwd, rfl⟩ := exists_cons_of_ne_nil (l := cwd) (by rintro rfl; cases h)
    have hc : c = slash := by simpa [isAbs] using h
    subst hc
    unfold joinPath
    by_cases hp : p = []
    · subst hp
      exact clean_absolute (by simp [isAbs, join_singleton])
    · have hfil : [slash :: cwd, p].filter (· ≠ []) = [slash :: cwd, p] := by simp [hp]
      rw [hfil]
      exact clean_absolute (by simp [isAbs, join_cons_cons])

theorem clean_relative (h : isAbs p = false) :
    clean p = dot ∨ ∃ ns, ns ≠ [] ∧ (∀ n ∈ ns, n ≠ [] ∧ n ≠ dot ∧ slash ∉ n) ∧ clean p = join ns := by
  unfold clean
  rw [if_neg (by simp [h])]
  split
  · exact .inl rfl
  · rename_i hne
    refine .inr ⟨_, hne, fun n hn => ?_, rfl⟩
    obtain ⟨hmem, hnil, hdot⟩ := mem_cleanNames hn
    exact ⟨hnil, hdot, slash_notMem_of_split hmem⟩

/-! ## Absolute names with plain components -/

section
variable {ns ms : List Name}

theorem isAbs_rooted (p : Name) : isAbs (slash :: p) = true := by simp [isAbs]

theorem split_rooted (hns : ns ≠ []) (h : ∀ n ∈ ns, Plain n) : split (slash :: join ns) = [] :: ns := by
  have hsplit := split_append_slash [] (join ns)
  rw [nil_append, split_join hns fun n hn => (h n hn).slash_notMem] at hsplit
  exact hsplit

section
variable (h : ∀ n ∈ ns, Plain n)
include h

theorem names_rooted : names (slash :: join ns) = ns := by
  unfold names
  by_cases hns : ns = []
  · subst hns
    decide
  · rw [split_rooted hns h, filter_cons_of_neg (by simp), filter_eq_self]
    intro n hn
    simpa using (h n hn).ne_nil

theorem split_rooted_plain :
    ∀ n ∈ split (slash :: join ns), n = [] ∨ Plain n := by
  intro n hn
  by_cases hnil : n = []
  · exact .inl hnil
  · refine .inr (h n ?_)
    rw [← names_rooted h]
    exact mem_filter.2 ⟨hn, by simpa using hnil⟩

theorem clean_rooted_append {p : Name} (hp : ∀ n ∈ split p, n = [] ∨ Plain n) :
    clean (slash :: join ns ++ slash :: p) = slash :: join (ns ++ names p) := by
  have hall : ∀ n ∈ split (slash :: join ns ++ slash :: p), n = [] ∨ Plain n := by
    intro n hn
    rw [split_append_slash, mem_append] at hn
    exact hn.elim (split_rooted_plain h n) (hp n)
  rw [clean, if_pos (by simp [isAbs]), cleanNames, foldl_push_plain hall, split_append_slash,
    filter_append, append_nil, reverse_reverse]
  rw [← names, ← names, names_rooted h]

theorem clean_rooted : clean (slash :: join ns) = slash :: join ns := by
  rw [clean, if_pos (isAbs_rooted _), cleanNames, foldl_push_plain (split_rooted_plain h),
    append_nil, reverse_reverse, ← names, names_rooted h]

end

theorem join_ne_nil (hne : ns ≠ []) (h : ∀ n ∈ ns, Plain n) : join ns ≠ [] := by
  intro heq
  have hsplit := split_join hne fun n hn => (h n hn).slash_notMem
  rw [heq] at hsplit
  exact (h [] (hsplit ▸ mem_singleton.2 rfl)).ne_nil rfl

theorem joinPath_rooted (hns : ∀ n ∈ ns, Plain n) (hms : ∀ n ∈ ms, Plain n) (hne : ms ≠ []) :
    joinPath (slash :: join ns) (join ms) = slash :: join (ns ++ ms) := by
  have hfil : [slash :: join ns, join ms].filter (· ≠ []) = [slash :: join ns, join ms] := by
    simp [join_ne_nil hne hms]
  have hsplit : split (join ms) = ms := split_join hne fun n hn => (hms n hn).slash_notMem
  have hnames : names (join ms) = ms := by
    rw [names, hsplit, filter_eq_self]
    exact fun n hn => by simpa using (hms n hn).ne_nil
  simp only [joinPath, hfil]
  rw [join_cons_cons, join_singleton, clean_rooted_append hns, hnames]
  rw [hsplit]
  exact fun n hn => .inr (hms n hn)

theorem dir_rooted {n : Name} (h : ∀ m ∈ ns ++ [n], Plain m) :
    dir (slash :: join (ns ++ [n])) = slash :: join ns := by
  have hns : ∀ m ∈ ns, Plain m := fun m hm => h m (mem_append_left _ hm)
  have hsplit : (split (slash :: join (ns ++ [n]))).dropLast = [] :: ns := by
    rw [split_rooted (by simp) h, ← cons_append, dropLast_concat]
  simp only [dir, hsplit]
  by_cases hnil : ns = []
  · subst hnil
    decide
  · obtain ⟨m, ms, rfl⟩ := exists_cons_of_ne_nil hnil
    have hemp : names [] = [] := by decide
    rw [join_cons_cons, nil_append, clean_rooted_append hns, hemp, append_nil]
    exact fun n hn => .inl (by simpa [split] using hn)

end

end UnixPath
