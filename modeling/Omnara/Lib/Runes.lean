import Omnara.Lib.Text

/-!
# Characters of a Go string

Go's `utf8` package on bytes: the size of the character at the head (`decodeRuneSize`), the number of
characters (`runeCount`) and the bytes a character can start with (`runeStart`). Valid text is a
sequence of characters (`valid_iff`), and a position of valid text is between two characters
(`Boundary`) if a character can start there (`boundary_of_runeStart`). `startBefore` and `startAfter` go
from a position to such a place (`startBefore_spec`, `startAfter_spec`).
-/

namespace Text

open List

open Json (Bytes runeLength)

variable {data : Bytes}

/-- `utf8.RuneStart`: the byte is no continuation byte. -/
def runeStart (b : UInt8) : Bool := b &&& 0xC0 != 0x80

/-- The size `utf8.DecodeRune` returns: one byte where there is no character. -/
def decodeRuneSize (data : Bytes) : Nat :=
  if data.isEmpty then 0 else max 1 (runeLength data)

def runeCountLoop : Nat → Bytes → Nat
  | 0, _ => 0
  | fuel + 1, data =>
    if data.isEmpty then 0 else runeCountLoop fuel (data.drop (decodeRuneSize data)) + 1

/-- `utf8.RuneCount`. Every step consumes a byte. -/
def runeCount (data : Bytes) : Nat := runeCountLoop data.length data

/-- The bytes of one character: a first byte and its continuation bytes. -/
inductive IsRune : Bytes → Prop
  | one {a : UInt8} (ha : a < 128) : IsRune [a]
  | two {a b : UInt8} (ha : 194 ≤ a ∧ a ≤ 223) (hb : 128 ≤ b ∧ b ≤ 191) : IsRune [a, b]
  | three {a b c : UInt8} (ha : 224 ≤ a ∧ a ≤ 239)
      (hb : (if a = 224 then 160 else 128) ≤ b ∧ b ≤ if a = 237 then 159 else 191)
      (hc : 128 ≤ c ∧ c ≤ 191) : IsRune [a, b, c]
  | four {a b c d : UInt8} (ha : 240 ≤ a ∧ a ≤ 244)
      (hb : (if a = 240 then 144 else 128) ≤ b ∧ b ≤ if a = 244 then 143 else 191)
      (hc : 128 ≤ c ∧ c ≤ 191) (hd : 128 ≤ d ∧ d ≤ 191) : IsRune [a, b, c, d]

/-! ## One character -/

theorem runeStart_iff {b : UInt8} : runeStart b ↔ b < 128 ∨ 192 ≤ b := by
  have hall : ∀ n < 256, runeStart (UInt8.ofNat n) ↔ UInt8.ofNat n < 128 ∨ 192 ≤ UInt8.ofNat n := by
    decide +kernel
  have := hall b.toNat b.toNat_lt
  rwa [UInt8.ofNat_toNat] at this

theorem exists_isRune (h : runeLength data ≠ 0) :
    ∃ r rest, IsRune r ∧ data = r ++ rest ∧ runeLength data = r.length := by
  rcases data with _ | ⟨a, data⟩
  · exact absurd rfl h
  by_cases ha : a < 128
  · exact ⟨[a], data, .one ha, rfl, by simp [runeLength, ha]⟩
  rcases data with _ | ⟨b, data⟩
  · simp [runeLength, ha] at h
  by_cases ha₂ : 194 ≤ a ∧ a ≤ 223
  · have hb : 128 ≤ b ∧ b ≤ 191 := by simpa [runeLength, ha, ha₂] using h
    exact ⟨[a, b], data, .two ha₂ hb, rfl, by simp [runeLength, ha, ha₂, hb]⟩
  rcases data with _ | ⟨c, data⟩
  · simp [runeLength, ha, ha₂] at h
  by_cases ha₃ : 224 ≤ a ∧ a ≤ 239
  · obtain ⟨hb, hc⟩ : ((if a = 224 then 160 else 128) ≤ b ∧ b ≤ if a = 237 then 159 else 191) ∧
        128 ≤ c ∧ c ≤ 191 := by simpa [runeLength, ha, ha₂, ha₃, and_assoc] using h
    exact ⟨[a, b, c], data, .three ha₃ hb hc, rfl, by simp [runeLength, ha, ha₂, ha₃, hb, hc]⟩
  rcases data with _ | ⟨d, data⟩
  · simp [runeLength, ha, ha₂, ha₃] at h
  obtain ⟨ha₄, hb, hc, hd⟩ : (240 ≤ a ∧ a ≤ 244) ∧
      ((if a = 240 then 144 else 128) ≤ b ∧ b ≤ if a = 244 then 143 else 191) ∧
      (128 ≤ c ∧ c ≤ 191) ∧ 128 ≤ d ∧ d ≤ 191 := by
    simpa [runeLength, ha, ha₂, ha₃, and_assoc] using h
  exact ⟨[a, b, c, d], data, .four ha₄ hb hc hd, rfl,
    by simp [runeLength, ha, ha₂, ha₃, ha₄, hb, hc, hd]⟩

namespace IsRune

variable {r : Bytes}

theorem runeLength_append (h : IsRune r) (rest : Bytes) : runeLength (r ++ rest) = r.length := by
  cases h with
  | one ha => simp [runeLength, ha]
  | @two a b ha hb =>
    have h₁ : ¬ a < 128 := by grind
    simp [runeLength, ha, hb, h₁]
  | @three a b c ha hb hc =>
    have h₁ : ¬ a < 128 := by grind
    have h₂ : ¬ (194 ≤ a ∧ a ≤ 223) := by grind
    simp [runeLength, ha, hb, hc, h₁, h₂]
  | @four a b c d ha hb hc hd =>
    have h₁ : ¬ a < 128 := by grind
    have h₂ : ¬ (194 ≤ a ∧ a ≤ 223) := by grind
    have h₃ : ¬ (224 ≤ a ∧ a ≤ 239) := by grind
    simp [runeLength, ha, hb, hc, hd, h₁, h₂, h₃]

theorem length_pos (h : IsRune r) : 0 < r.length := by cases h <;> simp

theorem length_le (h : IsRune r) : r.length ≤ 4 := by cases h <;> simp

/-- Of the bytes of a character exactly the first starts it. -/
theorem runeStart_iff_head (h : IsRune r) :
    ∀ {i : Nat} {b : UInt8}, r[i]? = some b → (runeStart b ↔ i = 0) := by
  rintro i b hb
  rw [Text.runeStart_iff]
  cases h with
  | one ha => grind
  | two ha hb => grind
  | three ha hb hc => grind
  | four ha hb hc hd => grind

end IsRune

variable {r data a b : Bytes} {fuel : Nat} {runes : List Bytes}

/-! ## Valid text -/

theorem validLoop_append (hr : IsRune r) (fuel : Nat) (rest : Bytes) :
    validLoop (fuel + 1) (r ++ rest) = validLoop fuel rest := by
  have hlen := hr.runeLength_append rest
  obtain ⟨c, cs, rfl⟩ := exists_cons_of_length_pos hr.length_pos
  rw [cons_append] at hlen ⊢
  rw [validLoop, hlen]
  simp

theorem exists_runes (h : validLoop fuel data) :
    ∃ runes : List Bytes, (∀ r ∈ runes, IsRune r) ∧ data = runes.flatten := by
  induction fuel generalizing data with
  | zero =>
    cases data with
    | nil => exact ⟨[], by simp, rfl⟩
    | cons c cs => simp [validLoop] at h
  | succ fuel ih =>
    cases data with
    | nil => exact ⟨[], by simp, rfl⟩
    | cons c cs =>
      have hne : runeLength (c :: cs) ≠ 0 := by
        intro hzero
        rw [validLoop, hzero] at h
        simp at h
      obtain ⟨r, rest, hr, hdata, -⟩ := exists_isRune hne
      rw [hdata, validLoop_append hr] at h
      obtain ⟨runes, hrs, rfl⟩ := ih h
      exact ⟨r :: runes, by simpa [hr] using hrs, hdata⟩

theorem validLoop_flatten (h : ∀ r ∈ runes, IsRune r)
    (hfuel : runes.length ≤ fuel) : validLoop fuel runes.flatten := by
  induction runes generalizing fuel with
  | nil => cases fuel <;> simp [validLoop]
  | cons r runes ih =>
    obtain ⟨hr, hrs⟩ := forall_mem_cons.mp h
    cases fuel with
    | zero => simp at hfuel
    | succ fuel =>
      rw [flatten_cons, validLoop_append hr]
      exact ih hrs (by simpa using hfuel)

theorem length_le_length_flatten (h : ∀ r ∈ runes, IsRune r) : runes.length ≤ runes.flatten.length := by
  induction runes with
  | nil => simp
  | cons r runes ih =>
    obtain ⟨hr, hrs⟩ := forall_mem_cons.mp h
    have := hr.length_pos
    have := ih hrs
    simp only [length_cons, flatten_cons, length_append]
    omega

/-- **Valid text is a sequence of characters.** -/
theorem valid_iff :
    valid data ↔ ∃ runes : List Bytes, (∀ r ∈ runes, IsRune r) ∧ data = runes.flatten := by
  constructor
  · exact exists_runes
  · rintro ⟨runes, hrs, rfl⟩
    exact validLoop_flatten hrs (length_le_length_flatten hrs)

@[simp]
theorem valid_nil : valid [] := rfl

theorem IsRune.valid (h : IsRune r) : valid r := valid_iff.mpr ⟨[r], by simpa using h, by simp⟩

theorem valid_append (ha : valid a) (hb : valid b) : valid (a ++ b) := by
  obtain ⟨xs, hxs, rfl⟩ := valid_iff.mp ha
  obtain ⟨ys, hys, rfl⟩ := valid_iff.mp hb
  refine valid_iff.mpr ⟨xs ++ ys, fun r hr => ?_, by simp⟩
  exact (mem_append.mp hr).elim (hxs r) (hys r)

theorem exists_rune_append (h : valid data) (hne : data ≠ []) :
    ∃ r rest, IsRune r ∧ valid rest ∧ data = r ++ rest := by
  obtain ⟨runes, hrs, rfl⟩ := valid_iff.mp h
  cases runes with
  | nil => simp at hne
  | cons r runes =>
    obtain ⟨hr, hrest⟩ := forall_mem_cons.mp hrs
    exact ⟨r, runes.flatten, hr, valid_iff.mpr ⟨runes, hrest, rfl⟩, rfl⟩

theorem IsRune.append_inj {r' rest rest' : Bytes} (h : IsRune r) (h' : IsRune r')
    (heq : r ++ rest = r' ++ rest') : r = r' ∧ rest = rest' := by
  refine List.append_inj heq ?_
  rw [← h.runeLength_append rest, heq, h'.runeLength_append rest']

theorem IsRune.valid_of_append {rest : Bytes} (h : IsRune r) (hv : Text.valid (r ++ rest)) :
    Text.valid rest := by
  have hne : r ++ rest ≠ [] := by
    have := h.length_pos
    intro hnil
    simp [append_eq_nil_iff.mp hnil] at this
  obtain ⟨r', rest', hr', hrest', heq⟩ := exists_rune_append hv hne
  rw [(h.append_inj hr' heq).2]
  exact hrest'

theorem valid_of_append (ha : valid a) (h : valid (a ++ b)) : valid b := by
  obtain ⟨runes, hrs, rfl⟩ := valid_iff.mp ha
  clear ha
  induction runes with
  | nil => simpa using h
  | cons r runes ih =>
    obtain ⟨hr, hrest⟩ := forall_mem_cons.mp hrs
    rw [flatten_cons, append_assoc] at h
    exact ih hrest (hr.valid_of_append h)

theorem valid_of_runeStart (h : valid (a ++ b)) (hb : ∀ c ∈ b.head?, runeStart c) : valid a := by
  obtain ⟨runes, hrs, heq⟩ := valid_iff.mp h
  clear h
  induction runes generalizing a with
  | nil => simp_all
  | cons r runes ih =>
    obtain ⟨hr, hrest⟩ := forall_mem_cons.mp hrs
    rcases append_eq_append_iff.mp heq with ⟨as, rfl, hb'⟩ | ⟨as, rfl, hrest'⟩
    · -- the character `a ++ as` begins in `a`
      cases a with
      | nil => rfl
      | cons c a =>
        cases as with
        | nil => simpa using hr.valid
        | cons d as =>
          have hd : runeStart d := hb d (by rw [hb']; rfl)
          have := (hr.runeStart_iff_head (i := a.length + 1) (b := d) (by simp)).mp hd
          omega
    · exact valid_append hr.valid (ih hrest hrest'.symm)

/-! ## Counting characters -/

theorem IsRune.decodeRuneSize_append (h : IsRune r) (rest : Bytes) :
    decodeRuneSize (r ++ rest) = r.length := by
  have hpos := h.length_pos
  have hne : (r ++ rest).isEmpty = false := by
    cases r with
    | nil => simp at hpos
    | cons c cs => rfl
  rw [decodeRuneSize, hne, h.runeLength_append]
  simp only [Bool.false_eq_true, if_false]
  omega

theorem runeCountLoop_flatten (h : ∀ r ∈ runes, IsRune r)
    (hfuel : runes.length ≤ fuel) : runeCountLoop fuel runes.flatten = runes.length := by
  induction runes generalizing fuel with
  | nil => cases fuel <;> simp [runeCountLoop]
  | cons r runes ih =>
    obtain ⟨hr, hrs⟩ := forall_mem_cons.mp h
    have hpos := hr.length_pos
    cases fuel with
    | zero => simp at hfuel
    | succ fuel =>
      have hne : (r ++ runes.flatten).isEmpty = false := by
        cases r with
        | nil => simp at hpos
        | cons c cs => rfl
      rw [flatten_cons, runeCountLoop, hne, hr.decodeRuneSize_append, drop_left,
        ih hrs (by simpa using hfuel)]
      simp

theorem runeCount_flatten (h : ∀ r ∈ runes, IsRune r) : runeCount runes.flatten = runes.length :=
  runeCountLoop_flatten h (length_le_length_flatten h)

theorem runeCount_append_rune (ha : valid a) (hr : IsRune r) : runeCount (a ++ r) = runeCount a + 1 := by
  obtain ⟨runes, hrs, rfl⟩ := valid_iff.mp ha
  have hall : ∀ s ∈ runes ++ [r], IsRune s := fun s hs =>
    (mem_append.mp hs).elim (hrs s) fun hs => mem_singleton.mp hs ▸ hr
  have := runeCount_flatten hall
  rw [flatten_append, flatten_singleton] at this
  rw [this, runeCount_flatten hrs, length_append, length_singleton]

/-! ## Positions between characters -/

/-- `p` is between two characters of `data`. -/
structure Boundary (data : Bytes) (p : Nat) : Prop where
  le : p ≤ data.length
  valid : valid (data.take p)

theorem boundary_zero (data : Bytes) : Boundary data 0 := ⟨Nat.zero_le _, valid_nil⟩

theorem boundary_length (h : valid data) : Boundary data data.length :=
  ⟨Nat.le_refl _, by rwa [take_length]⟩

theorem boundary_of_runeStart (h : valid data) {p : Nat} (hp : p ≤ data.length)
    (hstart : ∀ c ∈ data[p]?, runeStart c) : Boundary data p := by
  refine ⟨hp, valid_of_runeStart (b := data.drop p) (by rwa [take_append_drop]) ?_⟩
  rwa [List.head?_drop]

namespace Boundary

variable {data : Bytes} {p q : Nat}

section
variable (hp : Boundary data p)
include hp

theorem valid_drop (h : Text.valid data) : Text.valid (data.drop p) :=
  valid_of_append hp.valid (by rwa [take_append_drop])

theorem runeStart (h : Text.valid data) {c : UInt8} (hc : data[p]? = some c) :
    runeStart c := by
  have hne : data.drop p ≠ [] := by
    intro hnil
    rw [← List.head?_drop, hnil] at hc
    cases hc
  obtain ⟨r, rest, hr, -, heq⟩ := exists_rune_append (hp.valid_drop h) hne
  obtain ⟨d, ds, rfl⟩ := exists_cons_of_length_pos hr.length_pos
  rw [← List.head?_drop, heq] at hc
  exact (hr.runeStart_iff_head (i := 0) hc).mpr rfl

theorem add (hq : Boundary (data.drop p) q) : Boundary data (p + q) := by
  refine ⟨?_, by rw [take_add]; exact valid_append hp.valid hq.valid⟩
  have := hq.le
  have := hp.le
  rw [length_drop] at *
  omega

theorem valid_between (hq : Boundary data q) (hle : p ≤ q) :
    Text.valid ((data.drop p).take (q - p)) := by
  refine valid_of_append hp.valid ?_
  rw [← take_add, Nat.add_sub_cancel' hle]
  exact hq.valid

theorem next (h : Text.valid data) (hlt : p < data.length) :
    Boundary data (p + decodeRuneSize (data.drop p)) ∧
      runeCount (data.take (p + decodeRuneSize (data.drop p))) = runeCount (data.take p) + 1 ∧
      0 < decodeRuneSize (data.drop p) ∧ decodeRuneSize (data.drop p) ≤ 4 := by
  have hne : data.drop p ≠ [] := by simpa using hlt
  obtain ⟨r, rest, hr, -, heq⟩ := exists_rune_append (hp.valid_drop h) hne
  have hlen : r.length + rest.length = data.length - p := by
    rw [← length_append, ← heq, length_drop]
  have htake : data.take (p + r.length) = data.take p ++ r := by
    rw [take_add, heq, take_left]
  rw [heq, hr.decodeRuneSize_append, htake, runeCount_append_rune hp.valid hr]
  refine ⟨⟨by omega, ?_⟩, rfl, hr.length_pos, hr.length_le⟩
  rw [htake]
  exact valid_append hp.valid hr.valid

end

end Boundary

theorem boundary_ascii (h : valid data) {i : Nat} {c : UInt8} (hc : data[i]? = some c)
    (hascii : c < 128) : Boundary data i ∧ Boundary data (i + 1) := by
  obtain ⟨hi, hget⟩ := List.getElem?_eq_some_iff.mp hc
  have hbd : Boundary data i := by
    refine boundary_of_runeStart h (Nat.le_of_lt hi) fun d hd => ?_
    rw [hc] at hd
    cases hd
    exact runeStart_iff.mpr (.inl hascii)
  have hsize : decodeRuneSize (data.drop i) = 1 := by
    rw [drop_eq_getElem_cons hi, hget]
    exact (IsRune.one hascii).decodeRuneSize_append (data.drop (i + 1))
  refine ⟨hbd, ?_⟩
  have hnext := (hbd.next h hi).1
  rwa [hsize] at hnext

theorem exists_boundary (h : valid data) {i : Nat} (hi : i < data.length) :
    ∃ p ≤ i, i < p + 4 ∧ Boundary data p := by
  obtain ⟨runes, hrs, rfl⟩ := valid_iff.mp h
  clear h
  induction runes generalizing i with
  | nil => simp at hi
  | cons r runes ih =>
    obtain ⟨hr, hrest⟩ := forall_mem_cons.mp hrs
    rw [flatten_cons, length_append] at hi
    have hle := hr.length_le
    by_cases hlt : i < r.length
    · exact ⟨0, Nat.zero_le _, by omega, boundary_zero _⟩
    · obtain ⟨p, hp, hip, hpos, hval⟩ := ih hrest (i := i - r.length) (by omega)
      refine ⟨r.length + p, by omega, by omega, ?_, ?_⟩
      · rw [flatten_cons, length_append]
        omega
      · rw [flatten_cons, take_length_add_append]
        exact valid_append hr.valid hval

/-! ## Moving to a position where a character can start -/

/-- Go back from `n` to where a character can start, but not before `lo`. -/
def startBefore (data : Bytes) (lo : Nat) : Nat → Nat
  | 0 => 0
  | n + 1 => if lo < n + 1 ∧ (data[n + 1]?).any (!runeStart ·) then startBefore data lo n else n + 1

/-- Go on from `p` to where a character can start, over at most `n` bytes. -/
def startAfter (data : Bytes) : Nat → Nat → Nat
  | 0, p => p
  | n + 1, p => if (data[p]?).any (!runeStart ·) then startAfter data n (p + 1) else p

theorem startBefore_spec (data : Bytes) {lo n : Nat} (hlo : lo ≤ n) :
    lo ≤ startBefore data lo n ∧ startBefore data lo n ≤ n ∧
      (startBefore data lo n = lo ∨ ∀ c ∈ data[startBefore data lo n]?, runeStart c) ∧
      ∀ p ≤ n, (∀ c ∈ data[p]?, runeStart c) → p ≤ startBefore data lo n := by
  induction n with
  | zero =>
    obtain rfl : lo = 0 := by omega
    exact ⟨Nat.le_refl _, Nat.le_refl _, .inl rfl, fun p hp _ => hp⟩
  | succ n ih =>
    unfold startBefore
    split
    · rename_i hback
      obtain ⟨h₁, h₂, h₃, h₄⟩ := ih (by omega)
      refine ⟨h₁, by omega, h₃, fun p hp hstart => h₄ p ?_ hstart⟩
      -- the position just left is no start
      rcases Nat.lt_or_ge p (n + 1) with hlt | hge
      · omega
      · obtain rfl : p = n + 1 := by omega
        obtain ⟨c, hc, hcont⟩ := (Option.any_eq_true _ _).mp hback.2
        simp [hstart c hc] at hcont
    · rename_i hstay
      refine ⟨hlo, Nat.le_refl _, ?_, fun p hp _ => hp⟩
      by_cases heq : n + 1 = lo
      · exact .inl heq
      · refine .inr fun c hc => ?_
        have hlt : lo < n + 1 := by omega
        simpa [hlt, Option.mem_def.mp hc] using hstay

theorem startAfter_spec (data : Bytes) (n p : Nat) :
    p ≤ startAfter data n p ∧ startAfter data n p ≤ p + n ∧
      (startAfter data n p = p + n ∨ ∀ c ∈ data[startAfter data n p]?, runeStart c) := by
  induction n generalizing p with
  | zero => exact ⟨Nat.le_refl _, Nat.le_refl _, .inl rfl⟩
  | succ n ih =>
    unfold startAfter
    split
    · obtain ⟨h₁, h₂, h₃⟩ := ih (p + 1)
      exact ⟨by omega, by omega, h₃.imp_left (by omega)⟩
    · rename_i hstay
      refine ⟨Nat.le_refl _, by omega, .inr fun c hc => ?_⟩
      simpa [Option.mem_def.mp hc] using hstay

end Text
