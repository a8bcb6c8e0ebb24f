import Omnara.Lib.Json

/-!
# Go strings as bytes

`toValidUTF8` is `strings.ToValidUTF8`: every maximal run of bytes that are no UTF-8 is replaced by
one replacement. `trimSpace` is `strings.TrimSpace` (and `bytes.TrimSpace`): it removes the characters
of Unicode's White Space from both ends.
-/

namespace Text

open List

open Json (Bytes runeLength)

/-- The loop of `toValidUTF8`; `bad` says that the byte before was replaced. Every step consumes at
least one byte, so the length of the input is enough fuel. -/
def toValidUTF8Loop (replacement : Bytes) : Nat → Bool → Bytes → Bytes
  | 0, _, _ => []
  | _, _, [] => []
  | fuel + 1, bad, c :: cs =>
    match runeLength (c :: cs) with
    | 0 => (if bad then [] else replacement) ++ toValidUTF8Loop replacement fuel true cs
    | n + 1 => (c :: cs.take n) ++ toValidUTF8Loop replacement fuel false (cs.drop n)

def toValidUTF8 (data replacement : Bytes) : Bytes :=
  toValidUTF8Loop replacement data.length false data

/-- `utf8.Valid`. -/
def validLoop : Nat → Bytes → Bool
  | _, [] => true
  | 0, _ => false
  | fuel + 1, c :: cs =>
    match runeLength (c :: cs) with
    | 0 => false
    | n + 1 => validLoop fuel (cs.drop n)

def valid (data : Bytes) : Bool := validLoop data.length data

/-! ## White space -/

/-- The UTF-8 encodings of the White Space characters. -/
def spaces : List Bytes :=
  [[9], [10], [11], [12], [13], [32], [0xC2, 0x85], [0xC2, 0xA0], [0xE1, 0x9A, 0x80],
    [0xE2, 0x80, 0x80], [0xE2, 0x80, 0x81], [0xE2, 0x80, 0x82], [0xE2, 0x80, 0x83],
    [0xE2, 0x80, 0x84], [0xE2, 0x80, 0x85], [0xE2, 0x80, 0x86], [0xE2, 0x80, 0x87],
    [0xE2, 0x80, 0x88], [0xE2, 0x80, 0x89], [0xE2, 0x80, 0x8A], [0xE2, 0x80, 0xA8],
    [0xE2, 0x80, 0xA9], [0xE2, 0x80, 0xAF], [0xE2, 0x81, 0x9F], [0xE3, 0x80, 0x80]]

/-- Removes the given encodings from the front. Every step consumes at least one byte, so the length
of the input is enough fuel. -/
def trimFront (runes : List Bytes) : Nat → Bytes → Bytes
  | 0, data => data
  | fuel + 1, data =>
    match runes.find? (·.isPrefixOf data) with
    | none => data
    | some rune => trimFront runes fuel (data.drop rune.length)

def trimSpace (data : Bytes) : Bytes :=
  let data := trimFront spaces data.length data
  (trimFront (spaces.map List.reverse) data.length data.reverse).reverse

variable {runes : List Bytes} {n : Nat}

theorem find?_trimFront (hrs : ∀ rune ∈ runes, rune ≠ []) :
    ∀ {fuel : Nat} {data : Bytes}, data.length ≤ fuel →
      runes.find? (·.isPrefixOf (trimFront runes fuel data)) = none
  | 0, data, hlen => by
    obtain rfl := length_eq_zero_iff.mp (Nat.le_zero.mp hlen)
    rw [trimFront, List.find?_eq_none]
    intro rune hrune hpre
    exact hrs rune hrune (prefix_nil.mp (List.isPrefixOf_iff_prefix.mp hpre))
  | fuel + 1, data, hlen => by
    rw [trimFront]
    cases hfind : runes.find? (·.isPrefixOf data) with
    | none => exact hfind
    | some rune =>
      refine find?_trimFront hrs ?_
      have hpos := length_pos_iff.mpr (hrs rune (mem_of_find?_eq_some hfind))
      rw [length_drop]
      omega

theorem trimFront_suffix (runes : List Bytes) : ∀ (fuel : Nat) (data : Bytes),
    trimFront runes fuel data <:+ data
  | 0, _ => suffix_rfl
  | fuel + 1, data => by
    rw [trimFront]
    split
    · exact suffix_rfl
    · exact (trimFront_suffix runes fuel _).trans (drop_suffix _ _)

theorem trimFront_of_find?_eq_none {data : Bytes}
    (h : runes.find? (·.isPrefixOf data) = none) : ∀ fuel, trimFront runes fuel data = data
  | 0 => rfl
  | fuel + 1 => by rw [trimFront, h]

/-- A trimmed text has nothing more to trim: what is cut from the back leaves a text that starts as
before. -/
theorem trimSpace_trimSpace (data : Bytes) : trimSpace (trimSpace data) = trimSpace data := by
  have hback : (spaces.map List.reverse).find? (·.isPrefixOf (trimSpace data).reverse) = none := by
    rw [trimSpace, reverse_reverse]
    exact find?_trimFront (by decide) (Nat.le_of_eq length_reverse)
  have hfront : spaces.find? (·.isPrefixOf (trimSpace data)) = none := by
    have hfst : spaces.find? (·.isPrefixOf (trimFront spaces data.length data)) = none :=
      find?_trimFront (by decide) (Nat.le_refl _)
    rw [List.find?_eq_none] at hfst ⊢
    intro rune hrune hpre
    refine hfst rune hrune (List.isPrefixOf_iff_prefix.mpr ?_)
    refine (List.isPrefixOf_iff_prefix.mp hpre).trans ?_
    rw [trimSpace, ← reverse_suffix, reverse_reverse]
    exact trimFront_suffix _ _ _
  rw [trimSpace.eq_def (trimSpace data)]
  dsimp only
  rw [trimFront_of_find?_eq_none hfront, trimFront_of_find?_eq_none hback, reverse_reverse]

/-! ## Numbers -/

/-- `strconv.FormatInt(n, 10)`, and what `%d` prints. -/
def formatInt (n : Int) : Bytes :=
  (if n < 0 then '-' :: Nat.toDigits 10 n.natAbs else Nat.toDigits 10 n.natAbs).map Char.toUInt8

theorem formatInt_natCast (n : Nat) : formatInt n = (Nat.toDigits 10 n).map Char.toUInt8 := by
  rw [formatInt, if_neg (by omega), Int.natAbs_natCast]

theorem toNat_digit {d : Char} (h : d.isDigit) :
    d.toUInt8.toNat = d.toNat ∧ 48 ≤ d.toNat ∧ d.toNat ≤ 57 := by
  simp only [Char.isDigit, Bool.and_eq_true, decide_eq_true_eq] at h
  have hlow : 48 ≤ d.toNat := UInt32.le_iff_toNat_le.mp h.1
  have hhigh : d.toNat ≤ 57 := UInt32.le_iff_toNat_le.mp h.2
  refine ⟨?_, hlow, hhigh⟩
  exact Nat.mod_eq_of_lt (by rw [Char.toNat_val]; omega)

theorem isDigit_of_mem_formatInt {c : UInt8} (h : c ∈ formatInt n) : Json.isDigit c := by
  obtain ⟨d, hd, rfl⟩ := mem_map.mp h
  obtain ⟨hnat, hlow, hhigh⟩ := toNat_digit (Nat.isDigit_of_mem_toDigits (by decide) (by decide) hd)
  simp only [Json.isDigit, Bool.and_eq_true, decide_eq_true_eq, UInt8.le_iff_toNat_le, hnat]
  exact ⟨hlow, hhigh⟩

theorem formatInt_injective {m : Nat} (h : formatInt m = formatInt n) : m = n := by
  have hback : ∀ k : Nat,
      (formatInt k).map (fun c => Char.ofNat c.toNat) = Nat.toDigits 10 k := by
    intro k
    rw [formatInt_natCast, map_map]
    refine (map_congr_left fun d hd => ?_).trans (map_id _)
    have hdigit := Nat.isDigit_of_mem_toDigits (by decide) (by decide) hd
    rw [Function.comp_apply, (toNat_digit hdigit).1, Char.ofNat_toNat]
    rfl
  rw [← @Nat.ofDigitChars_ten_toDigits m, ← hback m, h, hback n, Nat.ofDigitChars_ten_toDigits]

theorem length_formatInt_le {k : Nat} (hk : 0 < k) (h : n < 10 ^ k) : (formatInt n).length ≤ k := by
  rw [formatInt_natCast, length_map]
  exact (Nat.length_toDigits_le_iff (by decide) hk).mpr h

end Text
