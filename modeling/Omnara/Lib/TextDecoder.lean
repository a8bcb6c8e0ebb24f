import Mathlib.Data.List.Basic

/-!
# Decoding UTF-8 from a stream

The UTF-8 decoder of the Encoding Standard, byte by byte, and `TextDecoder.decode` with
`{ stream: true }` on top of it: a chunk may end inside a character, whose first bytes then wait in the
decoder. Whatever part of an encoded text has arrived, and however it was cut, what comes out is the
start of the text (`Decodes.isPrefix`).
-/

namespace TextDecoder

/-- A character in progress: the bits so far, the bytes it still needs, and the bounds of the next. -/
structure Utf8 where
  codePoint : Nat := 0
  needed : Nat := 0
  lower : Nat := 0x80
  upper : Nat := 0xBF
  deriving DecidableEq

def replacement : Char := '�'

def leadByte (b : Nat) : Utf8 × List Char :=
  if b ≤ 0x7F then ({}, [Char.ofNat b])
  else if 0xC2 ≤ b ∧ b ≤ 0xDF then ({ codePoint := b % 32, needed := 1 }, [])
  else if 0xE0 ≤ b ∧ b ≤ 0xEF then
    ({ codePoint := b % 16, needed := 2, lower := if b = 0xE0 then 0xA0 else 0x80,
       upper := if b = 0xED then 0x9F else 0xBF }, [])
  else if 0xF0 ≤ b ∧ b ≤ 0xF4 then
    ({ codePoint := b % 8, needed := 3, lower := if b = 0xF0 then 0x90 else 0x80,
       upper := if b = 0xF4 then 0x8F else 0xBF }, [])
  else ({}, [replacement])

def Utf8.byte (d : Utf8) (byte : UInt8) : Utf8 × List Char :=
  let b := byte.toNat
  if d.needed = 0 then leadByte b
  else if b < d.lower ∨ d.upper < b then
    -- the byte is read again as the start of a character
    ((leadByte b).1, replacement :: (leadByte b).2)
  else
    let codePoint := d.codePoint * 64 + b % 64
    if d.needed = 1 then ({}, [Char.ofNat codePoint])
    else ({ codePoint := codePoint, needed := d.needed - 1 }, [])

def Utf8.bytes : Utf8 → List UInt8 → Utf8 × List Char
  | d, [] => (d, [])
  | d, b :: bs => (((d.byte b).1.bytes bs).1, (d.byte b).2 ++ ((d.byte b).1.bytes bs).2)

variable {text : List Char} {bytes : List UInt8}

theorem bytes_append (d : Utf8) (xs ys : List UInt8) :
    d.bytes (xs ++ ys) =
      (((d.bytes xs).1.bytes ys).1, (d.bytes xs).2 ++ ((d.bytes xs).1.bytes ys).2) := by
  induction xs generalizing d with
  | nil => rfl
  | cons b xs ih => simp only [List.cons_append, Utf8.bytes, ih, List.append_assoc]

def encode (text : List Char) : List UInt8 := text.flatMap String.utf8EncodeChar

theorem byte_first {b : Nat} (hb : b < 256) : ({} : Utf8).byte (UInt8.ofNat b) = leadByte b := by
  unfold Utf8.byte
  rw [if_pos rfl, UInt8.toNat_ofNat', Nat.mod_eq_of_lt hb]

theorem byte_later {u needed lower upper b : Nat} (hb : b < 64) (hlower : lower ≤ b + 128)
    (hupper : b + 128 ≤ upper) :
    (⟨u, needed + 1, lower, upper⟩ : Utf8).byte (UInt8.ofNat (b + 128)) =
      if needed = 0 then ({}, [Char.ofNat (u * 64 + b)])
      else ({ codePoint := u * 64 + b, needed := needed }, []) := by
  have hnat : (UInt8.ofNat (b + 128)).toNat = b + 128 := by
    rw [UInt8.toNat_ofNat', Nat.mod_eq_of_lt (by omega)]
  unfold Utf8.byte
  dsimp only
  rw [hnat, if_neg (by omega), if_neg (by omega), show (b + 128) % 64 = b by omega]
  simp only [Nat.add_eq_right, Nat.add_sub_cancel]

theorem bytes_more {d d' : Utf8} {b : UInt8} (h : d.byte b = (d', [])) (bs : List UInt8) :
    d.bytes (b :: bs) = d'.bytes bs := by
  rw [Utf8.bytes, h]
  rfl

theorem bytes_last {d d' : Utf8} {b : UInt8} (h : d.byte b = (d', text)) :
    d.bytes [b] = (d', text) := by
  rw [Utf8.bytes, h]
  simp [Utf8.bytes]

theorem bytes_final {u v : Nat} (hu : u = v / 64) :
    ({ codePoint := u, needed := 1 } : Utf8).bytes [UInt8.ofNat (v % 64 + 128)] =
      ({}, [Char.ofNat v]) := by
  have hbyte := @byte_later u 0 0x80 0xBF _
    (Nat.mod_lt v (show 64 > 0 by omega)) (by omega) (by omega)
  rw [if_pos rfl, show u * 64 + v % 64 = v by omega] at hbyte
  exact bytes_last hbyte

theorem bytes_finalTwo {u v lower upper : Nat} (hu : u = v / 4096)
    (hlower : lower ≤ v / 64 % 64 + 128) (hupper : v / 64 % 64 + 128 ≤ upper) :
    (⟨u, 2, lower, upper⟩ : Utf8).bytes
      [UInt8.ofNat (v / 64 % 64 + 128), UInt8.ofNat (v % 64 + 128)] = ({}, [Char.ofNat v]) := by
  have hbyte := @byte_later u 1 _ _ _ (Nat.mod_lt (v / 64) (show 64 > 0 by omega))
    hlower hupper
  rw [bytes_more hbyte]
  exact bytes_final (by omega)

theorem bytes_finalThree {u v lower upper : Nat} (hu : u = v / 262144)
    (hlower : lower ≤ v / 4096 % 64 + 128) (hupper : v / 4096 % 64 + 128 ≤ upper) :
    (⟨u, 3, lower, upper⟩ : Utf8).bytes [UInt8.ofNat (v / 4096 % 64 + 128),
      UInt8.ofNat (v / 64 % 64 + 128), UInt8.ofNat (v % 64 + 128)] = ({}, [Char.ofNat v]) := by
  have hbyte := @byte_later u 2 _ _ _ (Nat.mod_lt (v / 4096) (show 64 > 0 by omega))
    hlower hupper
  rw [bytes_more hbyte]
  exact bytes_finalTwo (by omega) (by omega) (by omega)

theorem bytes_char (c : Char) : ({} : Utf8).bytes (String.utf8EncodeChar c) = ({}, [c]) := by
  have hc : Char.ofNat c.val.toNat = c := Char.ofNat_toNat c
  have hval : c.val.toNat < 0xD800 ∨ 0xDFFF < c.val.toNat ∧ c.val.toNat < 0x110000 := c.valid
  unfold String.utf8EncodeChar
  generalize c.val.toNat = v at hc hval
  subst hc
  dsimp only
  split
  · have hbyte := byte_first (b := v) (by omega)
    rw [leadByte, if_pos (by omega)] at hbyte
    exact bytes_last hbyte
  split
  · have hbyte := byte_first (b := v / 64 % 32 + 192) (by omega)
    rw [leadByte, if_neg (by omega), if_pos (by omega)] at hbyte
    rw [bytes_more hbyte]
    exact bytes_final (by omega)
  split
  · -- the bounds of the second byte keep out overlong forms and surrogates
    have hbyte := byte_first (b := v / 4096 % 16 + 224) (by omega)
    rw [leadByte, if_neg (by omega), if_neg (by omega), if_pos (by omega)] at hbyte
    rw [bytes_more hbyte]
    apply bytes_finalTwo
    · omega
    · split <;> omega
    · split <;> omega
  · have hbyte := byte_first (b := v / 262144 % 8 + 240) (by omega)
    rw [leadByte, if_neg (by omega), if_neg (by omega), if_neg (by omega),
      if_pos (by omega)] at hbyte
    rw [bytes_more hbyte]
    apply bytes_finalThree
    · omega
    · split <;> omega
    · split <;> omega

theorem bytes_encode (text : List Char) : ({} : Utf8).bytes (encode text) = ({}, text) := by
  induction text with
  | nil => rfl
  | cons c text ih =>
    rw [encode, List.flatMap_cons, bytes_append, bytes_char, ← encode, ih]
    rfl

theorem bytes_isPrefix (h : bytes <+: encode text) : (({} : Utf8).bytes bytes).2 <+: text := by
  obtain ⟨rest, hrest⟩ := h
  have hall := bytes_encode text
  rw [← hrest, bytes_append, Prod.mk.injEq] at hall
  exact ⟨_, hall.2⟩

/-! ## The decoder of a stream -/

structure Decoder where
  utf8 : Utf8 := {}
  /-- A byte order mark is taken off the start of the stream. -/
  bomSeen : Bool := false
  deriving DecidableEq

def dropBOM : List Char → List Char
  | c :: text => if c = '\uFEFF' then text else c :: text
  | [] => []

/-- `decoder.decode(chunk, { stream: true })`. -/
def Decoder.decode (d : Decoder) (chunk : List UInt8) : Decoder × List Char :=
  let (utf8, text) := d.utf8.bytes chunk
  (⟨utf8, d.bomSeen || !text.isEmpty⟩, if d.bomSeen then text else dropBOM text)

/-- The decoder of a new stream, after `bytes`, of which it has made `text`. -/
structure Decodes (d : Decoder) (bytes : List UInt8) (text : List Char) : Prop where
  utf8 : d.utf8 = (({} : Utf8).bytes bytes).1
  bomSeen : d.bomSeen = !(({} : Utf8).bytes bytes).2.isEmpty
  text_eq : text = dropBOM (({} : Utf8).bytes bytes).2

theorem decodes_nil : Decodes {} [] [] := ⟨rfl, rfl, rfl⟩

theorem Decodes.decode {d : Decoder} (h : Decodes d bytes text) (chunk : List UInt8) :
    Decodes (d.decode chunk).1 (bytes ++ chunk) (text ++ (d.decode chunk).2) := by
  have happ := bytes_append {} bytes chunk
  rw [← h.utf8] at happ
  refine ⟨by rw [happ]; rfl, ?_, ?_⟩
  · rw [happ]
    simp only [Decoder.decode, h.bomSeen]
    cases (({} : Utf8).bytes bytes).2 <;> rfl
  · rw [happ, h.text_eq]
    simp only [Decoder.decode, h.bomSeen]
    cases (({} : Utf8).bytes bytes).2 with
    | nil => rfl
    | cons c before =>
      simp only [dropBOM, List.isEmpty_cons, Bool.not_false, if_true, List.cons_append]
      split <;> rfl

/-- **What has come out of the decoder is the start of the text**, whatever part of it has arrived. -/
theorem Decodes.isPrefix {d : Decoder} {full : List Char}
    (h : Decodes d bytes text) (hbytes : bytes <+: encode full)
    (hbom : full.head? ≠ some '\uFEFF') : text <+: full := by
  have hpre := bytes_isPrefix hbytes
  rw [h.text_eq]
  cases hout : (({} : Utf8).bytes bytes).2 with
  | nil => exact List.nil_prefix
  | cons c before =>
    rw [hout] at hpre
    obtain ⟨rest, rfl⟩ := hpre
    rw [dropBOM, if_neg]
    · exact List.prefix_append _ _
    · rintro rfl
      exact hbom rfl

end TextDecoder
