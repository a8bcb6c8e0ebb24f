import Mathlib.Data.Nat.Digits.Lemmas
import Omnara.Lib.Json

/-!
# Public ids

`internal/publicid/publicid.go`: the prefix of a kind, `_`, and the 26 base-32 characters of the id's
16 bytes. The characters carry two bits too many; `Decode` encodes what it has read once more, so every
id has one spelling.
-/

namespace PublicId

open Json (Bytes ascii)

abbrev Kind := String

def kindPrefixes : List (Kind × String) :=
  [("organization", "org"), ("installation", "inst"), ("user", "usr"), ("actor", "actr"),
    ("project", "proj"), ("agent", "agt"), ("agent_config", "acfg"), ("agent_profile", "aprf"),
    ("cron_trigger", "cron"), ("integration_install", "iin"), ("integration_target", "itgt"),
    ("agent_event", "evt"), ("agent_input", "ain"), ("agent_machine_binding", "amb"),
    ("agent_turn", "trn"), ("agent_interaction", "int"), ("model_call_context", "mcc"),
    ("context_checkpoint", "ccp"), ("tool_call", "tcl"), ("machine_pool", "mpo"),
    ("machine", "mch"), ("machine_daemon_token", "mdt"), ("daemon_runtime", "drt"),
    ("project_machine_grant", "pmg"), ("project_machine_pool_grant", "pmpg"), ("process", "prc"),
    ("process_action", "pac"), ("artifact", "art"), ("personal_access_token", "pat"),
    ("org_invitation", "oinv"), ("secret", "sec"), ("secret_grant", "sgr"),
    ("model_provider_config", "mpc"), ("configured_model", "mdl"),
    ("configured_model_revision", "mrev"), ("project_model_grant", "pmog"), ("skill", "skl"),
    ("skill_revision", "skr"), ("skill_grant", "skg"), ("org_api_key", "oak"),
    ("mcp_oauth_flow", "moaf"), ("integration_oauth_flow", "ioaf")]

/-- The 16 bytes of a `uuid.UUID`. -/
abbrev Uuid := { raw : Bytes // raw.length = 16 }

def Uuid.nil : Uuid := ⟨List.replicate 16 0, by simp⟩

/-- `encoding/base32` without padding, on the bytes of an id. -/
structure Base32 where
  encodeToString : Bytes → Bytes
  decodeString : Bytes → Option Bytes
  length_encode : ∀ raw, raw.length = 16 → (encodeToString raw).length = 26
  decode_encode : ∀ raw, raw.length = 16 → decodeString (encodeToString raw) = some raw

/-! ## The characters -/

def alphabet : Bytes := ascii "abcdefghijklmnopqrstuvwxyz234567"

/-- The characters of `EncodeToString`: the bits of the bytes, five each, the last ones filled up. -/
def encodeToString (raw : Bytes) : Bytes :=
  let chars := (8 * raw.length + 4) / 5
  let value := Nat.ofDigits 256 (raw.map UInt8.toNat).reverse * 2 ^ (5 * chars - 8 * raw.length)
  (Nat.digitsAppend 32 chars value).reverse.map fun digit => alphabet.getD digit 0

/-- The bytes that this many characters hold; one, three or six characters beyond groups of eight add
none. -/
def decodedLength (chars : Nat) : Nat :=
  if chars % 8 ∈ [1, 3, 6] then chars / 8 * 5 else chars * 5 / 8

/-- `DecodeString`, which passes over line ends. The byte 255, which stands for the padding, is refused;
no id has one. -/
def decodeString (text : Bytes) : Option Bytes := do
  let digits ← (text.filter fun c => c ≠ 10 ∧ c ≠ 13).mapM alphabet.idxOf?
  let bytes := decodedLength digits.length
  let value := Nat.ofDigits 32 digits.reverse / 2 ^ (5 * digits.length - 8 * bytes)
  return (Nat.digitsAppend 256 bytes value).reverse.map UInt8.ofNat

theorem alphabet_digit : ∀ digit < 32, alphabet.getD digit 0 ≠ 10 ∧ alphabet.getD digit 0 ≠ 13 ∧
    alphabet.idxOf? (alphabet.getD digit 0) = some digit := by decide +kernel

theorem mapM_alphabet (digits : List Nat) (h : ∀ digit ∈ digits, digit < 32) :
    ((digits.map fun digit => alphabet.getD digit 0).filter fun c => c ≠ 10 ∧ c ≠ 13).mapM
      alphabet.idxOf? = some digits := by
  induction digits with
  | nil => rfl
  | cons digit digits ih =>
    obtain ⟨hnl, hcr, hidx⟩ := alphabet_digit digit (h digit (by simp))
    rw [List.map_cons, List.filter_cons_of_pos (by exact decide_eq_true ⟨hnl, hcr⟩), List.mapM_cons, hidx,
      ih fun d hd => h d (List.mem_cons_of_mem _ hd)]
    rfl

theorem value_lt {raw : Bytes} (hraw : raw.length = 16) :
    Nat.ofDigits 256 (raw.map UInt8.toNat).reverse < 256 ^ 16 := by
  have h := Nat.ofDigits_lt_base_pow_length (b := 256) (l := (raw.map UInt8.toNat).reverse) (by decide)
    (by simpa using fun byte _ => byte.toNat_lt)
  simpa [hraw] using h

theorem length_encodeToString {raw : Bytes} (hraw : raw.length = 16) :
    (encodeToString raw).length = 26 := by
  have := value_lt hraw
  simp only [encodeToString, List.length_map, List.length_reverse, hraw]
  exact Nat.length_digitsAppend (by decide) _ (by omega)

theorem decodeString_encodeToString {raw : Bytes} (hraw : raw.length = 16) :
    decodeString (encodeToString raw) = some raw := by
  have hlt := value_lt hraw
  set value := Nat.ofDigits 256 (raw.map UInt8.toNat).reverse with hvalue
  set digits := Nat.digitsAppend 32 26 (value * 4) with hdigits
  have hencode : encodeToString raw = digits.reverse.map fun digit => alphabet.getD digit 0 := by
    simp only [encodeToString, hraw]
    rfl
  have hlength : digits.length = 26 := Nat.length_digitsAppend (by decide) _ (by omega)
  have hback : Nat.ofDigits 32 digits = value * 4 :=
    (Nat.setInvOn_digitsAppend_ofDigits (by decide) 26).2 (show value * 4 < 32 ^ 26 by omega)
  have hbytes : Nat.digitsAppend 256 16 value = (raw.map UInt8.toNat).reverse :=
    (Nat.setInvOn_digitsAppend_ofDigits (by decide) 16).1
      ⟨by simpa using hraw, by simpa using fun byte _ => byte.toNat_lt⟩
  rw [decodeString, hencode, mapM_alphabet digits.reverse fun d hd =>
    Nat.lt_of_mem_digitsAppend (by decide) 26 d (List.mem_reverse.mp hd)]
  have hbyte : UInt8.ofNat ∘ UInt8.toNat = id := funext fun _ => UInt8.ofNat_toNat
  simp [hlength, hback, decodedLength, hbytes, hbyte]

def encoding : Base32 where
  encodeToString := encodeToString
  decodeString := decodeString
  length_encode _ := length_encodeToString
  decode_encode _ := decodeString_encodeToString

/-! ## Ids -/

inductive Error
  | malformed
  | nilUUID
  | unknownKind (kind : Kind)
  | wrongPrefix (want got : Bytes)
deriving DecidableEq

def kindPrefix (kind : Kind) : Option Bytes := (kindPrefixes.lookup kind).map ascii

variable (base32 : Base32)

def encode (kind : Kind) (id : Uuid) : Except Error Bytes :=
  if id = Uuid.nil then .error .nilUUID
  else match kindPrefix kind with
    | none => .error (.unknownKind kind)
    | some lead => .ok (lead ++ ascii "_" ++ base32.encodeToString id)

def decode (kind : Kind) (value : Bytes) : Except Error Uuid :=
  match kindPrefix kind with
  | none => .error (.unknownKind kind)
  | some lead =>
    -- `strings.Cut` at the first underscore
    match value.takeWhile (· ≠ 95), value.dropWhile (· ≠ 95) with
    | got, _ :: token =>
      if got = [] ∨ token = [] then .error .malformed
      else if got ≠ lead then .error (.wrongPrefix lead got)
      else if token.length ≠ 26 then .error .malformed
      else match base32.decodeString token with
        | none => .error .malformed
        | some raw =>
          if base32.encodeToString raw ≠ token then .error .malformed
          else if h : raw.length = 16 then
            if ⟨raw, h⟩ = Uuid.nil then .error .nilUUID else .ok ⟨raw, h⟩
          else .error .malformed
    | _, [] => .error .malformed

variable {base32} {kind : Kind} {id : Uuid} {value lead : Bytes}

theorem kindPrefixes_plain : ∀ p ∈ kindPrefixes, ascii p.2 ≠ [] ∧ 95 ∉ ascii p.2 := by decide +kernel

theorem kindPrefixes_inj : ∀ p ∈ kindPrefixes, ∀ q ∈ kindPrefixes, ascii p.2 = ascii q.2 → p.1 = q.1 := by
  decide +kernel

theorem mem_of_kindPrefix (h : kindPrefix kind = some lead) :
    ∃ text, (kind, text) ∈ kindPrefixes ∧ ascii text = lead := by
  obtain ⟨text, htext, rfl⟩ := Option.map_eq_some_iff.mp h
  obtain ⟨before, after, hsplit, -⟩ := List.lookup_eq_some_iff.mp htext
  exact ⟨text, by simp [hsplit], rfl⟩

/-- The text is the spelling of the id. -/
def Spells (base32 : Base32) (kind : Kind) (id : Uuid) (value : Bytes) : Prop :=
  id ≠ Uuid.nil ∧ ∃ lead, kindPrefix kind = some lead ∧
    value = lead ++ 95 :: base32.encodeToString id

theorem encode_ok_iff : encode base32 kind id = .ok value ↔ Spells base32 kind id value := by
  unfold encode Spells
  by_cases hnil : id = Uuid.nil
  · simp [hnil]
  · cases kindPrefix kind with
    | none => simp [hnil]
    | some lead => simp [hnil, show ascii "_" = [95] from rfl, eq_comm]

theorem decode_ok_iff : decode base32 kind value = .ok id ↔ Spells base32 kind id value := by
  unfold decode Spells
  cases hlead : kindPrefix kind with
  | none => simp
  | some lead =>
    obtain ⟨text, hmem, rfl⟩ := mem_of_kindPrefix hlead
    obtain ⟨hne, hplain⟩ := kindPrefixes_plain _ hmem
    dsimp only
    constructor
    · intro h
      split at h
      · rename_i mark token hdrop
        split at h
        · cases h
        split at h
        · cases h
        rename_i hgot
        split at h
        · cases h
        split at h
        · cases h
        split at h
        · cases h
        rename_i raw _ hcanonical
        split at h
        · split at h
          · cases h
          rename_i hnil
          cases h
          obtain rfl : mark = 95 := by
            have := List.head?_dropWhile_not (fun c => decide (c ≠ 95)) value
            rw [hdrop] at this
            simpa using this
          refine ⟨hnil, _, rfl, ?_⟩
          rw [Decidable.of_not_not hcanonical, ← Decidable.of_not_not hgot, ← hdrop,
            List.takeWhile_append_dropWhile]
        · cases h
      · cases h
    · rintro ⟨hnil, lead, hlead', rfl⟩
      obtain rfl := Option.some.inj hlead'
      have hbefore : ∀ c ∈ ascii text, decide (c ≠ 95) = true := by
        rintro c hc
        exact decide_eq_true fun heq => hplain (heq ▸ hc)
      have hlength := base32.length_encode id id.2
      rw [List.takeWhile_append_of_pos hbefore, List.dropWhile_append_of_pos hbefore]
      simp [hne, base32.decode_encode id id.2, hlength, id.2, hnil, ← List.length_eq_zero_iff]

/-- **Public ids have one spelling**: a text decodes to an id exactly if the id encodes to it, and no text
decodes under two kinds. -/
theorem decode_iff_encode (base32 : Base32) :
    (∀ kind id value, decode base32 kind value = .ok id ↔ encode base32 kind id = .ok value) ∧
    ∀ kind kind' value id id', decode base32 kind value = .ok id → decode base32 kind' value = .ok id' →
      kind = kind' := by
  refine ⟨fun kind id value => decode_ok_iff.trans encode_ok_iff.symm, ?_⟩
  intro kind kind' value id id' h h'
  obtain ⟨-, lead, hlead, rfl⟩ := decode_ok_iff.mp h
  obtain ⟨-, lead', hlead', heq⟩ := decode_ok_iff.mp h'
  obtain ⟨text, hmem, rfl⟩ := mem_of_kindPrefix hlead
  obtain ⟨text', hmem', rfl⟩ := mem_of_kindPrefix hlead'
  have hsame : (ascii text).length = (ascii text').length := by
    have h26 := congrArg List.length heq
    have := base32.length_encode id id.2
    have := base32.length_encode id' id'.2
    simp only [List.length_append, List.length_cons] at h26
    omega
  exact kindPrefixes_inj _ hmem _ hmem' (List.append_inj_left heq hsame)

theorem decode_iff_encode_artifact :
    decode encoding "artifact" (ascii "art_aaaaaaaaaaaaaaaaaaaaaaaaae") =
        .ok ⟨List.replicate 15 0 ++ [1], rfl⟩ ∧
      ∀ kind id, decode encoding kind (ascii "art_aaaaaaaaaaaaaaaaaaaaaaaaae") = .ok id →
        kind = "artifact" := by
  have hdecode : decode encoding "artifact" (ascii "art_aaaaaaaaaaaaaaaaaaaaaaaaae") =
      .ok ⟨List.replicate 15 0 ++ [1], rfl⟩ :=
    ((decode_iff_encode encoding).1 _ _ _).mpr (by decide +kernel)
  exact ⟨hdecode, fun kind id h => (decode_iff_encode encoding).2 _ _ _ _ _ h hdecode⟩

end PublicId
