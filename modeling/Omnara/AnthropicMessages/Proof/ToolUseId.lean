import Mathlib.Data.List.Nodup
import Mathlib.Data.List.Perm.Subperm
import Mathlib.Tactic.Common
import Omnara.AnthropicMessages.Request

/-!
# Generated tool ids

`freeId_isSome`: the loop ends within one round more than there are used ids, because the ids of its
rounds end with different numbers (`lastNumber`). `anthropicToolUseID_spec`: the id is not in use, and
has at most 64 characters, all of them letters, digits, `_` or `-`.
-/

namespace AnthropicMessages

open Json (Bytes ascii)
open ModelContext (ToolResultRef)
open Text (formatInt)

variable {used : List Bytes} {suffix : Bytes} {c : UInt8}

def lastNumber (id : Bytes) : Bytes := (id.reverse.takeWhile (· ≠ 95)).reverse

theorem lastNumber_append (front : Bytes) (n : Nat) :
    lastNumber (front ++ (ascii "_" ++ formatInt n)) = formatInt n := by
  have hdigits : ∀ c ∈ (formatInt n).reverse, decide (c ≠ 95) = true := by
    intro c hc
    have hdigit := Text.isDigit_of_mem_formatInt (List.mem_reverse.mp hc)
    simp only [Json.isDigit, Bool.and_eq_true, decide_eq_true_eq] at hdigit
    rw [decide_eq_true_eq]
    rintro rfl
    exact absurd hdigit.2 (by decide)
  have hreverse : (front ++ (ascii "_" ++ formatInt n)).reverse =
      (formatInt n).reverse ++ (95 :: front.reverse) := by
    rw [List.reverse_append, List.reverse_append, List.append_assoc]
    rfl
  rw [lastNumber, hreverse, List.takeWhile_append_of_pos hdigits,
    List.takeWhile_cons_of_neg (by decide), List.append_nil, List.reverse_reverse]

theorem freeId_of_notMem {rounds index : Nat} {base id : Bytes} (h : id ∉ used) :
    freeId used suffix rounds index base id = some id := by
  cases rounds <;> rw [freeId, if_neg h]

theorem freeId_succ {rounds index : Nat} {base id : Bytes} (h : id ∈ used) :
    freeId used suffix (rounds + 1) index base id = freeId used suffix rounds (index + 1)
        (base.take (64 - suffix.length - (ascii "_" ++ formatInt index).length - 1))
        (base.take (64 - suffix.length - (ascii "_" ++ formatInt index).length - 1) ++ ascii "_" ++
          suffix ++ (ascii "_" ++ formatInt index)) := by
  rw [freeId, if_pos h]

/-- A loop that has not ended has found the ids of all its rounds in use. -/
theorem freeId_eq_none : ∀ {rounds index : Nat} {base id : Bytes},
    freeId used suffix rounds index base id = none →
      id ∈ used ∧ ∀ i < rounds, ∃ x ∈ used, lastNumber x = formatInt ((index + i : Nat) : Int)
  | rounds, index, base, id, h => by
    have hid : id ∈ used := by
      by_contra hid
      rw [freeId_of_notMem hid] at h
      cases h
    refine ⟨hid, ?_⟩
    cases rounds with
    | zero => nofun
    | succ rounds =>
      rw [freeId_succ hid] at h
      obtain ⟨hnext, hrest⟩ := freeId_eq_none h
      intro i hi
      cases i with
      | zero => exact ⟨_, hnext, lastNumber_append _ index⟩
      | succ i =>
        obtain ⟨x, hx, hnumber⟩ := hrest i (by omega)
        exact ⟨x, hx, by rw [hnumber, Nat.add_right_comm, Nat.add_assoc]⟩

/-- **The loop ends**: one round more than there are used ids is enough. -/
theorem freeId_isSome (index : Nat) (base id : Bytes) :
    ∃ free, freeId used suffix (used.length + 1) index base id = some free := by
  cases hfree : freeId used suffix (used.length + 1) index base id with
  | some free => exact ⟨free, rfl⟩
  | none =>
    obtain ⟨-, hrounds⟩ := freeId_eq_none hfree
    have hnd : ((List.range (used.length + 1)).map
        fun i => formatInt ((index + i : Nat) : Int)).Nodup := by
      refine List.Nodup.map_on (fun i _ j _ hij => ?_) List.nodup_range
      have := Text.formatInt_injective hij
      omega
    have hsub : ((List.range (used.length + 1)).map fun i => formatInt ((index + i : Nat) : Int)) ⊆
        used.map lastNumber := by
      intro number hnumber
      obtain ⟨i, hi, rfl⟩ := List.mem_map.mp hnumber
      obtain ⟨x, hx, hlast⟩ := hrounds i (List.mem_range.mp hi)
      exact List.mem_map.mpr ⟨x, hx, hlast⟩
    have hle := (List.subperm_of_subset hnd hsub).length_le
    rw [List.length_map, List.length_map, List.length_range] at hle
    omega

theorem freeId_notMem : ∀ {rounds index : Nat} {base id free : Bytes},
    freeId used suffix rounds index base id = some free → free ∉ used
  | rounds, index, base, id, free, h => by
    by_cases hid : id ∈ used
    · cases rounds with
      | zero =>
        rw [freeId, if_pos hid] at h
        cases h
      | succ rounds =>
        rw [freeId_succ hid] at h
        exact freeId_notMem h
    · rw [freeId_of_notMem hid] at h
      exact Option.some.inj h ▸ hid

/-! ## The shape of the ids -/

/-- At most 64 characters, each a letter, a digit, `_` or `-`. -/
def IdShape (id : Bytes) : Prop := id.length ≤ 64 ∧ ∀ c ∈ id, idChar c

theorem idChar_of_isDigit (h : Json.isDigit c) : idChar c := by
  simp only [Json.isDigit] at h
  simp [idChar, h]

theorem freeId_shape (hsuf : suffix.length = 8) (hchars : ∀ c ∈ suffix, idChar c) :
    ∀ {rounds index : Nat} {base id free : Bytes}, index + rounds ≤ 10 ^ 20 →
      (∀ c ∈ base, idChar c) → IdShape id →
      freeId used suffix rounds index base id = some free → IdShape free
  | rounds, index, base, id, free, hidx, hbase, hid, h => by
    by_cases hmem : id ∈ used
    · cases rounds with
      | zero =>
        rw [freeId, if_pos hmem] at h
        cases h
      | succ rounds =>
        rw [freeId_succ hmem] at h
        have hdigits : (formatInt (index : Int)).length ≤ 20 :=
          Text.length_formatInt_le (by decide) (by omega)
        have htake : ∀ {n}, ∀ c ∈ base.take n, idChar c :=
          fun c hc => hbase c (List.mem_of_mem_take hc)
        refine freeId_shape hsuf hchars (by omega) htake ⟨?_, ?_⟩ h
        · have hone : (ascii "_").length = 1 := rfl
          simp only [List.length_append, List.length_take, hone, hsuf]
          omega
        · intro c hc
          simp only [List.mem_append] at hc
          have hunderscore : ∀ c ∈ ascii "_", idChar c := by decide +kernel
          rcases hc with ((hc | hc) | hc) | hc | hc
          · exact htake c hc
          · exact hunderscore c hc
          · exact hchars c hc
          · exact hunderscore c hc
          · exact idChar_of_isDigit (Text.isDigit_of_mem_formatInt hc)
    · rw [freeId_of_notMem hmem] at h
      exact Option.some.inj h ▸ hid

theorem length_hexString (data : Bytes) : (hexString data).length = 2 * data.length := by
  simp [hexString, List.length_flatMap, Nat.mul_comm]

theorem idChar_hexDigit (n : UInt8) (h : n < 16) : idChar (Json.hexDigit n) := by
  have hall : ∀ n : Fin 256, UInt8.ofFin n < 16 → idChar (Json.hexDigit (.ofFin n)) := by
    decide +kernel
  exact hall n.toFin h

theorem idChar_of_mem_hexString {data : Bytes} (h : c ∈ hexString data) : idChar c := by
  obtain ⟨b, -, hc⟩ := List.mem_flatMap.mp h
  have hall : ∀ n : Fin 256, (UInt8.ofFin n >>> 4) < 16 ∧ (UInt8.ofFin n &&& 15) < 16 := by
    decide +kernel
  obtain ⟨hhigh, hlow⟩ := hall b.toFin
  rcases List.mem_pair.mp hc with rfl | rfl
  · exact idChar_hexDigit _ hhigh
  · exact idChar_hexDigit _ hlow

theorem idChar_of_mem_sanitizeID {value : Bytes} (h : c ∈ sanitizeID value) : idChar c :=
  (List.mem_filter.mp h).2

/-- **Generated ids**: the loop ends, the id is not in use and is one the provider accepts. -/
theorem anthropicToolUseID_spec (sha256 : Bytes → Vector UInt8 32) (result : ToolResultRef)
    (used : List Bytes) : ∃ id, anthropicToolUseID sha256 result used = some id ∧ id ∉ used ∧
      (used.length < 2 ^ 63 → IdShape id) := by
  unfold anthropicToolUseID
  extract_lets base base' base'' sum suffix cut
  obtain ⟨id, hid⟩ := @freeId_isSome used suffix 1 cut (cut ++ ascii "_" ++ suffix)
  refine ⟨id, hid, freeId_notMem hid, fun hused => ?_⟩
  have hlen : suffix.length = 8 := by
    simp [suffix, length_hexString]
  have hsuf : ∀ c ∈ suffix, idChar c :=
    fun c hc => idChar_of_mem_hexString (List.mem_of_mem_take hc)
  have hbase : ∀ c ∈ cut, idChar c := by
    intro c hc
    have hc : c ∈ base'' := List.mem_of_mem_take hc
    dsimp only [base''] at hc
    split at hc
    · have htoolu : ∀ c ∈ ascii "toolu", idChar c := by decide +kernel
      exact htoolu c hc
    dsimp only [base'] at hc
    split at hc
    · exact idChar_of_mem_sanitizeID hc
    · exact idChar_of_mem_sanitizeID hc
  have hunderscore : ∀ c ∈ ascii "_", idChar c := by decide +kernel
  refine freeId_shape hlen hsuf (by omega) hbase ⟨?_, ?_⟩ hid
  · have hcut : cut.length ≤ 55 := by
      rw [List.length_take, hlen]
      omega
    have hone : (ascii "_").length = 1 := rfl
    rw [List.length_append, List.length_append, hlen, hone]
    omega
  · intro c hc
    rcases List.mem_append.mp hc with hc | hc
    · exact (List.mem_append.mp hc).elim (hbase c) (hunderscore c)
    · exact hsuf c hc

end AnthropicMessages
