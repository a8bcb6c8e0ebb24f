import Mathlib.Logic.Function.Iterate
import Omnara.Tools.FileRead

/-!
# Lines and cuts

What the two tools share. Skipping lines goes from the start of a line to the start of the next
(`skipLines_eq`), which is between two characters of valid text (`boundary_lineLength`). `truncateBytes`
keeps whole characters and less than a character short of the limit (`truncateBytes_take`).
-/

namespace Tools

open Json (Bytes)
open Text List

/-! ## Truncation -/

variable {p : Nat}

theorem truncateBytes_isPrefix (value : Bytes) (limit : Nat) : truncateBytes value limit <+: value := by
  unfold truncateBytes
  split
  · exact nil_prefix
  · split
    · exact prefix_rfl
    · exact take_prefix _ _

theorem length_truncateBytes_le (value : Bytes) (limit : Nat) :
    (truncateBytes value limit).length ≤ limit := by
  unfold truncateBytes
  split
  · exact Nat.zero_le _
  · split
    · assumption
    · rw [length_take]
      have := (startBefore_spec value (Nat.zero_le limit)).2.1
      omega

/-- `truncateBytes` on enough of a text: it keeps whole characters, less than a character short
of the limit. -/
theorem truncateBytes_take {data : Bytes} (h : valid data) {n limit : Nat} (hlim : 0 < limit)
    (hn : min data.length (limit + 1) ≤ n) :
    ∃ k ≤ limit, Boundary data k ∧ truncateBytes (data.take n) limit = data.take k ∧
      (data.length ≤ limit → k = data.length) ∧ (limit < data.length → limit < k + utfMax) := by
  unfold truncateBytes
  rw [if_neg (by omega), length_take]
  split
  · rename_i hle
    have hsh : data.length ≤ limit := by omega
    exact ⟨data.length, hsh, boundary_length h, by rw [take_length, take_of_length_le (by omega)],
      fun _ => rfl, by omega⟩
  · rename_i hlong
    obtain ⟨-, hle, hstop, hlast⟩ := startBefore_spec (data.take n) (Nat.zero_le limit)
    generalize startBefore (data.take n) 0 limit = k at hle hstop hlast ⊢
    have hget : ∀ p ≤ limit, (data.take n)[p]? = data[p]? := fun p hp =>
      List.getElem?_take_of_lt (by omega)
    have hk : Boundary data k := by
      rcases hstop with rfl | hstart
      · exact boundary_zero data
      · exact boundary_of_runeStart h (by omega) (hget k hle ▸ hstart)
    refine ⟨k, hle, hk, by rw [take_take, Nat.min_eq_left (by omega)], by omega, fun hlt => ?_⟩
    -- a character starts at most three bytes before the limit
    obtain ⟨p, hp, hnear, hbd⟩ := exists_boundary h hlt
    have := hlast p hp fun c hc => hbd.runeStart h (hget p hp ▸ hc)
    simp only [utfMax]
    omega

variable {content : Bytes}

/-! ## Lines -/

/-- Where the line after the one at `p` starts. -/
def nextLine (content : Bytes) (p : Nat) : Nat :=
  if p < content.length then p + lineLength content p else p

theorem nextLine_of_le (h : content.length ≤ p) : nextLine content p = p := if_neg (by omega)

theorem iterate_nextLine_of_le (h : content.length ≤ p) (n : Nat) : (nextLine content)^[n] p = p :=
  Function.iterate_fixed (nextLine_of_le h) n

theorem skipLines_eq (n p : Nat) : skipLines content n p = (nextLine content)^[n] p := by
  induction n generalizing p with
  | zero => rfl
  | succ n ih =>
    rw [skipLines, Function.iterate_succ_apply]
    by_cases hlt : p < content.length
    · rw [if_pos hlt, nextLine, if_pos hlt, lineLength]
      cases hidx : (content.drop p).idxOf? newline with
      | none => rw [Nat.add_sub_cancel' (Nat.le_of_lt hlt), iterate_nextLine_of_le (Nat.le_refl _)]
      | some next => exact ih _
    · rw [if_neg hlt, nextLine_of_le (by omega), iterate_nextLine_of_le (by omega)]

theorem boundary_lineLength (h : valid content) (hp : p < content.length) :
    0 < lineLength content p ∧ Boundary content (p + lineLength content p) := by
  unfold lineLength
  cases hidx : (content.drop p).idxOf? newline with
  | none =>
    refine ⟨by dsimp only; omega, ?_⟩
    rw [Nat.add_sub_cancel' (Nat.le_of_lt hp)]
    exact boundary_length h
  | some i =>
    obtain ⟨hi, hget, -⟩ := List.idxOf?_eq_some_iff.mp hidx
    rw [length_drop] at hi
    rw [getElem_drop] at hget
    have hnl : content[p + i]? = some newline := by rw [List.getElem?_eq_getElem (by omega), hget]
    exact ⟨Nat.succ_pos _, (boundary_ascii h hnl (by decide)).2⟩

theorem lineLength_le (hp : p < content.length) : p + lineLength content p ≤ content.length := by
  unfold lineLength
  cases hidx : (content.drop p).idxOf? newline with
  | none => dsimp only; omega
  | some i =>
    obtain ⟨hi, -⟩ := List.idxOf?_eq_some_iff.mp hidx
    rw [length_drop] at hi
    dsimp only
    omega

/-! ## Limits -/

theorem legal_getD {limit : Option Int} (default : Nat) {max : Nat}
    (hdefault : 1 ≤ default ∧ default ≤ max)
    (h : ∀ n ∈ limit, 1 ≤ n ∧ n ≤ max) : 1 ≤ limit.getD default ∧ limit.getD default ≤ max := by
  cases limit with
  | none => simp only [Option.getD_none]; omega
  | some n => exact h n rfl

end Tools
