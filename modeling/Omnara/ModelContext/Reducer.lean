import Omnara.Lib.Runes

/-!
# The reduction of tool outputs (`internal/modelcontext/reducers.go`)

`ToolOutputReducer` replaces an output that is longer than its limit by one text part with the head and
the tail of the output around a notice. How that part is encoded is the parameter `marshalJSON`. The limit
is smaller than the length of a slice, so three times the limit does not overflow.
-/

namespace ModelContext

open Json (Bytes ascii)
open Text

def validUTF8PrefixEnd (value : Bytes) (limit : Nat) : Nat :=
  if limit ≥ value.length then value.length else startBefore value 0 limit

def validUTF8SuffixStart (value : Bytes) (start : Nat) : Nat :=
  if start ≤ 0 then 0 else startAfter value (value.length - start) start

/-- The part that is written; its type is `text`, it says `reduced` and the version
`tool-output-head-tail-v1`. -/
structure ReducedPart where
  text : Bytes
  originalBytes : Nat
  previewBytes : Nat
  omittedBytes : Int

def reducedPart (parts : Bytes) (limit : Nat) : ReducedPart :=
  let headBytes := limit * 3 / 4
  let tailBytes := limit - headBytes
  let headEnd := validUTF8PrefixEnd parts headBytes
  let tailStart := validUTF8SuffixStart parts (parts.length - tailBytes)
  let omittedBytes : Int := tailStart - headEnd
  let preview := parts.take headEnd ++ ascii "\n[... omitted " ++ formatInt omittedBytes ++
    ascii " bytes from completed " ++ ascii "tool output ...]\n" ++ parts.drop tailStart
  ⟨preview, parts.length, preview.length, omittedBytes⟩

/-- `ToolOutputReducer.Reduce`. -/
def reduce {ε : Type} (marshalJSON : ReducedPart → Except ε Bytes) (previewBytes : Int)
    (parts : Bytes) : Except ε Bytes :=
  if previewBytes ≤ 0 ∨ parts.length ≤ previewBytes then .ok parts
  else marshalJSON (reducedPart parts previewBytes.toNat)

/-- **A reduced output is shorter, and the text of its source.** An output is handed on as it is, or it
is longer than the limit and its head and its tail are kept: they do not overlap, take no more bytes than
the limit, leave out as many as the part says, at least one, and are valid text if the output is. -/
theorem reduce_truncated {ε : Type} (marshalJSON : ReducedPart → Except ε Bytes) (previewBytes : Int)
    (parts : Bytes) :
    (previewBytes ≤ 0 ∨ parts.length ≤ previewBytes) ∧ reduce marshalJSON previewBytes parts = .ok parts ∨
    ∃ headEnd tailStart : Nat, ∃ part : ReducedPart,
      reduce marshalJSON previewBytes parts = marshalJSON part ∧
      part.text = parts.take headEnd ++ ascii "\n[... omitted " ++ formatInt part.omittedBytes ++
        ascii " bytes from completed " ++ ascii "tool output ...]\n" ++ parts.drop tailStart ∧
      part.originalBytes = parts.length ∧ part.previewBytes = part.text.length ∧
      headEnd ≤ tailStart ∧ tailStart ≤ parts.length ∧
      part.omittedBytes = (parts.length : Int) - headEnd - (parts.length - tailStart) ∧
      0 < part.omittedBytes ∧ (headEnd : Int) + (parts.length - tailStart) ≤ previewBytes ∧
      (valid parts → valid (parts.take headEnd) ∧ valid (parts.drop tailStart)) := by
  by_cases hshort : previewBytes ≤ 0 ∨ parts.length ≤ previewBytes
  · exact .inl ⟨hshort, if_pos hshort⟩
  right
  obtain ⟨limit, rfl⟩ : ∃ limit : Nat, previewBytes = limit := ⟨previewBytes.toNat, by omega⟩
  have hhead : validUTF8PrefixEnd parts (limit * 3 / 4) = startBefore parts 0 (limit * 3 / 4) :=
    if_neg (by omega)
  have htail : validUTF8SuffixStart parts (parts.length - (limit - limit * 3 / 4)) =
      startAfter parts (limit - limit * 3 / 4) (parts.length - (limit - limit * 3 / 4)) := by
    rw [validUTF8SuffixStart, if_neg (by omega), Nat.sub_sub_self (by omega)]
  obtain ⟨-, hback, hstart, -⟩ := startBefore_spec parts (Nat.zero_le (limit * 3 / 4))
  obtain ⟨hforth, hlast, hstop⟩ := startAfter_spec parts (limit - limit * 3 / 4)
    (parts.length - (limit - limit * 3 / 4))
  rw [← hhead] at hback hstart
  rw [← htail] at hforth hlast hstop
  refine ⟨_, _, reducedPart parts limit, if_neg hshort, rfl, rfl, rfl, by omega, by omega, ?_, ?_,
    by omega, fun hval => ?_⟩
  · show (_ : Int) - _ = _
    omega
  · show 0 < (_ : Int) - _
    omega
  · have hcut : Boundary parts (validUTF8PrefixEnd parts (limit * 3 / 4)) := by
      rcases hstart with hzero | hstart
      · exact hzero ▸ boundary_zero parts
      · exact boundary_of_runeStart hval (by omega) hstart
    refine ⟨hcut.valid, Boundary.valid_drop ?_ hval⟩
    rcases hstop with hend | hstop
    · rw [hend, Nat.sub_add_cancel (by omega)]
      exact boundary_length hval
    · exact boundary_of_runeStart hval (by omega) hstop

end ModelContext
