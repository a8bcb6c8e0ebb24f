import Omnara.Lib.Blocks
import Omnara.Lib.Json

/-!
# Names of MCP tools

`internal/toolcatalog/mcp_names.go`: the runtime name of a tool is `mcp__`, the key of its server, `__`
and its name there. Keys have no underscore, so the first `__` after the lead ends the key, and a name
that is accepted is the name of one pair.
-/

namespace Catalog

open List

open Json (Bytes ascii isDigit)

def mcpToolNameSeparator : Bytes := ascii "__"

def maxMCPRuntimeToolNameLength : Nat := 64

def mcpRuntimeToolPrefix : Bytes := ascii "mcp__"

def isLetter (c : UInt8) : Bool := 65 ≤ c && c ≤ 90 || 97 ≤ c && c ≤ 122

def keyChar (c : UInt8) : Bool := isLetter c || isDigit c || c = 45

def nameChar (c : UInt8) : Bool := keyChar c || c = 95

/-- The pattern `^[a-zA-Z][class]{0,max}$`. -/
def matchesPattern (char : UInt8 → Bool) (max : Nat) : Bytes → Bool
  | [] => false
  | c :: rest => isLetter c && rest.all char && rest.length ≤ max

def mcpRuntimeToolName (serverKey remoteName : Bytes) : Bytes :=
  mcpRuntimeToolPrefix ++ serverKey ++ mcpToolNameSeparator ++ remoteName

inductive McpNameError
  | serverKeyRequired
  | serverKeyPattern (serverKey : Bytes)
  | toolNameRequired
  | toolNamePattern (remoteName : Bytes)
  | tooLong (serverKey remoteName : Bytes)
deriving DecidableEq

def validateMCPRuntimeToolName (serverKey remoteName : Bytes) : Except McpNameError Unit :=
  if serverKey = [] then .error .serverKeyRequired
  else if !matchesPattern keyChar 31 serverKey then .error (.serverKeyPattern serverKey)
  else if remoteName = [] then .error .toolNameRequired
  else if !matchesPattern nameChar 63 remoteName then .error (.toolNamePattern remoteName)
  else if (mcpRuntimeToolName serverKey remoteName).length > maxMCPRuntimeToolNameLength then
    .error (.tooLong serverKey remoteName)
  else .ok ()

def splitMCPRuntimeToolName (name : Bytes) : Option (Bytes × Bytes) :=
  if !mcpRuntimeToolPrefix.isPrefixOf name then none
  else
    -- `strings.Cut` at the first `__`
    match Blocks.cut 95 (name.drop mcpRuntimeToolPrefix.length) with
    | none => none
    | some (serverKey, remoteName) =>
      if serverKey = [] ∨ remoteName = [] then none
      else match validateMCPRuntimeToolName serverKey remoteName with
        | .ok _ => some (serverKey, remoteName)
        | .error _ => none

variable {serverKey remoteName : Bytes}

theorem mem_of_matchesPattern {char : UInt8 → Bool} {max : Nat} {text : Bytes}
    (hletter : ∀ c, isLetter c → char c) (h : matchesPattern char max text) :
    ∀ c ∈ text, char c := by
  cases text with
  | nil => simp
  | cons c rest =>
    simp only [matchesPattern, Bool.and_eq_true, all_eq_true] at h
    exact forall_mem_cons.mpr ⟨hletter c h.1.1, h.1.2⟩

theorem validate_ok (h : validateMCPRuntimeToolName serverKey remoteName = .ok ()) :
    serverKey ≠ [] ∧ remoteName ≠ [] ∧ (∀ c ∈ serverKey, keyChar c) ∧ (∀ c ∈ remoteName, nameChar c) ∧
      (mcpRuntimeToolName serverKey remoteName).length ≤ maxMCPRuntimeToolNameLength := by
  simp only [validateMCPRuntimeToolName, Bool.not_eq_true', ite_eq_iff, reduceCtorEq, and_false,
    false_or, Bool.not_eq_false, gt_iff_lt, Nat.not_lt, and_true] at h
  obtain ⟨hkey, hkeys, hname, hnames, hlength⟩ := h
  have hletter : ∀ c, isLetter c → keyChar c := fun c hc => by simp [keyChar, hc]
  exact ⟨hkey, hname, mem_of_matchesPattern hletter hkeys,
    mem_of_matchesPattern (fun c hc => by simp [nameChar, hletter c hc]) hnames, hlength⟩

/-- **An accepted name is the name of one pair.** -/
theorem splitMCPRuntimeToolName_iff {name : Bytes} :
    splitMCPRuntimeToolName name = some (serverKey, remoteName) ↔
      validateMCPRuntimeToolName serverKey remoteName = .ok () ∧
        mcpRuntimeToolName serverKey remoteName = name := by
  unfold splitMCPRuntimeToolName
  constructor
  · intro h
    obtain ⟨hlead, h⟩ := Option.ite_none_left_eq_some.mp h
    obtain ⟨rest, rfl⟩ : mcpRuntimeToolPrefix <+: name := by simpa using hlead
    rw [drop_left] at h
    split at h
    · cases h
    rename_i key remote hcut
    obtain ⟨-, h⟩ := Option.ite_none_left_eq_some.mp h
    split at h
    · rename_i hvalid
      cases h
      refine ⟨hvalid, ?_⟩
      rw [mcpRuntimeToolName, append_assoc, append_assoc, Blocks.cut_eq_some hcut]
      rfl
    · cases h
  · rintro ⟨hvalid, rfl⟩
    obtain ⟨hkey, hname, hchars, -⟩ := validate_ok hvalid
    have hmem : 95 ∉ serverKey := fun hmem => absurd (hchars 95 hmem) (by decide)
    have hcut : Blocks.cut 95 ((mcpRuntimeToolName serverKey remoteName).drop
        mcpRuntimeToolPrefix.length) = some (serverKey, remoteName) := by
      rw [mcpRuntimeToolName, append_assoc, append_assoc, drop_left]
      exact Blocks.cut_of_not_mem hmem remoteName
    have hlead : mcpRuntimeToolPrefix.isPrefixOf (mcpRuntimeToolName serverKey remoteName) := by
      simp [mcpRuntimeToolName]
    rw [if_neg (by simp [hlead]), hcut]
    simp [hkey, hname, hvalid]

/-- **Names of MCP tools are unambiguous**: splitting undoes joining for every valid pair, joining undoes
splitting for every accepted name, joining is injective on valid pairs, and a joined name has at most 64
of the allowed characters. -/
theorem mcpRuntimeToolName_unambiguous :
    (∀ serverKey remoteName, validateMCPRuntimeToolName serverKey remoteName = .ok () →
      splitMCPRuntimeToolName (mcpRuntimeToolName serverKey remoteName) = some (serverKey, remoteName)) ∧
    (∀ name serverKey remoteName, splitMCPRuntimeToolName name = some (serverKey, remoteName) →
      mcpRuntimeToolName serverKey remoteName = name) ∧
    (∀ serverKey remoteName serverKey' remoteName',
      validateMCPRuntimeToolName serverKey remoteName = .ok () →
      validateMCPRuntimeToolName serverKey' remoteName' = .ok () →
      mcpRuntimeToolName serverKey remoteName = mcpRuntimeToolName serverKey' remoteName' →
      serverKey = serverKey' ∧ remoteName = remoteName') ∧
    ∀ serverKey remoteName, validateMCPRuntimeToolName serverKey remoteName = .ok () →
      (mcpRuntimeToolName serverKey remoteName).length ≤ 64 ∧
        ∀ c ∈ mcpRuntimeToolName serverKey remoteName, nameChar c := by
  refine ⟨fun _ _ h => splitMCPRuntimeToolName_iff.mpr ⟨h, rfl⟩,
    fun _ _ _ h => (splitMCPRuntimeToolName_iff.mp h).2, fun key name key' name' h h' heq => ?_,
    fun key name h => ?_⟩
  · have hsplit := splitMCPRuntimeToolName_iff.mpr ⟨h, heq⟩
    rw [splitMCPRuntimeToolName_iff.mpr ⟨h', rfl⟩] at hsplit
    simpa using hsplit.symm
  · obtain ⟨-, -, hkey, hname, hlength⟩ := validate_ok h
    have hfixed : ∀ c ∈ mcpRuntimeToolPrefix ++ mcpToolNameSeparator, nameChar c := by decide +kernel
    refine ⟨hlength, fun c hc => ?_⟩
    simp only [mcpRuntimeToolName, mem_append] at hc
    rcases hc with ((hc | hc) | hc) | hc
    · exact hfixed c (mem_append_left _ hc)
    · simp [nameChar, hkey c hc]
    · exact hfixed c (mem_append_right _ hc)
    · exact hname c hc

theorem mcpRuntimeToolName_unambiguous_github :
    validateMCPRuntimeToolName (ascii "github") (ascii "create__issue") = .ok () ∧
      splitMCPRuntimeToolName (ascii "mcp__github__create__issue") =
        some (ascii "github", ascii "create__issue") ∧
      ∀ serverKey remoteName, validateMCPRuntimeToolName serverKey remoteName = .ok () →
        mcpRuntimeToolName serverKey remoteName = ascii "mcp__github__create__issue" →
        serverKey = ascii "github" ∧ remoteName = ascii "create__issue" := by
  have hvalid : validateMCPRuntimeToolName (ascii "github") (ascii "create__issue") = .ok () := by
    decide +kernel
  obtain ⟨hsplit, -, hinjective, -⟩ := mcpRuntimeToolName_unambiguous
  exact ⟨hvalid, hsplit _ _ hvalid, fun _ _ h heq => hinjective _ _ _ _ h hvalid heq⟩

end Catalog
