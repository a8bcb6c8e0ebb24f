import Omnara.ModelContext.History

/-!
# Rendered media and the token window (`internal/modelcontext/types.go`, `budget.go`)

Token counts are `int` in the source. Each sum and difference below stays in its range for counts that
do (a window is at least its safety margin), so `Int` loses nothing.
-/

namespace ModelContext

open Json (Bytes)

/-! ## Rendered media -/

inductive MediaOccurrenceOwner
  | unknown | message | toolResult
  deriving DecidableEq

structure MediaOccurrenceRef where
  ownerKind : MediaOccurrenceOwner
  ownerIndex : Int
  partIndex : Int
  deriving DecidableEq

inductive MediaRepresentation
  | inline | inlineText | other (name : Bytes)
  deriving DecidableEq

structure RenderedMedia where
  occurrence : MediaOccurrenceRef
  artifactId : Bytes
  media : ResolvedMedia
  representation : MediaRepresentation
  routeParsed : Bool := false
  tokenEstimate : Int := 0
  deriving DecidableEq

inductive InputModality
  | text | image | file
  deriving DecidableEq

def InputModality.name : InputModality → String
  | .text => "text"
  | .image => "image"
  | .file => "file"

def RenderedMedia.inputModality (m : RenderedMedia) : Option InputModality :=
  match m.media.kind with
  | .image => some .image
  | .document => if m.routeParsed || m.representation = .inlineText then none else some .file
  | .other _ => none

/-! ## The window -/

def defaultImageTokenEstimate : Int := 4784

def defaultBinaryDocumentTokenEstimate : Int := 8192

structure ModelWindow where
  contextTokens : Int
  outputReserveTokens : Int := 0
  safetyMarginTokens : Int
  deriving DecidableEq

def ModelWindow.usableInputTokens (w : ModelWindow) : Int :=
  let usable := w.contextTokens - w.outputReserveTokens - w.safetyMarginTokens
  if usable < 0 then 0 else usable

def defaultSafetyMarginTokens (contextTokens : Int) : Int :=
  if contextTokens ≤ 0 then 0
  else
    let margin := contextTokens / 20
    let margin := if contextTokens ≥ 4096 ∧ margin < 1024 then 1024 else margin
    if margin > 8192 then 8192 else margin

/-- What one piece of media adds to `renderedMediaTokenEstimate`. -/
def RenderedMedia.tokens (m : RenderedMedia) : Int :=
  if m.representation = .inlineText then 0
  else if m.tokenEstimate > 0 then m.tokenEstimate
  else if m.media.kind = .image then defaultImageTokenEstimate
  else defaultBinaryDocumentTokenEstimate

def renderedMediaTokenEstimate (media : List RenderedMedia) : Int := (media.map (·.tokens)).sum

/-- `EstimatePreparedRequest`; `projected` is the body with its inline media replaced
(`preparedRequestWithoutInlineMedia`), of which only the length counts. -/
def estimatePreparedRequest (projected : Bytes) (media : List RenderedMedia) : Int :=
  (projected.length / 4 : Nat) + 1 + renderedMediaTokenEstimate media

/-! ## Bounds -/

theorem RenderedMedia.tokens_nonneg (m : RenderedMedia) : 0 ≤ m.tokens := by
  unfold RenderedMedia.tokens
  split
  · exact Int.le_refl 0
  split
  · omega
  split
  · decide
  · decide

theorem estimatePreparedRequest_pos (projected : Bytes) (media : List RenderedMedia) :
    0 < estimatePreparedRequest projected media := by
  have hmedia : 0 ≤ renderedMediaTokenEstimate media := by
    induction media with
    | nil => exact Int.le_refl 0
    | cons m media ih =>
      rw [renderedMediaTokenEstimate, List.map_cons, List.sum_cons]
      have := m.tokens_nonneg
      rw [renderedMediaTokenEstimate] at ih
      omega
  unfold estimatePreparedRequest
  omega

theorem defaultSafetyMarginTokens_bounds {contextTokens : Int} (h : 0 ≤ contextTokens) :
    0 ≤ defaultSafetyMarginTokens contextTokens ∧
      defaultSafetyMarginTokens contextTokens ≤ contextTokens - contextTokens / 2 := by
  unfold defaultSafetyMarginTokens
  split
  · omega
  dsimp only
  split
  · split
    · omega
    · omega
  · split
    · omega
    · omega

theorem ModelWindow.le_usable_iff {w : ModelWindow} {tokens : Int} (h : 0 < tokens) :
    tokens ≤ w.usableInputTokens ↔
      tokens + w.outputReserveTokens ≤ w.contextTokens - w.safetyMarginTokens := by
  unfold ModelWindow.usableInputTokens
  dsimp only
  split
  · omega
  · omega

end ModelContext
