import Omnara.ModelContext.History

/-!
# Content parts and attachments (`internal/modelcontext/media.go`, `mediatypes.go`)

How the provider requests read the parts of a message or a tool result. The encodings of artifact ids,
of attachments and of quoted names, and the text of a part that is sent as JSON are left open
(`Encodings`).
-/

namespace ModelContext

open Json (Bytes ascii)

structure Encodings where
  artifactPublicId : Bytes → Bytes
  base64 : Bytes → Bytes
  quote : Bytes → Bytes
  /-- `json.Marshal` of a part under its type -/
  payload : Bytes → Fields → Bytes

def plainEncodings : Encodings := ⟨id, id, id, fun _ _ => []⟩

/-- `json.Unmarshal` into a `map[string]json.RawMessage`. -/
def partFields (raw : Bytes) : Option Fields := (Json.unmarshalRawObject raw).map (·.getD [])

/-- `json.Unmarshal` into a `[]map[string]json.RawMessage`. -/
def contentParts (raw : Bytes) : Option (List Fields) :=
  (Json.unmarshalRawArray raw).bind fun blocks => (blocks.getD []).mapM partFields

/-- The parts of content blocks that `json.Marshal` has put into an array, `none` if one of them is no
JSON. Their texts are compacted, which shows only where the text of a value is written out. -/
def marshalledParts (raws : List Bytes) : Option (Option (List Fields)) :=
  if raws.all Json.checkValid then some (raws.mapM partFields) else none

/-- `jsonFieldText` of a field. -/
def jsonFieldText (part : Fields) (name : String) : Bytes :=
  match Json.lookup part (ascii name) with
  | none => []
  | some raw => (Json.unmarshalString raw).getD []

def mediaRefText (enc : Encodings) (part : Fields) : Bytes :=
  match (Json.lookup part (ascii "artifact_id")).bind Json.unmarshalString with
  | none | some [] => []
  | some artifactId =>
    ascii "A prior attachment with artifact ID " ++ enc.artifactPublicId artifactId ++
      ascii " is not included in the current model context."

def isTextDocumentMediaType (mediaType : Bytes) : Bool :=
  ["text/plain", "text/markdown", "text/csv", "text/tab-separated-values", "text/x-iif"].any
    (ascii · = mediaType)

/-- `attachmentMediaTypes`: the media types with the extension of their files. -/
def attachmentExtensions : List (String × String) :=
  [("image/png", ".png"), ("image/jpeg", ".jpg"), ("image/gif", ".gif"), ("image/webp", ".webp"),
    ("application/pdf", ".pdf"), ("text/plain", ".txt"), ("text/markdown", ".md"),
    ("text/csv", ".csv"), ("text/tab-separated-values", ".tsv"), ("text/x-iif", ".iif"),
    ("application/msword", ".doc"), ("application/rtf", ".rtf"),
    ("application/vnd.oasis.opendocument.text", ".odt"), ("application/vnd.apple.pages", ".pages"),
    ("application/vnd.apple.keynote", ".key"), ("application/vnd.apple.iwork", ".iwork"),
    ("application/vnd.ms-powerpoint", ".ppt"), ("application/vnd.ms-excel", ".xls"),
    ("application/vnd.openxmlformats-officedocument.wordprocessingml.document", ".docx"),
    ("application/vnd.openxmlformats-officedocument.presentationml.presentation", ".pptx"),
    ("application/vnd.openxmlformats-officedocument.spreadsheetml.sheet", ".xlsx")]

/-- The media type is that of an attachment (`AttachmentKindForMediaType`). -/
def isAttachmentMedia (mediaType : Bytes) : Bool :=
  attachmentExtensions.any (ascii ·.1 = mediaType)

def mediaFilename (filename mediaType : Bytes) : Bytes :=
  if filename ≠ [] then filename
  else match attachmentExtensions.find? (ascii ·.1 = mediaType) with
    | some (_, extension) => ascii "attachment" ++ ascii extension
    | none => ascii "attachment"

end ModelContext
