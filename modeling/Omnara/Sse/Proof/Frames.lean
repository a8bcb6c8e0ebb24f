import Omnara.Sse.Frames

/-!
# The parser yields what was written, however the text is cut

`Reads p text messages`: after the characters `text`, in whatever chunks, the parser holds the
unfinished block of the normalized text, and has yielded the messages of its blocks. A push keeps it
(`push_reads`), so the yield is a function of the text (`pushAll_reads`). What the server writes is a
sequence of blocks of non-empty lines (`Item.write_eq`), which read back as the data of the frames.
-/

namespace Sse

open Blocks List

/-! ## Line ends -/

variable {text : Text}

theorem normalize_of_ne {c : Char} (h : c ≠ '\r') (cs : Text) :
    normalize (c :: cs) = c :: normalize cs := by
  rw [normalize]
  · rintro cs' rfl
    exact absurd rfl h
  · rintro rfl
    exact absurd rfl h

theorem normalize_cr {cs : Text} (h : cs.head? ≠ some '\n') :
    normalize ('\r' :: cs) = '\n' :: normalize cs := by
  rw [normalize]
  rintro cs' rfl
  exact absurd rfl h

/-- A text that goes on: a line feed right after a carriage return belongs to it. -/
theorem normalize_append (xs ys : Text) :
    normalize (xs ++ ys) = normalize xs ++
      normalize (if xs.getLast? = some '\r' ∧ ys.head? = some '\n' then ys.tail else ys) := by
  fun_induction normalize xs with
  | case1 cs ih =>
    rw [cons_append, cons_append, normalize, ih, cons_append]
    cases cs <;> simp
  | case2 cs hcs ih =>
    cases cs with
    | nil =>
      by_cases hys : ys.head? = some '\n'
      · obtain ⟨tail, rfl⟩ := List.head?_eq_some_iff.mp hys
        simp [normalize]
      · simp [normalize_cr hys, hys, normalize]
    | cons c cs =>
      have hc : c ≠ '\n' := by
        rintro rfl
        exact hcs cs rfl
      rw [cons_append, normalize_cr (by simpa using hc), ih, cons_append]
      simp
  | case3 c cs hcs hc ih =>
    have hne : c ≠ '\r' := by
      rintro rfl
      exact hc rfl
    rw [cons_append, normalize_of_ne hne, ih, cons_append]
    cases cs <;> simp [hne]
  | case4 => simp

theorem normalize_of_not_mem (h : '\r' ∉ text) : normalize text = text := by
  induction text with
  | nil => rfl
  | cons c cs ih =>
    rw [mem_cons, not_or] at h
    rw [normalize_of_ne (Ne.symm h.1), ih h.2]

/-- The two replacements of the writer are one normalization. -/
theorem replaceCR_replaceCRLF (data : Text) : replaceCR (replaceCRLF data) = normalize data := by
  fun_induction normalize data with
  | case1 cs ih =>
    rw [replaceCRLF]
    simpa [replaceCR] using ih
  | case2 cs hcs ih =>
    rw [replaceCRLF]
    · simpa [replaceCR] using ih
    · rintro cs' - rfl
      exact hcs cs' rfl
  | case3 c cs hcs hc ih =>
    have hne : c ≠ '\r' := by
      rintro rfl
      exact hc rfl
    rw [replaceCRLF]
    · simpa [replaceCR, hne] using ih
    · rintro cs' rfl
      exact absurd rfl hne
  | case4 => rfl

theorem not_mem_normalize (data : Text) : '\r' ∉ normalize data := by
  rw [← replaceCR_replaceCRLF, replaceCR, mem_map]
  rintro ⟨c, -, hc⟩
  split at hc
  · exact absurd hc (by decide)
  · rename_i hne
    exact hne hc

/-! ## One push -/

/-- The last part is not empty, so its last character is that of the whole message in progress. -/
def LastNonempty (parts : List Text) : Prop := ∀ last ∈ parts.getLast?, last ≠ []

theorem lastNonempty_concat (parts : List Text) {last : Text} (h : last ≠ []) :
    LastNonempty (parts ++ [last]) := by
  intro l hl
  rw [List.getLast?_concat] at hl
  cases hl
  exact h

theorem scanMessages_eq :
    ∀ (fuel : Nat) (parts : List Text) (text : Text), text.length < fuel →
      (parts.flatten.getLast? = some '\n' → text.head? ≠ some '\n') →
      (text = [] → LastNonempty parts) →
      (scanMessages fuel parts text).1.flatten = (feed '\n' parts.flatten text).1 ∧
        (scanMessages fuel parts text).2 = (feed '\n' parts.flatten text).2.filterMap messageData ∧
        LastNonempty (scanMessages fuel parts text).1 := by
  intro fuel
  induction fuel with
  | zero =>
    intro parts text hfuel
    exact absurd hfuel (Nat.not_lt_zero _)
  | succ fuel ih =>
    intro parts text hfuel hopen hlast
    rw [scanMessages, feed_of_cut hopen]
    cases hcut : cut '\n' text with
    | none =>
      by_cases htext : text = []
      · simp [htext, hlast htext]
      · simpa [htext] using lastNonempty_concat parts htext
    | some p =>
      obtain ⟨before, after⟩ := p
      have hsh := cut_length hcut
      obtain ⟨hrest, hmsgs, hnext⟩ := ih [] after (by omega) (by simp) (by simp [LastNonempty])
      refine ⟨hrest, ?_, hnext⟩
      show (messageData (parts.flatten ++ before)).toList ++ (scanMessages fuel [] after).2 = _
      rw [hmsgs, filterMap_cons]
      cases messageData (parts.flatten ++ before) <;> simp

structure Reads (p : Parser) (text : Text) (messages : List Text) : Prop where
  pending : p.pendingCarriageReturn = decide (text.getLast? = some '\r')
  parts : p.parts.flatten = (feed '\n' [] (normalize text)).1
  last : LastNonempty p.parts
  messages_eq : messages = (feed '\n' [] (normalize text)).2.filterMap messageData

theorem reads_nil : Reads {} [] [] where
  pending := rfl
  parts := rfl
  last := by simp [LastNonempty]
  messages_eq := rfl

/-- What `push` scans: the unfinished block with a line end at its end moved to the text. -/
theorem feed_moved {parts : List Text} (hlast : LastNonempty parts)
    (hopen : ¬ ['\n', '\n'] <:+ parts.flatten) (text : Text) :
    ∃ parts' text', moveLineEnd parts text = (parts', text') ∧
      feed '\n' parts'.flatten text' = feed '\n' parts.flatten text ∧
      parts'.flatten.getLast? ≠ some '\n' ∧ (text' = [] → LastNonempty parts') := by
  unfold moveLineEnd
  cases hpts : parts.getLast? with
  | none =>
    obtain rfl := List.getLast?_eq_none_iff.mp hpts
    exact ⟨[], text, rfl, rfl, by simp, fun _ => hlast⟩
  | some last =>
    obtain ⟨front, rfl⟩ := List.getLast?_eq_some_iff.mp hpts
    have hne : last ≠ [] := hlast last hpts
    have hend : (front ++ [last]).flatten.getLast? = last.getLast? := by
      rw [flatten_append, flatten_singleton, List.getLast?_append,
        List.getLast?_eq_some_getLast hne]
      rfl
    by_cases hnl : last.getLast? = some '\n'
    · obtain ⟨body, rfl⟩ := List.getLast?_eq_some_iff.mp hnl
      -- the block does not end with an empty line, so no line end is left before the moved one
      have hbef : (front ++ [body]).flatten.getLast? ≠ some '\n' := by
        intro hagain
        obtain ⟨rest, hrest⟩ := List.getLast?_eq_some_iff.mp hagain
        apply hopen
        refine ⟨rest, ?_⟩
        simp only [flatten_append, flatten_singleton] at hrest ⊢
        rw [← append_assoc, hrest]
        simp
      refine ⟨front ++ [body], '\n' :: text, by simp, ?_, hbef, by simp⟩
      rw [feed_cons text fun _ => hbef]
      simp
    · refine ⟨front ++ [last], text, by simp [hnl], rfl, ?_, fun _ => hlast⟩
      rw [hend]
      exact hnl

theorem push_reads {p : Parser} {messages : List Text} (h : Reads p text messages) (chunk : Text) :
    Reads (p.push chunk).1 (text ++ chunk) (messages ++ (p.push chunk).2) := by
  by_cases hchunk : chunk = []
  · subst hchunk
    simpa [Parser.push] using h
  set fresh : Text := normalize (if text.getLast? = some '\r' ∧ chunk.head? = some '\n'
    then chunk.tail else chunk) with hfr
  have hopen : ¬ ['\n', '\n'] <:+ p.parts.flatten := by
    rw [h.parts]
    exact feed_open _ _ (by simp)
  obtain ⟨parts, rest, hmoved, hfeed, hend, hlast⟩ := feed_moved h.last hopen fresh
  obtain ⟨hpts, hmsgs, hnonempty⟩ :=
    scanMessages_eq (rest.length + 1) parts rest (by omega) (fun hc => absurd hc hend) hlast
  have hpush : p.push chunk =
      (⟨(scanMessages (rest.length + 1) parts rest).1, decide (chunk.getLast? = some '\r')⟩,
        (scanMessages (rest.length + 1) parts rest).2) := by
    unfold Parser.push
    rw [if_neg hchunk]
    simp only [h.pending, decide_eq_true_eq, ← hfr, hmoved]
  have hread : feed '\n' [] (normalize (text ++ chunk)) = ((feed '\n' p.parts.flatten fresh).1,
        (feed '\n' [] (normalize text)).2 ++ (feed '\n' p.parts.flatten fresh).2) := by
    rw [normalize_append, ← hfr, feed_append, h.parts]
  rw [hpush]
  exact
    { pending := by
        obtain ⟨c, hc⟩ := Option.ne_none_iff_exists'.mp (mt List.getLast?_eq_none_iff.mp hchunk)
        simp [List.getLast?_append, hc]
      parts := by rw [hread, hpts, hfeed]
      last := hnonempty
      messages_eq := by
        rw [hread, hmsgs, hfeed, h.messages_eq, filterMap_append] }

theorem pushAll_reads : ∀ (chunks : List Text) {p : Parser} {text : Text} {messages : List Text},
    Reads p text messages →
      Reads (p.pushAll chunks).1 (text ++ chunks.flatten) (messages ++ (p.pushAll chunks).2)
  | [], p, text, messages, h => by simpa [Parser.pushAll] using h
  | chunk :: chunks, p, text, messages, h => by
    have := pushAll_reads chunks (push_reads h chunk)
    simpa [Parser.pushAll] using this

/-- **The yield is a function of the text**: the messages of its blocks. -/
theorem messagesOf_eq (chunks : List Text) :
    messagesOf chunks = (feed '\n' [] (normalize chunks.flatten)).2.filterMap messageData := by
  simpa [messagesOf] using (pushAll_reads chunks reads_nil).messages_eq

/-! ## What the server writes -/

def field (name : String) (value : Text) : Text := name.toList ++ [':', ' '] ++ value

def Item.lines : Item → List Text
  | .frame eventName id data =>
    (if id ≠ [] then [field "id" id] else []) ++
      (if eventName ≠ [] then [field "event" eventName] else []) ++
        ((normalize data).splitOn '\n').map (field "data")
  | .comment line more => (line :: more).map (':' :: ·)

/-- The message of an item: the data of a frame with its line ends normalized. -/
def Item.message : Item → Option Text
  | .frame _ _ data => some (normalize data)
  | .comment _ _ => none

theorem containsAny_eq_false {s : Text} {chars : List Char} (h : containsAny s chars = false)
    {c : Char} (hc : c ∈ chars) : c ∉ s := by
  intro hs
  have := any_eq_false.mp h c hs
  simp [hc] at this

theorem fieldLine_eq (name : String) (value : Text) :
    fieldLine name value = field name value ++ ['\n'] := rfl

theorem lines_ne_nil (item : Item) : item.lines ≠ [] := by
  cases item with
  | frame eventName id data =>
    have : (normalize data).splitOn '\n' ≠ [] := splitOnP_ne_nil _ _
    simp [Item.lines, this]
  | comment line more => simp [Item.lines]

/-- The text of a frame, with the lines of its data in one piece or line by line. -/
theorem writeSSEFrame_eq {eventName id data : Text}
    (h : writeSSEFrame eventName id data = some text) :
    text = unlines '\n' (Item.frame eventName id data).lines ++ ['\n'] ∧
      '\n' ∉ eventName ∧ '\r' ∉ eventName ∧ '\n' ∉ id ∧ '\r' ∉ id := by
  unfold writeSSEFrame at h
  split at h
  · cases h
  rename_i hname
  rw [Bool.or_eq_true, not_or, Bool.not_eq_true, Bool.not_eq_true] at hname
  refine ⟨?_, containsAny_eq_false hname.1 (by simp), containsAny_eq_false hname.1 (by simp),
    containsAny_eq_false hname.2 (by simp), containsAny_eq_false hname.2 (by simp)⟩
  have hlines : ∀ lines : List Text, lines.flatMap (fieldLine "data") =
      unlines '\n' (lines.map (field "data")) := by
    intro lines
    rw [unlines, flatMap_map]
    rfl
  have hhead : (if id ≠ [] then fieldLine "id" id else []) ++
      (if eventName ≠ [] then fieldLine "event" eventName else []) =
        unlines '\n' ((if id ≠ [] then [field "id" id] else []) ++
          (if eventName ≠ [] then [field "event" eventName] else [])) := by
    split <;> split <;> simp [unlines, fieldLine_eq]
  rw [Item.lines, unlines_append, ← hlines, ← hhead]
  dsimp only at h
  split at h
  · rename_i hdata
    rw [Bool.not_eq_true'] at hdata
    have hone : (normalize data).splitOn '\n' = [data] := by
      rw [normalize_of_not_mem (containsAny_eq_false hdata (by simp)), List.splitOn,
        splitOnP_eq_singleton]
      intro c hc
      rw [beq_eq_false_iff_ne]
      rintro rfl
      exact containsAny_eq_false hdata (by simp) hc
    rw [hone]
    simpa using (Option.some.inj h).symm
  · rw [replaceCR_replaceCRLF] at h
    exact (Option.some.inj h).symm

/-- **What an item writes** is a block of lines that are not empty and have no line end inside. -/
theorem Item.write_eq {item : Item} (h : item.write = some text) :
    text = unlines '\n' item.lines ++ ['\n'] ∧ ∀ l ∈ item.lines, l ≠ [] ∧ '\n' ∉ l ∧ '\r' ∉ l := by
  cases item with
  | frame eventName id data =>
    obtain ⟨htext, hname, hname', hid, hid'⟩ := writeSSEFrame_eq h
    refine ⟨htext, ?_⟩
    intro l hl
    simp only [Item.lines, mem_append, mem_map] at hl
    rcases hl with (hl | hl) | ⟨line, hline, rfl⟩
    · split at hl
      · obtain rfl := mem_singleton.mp hl
        simp [field, hid, hid']
      · cases hl
    · split at hl
      · obtain rfl := mem_singleton.mp hl
        simp [field, hname, hname']
      · cases hl
    · obtain ⟨hnl, hsub⟩ := mem_splitOn hline
      have hcr : '\r' ∉ line := fun hmem => not_mem_normalize data (hsub hmem)
      simp [field, hnl, hcr]
  | comment line more =>
    rw [Item.write] at h
    split at h
    · cases h
    rename_i hlines
    rw [Bool.not_eq_true, any_eq_false] at hlines
    refine ⟨?_, ?_⟩
    · rw [← Option.some.inj h]
      simp [commentBlock, Item.lines, unlines, flatMap_map]
    · intro l hl
      obtain ⟨body, hbody, rfl⟩ := mem_map.mp hl
      have hfree := Bool.not_eq_true _ ▸ hlines body hbody
      simp [containsAny_eq_false hfree (show '\n' ∈ ['\r', '\n'] by simp),
        containsAny_eq_false hfree (show '\r' ∈ ['\r', '\n'] by simp)]

theorem messageLine_data (value : Text) : messageLine (field "data" value) = some value := by
  have hpre : "data:".toList <+: field "data" value := ⟨' ' :: value, rfl⟩
  rfl

theorem messageLine_other {line : Text} (h : line.head? ≠ some 'd') : messageLine line = none := by
  rw [messageLine, if_pos]
  refine ⟨?_, ?_⟩
  · rintro rfl
    exact h rfl
  · rintro ⟨rest, rfl⟩
    exact h rfl

theorem messageData_lines {item : Item} (hnl : ∀ l ∈ item.lines, '\n' ∉ l) :
    messageData (['\n'].intercalate item.lines) = item.message := by
  unfold messageData
  rw [splitOn_intercalate '\n' hnl (lines_ne_nil item)]
  cases item with
  | frame eventName id data =>
    have hoth : ((if id ≠ [] then [field "id" id] else []) ++
        (if eventName ≠ [] then [field "event" eventName] else [])).filterMap messageLine = [] := by
      rw [filterMap_eq_nil_iff]
      intro l hl
      apply messageLine_other
      rcases mem_append.mp hl with hl | hl
      all_goals
        split at hl
        · obtain rfl := mem_singleton.mp hl
          simp [field]
        · cases hl
    have hdata : (((normalize data).splitOn '\n').map (field "data")).filterMap messageLine =
        (normalize data).splitOn '\n' := by
      rw [filterMap_map]
      have : messageLine ∘ field "data" = some := funext messageLine_data
      rw [this, filterMap_some]
    have hne : (normalize data).splitOn '\n' ≠ [] := splitOnP_ne_nil _ _
    rw [Item.lines, filterMap_append, hoth, hdata, nil_append, Item.message]
    rw [if_neg (by simp [hne]), intercalate_splitOn]
  | comment line more =>
    have hnone : ((line :: more).map (':' :: ·)).filterMap messageLine = [] := by
      rw [filterMap_eq_nil_iff]
      intro l hl
      apply messageLine_other
      obtain ⟨body, -, rfl⟩ := mem_map.mp hl
      simp
    rw [Item.lines, hnone]
    rfl

theorem feed_writeAll : ∀ {items : List Item} {text : Text}, writeAll items = some text →
    '\r' ∉ text ∧ (feed '\n' [] text).2.filterMap messageData = items.filterMap Item.message
  | [], text, h => by
    cases h
    simp [feed]
  | item :: items, text, h => by
    rw [writeAll] at h
    split at h
    · rename_i first rest hfst hrest
      cases h
      obtain ⟨htext, hlines⟩ := Item.write_eq hfst
      obtain ⟨hcr, hmsgs⟩ := feed_writeAll hrest
      refine ⟨?_, ?_⟩
      · rw [mem_append, not_or]
        refine ⟨?_, hcr⟩
        rw [htext]
        simp only [unlines, mem_append, mem_flatMap, mem_singleton, not_or, not_exists, not_and]
        refine ⟨fun l hl => ⟨(hlines l hl).2.2, by decide⟩, by decide⟩
      · rw [htext, append_assoc, singleton_append,
          feed_lines (lines_ne_nil item) (fun l hl => (hlines l hl).1) fun l hl => (hlines l hl).2.1,
          filterMap_cons, messageData_lines fun l hl => (hlines l hl).2.1, hmsgs,
          filterMap_cons]
    · cases h

/-! ## The round trip -/

/-- **Writer and parser agree.** For every sequence of frames `writeSSEFrame` accepts and of comments
between them, and every way to cut the text into chunks, the parser yields the data of the frames with
line ends normalized. For any text at all, the yield does not depend on the cuts. -/
theorem messages_roundTrip : (∀ (items : List Item) (text : Text), writeAll items = some text →
      ∀ chunks : List Text, chunks.flatten = text →
        messagesOf chunks = items.filterMap Item.message) ∧
    ∀ chunks chunks' : List Text, chunks.flatten = chunks'.flatten →
      messagesOf chunks = messagesOf chunks' := by
  refine ⟨?_, ?_⟩
  · intro items text hwrite chunks hchunks
    obtain ⟨hcr, hmessages⟩ := feed_writeAll hwrite
    rw [messagesOf_eq, hchunks, normalize_of_not_mem hcr, hmessages]
  · intro chunks chunks' h
    rw [messagesOf_eq, messagesOf_eq, h]

/-- Two frames and a heartbeat in three chunks. -/
theorem messages_roundTrip_heartbeat :
    messagesOf ["id: 7\ndata: a\n".toList, "data: b\n\n: heartbeat\n".toList,
      "\nevent: x\ndata: c\n\n".toList] = ["a\nb".toList, "c".toList] :=
  messages_roundTrip.1
    [.frame [] ['7'] "a\r\nb".toList, .comment " heartbeat".toList [],
      .frame ['x'] [] ['c']] _ (by decide +kernel) _ rfl

end Sse
