import Omnara.Lib.Follow
import Omnara.Tools.Proof.Lines

/-!
# Paging through a file

Following the offsets of `read_file` shows the content once, in order (`readFile_pages`). A cursor stands
at a byte of the content (`Cursor.At`): the byte a line starts at, or the one a number of characters end
at. `readFileChars_page` and `readFileLines_page` say that a page shows the bytes from its cursor up to
where its next cursor stands, `Follow.follow_eq` does the rest. A line page that is cut inside a line
hands over to characters: its end is a boundary (`truncateBytes_line`), so the characters up to it are
counted exactly.
-/

namespace Tools

open Json (Bytes)
open Text Fallible Follow Window

/-! ## Characters -/

variable {content : Bytes} {p : Nat}

theorem skipChars_runes {runes : List Bytes} (hrs : ∀ r ∈ runes, IsRune r) {rest : Bytes} :
    ∀ {start : Nat} (position : Nat), content.drop start = runes.flatten ++ rest →
      skipChars content runes.length start position =
        (start + runes.flatten.length, position + runes.length) := by
  induction runes with
  | nil => intros; rfl
  | cons r runes ih =>
    intro start position heq
    obtain ⟨hr, hrest⟩ := List.forall_mem_cons.mp hrs
    rw [List.flatten_cons, List.append_assoc] at heq
    have hlt : start < content.length := by
      have hlen := congrArg List.length heq
      have hpos := hr.length_pos
      simp only [List.length_drop, List.length_append] at hlen
      omega
    have hdrop : content.drop (start + r.length) = runes.flatten ++ rest := by
      rw [← List.drop_drop, heq, List.drop_left]
    rw [List.length_cons, skipChars, if_pos hlt, heq, hr.decodeRuneSize_append,
      ih hrest (position + 1) hdrop, List.flatten_cons, List.length_append]
    congr 1 <;> omega

theorem skipChars_boundary (hp : Boundary content p) :
    skipChars content (runeCount (content.take p)) 0 0 = (p, runeCount (content.take p)) := by
  obtain ⟨runes, hrs, htake⟩ := valid_iff.mp hp.valid
  have hdrop : content.drop 0 = runes.flatten ++ content.drop p := by
    rw [← htake, List.take_append_drop, List.drop_zero]
  have hlen : runes.flatten.length = p := by
    rw [← htake, List.length_take, Nat.min_eq_left hp.le]
  rw [htake, runeCount_flatten hrs, skipChars_runes hrs 0 hdrop, hlen, Nat.zero_add, Nat.zero_add]

theorem takeChars_spec (h : valid content) (start base : Nat) : ∀ (n stop count : Nat),
    Boundary content stop → start ≤ stop → stop - start ≤ artifactPageBytes →
    runeCount (content.take stop) = base + count →
    ∃ q m, takeChars content start n stop count = (q, m) ∧ Boundary content q ∧ stop ≤ q ∧
      q - start ≤ artifactPageBytes ∧ runeCount (content.take q) = base + m ∧
      (0 < n → stop < content.length → stop - start + utfMax ≤ artifactPageBytes → stop < q)
  | 0, stop, count, hstop, _, hfit, hcnt =>
    ⟨stop, count, rfl, hstop, Nat.le_refl _, hfit, hcnt, by omega⟩
  | n + 1, stop, count, hstop, hle, hfit, hcnt => by
    rw [takeChars]
    by_cases hlt : stop < content.length
    · obtain ⟨hnext, hcnt', hpos, hsm⟩ := hstop.next h hlt
      rw [if_pos hlt]
      dsimp only
      split
      · refine ⟨stop, count, rfl, hstop, Nat.le_refl _, hfit, hcnt, fun _ _ hroom => ?_⟩
        simp only [utfMax] at hroom
        omega
      · rename_i hroom
        obtain ⟨q, m, heq, hq, hge, hfit', hcount'', -⟩ :=
          takeChars_spec h start base n _ (count + 1) hnext (by omega) (by omega) (by omega)
        exact ⟨q, m, heq, hq, by omega, hfit', hcount'', by omega⟩
    · rw [if_neg hlt]
      exact ⟨stop, count, rfl, hstop, Nat.le_refl _, hfit, hcnt, by omega⟩

/-! ## Lines -/

/-- What the second loop of `readFileLines` keeps; it stops early at the end or before a line that does
not fit. -/
theorem takeLines_spec (h : valid content) (start : Nat) : ∀ (n stop count : Nat),
    Boundary content stop → start ≤ stop → stop - start ≤ artifactPageBytes →
    ∃ q k, takeLines content start n stop count = (q, count + k) ∧ Boundary content q ∧
      q = (nextLine content)^[k] stop ∧ stop ≤ q ∧ q - start ≤ artifactPageBytes ∧ (0 < k → stop < q) ∧
      (k = 0 → 0 < n → stop < content.length →
        artifactPageBytes < stop - start + lineLength content stop)
  | 0, stop, count, hstop, _, hfit =>
    ⟨stop, 0, rfl, hstop, rfl, Nat.le_refl _, hfit, by omega, by omega⟩
  | n + 1, stop, count, hstop, hle, hfit => by
    rw [takeLines]
    by_cases hlt : stop < content.length
    · obtain ⟨hpos, hnext⟩ := boundary_lineLength h hlt
      rw [if_pos hlt]
      split
      · rename_i hlong
        exact ⟨stop, 0, rfl, hstop, rfl, Nat.le_refl _, hfit, by omega, fun _ _ _ => hlong⟩
      · obtain ⟨q, k, heq, hq, hiter, hge, hfit', -, -⟩ :=
          takeLines_spec h start n _ (count + 1) hnext (by omega) (by omega)
        refine ⟨q, k + 1, by rw [heq]; congr 1; omega, hq, ?_, by omega, hfit', by omega, by omega⟩
        rw [hiter, Function.iterate_succ_apply, nextLine, if_pos hlt]
    · rw [if_neg hlt]
      exact ⟨stop, 0, rfl, hstop, rfl, Nat.le_refl _, hfit, by omega, by omega⟩

/-! ## Cursors -/

/-- Where a page starts: at a line, or behind a number of characters. -/
inductive Cursor
  | line (n : Nat)
  | char (n : Nat)
deriving DecidableEq

def ReadFileResult.next (page : ReadFileResult) : Option Cursor :=
  (page.nextOffsetLine.map .line).or (page.nextOffsetChar.map .char)

/-- The limits a reader chooses for a page; a limit may be left out. -/
structure Limits where
  lines : Option Int := none
  chars : Option Int := none
  legalLines : ∀ n ∈ lines, 1 ≤ n ∧ n ≤ readFileMaxLines := by simp
  legalChars : ∀ n ∈ chars, 1 ≤ n ∧ n ≤ readFileMaxChars := by simp

def Cursor.request (path : String) (limits : Limits) : Cursor → ReadFileRequest
  | .line n => { path := path, offsetLine := some n, limitLines := limits.lines }
  | .char n => { path := path, offsetChar := some n, limitChars := limits.chars }

/-- The cursor stands at byte `p`. -/
def Cursor.Stands (content : Bytes) : Cursor → Nat → Prop
  | .line n, p => 1 ≤ n ∧ (nextLine content)^[n - 1] 0 = p
  | .char n, p => runeCount (content.take p) = n

/-- The page shows the bytes from `p` to `q` and names a cursor at `q`. -/
structure PageTo (content : Bytes) (p q : Nat) (page : ReadFileResult) : Prop where
  le : p ≤ q
  boundary : Boundary content q
  shows : page.content = range content p q
  fits : q - p ≤ artifactPageBytes
  more : page.hasMore = decide (q < content.length)
  last : ¬ q < content.length → page.next = none
  next : q < content.length → p < q ∧ ∃ c, page.next = some c ∧ c.Stands content q

theorem readFileChars_page (h : valid content) (path : String) {n limit : Nat} (hlim : 1 ≤ limit)
    (hp : Boundary content p) (hat : (Cursor.char n).Stands content p) :
    ∃ q, PageTo content p q (readFileChars content path n limit) := by
  have hskip : skipChars content n 0 0 = (p, n) := hat ▸ skipChars_boundary hp
  obtain ⟨q, m, htake, hq, hle, hfit, hcnt, hmove⟩ :=
    takeChars_spec h p n limit p 0 hp (Nat.le_refl _) (by omega) hat
  refine ⟨q, ?_⟩
  unfold readFileChars
  rw [hskip]
  dsimp only
  rw [htake]
  refine ⟨hle, hq, rfl, hfit, rfl, fun hend => ?_, fun hlt => ⟨?_, .char (n + m), ?_, hcnt⟩⟩
  · simp [ReadFileResult.next, hend]
  · exact hmove hlim (by omega) (by simp [utfMax, artifactPageBytes])
  · simp [ReadFileResult.next, hlt]

/-- The part of a line that is longer than a page: whole characters, and nearly a page of them. -/
theorem truncateBytes_line (h : valid content) (hp : Boundary content p)
    (hlong : p + artifactPageBytes < content.length) :
    ∃ q, p < q ∧ q - p ≤ artifactPageBytes ∧ Boundary content q ∧
      p + (truncateBytes (range content p (min (p + artifactPageBytes + utfMax) content.length))
        artifactPageBytes).length = q := by
  have hchunk : artifactPageBytes < min (p + artifactPageBytes + utfMax) content.length - p := by
    simp only [utfMax]
    omega
  obtain ⟨k, hk, hbd, htake, -, hnear⟩ :=
    truncateBytes_take (hp.valid_drop h) (by decide) (Nat.le_trans (Nat.min_le_right _ _) hchunk)
  have hroom := hnear (by rw [List.length_drop]; omega)
  refine ⟨p + k, ?_, by omega, hp.add hbd, ?_⟩
  · simp only [utfMax, artifactPageBytes] at hroom
    omega
  · rw [range, htake, List.length_take, Nat.min_eq_left hbd.le]

theorem readFileLines_page (h : valid content) (path : String) {n limit : Nat} (hlim : 1 ≤ limit)
    (hp : Boundary content p) (hat : (Cursor.line n).Stands content p) :
    ∃ q, PageTo content p q (readFileLines content path n limit) := by
  obtain ⟨hn, hskip⟩ := hat
  obtain ⟨q, k, htake, hq, hiter, hle, hfit, hmove, hlong⟩ :=
    takeLines_spec h p limit p 0 hp (Nat.le_refl _) (by omega)
  rw [Nat.zero_add] at htake
  unfold readFileLines
  rw [skipLines_eq, hskip]
  dsimp only
  rw [htake]
  by_cases htoo : k = 0 ∧ p < content.length
  · -- the first line does not fit: the page ends inside it, and characters are counted up to there
    have hline := lineLength_le htoo.2
    obtain ⟨stop, hlt, hfit, hstop, hlen⟩ := truncateBytes_line h hp (by omega)
    rw [if_pos htoo, hlen]
    refine ⟨stop, ⟨by omega, hstop, rfl, hfit, rfl, fun hend => ?_, fun hmore => ⟨hlt, .char _, ?_, rfl⟩⟩⟩
    · simp [ReadFileResult.next, hend]
    · simp [ReadFileResult.next, hmore, htoo.1]
  · rw [if_neg htoo]
    refine ⟨q, ⟨hle, hq, rfl, hfit, rfl, fun hend => ?_, fun hmore => ?_⟩⟩
    · simp [ReadFileResult.next, hend]
    · have hk : k ≠ 0 := fun hzero => htoo ⟨hzero, by omega⟩
      refine ⟨hmove (by omega), .line (n + k), ?_, by omega, ?_⟩
      · simp [ReadFileResult.next, hmore, hk]
      · rw [show n + k - 1 = k + (n - 1) by omega, Function.iterate_add_apply, hskip, hiter]

/-! ## Reading a file -/

def Cursor.At (content : Bytes) (c : Cursor) (left : Bytes) : Prop :=
  ∃ p, Boundary content p ∧ c.Stands content p ∧ left = content.drop p

theorem PageTo.step {q : Nat} {page : ReadFileResult} (h : PageTo content p q page) :
    Step (Cursor.At content) ReadFileResult.next ReadFileResult.content (content.drop p) page := by
  have hq := h.boundary.le
  unfold Step
  by_cases hlt : q < content.length
  · obtain ⟨hpq, c, hc, hstands⟩ := h.next hlt
    rw [hc, h.shows]
    refine ⟨?_, content.drop q, ?_, q, h.boundary, hstands, rfl⟩
    · rw [← List.length_pos_iff, length_range hq]
      omega
    · rw [← range_length, ← range_length, range_append h.le hq]
  · rw [h.last hlt, ← range_length, show content.length = q by omega]
    exact h.shows

theorem PageTo.wellFormed {q : Nat} {page : ReadFileResult} (h : PageTo content p q page)
    (hp : Boundary content p) :
    valid page.content ∧ page.content.length ≤ artifactPageBytes ∧
      page.hasMore = page.next.isSome ∧ (page.hasMore → page.content ≠ []) := by
  have hlen := length_range (a := p) h.boundary.le
  rw [h.shows, h.more, hlen]
  refine ⟨hp.valid_between h.boundary h.le, h.fits, ?_, fun hmore => ?_⟩
  · by_cases hlt : q < content.length
    · obtain ⟨-, c, hc, -⟩ := h.next hlt
      simp [hlt, hc]
    · simp [hlt, h.last hlt]
  · obtain ⟨hpq, -⟩ := h.next (by simpa using hmore)
    rw [← List.length_pos_iff, hlen]
    omega

section
variable {ID : Type} {decode : List Char → Option ID} {path : String}

theorem readFile_request (hpath : (resolveArtifactPath decode path).isSome) (limits : Limits)
    (c : Cursor)
    (hc : ∀ n, c = .line n → 1 ≤ n) :
    ∃ limit, 1 ≤ limit ∧ readFile decode content (c.request path limits) = .ok
      (match c with
      | .line n => readFileLines content path n limit
      | .char n => readFileChars content path n limit) := by
  obtain ⟨id, hid⟩ := Option.isSome_iff_exists.mp hpath
  cases c with
  | line n =>
    have hlegal := legal_getD readFileDefaultLines (by decide) limits.legalLines
    have hn := hc n rfl
    refine ⟨(limits.lines.getD readFileDefaultLines).toNat, by omega, ?_⟩
    have hrng : lineRange n (limits.lines.getD readFileDefaultLines) =
        .ok (.lines n (limits.lines.getD readFileDefaultLines).toNat (by omega)) :=
      dif_pos (by omega)
    simp [readFile, resolveReadFileRequest, Cursor.request, hid, ensure, hrng, bind, Except.bind,
      pure, Except.pure, ReadRange.read]
  | char n =>
    have hlegal := legal_getD readFileDefaultChars (by decide) limits.legalChars
    refine ⟨(limits.chars.getD readFileDefaultChars).toNat, by omega, ?_⟩
    have hrng : charRange n (limits.chars.getD readFileDefaultChars) =
        .ok (.chars n (limits.chars.getD readFileDefaultChars).toNat (by omega)) :=
      dif_pos (by omega)
    simp [readFile, resolveReadFileRequest, Cursor.request, hid, ensure, hrng, bind, Except.bind,
      pure, Except.pure, ReadRange.read]

theorem readFile_page (hpath : (resolveArtifactPath decode path).isSome) (h : valid content)
    (limits : Limits) {c : Cursor} {p : Nat} (hp : Boundary content p) (hat : c.Stands content p) :
    ∃ page q, readFile decode content (c.request path limits) = .ok page ∧ PageTo content p q page := by
  cases c with
  | line n =>
    obtain ⟨limit, hlim, heq⟩ := readFile_request hpath limits (.line n) fun m hm =>
      Cursor.line.inj hm ▸ hat.1
    obtain ⟨q, hq⟩ := readFileLines_page h path hlim hp hat
    exact ⟨_, q, heq, hq⟩
  | char n =>
    obtain ⟨limit, hlim, heq⟩ := readFile_request hpath limits (.char n) nofun
    obtain ⟨q, hq⟩ := readFileChars_page h path hlim hp hat
    exact ⟨_, q, heq, hq⟩

/-- **Paging shows the content**, from the first line as from the first character on and with any legal
limits: the reading ends, its pages are the content in order, and every page is valid text that fits. -/
theorem readFile_pages (hpath : (resolveArtifactPath decode path).isSome) (h : valid content)
    (limits : Nat → Limits) {start : Cursor} (hstart : start = .line 1 ∨ start = .char 0) :
    ∃ pages, follow (fun i c => (readFile decode content (c.request path (limits i))).toOption)
        ReadFileResult.next (content.length + 1) 0 start = some pages ∧
      (pages.map ReadFileResult.content).flatten = content ∧
      ∀ page ∈ pages, valid page.content ∧ page.content.length ≤ artifactPageBytes ∧
        page.hasMore = page.next.isSome ∧ (page.hasMore → page.content ≠ []) := by
  have hat : start.At content content := by
    refine ⟨0, boundary_zero content, ?_, rfl⟩
    rcases hstart with rfl | rfl
    · exact ⟨Nat.le_refl _, rfl⟩
    · rfl
  have hread : ∀ i c left, Cursor.At content c left → ∃ page,
      (readFile decode content (c.request path (limits i))).toOption = some page ∧
        (valid page.content ∧ page.content.length ≤ artifactPageBytes ∧
          page.hasMore = page.next.isSome ∧ (page.hasMore → page.content ≠ [])) ∧
        Step (Cursor.At content) ReadFileResult.next ReadFileResult.content left page := by
    rintro i c _ ⟨p, hp, hstands, rfl⟩
    obtain ⟨page, q, hpage, hto⟩ := readFile_page hpath h (limits i) hp hstands
    exact ⟨page, by rw [hpage]; rfl, hto.wellFormed hp, hto.step⟩
  obtain ⟨pages, hpages, hshown, hall⟩ :=
    follow_eq (Cursor.At content) hread _ 0 start content hat (Nat.lt_succ_self _)
  refine ⟨pages, hpages, hshown, fun page hpage => ?_⟩
  obtain ⟨j, hj⟩ := List.mem_iff_getElem?.mp hpage
  exact hall j page hj

end

/-- One line, a byte longer than a page. -/
def longLine : Bytes := List.replicate 4097 97

/-- Reading the line by lines goes on by characters. -/
theorem readFile_pages_longLine :
    let artifactPath := "/artifacts/art_aaaaaaaaaaaaaaaaaaaaaaaaae"
    ∃ pages, follow (fun _ c => (readFile decodeArtifact longLine (c.request artifactPath {})).toOption)
        ReadFileResult.next (longLine.length + 1) 0 (.line 1) = some pages ∧
      pages.head?.bind ReadFileResult.next = some (.char 4096) ∧
      (pages.map ReadFileResult.content).flatten = longLine ∧
      ∀ page ∈ pages, valid page.content ∧ page.content.length ≤ artifactPageBytes ∧
        page.hasMore = page.next.isSome ∧ (page.hasMore → page.content ≠ []) := by
  intro artifactPath
  have hfirst : (readFile decodeArtifact longLine (Cursor.request artifactPath {} (.line 1))).toOption.bind
      ReadFileResult.next = some (.char 4096) := by decide +kernel
  obtain ⟨pages, hpages, hshown, hall⟩ := @readFile_pages longLine _ decodeArtifact artifactPath
    (by decide +kernel) (by decide +kernel) (fun _ => {}) (.line 1) (.inl rfl)
  refine ⟨pages, hpages, ?_, hshown, hall⟩
  rw [head?_follow hpages]
  exact hfirst

/-! ## Stored artifacts -/

section
variable {ID : Type} {decode : List Char → Option ID} {store : Option (ArtifactStore ID)}

theorem loadReadableArtifact_valid {artifactID : ID} {content : Bytes} {record : ArtifactRecord}
    (h : loadReadableArtifact store artifactID = .ok (content, record)) : valid content := by
  obtain ⟨artifacts, -, h⟩ := bind_eq_ok.mp h
  obtain ⟨record', -, h⟩ := bind_eq_ok.mp h
  obtain ⟨-, -, h⟩ := bind_eq_ok.mp h
  obtain ⟨⟨content', record''⟩, -, h⟩ := bind_eq_ok.mp h
  obtain ⟨-, -, h⟩ := bind_eq_ok.mp h
  obtain ⟨⟨⟩, hval, h⟩ := bind_eq_ok.mp h
  cases h
  exact (ensure_eq_ok.mp hval).1

/-- What `read_file` returns is a page of the stored content, which is valid text. -/
theorem runReadFileAsync_ok {input : ReadFileRequest} {result : ReadFileResult}
    (h : runReadFileAsync decode store input = .ok result) :
    ∃ content page, valid content ∧ readFile decode content input = .ok page ∧
      result.content = page.content ∧ result.hasMore = page.hasMore ∧ result.next = page.next := by
  obtain ⟨⟨picked, artifactID⟩, hres, h⟩ := bind_eq_ok.mp h
  obtain ⟨⟨content, record⟩, hload, h⟩ := bind_eq_ok.mp h
  cases h
  refine ⟨content, picked.read content input.path, loadReadableArtifact_valid hload, ?_, rfl, rfl, rfl⟩
  rw [readFile, hres]
  rfl

end

end Tools
