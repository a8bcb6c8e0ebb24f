import Mathlib.Tactic.Common
import Omnara.Lib.Tiles
import Omnara.Lib.Window
import Omnara.Daemon.OutputFile

/-!
# The window a process output keeps

`Holds sum o written`: the file has the header of `baseOffset` and then the bytes of `written` from
`baseOffset` on. It is set up by `start` and kept by every write:

* `decode_encodeProcessOutputHeader`: a header reads back, so a file that holds its window always
  opens at the live cursors (`openLocked_of_holds`);
* `compactLocked_holds`, `write_live`: a write without an I/O error takes all its bytes;
* `compactLocked_unpublished`: a compaction that is not published leaves the window alone;
* `slice_of_holds`: what a read returns, from which `readToEnd_tiles` follows.
-/

namespace Daemon

open Json (Bytes ascii)
open Window (range)

variable {sum : Bytes → Vector UInt8 32}

/-! ## The header -/

theorem shift_add_byte (n k : Nat) : n / 2 ^ (k + 8) * 256 + n / 2 ^ k % 256 = n / 2 ^ k := by
  rw [Nat.pow_add, ← Nat.div_div_eq_div_mul]
  exact Nat.div_add_mod' (n / 2 ^ k) 256

theorem uint64_putUint64 {n : Nat} (h : n < 2 ^ 64) : uint64 (putUint64 n) = n := by
  have hbyte : ∀ k, ((n / 2 ^ k % 256).toUInt8).toNat = n / 2 ^ k % 256 := fun k => by
    simp [Nat.toUInt8]
  have htop : 0 * 256 + n / 2 ^ 56 % 256 = n / 2 ^ 56 := by
    have := shift_add_byte n 56
    rwa [Nat.div_eq_of_lt h] at this
  simp only [uint64, putUint64, List.map_cons, List.map_nil, List.foldl_cons, List.foldl_nil, hbyte]
  rw [htop, shift_add_byte n 48, shift_add_byte n 40, shift_add_byte n 32,
    shift_add_byte n 24, shift_add_byte n 16, shift_add_byte n 8, shift_add_byte n 0, Nat.pow_zero,
    Nat.div_one]

theorem encodeProcessOutputHeader_ok (sum : Bytes → Vector UInt8 32) {base : Int} (h : 0 ≤ base) :
    ∃ header, encodeProcessOutputHeader sum base = .ok header ∧ header.length = 32 := by
  refine ⟨_, if_neg (by omega), ?_⟩
  simp [processOutputMagic, putUint64, ascii]

theorem decode_encodeProcessOutputHeader {base dataLength : Int} {header : Bytes}
    (hmax : base ≤ maxInt64) (h0 : 0 ≤ dataLength) (hlen : dataLength ≤ maxInt64 - base)
    (h : encodeProcessOutputHeader sum base = .ok header) :
    decodeProcessOutputHeader sum header dataLength = .ok base := by
  unfold encodeProcessOutputHeader at h
  split at h
  · cases h
  rename_i hbase
  obtain rfl := Except.ok.inj h
  have hput : (putUint64 base.toNat).length = 8 := by simp [putUint64]
  have hmagic : processOutputMagic.length = 8 := by decide
  set start := processOutputMagic ++ putUint64 base.toNat with hstart
  have hlen16 : start.length = 16 := by simp [hstart, hput, hmagic]
  have htake16 : (start ++ (sum start).toList.take 16).take 16 = start := List.take_left' hlen16
  have hdrop16 : (start ++ (sum start).toList.take 16).drop 16 = (sum start).toList.take 16 :=
    List.drop_left' hlen16
  have htake8 : (start ++ (sum start).toList.take 16).take 8 = processOutputMagic := by
    exact List.take_left' hmagic
  have hmid : ((start ++ (sum start).toList.take 16).drop 8).take 8 = putUint64 base.toNat := by
    exact List.take_left' hput
  have hmax' : maxInt64 = 2 ^ 63 - 1 := rfl
  have hread : ((uint64 (putUint64 base.toNat) : Nat) : Int) = base := by
    rw [uint64_putUint64 (by omega)]
    omega
  unfold decodeProcessOutputHeader
  rw [if_neg (by simp [hlen16, processOutputHeaderSize]), if_neg (by simp [htake8]),
    if_neg (by rw [hdrop16, htake16]; simp)]
  simp only [hmid, hread]
  exact if_neg (by omega)

/-! ## The window -/

/-- The file holds the bytes `[baseOffset, endOffset)` of `written`. -/
structure Holds (sum : Bytes → Vector UInt8 32) (o : ProcessOutput) (written : Bytes) : Prop where
  base_nonneg : 0 ≤ o.baseOffset
  base_le : o.baseOffset ≤ o.endOffset
  end_eq : o.endOffset = written.length
  end_le : o.endOffset ≤ maxInt64
  disk_eq : ∃ header, encodeProcessOutputHeader sum o.baseOffset = .ok header ∧
    o.disk = header ++ written.drop o.baseOffset.toNat

variable {o : ProcessOutput} {written : Bytes}

section
variable (h : Holds sum o written)
include h

theorem Holds.header :
    ∃ header, encodeProcessOutputHeader sum o.baseOffset = .ok header ∧ header.length = 32 ∧
      o.disk = header ++ written.drop o.baseOffset.toNat := by
  obtain ⟨header, hhdr, hdisk⟩ := h.disk_eq
  obtain ⟨header', hhdr', hlen⟩ := encodeProcessOutputHeader_ok sum h.base_nonneg
  obtain rfl : header = header' := Except.ok.inj (hhdr.symm.trans hhdr')
  exact ⟨header, hhdr, hlen, hdisk⟩

theorem Holds.data_eq : o.disk.drop 32 = range written o.baseOffset.toNat o.endOffset.toNat := by
  obtain ⟨header, -, hlen, hdisk⟩ := h.header
  have hend : o.endOffset.toNat = written.length := by rw [h.end_eq]; rfl
  rw [hdisk, List.drop_left' hlen, hend, Window.range_length]

theorem Holds.disk_length : (o.disk.length : Int) = 32 + (o.endOffset - o.baseOffset) := by
  obtain ⟨header, -, hlen, hdisk⟩ := h.header
  have ⟨hbase, hle, hend, _, _⟩ := h
  rw [hdisk, List.length_append, List.length_drop, hlen]
  omega

theorem Holds.take_header : encodeProcessOutputHeader sum o.baseOffset = .ok (o.disk.take 32) := by
  obtain ⟨header, hhdr, hlen, hdisk⟩ := h.header
  rw [hhdr, hdisk, List.take_left' hlen]

theorem Holds.read_eq (start next : Int) (hstart : o.baseOffset ≤ start) :
    (o.disk.drop (processOutputHeaderSize + start - o.baseOffset).toNat).take (next - start).toNat =
      range written start.toNat next.toNat := by
  have hbase := h.base_nonneg
  have hoff : (processOutputHeaderSize + start - o.baseOffset).toNat =
      32 + (start.toNat - o.baseOffset.toNat) := by
    rw [processOutputHeaderSize]
    omega
  have hlen : (next - start).toNat = next.toNat - start.toNat := by omega
  have hend : o.endOffset.toNat = written.length := by rw [h.end_eq]; rfl
  rw [hoff, hlen, ← List.drop_drop, h.data_eq, hend, Window.range_length]
  exact Window.range_drop (by omega)

theorem openProcessOutputFile_of_holds :
    openProcessOutputFile sum o.disk false = .ok (o.baseOffset, o.endOffset) := by
  have hlen := h.disk_length
  have ⟨_, hle, _, hmax, _⟩ := h
  have hsize : (o.disk.length : Int) - (processOutputHeaderSize : Nat) =
      o.endOffset - o.baseOffset := by
    rw [processOutputHeaderSize]
    omega
  unfold openProcessOutputFile
  rw [if_neg (by simp), if_neg (by rw [processOutputHeaderSize]; omega)]
  simp only [hsize]
  rw [show processOutputHeaderSize = 32 from rfl,
    decode_encodeProcessOutputHeader (by omega) (by omega) (by omega) h.take_header]
  show Except.ok (o.baseOffset, o.baseOffset + (o.endOffset - o.baseOffset)) = _
  rw [show o.baseOffset + (o.endOffset - o.baseOffset) = o.endOffset by omega]

theorem openLocked_of_holds : o.openLocked sum false = .ok { o with opened := true } := by
  have ⟨hbase, hle, _, _, _⟩ := h
  unfold ProcessOutput.openLocked openProcessOutputAppendFile
  split
  · rename_i hopen
    rw [← hopen]
  · rw [if_neg (by omega), openProcessOutputFile_of_holds h]
    simp

end

structure SameWindow (o o' : ProcessOutput) : Prop where
  base_eq : o'.baseOffset = o.baseOffset
  end_eq : o'.endOffset = o.endOffset
  disk_eq : o'.disk = o.disk

theorem SameWindow.trans {o₁ o₂ o₃ : ProcessOutput} (h : SameWindow o₁ o₂) (h' : SameWindow o₂ o₃) :
    SameWindow o₁ o₃ :=
  ⟨h'.base_eq.trans h.base_eq, h'.end_eq.trans h.end_eq, h'.disk_eq.trans h.disk_eq⟩

theorem openLocked_same {o o' : ProcessOutput} {openErr : Bool}
    (h : o.openLocked sum openErr = .ok o') : SameWindow o o' := by
  unfold ProcessOutput.openLocked at h
  split at h
  · cases h; exact ⟨rfl, rfl, rfl⟩
  · split at h <;> cases h
    exact ⟨rfl, rfl, rfl⟩

theorem syncLocked_same (o : ProcessOutput) (syncErr : Bool) :
    SameWindow o (o.syncLocked syncErr).1 := by
  unfold ProcessOutput.syncLocked
  split
  · exact ⟨rfl, rfl, rfl⟩
  · split <;> exact ⟨rfl, rfl, rfl⟩

/-- The window does not depend on whether the file is open or synced. -/
theorem Holds.of_same {o' : ProcessOutput} (h : Holds sum o written) (hs : SameWindow o o') :
    Holds sum o' written where
  base_nonneg := hs.base_eq ▸ h.base_nonneg
  base_le := by rw [hs.base_eq, hs.end_eq]; exact h.base_le
  end_eq := hs.end_eq ▸ h.end_eq
  end_le := hs.end_eq ▸ h.end_le
  disk_eq := by rw [hs.base_eq, hs.disk_eq]; exact h.disk_eq

theorem syncLocked_ok (o : ProcessOutput) :
    ∃ unsynced, o.syncLocked false = ({ o with unsyncedBytes := unsynced }, none) := by
  unfold ProcessOutput.syncLocked
  split
  · exact ⟨o.unsyncedBytes, rfl⟩
  · exact ⟨0, by simp⟩

theorem scheduleOrSyncLocked_ok (o : ProcessOutput) :
    ∃ unsynced, o.scheduleOrSyncLocked false = ({ o with unsyncedBytes := unsynced }, none) := by
  unfold ProcessOutput.scheduleOrSyncLocked
  split
  · exact ⟨o.unsyncedBytes, rfl⟩
  · generalize (if o.syncBytes ≤ 0 then processOutputSyncBytes else o.syncBytes) = threshold
    dsimp only
    split
    · exact syncLocked_ok o
    · exact ⟨o.unsyncedBytes, rfl⟩

/-! ## Compaction -/

theorem replacementData_of_holds (h : Holds sum o written) (fromExisting fromNew : Int) (p : Bytes)
    (h0 : 0 ≤ fromExisting) (hle : fromExisting ≤ o.endOffset - o.baseOffset) :
    ProcessOutput.replacementData o.disk (o.endOffset - o.baseOffset) fromExisting fromNew p =
      .ok (written.drop (written.length - fromExisting.toNat) ++
        p.drop (p.length - fromNew.toNat)) := by
  have ⟨hbase, _, hend, _, _⟩ := h
  have hread := h.read_eq (o.endOffset - fromExisting) o.endOffset (by omega)
  rw [show o.endOffset.toNat = written.length by omega, Window.range_length,
    show processOutputHeaderSize + (o.endOffset - fromExisting) - o.baseOffset =
      processOutputHeaderSize + (o.endOffset - o.baseOffset) - fromExisting by omega,
    show o.endOffset - (o.endOffset - fromExisting) = fromExisting by omega,
    show (o.endOffset - fromExisting).toNat = written.length - fromExisting.toNat by omega] at hread
  unfold ProcessOutput.replacementData
  simp only [hread]
  rw [if_neg]
  rw [List.length_drop]
  omega

/-- **A compaction without an I/O error** keeps the last `limit` bytes, or all if there are fewer. -/
theorem compactLocked_holds (h : Holds sum o written) (p : Bytes) (hlimit : 0 < o.limit)
    (hmax : o.endOffset + p.length ≤ maxInt64) :
    ∃ o', o.compactLocked sum p {} = (o', p.length, []) ∧ Holds sum o' (written ++ p) ∧
      o'.limit = o.limit ∧ o'.stickyErr = o.stickyErr ∧ o'.closed = o.closed ∧
      o'.endOffset - o'.baseOffset = min (o.endOffset - o.baseOffset + p.length) o.limit := by
  have ⟨hbase, hle, hend, _, _⟩ := h
  set keep : Int := if o.endOffset - o.baseOffset + p.length < o.limit
    then o.endOffset - o.baseOffset + p.length else o.limit with hkeep
  set fromNew : Int := if (p.length : Int) > keep then keep else p.length with hfromNew
  have hdata := replacementData_of_holds h (keep - fromNew) fromNew p (by omega) (by omega)
  -- what is written to the new file is the end of the whole stream
  have hstream : written.drop (written.length - (keep - fromNew).toNat) ++
      p.drop (p.length - fromNew.toNat) =
        (written ++ p).drop (o.endOffset + p.length - keep).toNat := by
    rw [show (o.endOffset + p.length - keep).toNat = written.length + p.length - keep.toNat by omega,
      Window.drop_append_last (by omega)]
    congr 2 <;> omega
  rw [hstream] at hdata
  obtain ⟨header, hhdr, hlen⟩ :=
    encodeProcessOutputHeader_ok sum (show 0 ≤ o.endOffset + p.length - keep by omega)
  obtain ⟨unsynced, hsync⟩ := syncLocked_ok { o with opened := true }
  have hreplace : replaceProcessOutputFile sum o.disk (o.endOffset + p.length - keep) keep
      (.ok ((written ++ p).drop (o.endOffset + p.length - keep).toNat)) (.published false) =
        (header ++ (written ++ p).drop (o.endOffset + p.length - keep).toNat, true, none) := by
    unfold replaceProcessOutputFile
    rw [if_neg (by omega), hhdr]
    simp only
    rw [if_neg]
    rw [hlen, List.length_drop, List.length_append, processOutputHeaderSize]
    omega
  set o' : ProcessOutput := { o with
      opened := false
      disk := header ++ (written ++ p).drop (o.endOffset + p.length - keep).toNat
      baseOffset := o.endOffset + p.length - keep
      endOffset := o.endOffset + p.length
      unsyncedBytes := 0 } with ho'
  have hholds : Holds sum o' (written ++ p) :=
    ⟨show 0 ≤ o.endOffset + p.length - keep by omega,
      show o.endOffset + p.length - keep ≤ o.endOffset + p.length by omega, by simp [ho', hend], hmax,
      header, hhdr, rfl⟩
  refine ⟨{ o' with opened := true }, ?_, hholds.of_same ⟨rfl, rfl, rfl⟩, rfl, rfl, rfl, ?_⟩
  · unfold ProcessOutput.compactLocked
    rw [if_neg (by omega)]
    simp only [openLocked_of_holds h, hsync, ← hkeep, ← hfromNew, hdata, hreplace, if_true]
    rw [openLocked_of_holds hholds]
  · show o.endOffset + p.length - (o.endOffset + p.length - keep) = _
    omega

theorem replaceProcessOutputFile_cases {disk disk' : Bytes} {baseOffset dataLength : Int}
    {writeData : Except OutputError Bytes} {io : Replacement} {published : Bool}
    {err : Option OutputError}
    (h : replaceProcessOutputFile sum disk baseOffset dataLength writeData io =
      (disk', published, err)) :
    published = false ∧ disk' = disk ∧ err ≠ none ∨ published = true ∧ io ≠ .failed := by
  unfold replaceProcessOutputFile at h
  repeat' split at h
  all_goals cases h; simp

/-- What a compaction leaves behind when its replacement is not published. -/
def Unpublished (o : ProcessOutput) (result : ProcessOutput × Nat × List OutputError) : Prop :=
  result.2.1 = 0 ∧ result.2.2 ≠ [] ∧ SameWindow o result.1

theorem unpublished_failWith {o : ProcessOutput} (o' : ProcessOutput) (h : SameWindow o o')
    (err : OutputError) :
    Unpublished o (o'.failWith 0 err) :=
  ⟨rfl, by simp [ProcessOutput.failWith, ProcessOutput.rememberErrorLocked],
    h.base_eq, h.end_eq, h.disk_eq⟩

/-- All bytes are reported as written, or the replacement was not published. -/
def CompactEnd (o : ProcessOutput) (p : Bytes) (io : WriteIo)
    (result : ProcessOutput × Nat × List OutputError) : Prop :=
  result.2.1 = p.length ∧ io.replacement ≠ .failed ∨ Unpublished o result

/-- **A compaction** reports all bytes written once the replacement is published, and otherwise no
byte and an error, with both offsets and the file as they were. -/
theorem compactLocked_cases (o : ProcessOutput) (p : Bytes) (io : WriteIo) :
    CompactEnd o p io (o.compactLocked sum p io) := by
  unfold ProcessOutput.compactLocked
  extract_lets stored total keep newEnd newBase fromNew fromExisting
  clear_value stored total keep newEnd newBase fromNew fromExisting
  split
  · exact .inr ⟨rfl, by simp, rfl, rfl, rfl⟩
  cases hopen : o.openLocked sum io.openErr with
  | error err => exact .inr (unpublished_failWith o ⟨rfl, rfl, rfl⟩ err)
  | ok o₁ =>
    have hsame := (openLocked_same hopen).trans (syncLocked_same o₁ io.syncErr)
    dsimp only
    rcases hsync : o₁.syncLocked io.syncErr with ⟨o₂, _ | err⟩
    · rw [hsync] at hsame
      dsimp only at hsame ⊢
      rcases hreplace : replaceProcessOutputFile sum o₂.disk newBase keep
        (ProcessOutput.replacementData o₂.disk stored fromExisting fromNew p)
        io.replacement with ⟨disk, published, err⟩
      obtain ⟨rfl, hdisk, herr⟩ | ⟨rfl, hio⟩ := replaceProcessOutputFile_cases hreplace
      · obtain ⟨err, rfl⟩ := Option.ne_none_iff_exists'.mp herr
        exact .inr (unpublished_failWith { o₂ with opened := false, disk := disk }
          ⟨hsame.base_eq, hsame.end_eq, hdisk.trans hsame.disk_eq⟩ _)
      · refine .inl ⟨?_, hio⟩
        cases err with
        | some err => rfl
        | none =>
          dsimp only
          split <;> rfl
    · rw [hsync] at hsame
      exact .inr (unpublished_failWith { o₂ with opened := false }
        ⟨hsame.base_eq, hsame.end_eq, hsame.disk_eq⟩ err)

/-! ## Runs of writes -/

/-- An output that takes writes: its file holds the window, and the window is bounded. -/
structure Live (sum : Bytes → Vector UInt8 32) (limit : Int) (o : ProcessOutput) (written : Bytes) :
    Prop extends Holds sum o written where
  limit_eq : o.limit = limit
  not_closed : o.closed = false
  no_err : o.stickyErr = []
  atLeast : min o.endOffset limit ≤ o.endOffset - o.baseOffset
  atMost : o.endOffset - o.baseOffset ≤ limit + max (limit / 4) 1

variable {limit : Int}

theorem compactAt_le (limit : Int) : ProcessOutput.compactAt limit ≤ limit + max (limit / 4) 1 := by
  unfold ProcessOutput.compactAt
  extract_lets extra
  have hextra : extra = max (limit / 4) 1 := by
    simp only [extra]
    split <;> omega
  clear_value extra
  split <;> omega

theorem start_live (sum : Bytes → Vector UInt8 32) (hlimit : 0 < limit) :
    Live sum limit (ProcessOutput.start sum limit) [] := by
  obtain ⟨header, hhdr, hlen⟩ := encodeProcessOutputHeader_ok sum (Int.le_refl 0)
  have hdisk : (ProcessOutput.start sum limit).disk = header := by
    unfold ProcessOutput.start replaceProcessOutputFile
    rw [if_neg (by simp [maxInt64]), hhdr]
    simp [hlen, processOutputHeaderSize]
  exact
    { base_nonneg := Int.le_refl 0
      base_le := Int.le_refl 0
      end_eq := rfl
      end_le := by simp [ProcessOutput.start, maxInt64]
      disk_eq := ⟨header, hhdr, by simp [hdisk]⟩
      limit_eq := rfl
      not_closed := rfl
      no_err := rfl
      atLeast := by simp only [ProcessOutput.start]; omega
      atMost := by simp only [ProcessOutput.start]; omega }

theorem append_live (h : Live sum limit o written) {p : Bytes}
    (hmax : o.endOffset + p.length ≤ maxInt64)
    (hfit : o.endOffset - o.baseOffset + p.length ≤ ProcessOutput.compactAt o.limit)
    (unsynced : Int) :
    Live sum limit
      { o with
        opened := true
        disk := o.disk ++ p
        endOffset := o.endOffset + p.length
        unsyncedBytes := unsynced } (written ++ p) where
  base_nonneg := h.base_nonneg
  base_le := by
    have := h.base_le
    show o.baseOffset ≤ o.endOffset + p.length
    omega
  end_eq := by
    show o.endOffset + p.length = _
    rw [h.end_eq, List.length_append, Int.natCast_add]
  end_le := hmax
  disk_eq := by
    obtain ⟨header, hhdr, hdisk⟩ := h.disk_eq
    have ⟨_, hle, hend, _, _⟩ := h.toHolds
    refine ⟨header, hhdr, ?_⟩
    show o.disk ++ p = header ++ (written ++ p).drop o.baseOffset.toNat
    rw [hdisk, List.append_assoc, List.drop_append_of_le_length (by omega)]
  limit_eq := h.limit_eq
  not_closed := h.not_closed
  no_err := h.no_err
  atLeast := by
    have := h.atLeast
    show min (o.endOffset + p.length) limit ≤ o.endOffset + p.length - o.baseOffset
    omega
  atMost := by
    have := compactAt_le limit
    rw [h.limit_eq] at hfit
    show o.endOffset + p.length - o.baseOffset ≤ _
    omega

/-- **A write without an I/O error** takes all its bytes, unless the cursors would leave the range
of 64-bit integers. -/
theorem write_live (h : Live sum limit o written) (hlimit : 0 < limit) (p : Bytes)
    (hmax : o.endOffset + p.length ≤ maxInt64) :
    ∃ o', o.write sum p {} = (o', p.length, []) ∧ Live sum limit o' (written ++ p) := by
  have ⟨hbase, hle, _, _, _⟩ := h.toHolds
  have hlim := h.limit_eq
  unfold ProcessOutput.write
  rw [if_neg (by simp [h.not_closed]), if_neg (by simp [h.no_err])]
  split
  · rename_i hp
    obtain rfl := List.length_eq_zero_iff.mp hp
    exact ⟨o, rfl, by simpa using h⟩
  · simp only [if_neg (show ¬ o.limit ≤ 0 by omega)]
    rw [if_neg (by omega)]
    by_cases hfit : (p.length : Int) > maxInt64 - (o.endOffset - o.baseOffset) ∨
        o.endOffset - o.baseOffset + p.length > ProcessOutput.compactAt o.limit
    · rw [if_pos hfit]
      obtain ⟨o', heq, hholds, hlim', herr, hcl, hsize⟩ :=
        compactLocked_holds h.toHolds p (by omega) hmax
      refine ⟨o', heq, { hholds with
        limit_eq := hlim'.trans hlim
        not_closed := hcl.trans h.not_closed
        no_err := herr.trans h.no_err
        atLeast := ?_
        atMost := by omega }⟩
      have hend' := hholds.end_eq
      have hatLeast := h.atLeast
      have hwr := h.end_eq
      rw [List.length_append] at hend'
      omega
    · rw [if_neg hfit]
      have hlive := append_live h hmax (by omega)
      obtain ⟨unsynced, hsync⟩ := scheduleOrSyncLocked_ok
        { o with
          opened := true
          disk := o.disk ++ p
          endOffset := o.endOffset + p.length
          unsyncedBytes := o.unsyncedBytes + p.length }
      refine ⟨_, ?_, hlive unsynced⟩
      rw [openLocked_of_holds h.toHolds]
      simp [hsync]

theorem write_out_of_range (h : Live sum limit o written) (hlimit : 0 < limit) (p : Bytes)
    (hmax : maxInt64 < o.endOffset + p.length) : o.write sum p {} = (o, 0, [.cursorRange]) := by
  have hend := h.end_le
  have hlim := h.limit_eq
  unfold ProcessOutput.write
  rw [if_neg (by simp [h.not_closed]), if_neg (by simp [h.no_err]), if_neg (by omega)]
  simp only [if_neg (show ¬ o.limit ≤ 0 by omega)]
  rw [if_pos (by omega)]

theorem writeAll_live (hlimit : 0 < limit) : ∀ (ps : List Bytes) {o : ProcessOutput} {written : Bytes},
    Live sum limit o written →
      Live sum limit (o.writeAll sum ps).1 (written ++ (o.writeAll sum ps).2) ∧
        (written.length + ps.flatten.length ≤ maxInt64 → (o.writeAll sum ps).2 = ps.flatten)
  | [], o, written, h => ⟨by simpa [ProcessOutput.writeAll] using h, fun _ => rfl⟩
  | p :: ps, o, written, h => by
    have hend := h.end_eq
    by_cases hmax : o.endOffset + p.length ≤ maxInt64
    · obtain ⟨o', hwrite, hlive⟩ := write_live h hlimit p hmax
      obtain ⟨hrun, hall⟩ := writeAll_live hlimit ps hlive
      have heq : o.writeAll sum (p :: ps) =
          ((o'.writeAll sum ps).1, p ++ (o'.writeAll sum ps).2) := by
        rw [ProcessOutput.writeAll, hwrite]
        simp
      rw [heq]
      refine ⟨by simpa using hrun, fun hsize => ?_⟩
      rw [List.flatten_cons, List.length_append] at hsize
      rw [hall (by rw [List.length_append]; omega), List.flatten_cons]
    · obtain ⟨hrun, -⟩ := writeAll_live hlimit ps h
      have heq : o.writeAll sum (p :: ps) = o.writeAll sum ps := by
        rw [ProcessOutput.writeAll, write_out_of_range h hlimit p (by omega)]
        simp
      rw [heq]
      refine ⟨hrun, fun hsize => ?_⟩
      rw [List.flatten_cons, List.length_append] at hsize
      omega

/-! ## Reads -/

def readSize (maxBytes : Int) : Int := if maxBytes ≤ 0 then defaultObservationBytes else maxBytes

theorem readSize_pos (maxBytes : Int) : 0 < readSize maxBytes := by
  unfold readSize defaultObservationBytes
  split <;> omega

/-- What a read at `cursor` returns of the bytes `written`. -/
structure ReadAt (o : ProcessOutput) (written : Bytes) (cursor maxBytes : Int) (r : OutputRange) :
    Prop where
  start_eq : r.start = max cursor o.baseOffset
  next_eq : r.next = max r.start (min o.endOffset (r.start + readSize maxBytes))
  output_eq : r.output = Text.toValidUTF8 (range written r.start.toNat r.next.toNat) (ascii "?")
  truncated_iff : r.truncated = true ↔
    max cursor 0 < o.baseOffset ∨ r.next < o.endOffset ∨ o.stickyErr ≠ []

theorem readProcessOutputRange_of_holds (h : Holds sum o written) (cursor maxBytes : Int) :
    ∃ r, readProcessOutputRange o.disk o.baseOffset o.endOffset cursor maxBytes false = .ok r ∧
      ReadAt { o with stickyErr := [] } written cursor maxBytes r := by
  have ⟨hbase, hle, hend, hmax, _⟩ := h
  have hsize := readSize_pos maxBytes
  unfold readProcessOutputRange
  rw [if_neg (by omega)]
  have hstart : (if (if cursor < 0 then 0 else cursor) < o.baseOffset then o.baseOffset
      else if cursor < 0 then 0 else cursor) = max cursor o.baseOffset := by
    split <;> split at * <;> omega
  have hmoved : (if cursor < 0 then 0 else cursor) = max cursor 0 := by
    split <;> omega
  dsimp only
  rw [hstart, hmoved, show (if maxBytes ≤ 0 then defaultObservationBytes else maxBytes) =
    readSize maxBytes from rfl]
  set start := max cursor o.baseOffset with hs
  by_cases hpast : start > o.endOffset
  · rw [if_pos hpast]
    refine ⟨_, rfl, rfl, ?_, ?_, ?_⟩
    · show start = max start (min o.endOffset _)
      omega
    · show [] = _
      rw [Window.range_self]
      rfl
    · show decide (max cursor 0 < o.baseOffset) = true ↔ _ ∨ start < o.endOffset ∨ _
      simp only [decide_eq_true_eq, ne_eq, not_true, or_false]
      omega
  · rw [if_neg hpast]
    have hlength : (if readSize maxBytes < o.endOffset - start then readSize maxBytes
        else o.endOffset - start) = min o.endOffset (start + readSize maxBytes) - start := by
      split <;> omega
    simp only [hlength]
    set next := min o.endOffset (start + readSize maxBytes) with hnext
    have hread := h.read_eq start next (by omega)
    rw [if_neg (by omega), if_neg (by simp), hread,
      if_neg (by rw [Window.length_range (by omega)]; omega)]
    have hsum : start + (next - start) = next := by omega
    refine ⟨_, rfl, rfl, ?_, ?_, ?_⟩
    · show start + (next - start) = max start next
      omega
    · show Text.toValidUTF8 _ _ = _
      rw [hsum]
    · simp

/-- **A read without an I/O error** of an output whose file holds its window. -/
theorem slice_of_holds (h : Holds sum o written) (cursor maxBytes : Int) :
    ∃ r, o.slice sum cursor maxBytes {} = (o, r, o.stickyErr) ∧
      ReadAt o written cursor maxBytes r := by
  obtain ⟨r, hread, hstart, hnext, hout, htruncated⟩ :=
    readProcessOutputRange_of_holds h cursor maxBytes
  refine ⟨{ r with truncated := r.truncated || !o.stickyErr.isEmpty }, ?_, hstart, hnext, hout, ?_⟩
  · unfold ProcessOutput.slice
    simp only [openProcessOutputFile_of_holds h, hread]
    simp
  · show (r.truncated || !o.stickyErr.isEmpty) = true ↔ _
    rw [Bool.or_eq_true, htruncated]
    simp [or_assoc]

theorem readToEnd_succ {cursor maxBytes : Int} {r : OutputRange}
    (hr : o.slice sum cursor maxBytes {} = (o, r, o.stickyErr)) (fuel : Nat) :
    o.readToEnd sum maxBytes (fuel + 1) cursor =
      if r.next = r.start then [] else r :: o.readToEnd sum maxBytes fuel r.next := by
  rw [ProcessOutput.readToEnd, hr]

/-- **Reading on from the returned cursor**: the reads are laid end to end from the first byte kept
at or after the cursor to the end of the output, and then a read returns nothing. Each read moves on
by a byte at least, so one round per byte is enough. -/
theorem readToEnd_tiles (h : Holds sum o written) (maxBytes : Int) :
    ∀ (fuel : Nat) (cursor : Int), cursor ≤ o.endOffset →
      o.endOffset - max cursor o.baseOffset < fuel →
      Tiles (max cursor o.baseOffset).toNat
        ((o.readToEnd sum maxBytes fuel cursor).map fun r => (r.start.toNat + 1, r.next.toNat))
        o.endOffset.toNat ∧
      (o.readToEnd sum maxBytes fuel cursor).flatMap
          (fun r => range written r.start.toNat r.next.toNat) =
        range written (max cursor o.baseOffset).toNat o.endOffset.toNat ∧
      ∀ more, fuel ≤ more →
        o.readToEnd sum maxBytes more cursor = o.readToEnd sum maxBytes fuel cursor
  | 0, cursor, hcur, hfuel => by
    have := h.base_le
    omega
  | fuel + 1, cursor, hcur, hfuel => by
    have ⟨hbase, hle, _, _, _⟩ := h
    have hsize := readSize_pos maxBytes
    obtain ⟨r, hr, hat⟩ := slice_of_holds h cursor maxBytes
    have ⟨hstart, hnext, _, _⟩ := hat
    rw [readToEnd_succ hr, ← hstart]
    by_cases hend : r.start = o.endOffset
    · have hstop : r.next = r.start := by omega
      rw [if_pos hstop, hend]
      refine ⟨by simpa using Tiles.nil _, by simp, fun more hmore => ?_⟩
      obtain ⟨more, rfl⟩ : ∃ m, more = m + 1 := ⟨more - 1, by omega⟩
      rw [readToEnd_succ hr, if_pos hstop]
    · have hgo : r.next ≠ r.start := by omega
      have hagain : max r.next o.baseOffset = r.next := by omega
      obtain ⟨htiles, hbytes, hmore⟩ := readToEnd_tiles h maxBytes fuel r.next (by omega) (by omega)
      rw [hagain] at htiles hbytes
      rw [if_neg hgo]
      refine ⟨?_, ?_, fun more hle => ?_⟩
      · exact .cons (by omega) htiles
      · rw [List.flatMap_cons, hbytes]
        exact Window.range_append (by omega) (by omega)
      · obtain ⟨more, rfl⟩ : ∃ m, more = m + 1 := ⟨more - 1, by omega⟩
        rw [readToEnd_succ hr, if_neg hgo, hmore more (by omega)]

/-! ## The whole output -/

/-- A compaction that is not published changes nothing a reader can see but `truncated`. -/
theorem compactLocked_unpublished (h : Holds sum o written) {p : Bytes} {io : WriteIo}
    (hfail : (o.compactLocked sum p io).2.1 ≠ p.length) :
    SameWindow o (o.compactLocked sum p io).1 ∧
      ∀ cursor maxBytes, ∃ r, (o.compactLocked sum p io).1.slice sum cursor maxBytes {} =
        ((o.compactLocked sum p io).1, r, (o.compactLocked sum p io).1.stickyErr) ∧
          (o.slice sum cursor maxBytes {}).2.1 = { r with
            truncated := (o.slice sum cursor maxBytes {}).2.1.truncated } := by
  have hsame : SameWindow o (o.compactLocked sum p io).1 := by
    rcases compactLocked_cases o p io with hpub | hunpublished
    · exact absurd hpub.1 hfail
    · exact hunpublished.2.2
  refine ⟨hsame, fun cursor maxBytes => ?_⟩
  obtain ⟨r, hr, hat⟩ := slice_of_holds h cursor maxBytes
  obtain ⟨r', hr', hat'⟩ := slice_of_holds (h.of_same hsame) cursor maxBytes
  have hstart : r.start = r'.start := by rw [hat.start_eq, hat'.start_eq, hsame.base_eq]
  have hnext : r.next = r'.next := by rw [hat.next_eq, hat'.next_eq, hstart, hsame.end_eq]
  have hout : r.output = r'.output := by rw [hat.output_eq, hat'.output_eq, hstart, hnext]
  refine ⟨r', hr', ?_⟩
  cases r
  cases r'
  simp_all

/-- **The window of a process output.** After any writes without an I/O error the file holds the
bytes `[baseOffset, endOffset)` of all bytes written, between `min(total, limit)` and
`limit + max(limit/4, 1)` of them. A read starts at the cursor, or at the first byte kept if that is
later, and returns the bytes up to `next` with invalid UTF-8 replaced; past the end it returns
nothing. Reading on from `next` gets every byte kept from there on exactly once. A compaction that is
not published leaves the window as it is. -/
theorem processOutput_window (hlimit : 0 < limit) (ps : List Bytes) :
    ((ps.flatten.length : Int) ≤ maxInt64 →
      ((ProcessOutput.start sum limit).writeAll sum ps).2 = ps.flatten) ∧
    ∃ o written, (ProcessOutput.start sum limit).writeAll sum ps = (o, written) ∧
      o.disk.drop processOutputHeaderSize = range written o.baseOffset.toNat o.endOffset.toNat ∧
      0 ≤ o.baseOffset ∧ o.endOffset = written.length ∧
      min o.endOffset limit ≤ o.endOffset - o.baseOffset ∧
      o.endOffset - o.baseOffset ≤ limit + max (limit / 4) 1 ∧
      (∀ cursor maxBytes, ∃ r, o.slice sum cursor maxBytes {} = (o, r, []) ∧
        ReadAt o written cursor maxBytes r) ∧
      (∀ cursor maxBytes, cursor ≤ o.endOffset → ∃ fuel, ∀ more, fuel ≤ more →
        Tiles (max cursor o.baseOffset).toNat
          ((o.readToEnd sum maxBytes more cursor).map fun r => (r.start.toNat + 1, r.next.toNat))
          o.endOffset.toNat ∧
        (o.readToEnd sum maxBytes more cursor).flatMap
            (fun r => range written r.start.toNat r.next.toNat) =
          range written (max cursor o.baseOffset).toNat o.endOffset.toNat) ∧
      (∀ p io, p ≠ [] → io.replacement = .failed → (o.compactLocked sum p io).2.1 = 0) ∧
      (∀ p io, (o.compactLocked sum p io).2.1 ≠ p.length →
        SameWindow o (o.compactLocked sum p io).1 ∧
        ∀ cursor maxBytes, ∃ r, (o.compactLocked sum p io).1.slice sum cursor maxBytes {} =
          ((o.compactLocked sum p io).1, r, (o.compactLocked sum p io).1.stickyErr) ∧
            (o.slice sum cursor maxBytes {}).2.1 = { r with
              truncated := (o.slice sum cursor maxBytes {}).2.1.truncated }) := by
  obtain ⟨hlive, hall⟩ := writeAll_live hlimit ps (start_live sum hlimit)
  refine ⟨fun hsize => hall (by simpa using hsize), _, _, rfl, hlive.data_eq, hlive.base_nonneg,
    hlive.end_eq, hlive.atLeast, hlive.atMost, fun cursor maxBytes => ?_,
    fun cursor maxBytes hcursor => ?_, fun p io _ hio => ?_,
    fun p io hfail => compactLocked_unpublished hlive.toHolds hfail⟩
  · have := slice_of_holds hlive.toHolds cursor maxBytes
    rwa [hlive.no_err] at this
  · have hfuel : ∀ n : Int, n < (n.toNat + 1 : Nat) := fun n => by omega
    obtain ⟨htiles, hbytes, hmore⟩ := readToEnd_tiles hlive.toHolds maxBytes _ cursor hcursor (hfuel _)
    exact ⟨_, fun more hle => by rw [hmore more hle]; exact ⟨htiles, hbytes⟩⟩
  · rcases compactLocked_cases _ p io with hpublished | hunpublished
    · exact absurd hio hpublished.2
    · exact hunpublished.1

/-- Three writes of which the last compacts a window of at most five bytes. -/
theorem processOutput_window_compacted :
    let sum : Bytes → Vector UInt8 32 := fun _ => Vector.replicate 32 0
    ∃ o, (ProcessOutput.start sum 4).writeAll sum [ascii "abc", ascii "de", ascii "fg"] =
        (o, ascii "abcdefg") ∧
      o.baseOffset = 3 ∧ o.disk.drop processOutputHeaderSize = ascii "defg" ∧
      (∃ r, o.slice sum 0 2 {} = (o, r, []) ∧ ReadAt o (ascii "abcdefg") 0 2 r) ∧
      ∀ io : WriteIo, io.replacement = .failed → (o.compactLocked sum (ascii "h") io).2.1 = 0 := by
  intro sum
  have hbase : ((ProcessOutput.start sum 4).writeAll sum
      [ascii "abc", ascii "de", ascii "fg"]).1.baseOffset = 3 := by decide +kernel
  obtain ⟨hall, o, written, hrun, hdisk, -, hend, -, -, hread, -, hfailed, -⟩ :=
    @processOutput_window sum 4 (by decide) [ascii "abc", ascii "de", ascii "fg"]
  have hwritten := hall (by decide)
  rw [hrun] at hbase hwritten
  obtain rfl : written = ascii "abcdefg" := hwritten
  refine ⟨o, hrun, hbase, ?_, hread 0 2, fun io hio => hfailed _ io (by decide) hio⟩
  rw [hdisk, hbase, hend]
  decide

/-- A read replaces the start of a cut-off character, a cursor past the end stays where it is, and a
negative cursor is moved to 0 without a sign of it. -/
theorem slice_not_exact :
    let sum : Bytes → Vector UInt8 32 := fun _ => Vector.replicate 32 0
    let o := ((ProcessOutput.start sum 10).writeAll sum [[97, 0xE2, 0x82]]).1
    (o.slice sum 1 2 {}).2.1 = ⟨ascii "?", 1, 3, false⟩ ∧ range [97, 0xE2, 0x82] 1 3 ≠ ascii "?" ∧
      (o.slice sum 5 2 {}).2.1 = ⟨[], 5, 5, false⟩ ∧ o.endOffset = 3 ∧
      (o.slice sum (-1) 3 {}).2.1.start = 0 ∧ (o.slice sum (-1) 3 {}).2.1.truncated = false := by
  decide +kernel

end Daemon
