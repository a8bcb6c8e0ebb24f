import Omnara.Skills.Archive

/-!
# Extraction stays within its destination and its limits

The path of an entry that is accepted has only plain components (`cleanEntryPath_ok`), so its target is
the destination followed by the components below the root (`skillEntryTarget_ok`). `Running` holds while
the extraction goes on: nothing outside the destination has changed, nothing inside is a link, and the
bytes written so far fit in what the budget has given out. Every program of the extraction keeps it or
stops in a state with `Stopped`, in which one file may have been written one byte too far.
-/

namespace Skills

open Json (Bytes ascii)
open UnixPath (Name Plain slash join split)
open Hoare List UnixPath

/-! ## Paths -/

theorem trimPrefix_append (lead rest : Name) : trimPrefix (lead ++ rest) lead = rest := by
  simp [trimPrefix]

theorem cleanEntryPath_ok {raw cleaned : Name} (h : cleanEntryPath raw = .ok cleaned) :
    ∃ ns, ns ≠ [] ∧ (∀ n ∈ ns, Plain n) ∧ cleaned = join ns := by
  unfold cleanEntryPath at h
  split at h
  · cases h
  · simp only at h
    split at h
    · cases h
    · rename_i habs
      split at h
      · cases h
      · rename_i hemp
        split at h
        · cases h
        · rename_i hdotdot
          cases h
          rw [not_or] at hemp
          obtain hdot | ⟨ns, hne, hns, hclean⟩ := clean_relative (Bool.not_eq_true _ ▸ habs)
          · exact absurd hdot hemp.1
          · rw [hclean, split_join hne fun n hn => (hns n hn).2.2] at hdotdot
            refine ⟨ns, hne, fun n hn => ?_, hclean⟩
            obtain ⟨hnil, hdot, hslash⟩ := hns n hn
            exact ⟨hnil, hdot, fun heq => hdotdot (heq ▸ hn), hslash⟩

section
variable {n : Name} {ns : List Name}

theorem firstSegment_join (h : ∀ m ∈ n :: ns, Plain m) : firstSegment (join (n :: ns)) = n := by
  rw [firstSegment, split_join (cons_ne_nil _ _) fun m hm => (h m hm).slash_notMem]
  rfl

theorem relativePath_join (n : Name) (ns : List Name) : relativePath (join (n :: ns)) n = join ns := by
  unfold relativePath
  cases ns with
  | nil =>
    rw [join_singleton]
    have hself := trimPrefix_append n []
    rw [append_nil] at hself
    rw [hself]
    rfl
  | cons m ns =>
    rw [join_cons_cons, trimPrefix_append]
    exact trimPrefix_append [slash] _

end

theorem skillEntryTarget_ok {cwd target : Name} {ds ms : List Name} (hds : ∀ n ∈ ds, Plain n)
    (hms : ∀ n ∈ ms, Plain n) (hne : ms ≠ [])
    (h : skillEntryTarget cwd (slash :: join ds) (join ms) = .ok target) :
    ds <+: names target ∧ ds <+: names (dir target) := by
  have hall : ∀ n ∈ ds ++ ms, Plain n := fun n hn => (mem_append.1 hn).elim (hds n) (hms n)
  have htgt : target = slash :: join (ds ++ ms) := by
    unfold skillEntryTarget at h
    simp only at h
    split at h
    · cases h
    · cases h
      rw [joinPath_rooted hds hms hne, UnixPath.abs, if_pos (isAbs_rooted _), clean_rooted hall]
  obtain ⟨init, last, rfl⟩ : ∃ init last, ms = init ++ [last] :=
    ⟨_, _, (dropLast_append_getLast hne).symm⟩
  rw [← append_assoc] at hall htgt
  rw [htgt, names_rooted hall, dir_rooted hall,
    names_rooted fun n hn => hall n (mem_append_left _ hn), append_assoc]
  exact ⟨prefix_append _ _, prefix_append _ _⟩

/-- All paths are below one root directory, and made of plain components. -/
def UnderRoot (root : Name) (paths : List Name) : Prop :=
  ∀ p ∈ paths, ∃ ns, (∀ n ∈ root :: ns, Plain n) ∧ p = join (root :: ns)

theorem agreeRoot_ok {raw cleaned root root' : Name} {paths : List Name} (hpaths : UnderRoot root paths)
    (hcleaned : cleanEntryPath raw = .ok cleaned) (h : agreeRoot root cleaned = .ok root') :
    UnderRoot root' (paths ++ [cleaned]) := by
  obtain ⟨ns, hne, hns, rfl⟩ := cleanEntryPath_ok hcleaned
  obtain ⟨n, ns, rfl⟩ := exists_cons_of_ne_nil hne
  unfold agreeRoot at h
  rw [firstSegment_join hns] at h
  have hlast : ∀ p ∈ [join (n :: ns)], ∃ ms, (∀ m ∈ n :: ms, Plain m) ∧ p = join (n :: ms) :=
    fun p hp => ⟨ns, hns, mem_singleton.1 hp⟩
  split at h
  · rename_i hroot
    cases h
    subst hroot
    intro p hp
    obtain hp | hp := mem_append.1 hp
    · -- no path was accepted before
      obtain ⟨ms, hms, -⟩ := hpaths p hp
      exact absurd rfl (hms [] mem_cons_self).ne_nil
    · exact hlast p hp
  · split at h
    · cases h
    · rename_i hsame
      cases h
      rw [not_not] at hsame
      subst hsame
      exact fun p hp => (mem_append.1 hp).elim (hpaths p) (hlast p)

theorem UnderRoot.firstSegment {root p : Name} {paths : List Name} (h : UnderRoot root paths)
    (hp : p ∈ paths) : firstSegment p = root := by
  obtain ⟨ns, hns, rfl⟩ := h p hp
  exact firstSegment_join hns

theorem entryPath_of_ok {name cleaned : Name} (h : cleanEntryPath name = .ok cleaned) :
    entryPath name = if isMacOSMetadata cleaned then none else some cleaned := by
  simp only [entryPath, h, Except.toOption, Option.filter_some, Bool.not_eq_true']
  cases isMacOSMetadata cleaned <;> rfl

/-! ## The invariant -/

/-- While the extraction goes on, in the destination `ds` of the file system `fs₀`. -/
structure Running (fs₀ : Fs) (ds : List Name) (accepted : List Name) (s : State) : Prop where
  outside : ∀ q, ¬ ds <+: q → s.fs q = fs₀ q
  inside : ∀ q, ds <+: q → s.fs.isLink q = false
  remaining : 0 ≤ s.totalRemaining
  total : (s.copied.sum : Int) + s.totalRemaining ≤ maxExtractedBytes
  files : ∀ n ∈ s.copied, (n : Int) ≤ maxExtractedFileBytes
  accepted_eq : s.accepted = accepted
  entries : (accepted.length : Int) ≤ s.entries ∧ s.entries ≤ maxArchiveEntries

structure Stopped (fs₀ : Fs) (ds : List Name) (s : State) : Prop where
  outside : ∀ q, ¬ ds <+: q → s.fs q = fs₀ q
  links : ∀ q target, s.fs q = some (.link target) → fs₀ q = some (.link target)
  total : (s.copied.sum : Int) ≤ maxExtractedBytes + 1
  files : ∀ n ∈ s.copied, (n : Int) ≤ maxExtractedFileBytes + 1
  entries : (s.accepted.length : Int) ≤ maxArchiveEntries

/-- The program goes on, or it stops. -/
abbrev Keeps (fs₀ : Fs) (ds accepted : List Name) (x : Extract Unit) : Prop :=
  Triple (Running fs₀ ds accepted) x (fun _ => Running fs₀ ds accepted) (Stopped fs₀ ds)

section
variable {fs₀ : Fs} {ds accepted : List Name} {s : State}

theorem Running.links (h : Running fs₀ ds accepted s) :
    ∀ q target, s.fs q = some (.link target) → fs₀ q = some (.link target) := by
  intro q target hq
  by_cases hin : ds <+: q
  · simpa [Fs.isLink, hq] using h.inside q hin
  · rw [← h.outside q hin]
    exact hq

theorem Running.stopped (h : Running fs₀ ds accepted s) : Stopped fs₀ ds s where
  outside := h.outside
  links := h.links
  total := by
    have := h.total
    have := h.remaining
    omega
  files n hn := by
    have := h.files n hn
    omega
  entries := by
    have := h.entries
    rw [h.accepted_eq]
    omega

theorem Running.set (h : Running fs₀ ds accepted s) {path : List Name} (hin : ds <+: path) {node : Node}
    (hnode : ∀ target, node ≠ .link target) :
    Running fs₀ ds accepted { s with fs := s.fs.set path node } := by
  refine ⟨fun q hq => ?_, fun q hq => ?_, h.remaining, h.total, h.files, h.accepted_eq, h.entries⟩
  · have hne : q ≠ path := fun heq => hq (heq ▸ hin)
    exact (Fs.set_of_ne hne).trans (h.outside q hq)
  · by_cases heq : q = path
    · subst heq
      cases node with
      | link target => exact absurd rfl (hnode target)
      | dir => simp [Fs.isLink]
      | file data => simp [Fs.isLink]
    · have hsame := h.inside q hq
      rw [Fs.isLink] at hsame ⊢
      simpa only [Fs.set_of_ne heq] using hsame

/-! ## The budget -/

/-- Between the count of an entry and its acceptance. -/
def Counted (fs₀ : Fs) (ds accepted : List Name) (s : State) : Prop :=
  Running fs₀ ds accepted s ∧ (accepted.length : Int) + 1 ≤ s.entries

theorem accountEntry_triple (name : Name) :
    Triple (Running fs₀ ds accepted) (accountEntry name) (fun _ => Counted fs₀ ds accepted)
      (Stopped fs₀ ds) := by
  refine .bind (.modify (Q := fun _ s => ∃ s₀, Running fs₀ ds accepted s₀ ∧
    s = { s₀ with entries := s₀.entries + 1 }) fun s hs => ⟨s, hs, rfl⟩) fun _ => .get_bind ?_
  rintro _ ⟨s₀, hs₀, rfl⟩
  have hents := hs₀.entries
  split
  · refine .throw ?_
    rintro _ rfl
    have hstopped := hs₀.stopped
    exact ⟨hstopped.outside, hstopped.links, hstopped.total, hstopped.files, hstopped.entries⟩
  · rename_i hfits
    refine .pure ?_
    rintro _ rfl
    simp only at hfits
    exact ⟨⟨hs₀.outside, hs₀.inside, hs₀.remaining, hs₀.total, hs₀.files, hs₀.accepted_eq, by
      simp only
      omega⟩, by simp only; omega⟩

theorem accept_triple (cleaned : Name) :
    Triple (Counted fs₀ ds accepted) (accept cleaned)
      (fun _ => Running fs₀ ds (accepted ++ [cleaned])) (Stopped fs₀ ds) := by
  refine .modify ?_
  rintro s ⟨hs, hents⟩
  refine ⟨hs.outside, hs.inside, hs.remaining, hs.total, hs.files, by simp [hs.accepted_eq], ?_⟩
  have := hs.entries.2
  simp only [length_append, length_singleton, Int.natCast_add]
  omega

theorem skipTarEntry_triple (cleaned : Name) (header : TarEntry) :
    Keeps fs₀ ds accepted (skipTarEntry cleaned header) := by
  unfold skipTarEntry
  split
  · exact .pure fun s hs => hs
  · refine .get_bind fun s₀ hs₀ => ?_
    have hstop : ∀ s, s = s₀ → Stopped fs₀ ds s := fun s hs => hs ▸ hs₀.stopped
    split
    · exact .throw hstop
    · split
      · exact .throw hstop
      · split
        · exact .throw hstop
        · refine .modify ?_
          rintro _ rfl
          have := hs₀.total
          exact ⟨hs₀.outside, hs₀.inside, by simp only; omega, by simp only; omega, hs₀.files,
            hs₀.accepted_eq, hs₀.entries⟩

end

def Above (fs : Fs) (ds : List Name) : Prop := ∀ q, q <+: ds → q ≠ ds → fs q = some .dir

section
variable {fs₀ : Fs} {ds accepted : List Name} (habv : Above fs₀ ds)
include habv

variable {s : State} {path : List Name}

/-- What is on the way to a path inside the destination is inside it, or a directory above it. -/
theorem Running.onTheWay (h : Running fs₀ ds accepted s) {q : List Name}
    (hin : ds <+: path) (hq : q <+: path) : ds <+: q ∨ s.fs q = some .dir := by
  obtain hdq | hqd := prefix_or_prefix_of_prefix hin hq
  · exact .inl hdq
  · by_cases heq : q = ds
    · exact .inl (heq ▸ prefix_rfl)
    · refine .inr ?_
      rw [h.outside q fun hdq => heq (hqd.eq_of_length_le hdq.length_le), habv q hqd heq]

theorem Running.notThroughLink (h : Running fs₀ ds accepted s)
    (hin : ds <+: path) : s.fs.throughLink path = false := by
  rw [Fs.throughLink, any_eq_false]
  intro q hq
  obtain hdq | hdir := h.onTheWay habv hin ((mem_inits q path).1 hq)
  · simp [h.inside q hdq]
  · simp [Fs.isLink, hdir]

variable (os : Os)

theorem mkdirName_triple {q : List Name} (hin : ds <+: path) (hq : q <+: path) :
    Keeps fs₀ ds accepted (mkdirName os q) := by
  refine .get_bind fun s₀ hs₀ => ?_
  split
  · exact .pure fun s hs => hs ▸ hs₀
  · exact .throw fun s hs => hs ▸ hs₀.stopped
  · rename_i hnone
    split
    · exact .throw fun s hs => hs ▸ hs₀.stopped
    · refine .modify fun s hs => hs ▸ hs₀.set ?_ nofun
      -- a directory above the destination would exist
      refine (hs₀.onTheWay habv hin hq).resolve_right ?_
      rw [hnone]
      exact nofun

theorem mkdirNames_triple {above names : List Name} (hin : ds <+: above ++ names) :
    Keeps fs₀ ds accepted (mkdirNames os above names) := by
  induction names generalizing above with
  | nil => exact .pure fun s hs => hs
  | cons name names ih =>
    have hin' : ds <+: (above ++ [name]) ++ names := by simpa using hin
    exact .bind (mkdirName_triple habv os hin' (prefix_append _ _)) fun _ => ih hin'

theorem mkdirAll_triple {path : Name} (hin : ds <+: names path) :
    Keeps fs₀ ds accepted (mkdirAll os path) := by
  refine .get_bind fun s₀ hs₀ => ?_
  rw [hs₀.notThroughLink habv hin]
  exact (mkdirNames_triple habv os (by simpa using hin)).conseq (fun s hs => hs ▸ hs₀)
    (fun _ _ h => h) fun _ h => h

theorem openFile_triple {path : Name} (hin : ds <+: names path) :
    Keeps fs₀ ds accepted (openFile os path) := by
  refine .get_bind fun s₀ hs₀ => ?_
  simp only
  rw [hs₀.notThroughLink habv hin]
  simp only [Bool.false_eq_true, if_false]
  split
  · exact .throw fun s hs => hs ▸ hs₀.stopped
  · exact .modify fun s hs => hs ▸ hs₀.set hin nofun

theorem writeFile_triple {path : Name} (hin : ds <+: names path) (data : Bytes) {s₀ : State}
    (hs₀ : Running fs₀ ds accepted s₀) :
    Triple (· = s₀) (writeFile os path data)
      (fun written s => written ≤ data.length ∧ s = { s₀ with
        fs := s₀.fs.set (names path) (.file (data.take written))
        copied := s₀.copied ++ [written] })
      (Stopped fs₀ ds) := by
  refine .get_bind fun s hs => ?_
  subst hs
  simp only
  refine .bind (.modify (Q := fun _ s' => s' = _) fun s hs => ?_)
    fun _ => .pure fun s hs => ⟨Nat.min_le_left _ _, hs⟩
  subst hs
  rw [hs₀.notThroughLink habv hin]
  rfl

omit habv in
/-- A file inside the destination that was written one byte too far at most. -/
theorem Running.wrote (h : Running fs₀ ds accepted s) (hin : ds <+: path)
    {data : Bytes} {written : Nat} (hfile : (written : Int) ≤ maxExtractedFileBytes + 1)
    (htotal : (written : Int) ≤ s.totalRemaining + 1) :
    Stopped fs₀ ds { s with fs := s.fs.set path (.file data), copied := s.copied ++ [written] } := by
  have hset : Running fs₀ ds accepted { s with fs := s.fs.set path (.file data) } := h.set hin nofun
  refine ⟨hset.outside, hset.links, ?_, ?_, hset.stopped.entries⟩
  · have := h.total
    simp only [sum_append, sum_singleton, Int.natCast_add]
    omega
  · intro n hn
    obtain hn | hn := mem_append.1 hn
    · have := h.files n hn
      omega
    · rw [mem_singleton.1 hn]
      exact hfile

theorem copyBounded_triple {dst : Name} (hin : ds <+: names dst) (src : Body) (name : Name) :
    Keeps fs₀ ds accepted (copyBounded os dst src name) := by
  refine .get_bind fun s₀ hs₀ => ?_
  simp only
  generalize hlim : (if maxExtractedFileBytes > s₀.totalRemaining then s₀.totalRemaining
    else maxExtractedFileBytes) = limit
  have hle : limit ≤ maxExtractedFileBytes ∧ limit ≤ s₀.totalRemaining ∧ 0 ≤ limit := by
    have := hs₀.remaining
    have : 0 ≤ maxExtractedFileBytes := by decide
    split at hlim <;> omega
  refine .bind (writeFile_triple habv os hin _ hs₀) fun written => ?_
  have hwrote : ∀ s, written ≤ (src.data.take (limit + 1).toNat).length ∧ s = { s₀ with
      fs := s₀.fs.set (names dst) (.file ((src.data.take (limit + 1).toNat).take written))
      copied := s₀.copied ++ [written] } → Stopped fs₀ ds s := by
    rintro s ⟨hwr, rfl⟩
    have := length_take_le (limit + 1).toNat src.data
    exact hs₀.wrote hin (by omega) (by omega)
  split
  · exact .throw hwrote
  · split
    · exact .throw hwrote
    · split
      · split
        · exact .throw hwrote
        · exact .throw hwrote
      · rename_i hfits
        refine .modify ?_
        rintro s ⟨-, rfl⟩
        have hset : Running fs₀ ds accepted { s₀ with
          fs := s₀.fs.set (names dst)
            (.file ((src.data.take (limit + 1).toNat).take written)) } := hs₀.set hin nofun
        refine ⟨hset.outside, hset.inside, ?_, ?_, ?_, hset.accepted_eq, hset.entries⟩
        · simp only
          omega
        · have := hs₀.total
          simp only [sum_append, sum_singleton, Int.natCast_add]
          omega
        · intro n hn
          obtain hn | hn := mem_append.1 hn
          · exact hs₀.files n hn
          · rw [mem_singleton.1 hn]
            omega

omit habv in
theorem closeFile_triple (path : Name) : Keeps fs₀ ds accepted (closeFile os path) := by
  refine .get_bind fun s₀ hs₀ => ?_
  split
  · exact .throw fun s hs => hs ▸ hs₀.stopped
  · exact .pure fun s hs => hs ▸ hs₀

/-- A file inside the destination is opened, written and closed. -/
theorem createFile_triple {target : Name} (htgt : ds <+: names target) (src : Body) (rel : Name) :
    Keeps fs₀ ds accepted
      (openFile os target >>= fun _ => copyBounded os target src rel >>= fun _ => closeFile os target) :=
  .bind (openFile_triple habv os htgt) fun _ =>
    .bind (copyBounded_triple habv os htgt src rel) fun _ => closeFile_triple os target

omit habv in
theorem target_triple (hds : ∀ n ∈ ds, Plain n) {cwd path root : Name} {ns : List Name}
    (hns : ∀ n ∈ root :: ns, Plain n) (hpath : path = join (root :: ns))
    (hne : relativePath path root ≠ []) {act : Name → Extract Unit}
    (hact : ∀ target, ds <+: names target → ds <+: names (dir target) →
      Keeps fs₀ ds accepted (act target)) :
    Keeps fs₀ ds accepted
      (liftM (skillEntryTarget cwd (slash :: join ds) (relativePath path root)) >>= act) := by
  rw [hpath, relativePath_join] at hne ⊢
  have hms : ∀ n ∈ ns, Plain n := fun n hn => hns n (mem_cons_of_mem _ hn)
  refine .lift_bind (fun target htgt => ?_) fun s hs => hs.stopped
  obtain ⟨hin, hdir⟩ := skillEntryTarget_ok hds hms (by rintro rfl; exact hne rfl) htgt
  exact hact target hin hdir

theorem materializePlan_triple (hds : ∀ n ∈ ds, Plain n) (cwd : Name) {root : Name} {item : ExtractPlan}
    {ns : List Name} (hns : ∀ n ∈ root :: ns, Plain n) (hpath : item.path = join (root :: ns)) :
    Keeps fs₀ ds accepted (materializePlan os cwd (slash :: join ds) root item) := by
  unfold materializePlan
  simp only
  split
  · exact .pure fun s hs => hs
  · rename_i hne
    refine target_triple hds hns hpath hne fun target htgt hdir => ?_
    split
    · exact mkdirAll_triple habv os htgt
    · refine .bind (mkdirAll_triple habv os hdir) fun _ => ?_
      split
      · exact .throw fun s hs => hs.stopped
      · exact createFile_triple habv os htgt _ _

theorem extractTarTarget_triple {target : Name} (htgt : ds <+: names target)
    (hdir : ds <+: names (dir target)) (cleaned rel : Name) (header : TarEntry) :
    Keeps fs₀ ds accepted (extractTarTarget os target cleaned rel header) := by
  have hstop : ∀ s, Running fs₀ ds accepted s → Stopped fs₀ ds s := fun _ hs => hs.stopped
  unfold extractTarTarget
  split
  · exact mkdirAll_triple habv os htgt
  · exact .throw hstop
  · exact .throw hstop
  · exact .bind (mkdirAll_triple habv os hdir) fun _ => createFile_triple habv os htgt _ _
  · exact .throw hstop

end

/-! ## Loops -/

section
variable {fs₀ : Fs} {ds : List Name}

/-- The entries that are done, with the root directory of those that were accepted. -/
structure Done (fs₀ : Fs) (ds done : List Name) (root : Name) (s : State) : Prop where
  under : UnderRoot root (done.filterMap entryPath)
  running : Running fs₀ ds (done.filterMap entryPath) s

variable {done : List Name}

theorem Done.stopped {root : Name} {s : State} (h : Done fs₀ ds done root s) : Stopped fs₀ ds s :=
  h.running.stopped

theorem filterMap_concat_none {name : Name} (h : entryPath name = none) :
    (done ++ [name]).filterMap entryPath = done.filterMap entryPath := by
  simp [h]

theorem filterMap_concat_some {name cleaned : Name} (h : entryPath name = some cleaned) :
    (done ++ [name]).filterMap entryPath = done.filterMap entryPath ++ [cleaned] := by
  simp [h]

theorem planZip_triple (done : List ZipFile) (file : ZipFile) (acc : Name × List ExtractPlan) :
    Triple (fun s => Done fs₀ ds (done.map (·.name)) acc.1 s ∧
        ∀ plan ∈ acc.2, plan.path ∈ (done.map (·.name)).filterMap entryPath)
      (planZip acc file)
      (fun acc' s => Done fs₀ ds ((done ++ [file]).map (·.name)) acc'.1 s ∧
        ∀ plan ∈ acc'.2, plan.path ∈ ((done ++ [file]).map (·.name)).filterMap entryPath)
      (Stopped fs₀ ds) := by
  rw [map_append, map_singleton]
  refine .lift_bind (fun cleaned hcleaned => ?_) fun s hs => hs.1.stopped
  have hent := entryPath_of_ok hcleaned
  split
  · rename_i hmeta
    rw [if_pos hmeta] at hent
    rw [filterMap_concat_none hent]
    refine .pure fun s hs => ⟨⟨?_, ?_⟩, hs.2⟩
    · rw [filterMap_concat_none hent]
      exact hs.1.under
    · rw [filterMap_concat_none hent]
      exact hs.1.running
  · rename_i hmeta
    rw [if_neg hmeta] at hent
    refine .assuming (fun s hs => And.intro hs.1.under hs.2) fun ⟨hunder, hplans⟩ => ?_
    refine .bind ((accountEntry_triple cleaned).conseq (fun s hs => hs.1.running) (fun _ _ h => h)
      fun _ h => h) fun _ => ?_
    split
    · exact .throw fun s hs => hs.1.stopped
    · refine .lift_bind (fun root hroot => ?_) fun s hs => hs.1.stopped
      refine .bind (accept_triple cleaned) fun _ => .pure fun s hs => ⟨⟨?_, ?_⟩, ?_⟩
      · rw [filterMap_concat_some hent]
        exact agreeRoot_ok hunder hcleaned hroot
      · rw [filterMap_concat_some hent]
        exact hs
      · rw [filterMap_concat_some hent]
        intro plan hplan
        obtain hplan | hplan := mem_append.1 hplan
        · exact mem_append_left _ (hplans plan hplan)
        · rw [mem_singleton.1 hplan]
          exact mem_append_right _ mem_cons_self

theorem extractTarEntry_triple (habv : Above fs₀ ds) (hds : ∀ n ∈ ds, Plain n) (os : Os) (cwd : Name)
    (done : List TarEntry) (header : TarEntry) (root : Name) :
    Triple (Done fs₀ ds (done.map (·.name)) root)
      (extractTarEntry os cwd (slash :: join ds) root header)
      (fun root' => Done fs₀ ds ((done ++ [header]).map (·.name)) root') (Stopped fs₀ ds) := by
  rw [map_append, map_singleton]
  refine .assuming (fun s hs => hs.under) fun hunder => ?_
  refine .lift_bind (fun cleaned hcleaned => ?_) fun s hs => hs.stopped
  have hent := entryPath_of_ok hcleaned
  refine .bind ((accountEntry_triple cleaned).conseq (fun s hs => hs.running) (fun _ _ h => h)
    fun _ h => h) fun _ => ?_
  split
  · rename_i hmeta
    rw [if_pos hmeta] at hent
    refine .bind ((skipTarEntry_triple cleaned header).conseq (fun s hs => hs.1) (fun _ _ h => h)
      fun _ h => h) fun _ => .pure fun s hs => ⟨?_, ?_⟩
    · rw [filterMap_concat_none hent]
      exact hunder
    · rw [filterMap_concat_none hent]
      exact hs
  · rename_i hmeta
    rw [if_neg hmeta] at hent
    refine .lift_bind (fun root' hroot => ?_) fun s hs => hs.1.stopped
    have hunder' := agreeRoot_ok hunder hcleaned hroot
    have hdone : ∀ s, Running fs₀ ds (((done.map (·.name)).filterMap entryPath) ++ [cleaned]) s →
        Done fs₀ ds (done.map (·.name) ++ [header.name]) root' s := by
      intro s hs
      rw [← filterMap_concat_some hent] at hunder' hs
      exact ⟨hunder', hs⟩
    refine .bind (accept_triple cleaned) fun _ => ?_
    simp only
    split
    · exact .pure hdone
    · rename_i hne
      obtain ⟨ns, hns, hpath⟩ := hunder' cleaned (mem_append_right _ mem_cons_self)
      rw [← bind_assoc]
      refine .bind (target_triple hds hns hpath hne fun target htgt hdir =>
        extractTarTarget_triple habv os htgt hdir cleaned _ header) fun _ => .pure hdone

variable (habv : Above fs₀ ds) (hds : ∀ n ∈ ds, Plain n) (os : Os) (cwd : Name)
include habv hds

theorem extractZip_triple (files : List ZipFile) :
    Triple (Running fs₀ ds []) (extractZip os cwd (slash :: join ds) files)
      (fun _ s => ∃ root, Done fs₀ ds (files.map (·.name)) root s) (Stopped fs₀ ds) := by
  refine .bind ((Triple.foldlM (fun done file rest acc _ => planZip_triple done file acc) _).conseq
    (fun s hs => ⟨⟨nofun, hs⟩, nofun⟩) (fun _ _ h => h) fun _ h => h) fun (root, plans) => ?_
  refine .assuming (fun s hs => And.intro hs.1.under hs.2) fun ⟨hunder, hplans⟩ => ?_
  refine (Triple.forM fun item hitem => ?_).conseq (fun s hs => hs.1.running)
    (fun _ s hs => ⟨root, hunder, hs⟩) fun _ h => h
  obtain ⟨ns, hns, hpath⟩ := hunder _ (hplans item hitem)
  exact materializePlan_triple habv os hds cwd hns hpath

theorem extractTarGz_triple (headers : List TarEntry) (fails : Bool) :
    Triple (Running fs₀ ds []) (extractTarGz os cwd (slash :: join ds) headers fails)
      (fun _ s => ∃ root, Done fs₀ ds (headers.map (·.name)) root s) (Stopped fs₀ ds) := by
  refine .bind (mkdirAll_triple habv os (by rw [names_rooted hds])) fun _ => ?_
  refine .bind ((Triple.foldlM (fun done header rest root _ =>
    extractTarEntry_triple habv hds os cwd done header root) _).conseq
    (fun s hs => ⟨nofun, hs⟩) (fun _ _ h => h) fun _ h => h) fun root => ?_
  split
  · exact .throw fun s hs => hs.stopped
  · exact .pure fun s hs => ⟨root, hs⟩

omit habv in
theorem removeAll_triple :
    Triple (fun s => s = { fs := fs₀ }) (removeAll os (slash :: join ds))
      (fun _ => Running fs₀ ds []) (Stopped fs₀ ds) := by
  refine .get_bind ?_
  rintro _ rfl
  simp only [names_rooted hds]
  split
  · refine .bind (.modify (Q := fun _ => Stopped fs₀ ds) ?_) fun _ => .throw fun s hs => hs
    rintro _ rfl
    refine ⟨fun q hq => if_neg fun h => hq h.1, fun q target hq => ?_,
      (by decide : (0 : Int) ≤ maxExtractedBytes + 1), nofun, (by decide : 0 ≤ maxArchiveEntries)⟩
    exact (Option.ite_none_left_eq_some.1 hq).2
  · refine .modify ?_
    rintro _ rfl
    refine ⟨fun q hq => if_neg hq, fun q hq => ?_, (by decide : 0 ≤ maxExtractedBytes),
      (by decide : 0 + maxExtractedBytes ≤ maxExtractedBytes), nofun, rfl,
      Int.le_refl _, (by decide : 0 ≤ maxArchiveEntries)⟩
    simp only [Fs.isLink, if_pos hq]

theorem extractInto_triple (archive : Archive) {dst : Name}
    (hdst : UnixPath.abs cwd dst = slash :: join ds) :
    Triple (fun s => s = { fs := fs₀ }) (extractInto os cwd archive dst)
      (fun _ s => ∃ root, Done fs₀ ds archive.names root s) (Stopped fs₀ ds) := by
  unfold extractInto
  simp only [hdst]
  refine .bind (removeAll_triple hds os) fun _ =>
    .bind (mkdirAll_triple habv os (by rw [names_rooted hds])) fun _ => ?_
  split
  · exact extractZip_triple habv hds os cwd _
  · exact extractTarGz_triple habv hds os cwd _ _
  · exact .throw fun s hs => hs.stopped
  · exact .throw fun s hs => hs.stopped
  · exact .throw fun s hs => hs.stopped

end

/-- **Confinement of the extraction.** Whatever archive is extracted, and whichever calls of the system
fail: outside the destination nothing changes, no link is created, at most the limit of entries is
accepted, and at most one byte more than the limits is written, in total and to each file. When the
extraction succeeds, all the entries that are neither refused nor metadata of macOS were accepted and
share one root directory, and the bytes written are within the limits. -/
theorem extractInto_confined (os : Os) {cwd : Name} (hcwd : isAbs cwd = true)
    (archive : Archive) (dst : Name) {fs : Fs}
    (habove : Above fs (names (UnixPath.abs cwd dst))) {result : Except Error Unit}
    {s : State} (hrun : exec (extractInto os cwd archive dst) { fs } = (result, s)) :
    (∀ q, ¬ names (UnixPath.abs cwd dst) <+: q → s.fs q = fs q) ∧
    (∀ q target, s.fs q = some (.link target) → fs q = some (.link target)) ∧
    (s.accepted.length : Int) ≤ maxArchiveEntries ∧
    (s.copied.sum : Int) ≤ maxExtractedBytes + 1 ∧
    (∀ n ∈ s.copied, (n : Int) ≤ maxExtractedFileBytes + 1) ∧
    (result = .ok () → s.accepted = archive.names.filterMap entryPath ∧
      (∃ root, ∀ path ∈ s.accepted, firstSegment path = root) ∧
      (s.copied.sum : Int) ≤ maxExtractedBytes ∧
      ∀ n ∈ s.copied, (n : Int) ≤ maxExtractedFileBytes) := by
  obtain ⟨ds, hds, hdst⟩ := abs_absolute hcwd dst
  rw [hdst, names_rooted hds] at habove ⊢
  have htriple := extractInto_triple habove hds os cwd archive hdst { fs } rfl
  rw [hrun] at htriple
  cases result with
  | error err =>
    exact ⟨htriple.outside, htriple.links, htriple.entries, htriple.total, htriple.files, nofun⟩
  | ok _ =>
    obtain ⟨root, hunder, hrunning⟩ := htriple
    have hstopped := hrunning.stopped
    refine ⟨hstopped.outside, hstopped.links, hstopped.entries, hstopped.total, hstopped.files,
      fun _ => ⟨hrunning.accepted_eq, ⟨root, fun path hpath => ?_⟩, ?_, hrunning.files⟩⟩
    · exact hunder.firstSegment (hrunning.accepted_eq ▸ hpath)
    · have := hrunning.total
      have := hrunning.remaining
      omega

def sampleOs : Os where
  fails _ _ := false
  room _ _ data := data.length
  closeFails _ _ := false
  keeps _ _ := false
  follow fs _ := (fs, false)

/-- The file `SKILL.md` of a skill, given by a name that is not clean, and metadata of macOS. -/
def sampleArchive : Archive :=
  .zip (some [{ name := ascii "./pdf/docs/../SKILL.md", body := some { data := ascii "text" } },
    { name := ascii "__MACOSX/x", symlink := true, body := none }])

def sampleRoot : Fs := fun q => if q = [] then some .dir else none

def sampleRun : Except Error Unit × State :=
  exec (extractInto sampleOs (ascii "/") sampleArchive (ascii "out")) { fs := sampleRoot }

theorem extractInto_confined_sample :
    sampleRun.1 = .ok () ∧
      sampleRun.2.fs [ascii "out", ascii "SKILL.md"] = some (.file (ascii "text")) ∧
      sampleRun.2.fs [ascii "etc"] = none ∧ sampleRun.2.accepted = [ascii "pdf/SKILL.md"] ∧
      sampleRun.2.copied = [4] := by
  have hnames : names (UnixPath.abs (ascii "/") (ascii "out")) = [ascii "out"] := by
    decide +kernel
  have habove : Above sampleRoot (names (UnixPath.abs (ascii "/") (ascii "out"))) := by
    rw [hnames]
    intro q hq hne
    obtain rfl | ⟨rest, rfl, hrest⟩ := prefix_cons_iff.1 hq
    · rfl
    · rw [prefix_nil.1 hrest] at hne
      exact absurd rfl hne
  have hconfined := extractInto_confined sampleOs (by decide +kernel) sampleArchive (ascii "out")
    habove rfl
  refine ⟨by decide +kernel, by decide +kernel, ?_, by decide +kernel, by decide +kernel⟩
  refine hconfined.1 _ ?_
  rw [hnames]
  decide

end Skills
