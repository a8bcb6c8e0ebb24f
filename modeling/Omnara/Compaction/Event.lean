import Mathlib.Tactic.Common
import Omnara.Lib.Json

/-!
# Compaction source events and atomic groups

The data the compaction planner and the compaction runner read: the events of one agent as
`ListCompactionSourceEvents` projects them, and the atomic groups of `ListCompactionAtomicGroups`.
Fields no modelled function reads (event ids, input kinds, timestamps) are left out.
-/

namespace Compaction

/-- A UUID; `0` is `uuid.Nil`. -/
abbrev Uuid := Nat

def Uuid.nil : Uuid := 0

/-- `events.Kind`. -/
inductive EventKind
  | modelOutput | toolResult | agentInput | contextCheckpoint
  deriving DecidableEq

/-- `CompactionSourceEventRecord`. -/
structure SourceEvent where
  sequence : Int
  turnId : Uuid := Uuid.nil
  isOpeningEvent : Bool := false
  kind : EventKind
  toolName : String := ""
  providerCallId : String := ""
  toolOutcome : String := ""
  contentParts : Json.Bytes := []
  deriving DecidableEq

/-- The group kinds `ListCompactionAtomicGroups` produces. -/
inductive GroupKind
  | toolCallResult | turnOpening
  deriving DecidableEq

structure AtomicGroup where
  kind : GroupKind
  startSequence : Int
  endSequence : Int
  deriving DecidableEq

/-- The group's bounds are positive and ordered: what both validations of the planner accept. -/
def AtomicGroup.WellFormed (g : AtomicGroup) : Prop :=
  0 < g.startSequence ∧ g.startSequence ≤ g.endSequence

instance (g : AtomicGroup) : Decidable g.WellFormed := inferInstanceAs (Decidable (_ ∧ _))

/-- A source that ends at `e` takes the start of the group and leaves its end behind. -/
def AtomicGroup.SplitBy (g : AtomicGroup) (e : Int) : Prop :=
  g.startSequence ≤ e ∧ e < g.endSequence

instance (g : AtomicGroup) (e : Int) : Decidable (g.SplitBy e) := inferInstanceAs (Decidable (_ ∧ _))

/-- A log in strictly increasing order of sequence, all of them positive. -/
def StrictlyOrdered (events : List SourceEvent) : Prop :=
  (0 :: events.map (·.sequence)).Pairwise (· < ·)

instance (events : List SourceEvent) : Decidable (StrictlyOrdered events) :=
  inferInstanceAs (Decidable (List.Pairwise _ _))

/-- The sequence a Go map ends up with for a key when `events` are stored in order: that of the last
event selected by `p`, or `0` for a missing key. -/
def latestSequence (p : SourceEvent → Bool) (events : List SourceEvent) : Int :=
  events.foldl (fun latest e => if p e then e.sequence else latest) 0

def estimateSourceEventTokens (e : SourceEvent) : Int := (e.contentParts.length / 4 + 1 : Nat)

def compactionEventHasModelSemantics (e : SourceEvent) : Bool :=
  if e.kind = .contextCheckpoint then false
  else if e.toolName ≠ "" ∨ e.providerCallId ≠ "" ∨ e.toolOutcome ≠ "" then true
  else match Json.unmarshalRawArray e.contentParts with
    -- malformed events stay in the source
    | none => true
    | some none => false
    | some (some parts) => 0 < parts.length

/-! ## Facts about ordered logs -/

variable {events : List SourceEvent}

theorem StrictlyOrdered.pos (h : StrictlyOrdered events)
    {e : SourceEvent} (he : e ∈ events) : 0 < e.sequence := by
  simp only [StrictlyOrdered, List.pairwise_cons, List.mem_map, forall_exists_index, and_imp,
    forall_apply_eq_imp_iff₂] at h
  exact h.1 e he

theorem StrictlyOrdered.pairwise (h : StrictlyOrdered events) :
    events.Pairwise (fun a b => a.sequence < b.sequence) := by
  simp only [StrictlyOrdered, List.pairwise_cons, List.pairwise_map] at h
  exact h.2

theorem StrictlyOrdered.of_pairwise (hpos : ∀ e ∈ events, 0 < e.sequence)
    (h : events.Pairwise (fun a b => a.sequence < b.sequence)) : StrictlyOrdered events := by
  simp only [StrictlyOrdered, List.pairwise_cons, List.pairwise_map, List.mem_map,
    forall_exists_index, and_imp, forall_apply_eq_imp_iff₂]
  exact ⟨hpos, h⟩

theorem StrictlyOrdered.sublist {events' : List SourceEvent} (h : StrictlyOrdered events)
    (hs : events'.Sublist events) : StrictlyOrdered events' :=
  .of_pairwise (fun _ he => h.pos (hs.subset he)) (h.pairwise.sublist hs)

end Compaction
