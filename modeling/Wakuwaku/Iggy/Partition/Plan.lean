import Wakuwaku.Iggy.Events
import Mathlib.Data.List.Sort
import Mathlib.Data.Prod.Lex
import Mathlib.Logic.Function.Basic

/-! # Per-key planning of a polled batch

`Plan.new` turns one polled batch into the weaker order its events require: keys are independent,
the segments of a key are processed one after another, and inside a segment the head run goes
first, the body runs follow in any order, and the tail run goes last. Segments are cut in one walk
over the log (`assignSegments`), the indices are sorted by key, segment, rank and tag, and a
builder scans the sorted indices and rebuilds the nested ranges of the plan. -/

namespace Wakuwaku.Iggy.Partition

open Wakuwaku.Iggy.Events

/-! ### The data of a plan -/

/-- Header data of one polled message, as needed by the planner. -/
structure PlanRecord (K : Type) where
  key : K
  tag : EventTypeTag
  ordering : EventAtomicOrdering
  deriving DecidableEq, Repr

/-- A half-open range of indices. -/
structure Range where
  start : ℕ
  stop : ℕ
  deriving DecidableEq, Repr

/-- The slice of `l` in a range. -/
def Range.slice {α : Type} (r : Range) (l : List α) : List α := (l.drop r.start).take (r.stop - r.start)

/-- The segments of one key. -/
structure KeyPlan (K : Type) where
  key : K
  segments : Range
  deriving DecidableEq, Repr

/-- A group of runs of one key, totally ordered against the key's other segments. -/
structure Segment where
  head : Option ℕ
  body : Range
  tail : Option ℕ
  deriving DecidableEq, Repr

/-- The events of one type inside one segment. -/
structure Run where
  tag : EventTypeTag
  records : Range
  deriving DecidableEq, Repr

/-- Execution plan for one polled batch. -/
structure Plan (K : Type) where
  /-- Input indices, grouped by key, then segment, then run. -/
  order : List ℕ
  runs : List Run
  segments : List Segment
  keys : List (KeyPlan K)
  deriving DecidableEq, Repr

namespace Plan

variable {K : Type} (plan : Plan K)

/-- The segments of `key`, in the order they must be processed. -/
def segmentsOf (key : KeyPlan K) : List Segment := key.segments.slice plan.segments

/-- Run that must finish before any other run of `segment` starts. -/
def head (segment : Segment) : Option Run := segment.head.bind (plan.runs[·]?)

/-- Runs that may be processed in any order, after the head and before the tail. -/
def body (segment : Segment) : List Run := segment.body.slice plan.runs

/-- Run that may only start after every other run of `segment` finished. -/
def tail (segment : Segment) : Option Run := segment.tail.bind (plan.runs[·]?)

/-- Indices into the planned records, in log order. -/
def records (run : Run) : List ℕ := run.records.slice plan.order

end Plan

/-! ### Assigning segments -/

/-- Position of a run inside its segment. -/
inductive Rank where
  | head
  | body
  | tail
  deriving DecidableEq, Repr

/-- The order of the ranks. -/
def Rank.toNat : Rank → ℕ
  | .head => 0
  | .body => 1
  | .tail => 2

structure SegmentMeta where
  /-- Index into the key list. -/
  key : ℕ
  head : Option EventTypeTag
  tail : Option EventTypeTag
  /-- Holds a type other than `head`. -/
  mixed : Bool
  deriving DecidableEq, Repr

namespace SegmentMeta

def rank (m : SegmentMeta) (tag : EventTypeTag) : Rank :=
  if m.head = some tag then .head
  else if m.tail = some tag then .tail
  else .body

/-- Whether a record closes the segment before it, so that it starts a new one. -/
def cut (m : SegmentMeta) (tag : EventTypeTag) : EventAtomicOrdering → Bool
  | .acquire | .acqRel => true
  | .release => m.mixed && m.head == some tag
  | .relaxed => false

/-- The segment after it took in a record. -/
def accept (m : SegmentMeta) (tag : EventTypeTag) (ordering : EventAtomicOrdering) : SegmentMeta :=
  let head := if ordering.acquires then some tag else m.head
  { key := m.key
    head
    tail := if ordering = .release then some tag else m.tail
    mixed := m.mixed || head.any (· != tag) }

end SegmentMeta

/-- The state of the walk over the log. -/
structure Walk (K : Type) where
  /-- For every key met, its index into `keys` and the segment still accepting records. -/
  slots : K → Option (ℕ × Option ℕ)
  keys : List (KeyPlan K)
  metas : List SegmentMeta
  segmentOf : List ℕ

section Assign

variable {K : Type} [DecidableEq K]

def Walk.start : Walk K := ⟨fun _ => none, [], [], []⟩

/-- The slot of a key, inserted at its first record: its index, its open segment and the keys. -/
def Walk.slot (w : Walk K) (key : K) : ℕ × Option ℕ × List (KeyPlan K) :=
  match w.slots key with
  | some (index, opened) => (index, opened, w.keys)
  | none => (w.keys.length, none, w.keys ++ [⟨key, ⟨0, 0⟩⟩])

/-- The segment a record goes to, and the segments with it: the open one unless the record cuts it
off, else a new one. -/
def Walk.target (w : Walk K) (record : PlanRecord K) (key : ℕ) (opened : Option ℕ) :
    ℕ × List SegmentMeta :=
  match opened.filter fun s => !(w.metas[s]?).any (·.cut record.tag record.ordering) with
  | some s => (s, w.metas)
  | none => (w.metas.length, w.metas ++ [⟨key, none, none, false⟩])

/-- Give one record a segment. -/
def Walk.step (w : Walk K) (record : PlanRecord K) : Walk K :=
  let slot := w.slot record.key
  let target := w.target record slot.1 slot.2.1
  { slots := Function.update w.slots record.key
      (some (slot.1, if record.ordering = .release then none else some target.1))
    keys := slot.2.2
    metas := target.2.modify target.1 (·.accept record.tag record.ordering)
    segmentOf := w.segmentOf ++ [target.1] }

/-- Walk the log once and give every record a segment. -/
def assignSegments (records : List (PlanRecord K)) : Walk K := records.foldl Walk.step Walk.start

end Assign

/-! ### Building the plan -/

structure Builder (K : Type) where
  runs : List Run
  segments : List Segment
  keys : List (KeyPlan K)
  /-- Index into the segment metadata, and the segment built from it so far. -/
  opened : Option (ℕ × Segment)

section Build

variable {K : Type}

/-- The key of the segment, whose range takes in the segment at `index`. -/
def KeyPlan.extend (index : ℕ) (key : KeyPlan K) : KeyPlan K :=
  if key.segments.start = key.segments.stop then { key with segments := ⟨index, index + 1⟩ }
  else { key with segments := ⟨key.segments.start, index + 1⟩ }

def Builder.finishSegment (b : Builder K) (metas : List SegmentMeta) : Builder K :=
  match b.opened with
  | none => b
  | some (m, segment) =>
    { runs := b.runs
      segments := b.segments ++ [segment]
      keys := match metas[m]? with
        | some meta' => b.keys.modify meta'.key (KeyPlan.extend b.segments.length)
        | none => b.keys
      opened := none }

/-- The segment being built, after the run at `index` of rank `rank` was pushed. -/
def Segment.place (building : Segment) (rank : Rank) (index : ℕ) : Segment :=
  match rank with
  | .head => { building with head := some index, body := ⟨index + 1, index + 1⟩ }
  | .body => { building with body := ⟨building.body.start, index + 1⟩ }
  | .tail => { building with tail := some index }

/-- Runs arrive sorted by segment and rank. -/
def Builder.pushRun (b : Builder K) (metas : List SegmentMeta) (segment : ℕ) (rank : Rank)
    (tag : EventTypeTag) (records : Range) : Builder K :=
  let b := if b.opened.any (·.1 != segment) then b.finishSegment metas else b
  let index := b.runs.length
  let building := b.opened.getD (segment, ⟨none, ⟨index, index⟩, none⟩)
  { b with
    runs := b.runs ++ [⟨tag, records⟩]
    opened := some (building.1, building.2.place rank index) }

/-- The segment, rank and tag of a record: what the records of one run share. -/
structure RunKey where
  segment : ℕ
  rank : Rank
  tag : EventTypeTag
  deriving DecidableEq, Repr

/-- The run key of the record at an index. -/
def runKey (records : List (PlanRecord K)) (w : Walk K) (i : ℕ) : RunKey :=
  let segment := w.segmentOf.getD i 0
  let tag := ((records[i]?).map PlanRecord.tag).getD ⟨0⟩
  ⟨segment, ((w.metas[segment]?).map (·.rank tag)).getD .body, tag⟩

/-- What the indices are sorted by. -/
def sortKey (records : List (PlanRecord K)) (w : Walk K) (i : ℕ) : ℕ ×ₗ ℕ ×ₗ ℕ ×ₗ ℕ ×ₗ ℕ :=
  let r := runKey records w i
  toLex (((w.metas[r.segment]?).map SegmentMeta.key).getD 0, toLex (r.segment, toLex (r.rank.toNat,
    toLex (r.tag.get.toNat, i))))

/-- The builder, and the run being scanned with its first position in `order`. -/
structure Scan (K : Type) where
  builder : Builder K
  run : Option (RunKey × ℕ)

/-- Push the scanned run, which ends before `position`. -/
def Scan.flush (s : Scan K) (metas : List SegmentMeta) (position : ℕ) : Builder K :=
  match s.run with
  | some (r, start) => s.builder.pushRun metas r.segment r.rank r.tag ⟨start, position⟩
  | none => s.builder

/-- Scan the index whose run key is `key`, at `position`. -/
def Scan.step (metas : List SegmentMeta) (s : Scan K) (key : RunKey) (position : ℕ) : Scan K :=
  if s.run.any (·.1 = key) then s
  else ⟨s.flush metas position, some (key, position)⟩

/-- Plan `records`, given in log order. -/
def Plan.new [DecidableEq K] (records : List (PlanRecord K)) : Plan K :=
  let w := assignSegments records
  let order := (List.range records.length).insertionSort
    fun i j => sortKey records w i ≤ sortKey records w j
  let scan := order.zipIdx.foldl
    (fun s (i, position) => s.step w.metas (runKey records w i) position)
    (⟨⟨[], [], w.keys, none⟩, none⟩ : Scan K)
  let builder := (scan.flush w.metas order.length).finishSegment w.metas
  ⟨order, builder.runs, builder.segments, builder.keys⟩

end Build

end Wakuwaku.Iggy.Partition
