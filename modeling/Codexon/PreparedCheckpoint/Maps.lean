import Codexon.DictMerge
import Codexon.PreparedCheckpoint

/-!
# Codexon.PreparedCheckpoint.Maps

What the checkpoint tables are for: one map from names to bytes per namespace,
replaced or merged when a stage is published.

`Sound` is what the tables keep, and `Refines` that they hold the maps: readers get
them section by section, chunk by chunk, and the head has their totals.
-/

namespace Codexon.PreparedCheckpoint

open PreparedStore (PublicationState)

variable {N M δ : Type}

/-! ## the maps -/

section

variable [DecidableEq N] [DecidableEq M]

/-- `total_bytes` -/
def total (map : Dict M Content) : Int := map.sumVal fun chunks => (size chunks : Int)

/-- `section_count` -/
def count (map : Dict M Content) : Int := map.sumVal fun _ => 1

/-- A running checkpoint: the merged map, and the sections that it named. -/
structure Call (N M : Type) where
  ns : N
  complete : Bool
  merged : Dict M Content
  named : Dict M Content

/-- The map that the checkpoint leaves. -/
def Call.result (call : Call N M) : Dict M Content :=
  if call.complete then call.named else call.merged

/-- The namespaces that the stage is done with, and its running checkpoint. -/
structure StageMaps (N M : Type) where
  done : N → Option (Dict M Content)
  call : Option (Call N M)

structure Maps (N M : Type) where
  published : N → Option (Dict M Content)
  stage : Option (StageMaps N M)

def Maps.empty : Maps N M := ⟨fun _ => none, none⟩

/-- What an iteration does to the running checkpoint. -/
def Call.step (call : Call N M) : Event N M δ → Call N M
  | .section_ name _ chunks =>
    { call with merged := call.merged.set name chunks, named := call.named.set name chunks }
  | .tombstone name => { call with merged := call.merged.erase name }
  | _ => call

def Maps.step (maps : Maps N M) : Event N M δ → Maps N M
  | .begin_ => { maps with stage := some ⟨fun _ => none, none⟩ }
  | .start ns _ _ complete => { maps with
      stage := maps.stage.map fun stage => { stage with
        call := some ⟨ns, complete, (maps.published ns).getD {}, {}⟩ } }
  | .finish => { maps with
      stage := maps.stage.map fun stage =>
        { done := fun ns =>
            match stage.call with
            | none => stage.done ns
            | some call => if ns = call.ns then some call.result else stage.done ns
          call := none } }
  | .torn _ _ _ _ | .fail => { maps with
      stage := maps.stage.map fun stage => { stage with call := none } }
  | .publish => ⟨fun ns => (maps.stage.bind (·.done ns)).or (maps.published ns), none⟩
  | .abort | .reopen => { maps with stage := none }
  | event => { maps with
      stage := maps.stage.map fun stage =>
        { stage with call := stage.call.map (·.step event) } }

def Maps.raised (maps : Maps N M) : Event N M δ → Maps N M
  | .start _ _ _ _ | .section_ _ _ _ | .torn _ _ _ _ | .endSections | .tombstone _ |
    .endTombstones | .withdraw | .finish => { maps with
      stage := maps.stage.map fun stage => { stage with call := none } }
  | _ => maps

end

/-! ## the tables -/

def State.marker (s : State N M δ) : Option Nat := s.stage.map Stage.batch

def Published (s : State N M δ) (batch : Nat) : Prop := (batch, .published) ∈ s.publications

def State.sane (s : State N M δ) : Option Nat :=
  s.stage.bind fun stage => if stage.failed then none else some stage.batch

/-- The rows of a section. -/
def enumerate (chunks : Content) : List (Nat × List UInt8) :=
  chunks.zipIdx.map fun chunk => (chunk.2, chunk.1)

variable [DecidableEq N] [DecidableEq M]

/-- What the tables keep, whatever is written. -/
structure Sound (hashes : Hashes δ) (s : State N M δ) : Prop where
  ids : (s.publications.map Prod.fst).Nodup
  below : ∀ p ∈ s.publications, p.1 < s.nextBatch
  staged : ∀ p ∈ s.publications, p.2 = .staged → s.marker = some p.1
  open_ : ∀ stage, s.stage = some stage → (stage.batch, .staged) ∈ s.publications
  kept : Version.Kept (Published s) s.marker s.sections s.retired
  rows : s.sections.Nodup
  rowsBelow : ∀ row ∈ s.sections, row.batch < s.nextBatch
  tasksBelow : ∀ task ∈ s.retired, task.2 < s.nextBatch
  seenBelow : ∀ row ∈ s.seen, row.batch < s.nextBatch
  versionsBelow : ∀ v ∈ s.versions, v.batch < s.nextBatch
  filled : ∀ row ∈ s.sections, ∀ value, row.value = some value →
    Version.Seen (Published s) s.sane row.batch →
    (∀ batch, (row.key, batch) ∈ s.retired → Published s batch → batch ≤ row.batch) →
    ∃ chunks, value = Section.of hashes chunks ∧ chunksAt s row.key row.batch = enumerate chunks

def ReadsMap (hashes : Hashes δ) (s : State N M δ) (marker : Option Nat) (ns : N)
    (map : M → Option Content) : Prop :=
  ∀ name, Version.ReadsAs (Version.Seen (Published s) marker) s.sections (ns, name)
    ((map name).map (Section.of hashes))

def HasTotals (s : State N M δ) (ns : N) (batch : Nat) (map : Dict M Content) : Prop :=
  ∃ v, version s ns batch = some v ∧ v.totalBytes = total map ∧ v.sectionCount = count map

def HeadOf (s : State N M δ) (ns : N) : Option (Dict M Content) → Prop
  | none => s.heads.get? ns = none
  | some map => ∃ batch, s.heads.get? ns = some batch ∧ Published s batch ∧ HasTotals s ns batch map

def Phase.after : Phase M → Option M
  | .scan after => after
  | _ => none

/-- The running checkpoint of the stage. -/
structure Runs [LinearOrder M] (hashes : Hashes δ) (s : State N M δ) (stage : Stage N M)
    (running : Running N M) (call : Call N M) : Prop where
  ns : call.ns = running.namespace_
  complete : call.complete = running.complete
  reads : ReadsMap hashes s (some stage.batch) call.ns fun name =>
    if (∃ cursor ∈ running.phase.after, name ≤ cursor) ∧
        (⟨stage.batch, (call.ns, name)⟩ : Seen N M) ∉ s.seen then none
    else call.merged.get? name
  delta : running.complete = false → running.phase.after = none
  listed : ∀ name, (⟨stage.batch, (call.ns, name)⟩ : Seen N M) ∈ s.seen →
    call.merged.get? name = call.named.get? name
  unlisted : ∀ name, (⟨stage.batch, (call.ns, name)⟩ : Seen N M) ∉ s.seen →
    call.named.get? name = none
  total : running.total = total call.result
  count : running.count = count call.result
  budget : stage.totals ≠ none

/-- The stage holds its maps. -/
structure Stages [LinearOrder M] (hashes : Hashes δ) (s : State N M δ) (stage : Stage N M)
    (published : N → Option (Dict M Content)) (maps : StageMaps N M) : Prop where
  touched : ∀ row ∈ s.sections, row.batch = stage.batch → row.key.1 ∈ stage.namespaces
  named : ∀ row ∈ s.seen, row.batch = stage.batch → row.key.1 ∈ stage.namespaces
  nodup : stage.failed = false → stage.namespaces.Nodup
  done : ∀ ns map, maps.done ns = some map → ns ∈ stage.namespaces ∧
    (∀ running, stage.running = some running → running.namespace_ ≠ ns) ∧
    HasTotals s ns stage.batch map ∧ ReadsMap hashes s (some stage.batch) ns map.get?
  undone : ∀ ns, maps.done ns = none → version s ns stage.batch = none
  finished : stage.failed = false → ∀ ns ∈ stage.namespaces, maps.done ns ≠ none ∨
    ∃ running, stage.running = some running ∧ running.namespace_ = ns
  totals : ∀ totals, stage.totals = some totals → ∀ ns ∉ stage.namespaces,
    totals.find? (·.1 = ns) = (published ns).map fun map => (ns, total map, count map)
  running : ∀ running, stage.running = some running → running.namespace_ ∈ stage.namespaces ∧
    ∃ call, maps.call = some call ∧ Runs hashes s stage running call

/-- The store holds the maps, where the heads of some namespaces have moved to the open
batch. -/
structure Moved [LinearOrder M] (hashes : Hashes δ) (moved : List N) (s : State N M δ)
    (maps : Maps N M) : Prop where
  sound : Sound hashes s
  published : ∀ ns, ReadsMap hashes s none ns fun name =>
    (maps.published ns).bind fun map => map.get? name
  heads : ∀ ns ∉ moved, HeadOf s ns (maps.published ns)
  moved : ∀ ns ∈ moved, s.heads.get? ns = s.marker
  stage : ∀ stage, s.stage = some stage → ∃ staged, maps.stage = some staged ∧
    Stages hashes s stage maps.published staged
  idle : s.stage = none → maps.stage = none

abbrev Refines [LinearOrder M] (hashes : Hashes δ) (s : State N M δ) (maps : Maps N M) : Prop :=
  Moved hashes [] s maps

end Codexon.PreparedCheckpoint
