import Codexon.PreparedStore
import Mathlib.Algebra.GroupWithZero.Nat
import Mathlib.Algebra.Ring.Int.Defs

/-!
# Codexon.PreparedCheckpoint

The checkpoint tables of `PreparedStore` in `cachemonitor/prepared_store.py`:
`Stage.checkpoint` stages a delta or a complete replacement of the sections of a
namespace, `publish` makes it the head, and `maintain` deletes old sections and
their chunks.

`Stage.checkpoint` is one call with three loops.  Here it is their iterations
(`start`, `section`, `tombstone`, `withdraw`, `finish` and the changes of phase
between), so that it can stop between any two of them.  The other tables only
matter for the batches they refer to (`others`, `pins`).
-/

namespace Codexon.PreparedCheckpoint

open PreparedStore (PublicationState Plan insertIgnore)

/-! ## tables -/

structure Token where
  instance_ : String
  generation : Nat
deriving DecidableEq

/-- The bytes of a section, in chunks. -/
abbrev Content := List (List UInt8)

/-- `encoded_bytes` -/
def size (chunks : Content) : Nat := (chunks.map List.length).sum

/-- SHA-256, of the bytes of a section and of its chunks with their lengths. -/
structure Hashes (δ : Type) where
  content : List UInt8 → δ
  layout : Content → δ

/-- The columns of a row of `checkpoint_sections` that is not deleted. -/
structure Section (δ : Type) where
  digest : δ
  signature : δ
  chunkCount : Nat
  encodedBytes : Nat
deriving DecidableEq

def Section.of {δ : Type} (hashes : Hashes δ) (chunks : Content) : Section δ :=
  ⟨hashes.content chunks.flatten, hashes.layout chunks, chunks.length, size chunks⟩

/-- A row of `checkpoint_chunks`. -/
structure Chunk (N M : Type) where
  key : N × M
  batch : Nat
  ordinal : Nat
  payload : List UInt8
deriving DecidableEq

/-- A row of `checkpoint_versions`. -/
structure CheckpointVersion (N : Type) where
  namespace_ : N
  batch : Nat
  token : Token
  totalBytes : Int
  sectionCount : Int
deriving DecidableEq

/-- A row of `checkpoint_seen`. -/
structure Seen (N M : Type) where
  batch : Nat
  key : N × M
deriving DecidableEq

structure Limits where
  writeRows : Nat := 16
  checkpointBytes : Nat := 64 * 1024 * 1024
  checkpointChunkBytes : Nat := 64 * 1024
  checkpointSections : Nat := 100000
  checkpointNamespaces : Nat := 8

/-- The loop of `checkpoint` that runs; the scan has a cursor. -/
inductive Phase (M : Type) where
  | sections
  | tombstones
  | scan (after : Option M)
deriving DecidableEq

/-- The locals of a running `checkpoint`. -/
structure Running (N M : Type) where
  namespace_ : N
  complete : Bool
  token : Token
  total : Int
  count : Int
  header : Bool := false
  inputBytes : Nat := 0
  inputSections : Nat := 0
  phase : Phase M := .sections

/-- An open `Stage`. -/
structure Stage (N M : Type) where
  batch : Nat
  /-- `checkpoint_namespaces` -/
  namespaces : List N := []
  /-- `checkpoint_totals` -/
  totals : Option (List (N × Int × Int)) := none
  failed : Bool := false
  running : Option (Running N M) := none

/-- The database and the open stage.  `N` are namespaces, `M` the names of sections. -/
structure State (N M δ : Type) where
  publications : List (Nat × PublicationState) := []
  nextBatch : Nat := 1
  sections : List (Version (N × M) (Section δ)) := []
  chunks : List (Chunk N M) := []
  versions : List (CheckpointVersion N) := []
  seen : List (Seen N M) := []
  retired : List ((N × M) × Nat) := []
  heads : Dict N Nat := {}
  others : List Nat := []
  pins : List Nat := []
  instance_ : String := ""
  generation : Nat := 0
  stage : Option (Stage N M) := none

section

variable {N M δ : Type} [DecidableEq N] [DecidableEq M] [DecidableEq δ]

/-! ## reading -/

/-- `p.state=1 OR p.id=batch`, of the publication of a row. -/
def Visible (s : State N M δ) (marker : Option Nat) (batch : Nat) : Prop :=
  ∃ p ∈ s.publications, p.1 = batch ∧ (p.2 = .published ∨ marker = some batch)

instance (s : State N M δ) (marker : Option Nat) : DecidablePred (Visible s marker) :=
  fun batch => inferInstanceAs
    (Decidable (∃ p ∈ s.publications, p.1 = batch ∧ (p.2 = .published ∨ marker = some batch)))

/-- The row that passes `_checkpoint_latest`. -/
def latest (s : State N M δ) (marker : Option Nat) (key : N × M) :
    Option (Version (N × M) (Section δ)) :=
  s.sections.find? fun row =>
    row.key = key ∧ Version.Latest (Visible s marker) s.sections row

def version (s : State N M δ) (ns : N) (batch : Nat) : Option (CheckpointVersion N) :=
  s.versions.find? fun v => v.namespace_ = ns ∧ v.batch = batch

def checkpointHead (s : State N M δ) (marker : Option Nat) (ns : N) :
    Option (CheckpointVersion N) :=
  match marker.bind (version s ns) with
  | some v => some v
  | none => (s.heads.get? ns).bind (version s ns)

def headMarker (marker : Option Nat) (head : CheckpointVersion N) : Option Nat :=
  if marker = some head.batch then marker else none

def checkpointSection (s : State N M δ) (marker : Option Nat) (ns : N) (name : M) :
    Option (Nat × Section δ) :=
  match checkpointHead s marker ns with
  | none => none
  | some head =>
    (latest s (headMarker marker head) (ns, name)).bind fun row =>
      row.value.map fun value => (row.batch, value)

def chunksAt (s : State N M δ) (key : N × M) (batch : Nat) : List (Nat × List UInt8) :=
  (s.chunks.filter fun c => c.key = key ∧ c.batch = batch).map fun c => (c.ordinal, c.payload)

def checkpointChunks (s : State N M δ) (marker : Option Nat) (ns : N) (name : M) :
    Option Content :=
  (checkpointSection s marker ns name).map fun found =>
    ((chunksAt s (ns, name) found.1).mergeSort fun a b => a.1 ≤ b.1).map Prod.snd

/-- `checkpoint_sections`, all pages, but for the order by name. -/
def checkpointSections (s : State N M δ) (marker : Option Nat) (ns : N) : List (M × Section δ) :=
  match checkpointHead s marker ns with
  | none => []
  | some head =>
    s.sections.filterMap fun row =>
      if row.key.1 = ns ∧ Version.Latest (Visible s (headMarker marker head)) s.sections row then
        row.value.map fun value => (row.key.2, value)
      else none

/-! ## pruning -/

def referred (s : State N M δ) (batch : Nat) : Bool :=
  s.sections.any (·.batch = batch) || s.chunks.any (·.batch = batch) ||
    s.versions.any (·.batch = batch) || s.seen.any (·.batch = batch) ||
    s.retired.any (·.2 = batch) || s.heads.entries.any (·.2 = batch) || batch ∈ s.others

def prunePublication (s : State N M δ) (batch : Nat) : State N M δ :=
  if (batch, .published) ∈ s.publications ∧ batch ∉ s.pins ∧ referred s batch = false then
    { s with publications := s.publications.filter (·.1 ≠ batch) }
  else s

/-! ## stages -/

/-- `begin`: `none` stands for the exception, here and below. -/
def begin_ (s : State N M δ) : Option (State N M δ) :=
  match s.stage with
  | some _ => none
  | none => some { s with
      publications := s.publications ++ [(s.nextBatch, .staged)]
      nextBatch := s.nextBatch + 1
      stage := some { batch := s.nextBatch } }

def prospectiveToken (s : State N M δ) : Token := ⟨s.instance_, s.generation + 1⟩

/-- The first value of `checkpoint_totals`: the heads with their versions. -/
def publishedTotals (s : State N M δ) : List (N × Int × Int) :=
  s.heads.entries.filterMap fun head =>
    (version s head.1 head.2).map fun v => (head.1, v.totalBytes, v.sectionCount)

def checkpointBudget (limits : Limits) (totals : List (N × Int × Int)) (ns : N)
    (total count : Int) : Bool :=
  let totals := (ns, total, count) :: totals.filter (·.1 ≠ ns)
  0 ≤ total && 0 ≤ count && (totals.map (·.2.1)).sum ≤ limits.checkpointBytes &&
    (totals.map (·.2.2)).sum ≤ limits.checkpointSections &&
    totals.length ≤ limits.checkpointNamespaces

/-- `checkpoint`, to its first loop. -/
def start (limits : Limits) (ns : N) (base : Option Token) (token : Token) (complete : Bool)
    (s : State N M δ) : Option (State N M δ) :=
  match s.stage with
  | none => none
  | some stage =>
    let head := checkpointHead s none ns
    let previousToken := head.map (·.token)
    let totals := stage.totals.getD (publishedTotals s)
    let (total, count) : Int × Int :=
      if complete then (0, 0)
      else ((totals.find? (·.1 = ns)).map (·.2)).getD (0, 0)
    if stage.running.isSome ∨ ns ∈ stage.namespaces then none
    else if token ≠ prospectiveToken s then none
    else if (complete = false ∧ (head = none ∨ base ≠ previousToken)) ∨
        (complete = true ∧ base.isSome ∧ base ≠ previousToken) then none
    else if checkpointBudget limits totals ns total count then
      some { s with
        stage := some { stage with
          namespaces := ns :: stage.namespaces
          totals := some totals
          running := some {
            namespace_ := ns, complete := complete, token := token
            total := total, count := count } } }
    else none

def chunksValid (limits : Limits) (chunks : Content) : Bool :=
  !chunks.isEmpty &&
    chunks.all (fun chunk => !chunk.isEmpty && chunk.length ≤ limits.checkpointChunkBytes) &&
    chunks.dropLast.all (fun chunk => chunk.length = limits.checkpointChunkBytes) &&
    size chunks ≤ limits.checkpointBytes

/-- The section that a staged read meets, and whether there is a row at all. -/
def previous (s : State N M δ) (batch : Nat) (key : N × M) : Option (Option (Section δ)) :=
  (latest s (some batch) key).map (·.value)

/-- The size and the number of what was there. -/
def oldTotals (old : Option (Section δ)) : Int × Int :=
  match old with
  | none => (0, 0)
  | some row => (row.encodedBytes, 1)

/-- `queue('retired', …)`, flushed. -/
def retire (s : State N M δ) (key : N × M) (batch : Nat) : List ((N × M) × Nat) :=
  insertIgnore s.retired (key, batch)

variable (hashes : Hashes δ) (limits : Limits) (header : M)

def checkpointStep (name : M) (digest : δ) (chunks : Content) (s : State N M δ) :
    Option (State N M δ) :=
  match s.stage with
  | none => none
  | some stage =>
    match stage.running with
    | none => none
    | some running =>
      let key := (running.namespace_, name)
      let old := previous s stage.batch key
      let (oldSize, oldCount) := oldTotals old.join
      let running' := { running with
        total := if running.complete then running.total + size chunks
          else running.total - oldSize + size chunks
        count := if running.complete then running.count + 1 else running.count - oldCount + 1
        header := running.header || name = header
        inputBytes := running.inputBytes + size chunks
        inputSections := running.inputSections + 1 }
      let s' := { s with
        seen := s.seen ++ [⟨stage.batch, key⟩]
        stage := some { stage with running := some running' } }
      if running.phase ≠ .sections ∨ chunksValid limits chunks = false ∨
          hashes.content chunks.flatten ≠ digest ∨
          running'.inputBytes > limits.checkpointBytes ∨
          running'.inputSections > limits.checkpointSections ∨
          ⟨stage.batch, key⟩ ∈ s.seen then none
      else if old.join.map (·.signature) = some (hashes.layout chunks) then some s'
      else if s.sections.any (fun row => row.key = key && row.batch = stage.batch) ||
          s.chunks.any (fun c => c.key = key && c.batch = stage.batch) then none
      else some { s' with
        sections := Version.put s.sections ⟨key, stage.batch, some (Section.of hashes chunks)⟩
        retired := if old.isSome then retire s key stage.batch else s.retired
        chunks := s.chunks ++ chunks.zipIdx.map fun chunk =>
          ⟨key, stage.batch, chunk.2, chunk.1⟩ }

def State.goOn (s : State N M δ) (stage : Stage N M) (running : Running N M) : State N M δ :=
  { s with stage := some { stage with running := some running } }

def endSections (s : State N M δ) : Option (State N M δ) :=
  match s.stage with
  | none => none
  | some stage =>
    match stage.running with
    | none => none
    | some running =>
      if running.phase = .sections ∧ running.header = true then
        some (s.goOn stage { running with phase := .tombstones })
      else none

def tombstoneStep (name : M) (s : State N M δ) : Option (State N M δ) :=
  match s.stage with
  | none => none
  | some stage =>
    match stage.running with
    | none => none
    | some running =>
      let key := (running.namespace_, name)
      let old := (previous s stage.batch key).join
      let (removed, number) := oldTotals old
      let running' := if running.complete then running
        else { running with total := running.total - removed, count := running.count - number }
      let s' := { s with
        seen := s.seen ++ [⟨stage.batch, key⟩]
        stage := some { stage with running := some running' } }
      if running.phase ≠ .tombstones ∨ name = header ∨ ⟨stage.batch, key⟩ ∈ s.seen then none
      else if old.isNone then some s'
      else some { s' with
        sections := Version.put s.sections ⟨key, stage.batch, none⟩
        retired := retire s key stage.batch }

def endTombstones (s : State N M δ) : Option (State N M δ) :=
  match s.stage with
  | none => none
  | some stage =>
    match stage.running with
    | none => none
    | some running =>
      if running.phase = .tombstones then
        some (s.goOn stage { running with phase := .scan none })
      else none

def missing [LinearOrder M] (s : State N M δ) (batch : Nat) (ns : N) (after : Option M) : List M :=
  ((s.sections.filter fun row =>
    row.key.1 = ns ∧ (∀ cursor ∈ after, cursor < row.key.2) ∧ row.value.isSome ∧
      Version.Latest (Visible s (some batch)) s.sections row ∧
      (⟨batch, row.key⟩ : Seen N M) ∉ s.seen).map (·.key.2)).mergeSort (· ≤ ·)

/-- An iteration of the scan: a page of sections that were not named is deleted. -/
def withdraw [LinearOrder M] (s : State N M δ) : Option (State N M δ) :=
  match s.stage with
  | none => none
  | some stage =>
    match stage.running with
    | none => none
    | some running =>
      match running.complete, running.phase with
      | true, .scan after =>
        let page := (missing s stage.batch running.namespace_ after).take limits.writeRows
        match page.getLast? with
        | none => none
        | some last => some { s with
            sections := page.foldl (fun rows name =>
              Version.put rows ⟨(running.namespace_, name), stage.batch, none⟩) s.sections
            retired := page.foldl (fun retired name =>
              insertIgnore retired ((running.namespace_, name), stage.batch)) s.retired
            stage := some { stage with
              running := some { running with phase := .scan (some last) } } }
      | _, _ => none

/-- The end of `checkpoint`, when the scan finds nothing. -/
def finish [LinearOrder M] (s : State N M δ) : Option (State N M δ) :=
  match s.stage with
  | none => none
  | some stage =>
    match stage.running with
    | none => none
    | some running =>
      match running.phase with
      | .scan after =>
        let ns := running.namespace_
        let totals := stage.totals.getD []
        if running.complete = true ∧ missing s stage.batch ns after ≠ [] then none
        else if checkpointBudget limits totals ns running.total running.count = false ∨
            (version s ns stage.batch).isSome then none
        else some { s with
          versions := s.versions ++
            [⟨ns, stage.batch, running.token, running.total, running.count⟩]
          stage := some { stage with
            totals := some ((ns, running.total, running.count) :: totals.filter (·.1 ≠ ns))
            running := none } }
      | _ => none

/-- The loop of `publish` over the namespaces. -/
def publishNamespace (batch : Nat) (s : State N M δ) (ns : N) : State N M δ :=
  let s' := { s with heads := s.heads.set ns batch }
  match s.heads.get? ns with
  | none => s'
  | some before => prunePublication
      { s' with versions := s.versions.filter fun v => ¬ (v.namespace_ = ns ∧ v.batch = before) }
      before

/-- `Stage.publish`; what else may refuse it is left to the caller. -/
def publish (s : State N M δ) : Option (State N M δ) :=
  match s.stage with
  | none => none
  | some stage =>
    if stage.failed ∨ stage.running.isSome then none
    else
      let s := stage.namespaces.foldl (publishNamespace stage.batch) s
      some (prunePublication
        { s with
          publications := s.publications.map fun p =>
            if p.1 = stage.batch then (p.1, .published) else p
          generation := s.generation + 1
          stage := none } stage.batch)

def abort (s : State N M δ) : Option (State N M δ) :=
  match s.stage with
  | none => none
  | some stage => some { s with
      publications := s.publications.map fun p =>
        if p.1 = stage.batch ∧ p.2 = .staged then (p.1, .abandoned) else p
      stage := none }

/-- The store is opened again: a staged batch was left behind by a crash. -/
def reopen (s : State N M δ) : State N M δ :=
  { s with
    publications := s.publications.map fun p =>
      if p.2 = .staged then (p.1, .abandoned) else p
    stage := none }

/-- The call raises: `self.failed = True`. -/
def fail (namespaces : List N) (s : State N M δ) : State N M δ :=
  { s with stage := s.stage.map fun stage =>
      { stage with
        namespaces := namespaces ++ stage.namespaces, failed := true, running := none } }

/-- A section of which only some chunks were flushed when the call raised. -/
def torn (name : M) (digest : δ) (chunks : Content) (flushed : Nat) (s : State N M δ) :
    Option (State N M δ) :=
  (checkpointStep hashes limits header name digest chunks s).map fun s' =>
    fail [] { s' with chunks := s'.chunks.filter fun c => c ∈ s.chunks ∨ c.ordinal < flushed }

/-! ## maintenance -/

def cleanAbandoned (rows : Nat) (plan : Plan) (batch : Nat) (s : State N M δ) : State N M δ :=
  if s.chunks.any (·.batch = batch) then
    let gone := (plan.order (s.chunks.filter (·.batch = batch))).take rows
    { s with chunks := s.chunks.filter (· ∉ gone) }
  else if s.sections.any (·.batch = batch) then
    let gone := (plan.order (s.sections.filter (·.batch = batch))).take rows
    { s with sections := s.sections.filter (· ∉ gone) }
  else if s.versions.any (·.batch = batch) then
    let gone := (plan.order (s.versions.filter (·.batch = batch))).take rows
    { s with versions := s.versions.filter (· ∉ gone) }
  else if s.seen.any (·.batch = batch) then
    let gone := (plan.order (s.seen.filter (·.batch = batch))).take rows
    { s with seen := s.seen.filter (· ∉ gone) }
  else if s.retired.any (·.2 = batch) then
    let gone := (plan.order (s.retired.filter (·.2 = batch))).take rows
    { s with retired := s.retired.filter (· ∉ gone) }
  else if batch ∈ s.others then
    { s with others := s.others.filter (· ≠ batch) ++ (s.others.filter (· = batch)).drop rows }
  else { s with publications := s.publications.filter (·.1 ≠ batch) }

/-- The slice of a task of `checkpoint_retired`. -/
def cleanTask (rows : Nat) (plan : Plan) (task : (N × M) × Nat) (s : State N M δ) :
    State N M δ :=
  let oldChunks := (plan.order (s.chunks.filter fun c =>
    c.key = task.1 ∧ c.batch < task.2)).take rows
  let oldSections := (plan.order (s.sections.filter fun row =>
    row.key = task.1 ∧ row.batch < task.2)).take rows
  if oldChunks ≠ [] then
    (oldChunks.map (·.batch)).dedup.foldl prunePublication
      { s with chunks := s.chunks.filter (· ∉ oldChunks) }
  else if oldSections ≠ [] then
    (oldSections.map (·.batch)).dedup.foldl prunePublication
      { s with sections := s.sections.filter (· ∉ oldSections) }
  else
    prunePublication
      { s with
        sections := s.sections.filter fun row =>
          ¬ (row.key = task.1 ∧ row.batch = task.2 ∧ row.value = none)
        retired := s.retired.filter (· ≠ task) } task.2

/-- `PreparedStore.maintain`, where the cleaning of the other tables has no turn. -/
def maintain (limits : Limits) (rows : Nat) (plan : Plan) (s : State N M δ) : State N M δ :=
  let rows := min (max 1 rows) limits.writeRows
  match (plan.order (s.publications.filter (·.2 = .abandoned))).head? with
  | some p => cleanAbandoned rows plan p.1 s
  | none =>
    match (plan.order (s.retired.filter fun task =>
        (task.2, PublicationState.published) ∈ s.publications)).head? with
    | some task => cleanTask rows plan task s
    | none =>
      let gone := (plan.order (s.seen.filter fun row =>
        (row.batch, PublicationState.published) ∈ s.publications)).take rows
      (gone.map (·.batch)).dedup.foldl prunePublication
        { s with seen := s.seen.filter (· ∉ gone) }

/-! ## runs -/

/-- A call of the store, or an iteration of `Stage.checkpoint`.  `others` is any call that
writes or cleans the other tables. -/
inductive Event (N M δ : Type) where
  | begin_
  | start (ns : N) (base : Option Token) (token : Token) (complete : Bool)
  | section_ (name : M) (digest : δ) (chunks : Content)
  | torn (name : M) (digest : δ) (chunks : Content) (flushed : Nat)
  | endSections
  | tombstone (name : M)
  | endTombstones
  | withdraw
  | finish
  | publish
  | abort
  | reopen
  | fail
  | others (batches pins pruned : List Nat)
  | maintain (rows : Nat) (plan : Plan)

variable [LinearOrder M]

/-- The call as an operation that may raise. -/
def perform (s : State N M δ) : Event N M δ → Option (State N M δ)
  | .begin_ => begin_ s
  | .start ns base token complete => start limits ns base token complete s
  | .section_ name digest chunks => checkpointStep hashes limits header name digest chunks s
  | .torn name digest chunks flushed => torn hashes limits header name digest chunks flushed s
  | .endSections => endSections s
  | .tombstone name => tombstoneStep header name s
  | .endTombstones => endTombstones s
  | .withdraw => withdraw limits s
  | .finish => finish limits s
  | .publish => publish s
  | .abort => abort s
  | .reopen => some (reopen s)
  | .fail => some (fail [] s)
  | .others batches pins pruned =>
    some (pruned.foldl prunePublication { s with others := batches, pins := pins })
  | .maintain rows plan => some (maintain limits rows plan s)

def raised (s : State N M δ) : Event N M δ → State N M δ
  | .start ns _ _ _ => fail [ns] s
  | .section_ _ _ _ | .torn _ _ _ _ | .endSections | .tombstone _ | .endTombstones | .withdraw |
    .finish => fail [] s
  | _ => s

def step (s : State N M δ) (event : Event N M δ) : State N M δ :=
  (perform hashes limits header s event).getD (raised s event)

end

end Codexon.PreparedCheckpoint
