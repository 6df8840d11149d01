import Mathlib.Algebra.BigOperators.Group.List.Basic
import Codexon.PreparedCheckpoint.Publishing

/-!
# Codexon.PreparedCheckpoint.Runs

Every call keeps the maps, and so does a run of calls in any order: a reader gets a
namespace section by section and chunk by chunk, and the totals of its head are
those of what it gets.
-/

namespace Codexon

open List

namespace PreparedCheckpoint

open PreparedStore (Plan)

variable {N M δ : Type} {hashes : Hashes δ} [DecidableEq N] [LinearOrder M] [DecidableEq δ]
  {s s' : State N M δ} {maps : Maps N M}

/-! ## calls -/

section

variable {limits : Limits} {header : M}

/-- **A call** does to the tables what it does to the maps. -/
theorem refines_perform (hlayout : Function.Injective hashes.layout)
    (hlimits : 0 < limits.writeRows) (h : Refines hashes s maps) {event : Event N M δ}
    (hperform : perform hashes limits header s event = some s') :
    Refines hashes s' (maps.step event) := by
  cases event with
  | begin_ => exact refines_begin h hperform
  | start ns base token complete => exact refines_start h hperform
  | section_ name digest chunks => exact refines_section hlayout h hperform
  | torn name digest chunks flushed => exact refines_torn hlayout h hperform
  | endSections =>
    rw [Maps.step_rest maps (.inl rfl)]
    exact refines_endSections h hperform
  | tombstone name => exact refines_tombstone h hperform
  | endTombstones =>
    rw [Maps.step_rest maps (.inr (.inl rfl))]
    exact refines_endTombstones h hperform
  | withdraw =>
    rw [Maps.step_rest maps (.inr (.inr rfl))]
    exact refines_withdraw h hperform
  | finish => exact refines_finish h hperform
  | publish => exact refines_publish h hperform
  | abort => exact refines_abort h hperform
  | reopen =>
    cases hperform
    exact refines_reopen h
  | fail =>
    cases hperform
    exact refines_fail h []
  | others batches pins pruned =>
    cases hperform
    have hmaps : maps.step (.others batches pins pruned : Event N M δ) = maps := by
      obtain ⟨published, stage⟩ := maps
      cases stage with
      | none => rfl
      | some stage => cases hcall : stage.call <;> simp [Maps.step, Call.step]
    rw [hmaps]
    exact moved_prunePublications (h.unread batches pins) pruned
  | maintain rows plan =>
    cases hperform
    have hmaps : maps.step (.maintain rows plan : Event N M δ) = maps := by
      obtain ⟨published, stage⟩ := maps
      cases stage with
      | none => rfl
      | some stage => cases hcall : stage.call <;> simp [Maps.step, Call.step]
    rw [hmaps]
    exact moved_maintain h hlimits rows plan

omit [DecidableEq δ] in
theorem refines_raised (h : Refines hashes s maps) (event : Event N M δ) :
    Refines hashes (raised s event) (maps.raised event) := by
  cases event with
  | start ns base token complete => exact refines_fail h [ns]
  | section_ name digest chunks => exact refines_fail h []
  | torn name digest chunks flushed => exact refines_fail h []
  | endSections => exact refines_fail h []
  | tombstone name => exact refines_fail h []
  | endTombstones => exact refines_fail h []
  | withdraw => exact refines_fail h []
  | finish => exact refines_fail h []
  | _ => exact h

/-- The store and what it stands for, call by call. -/
def stepBoth (hashes : Hashes δ) (limits : Limits) (header : M) (both : State N M δ × Maps N M)
    (event : Event N M δ) : State N M δ × Maps N M :=
  (step hashes limits header both.1 event,
    if (perform hashes limits header both.1 event).isSome then both.2.step event
    else both.2.raised event)

theorem refines_step (hlayout : Function.Injective hashes.layout) (hlimits : 0 < limits.writeRows)
    {both : State N M δ × Maps N M} (h : Refines hashes both.1 both.2) (event : Event N M δ) :
    Refines hashes (stepBoth hashes limits header both event).1
      (stepBoth hashes limits header both event).2 := by
  simp only [stepBoth, step]
  cases hperform : perform hashes limits header both.1 event with
  | none => exact refines_raised h event
  | some s' => exact refines_perform hlayout hlimits h hperform

omit [DecidableEq δ] in
theorem refines_init : Refines hashes ({} : State N M δ) Maps.empty where
  sound := by
    constructor <;> simp [State.marker]
    exact ⟨by simp [Version.Single], by simp, by simp⟩
  published ns name := Version.readsAs_nil _
  heads ns _ := rfl
  moved := by simp
  stage _ hstage := nomatch hstage
  idle _ := rfl

theorem refines_run (hlayout : Function.Injective hashes.layout) (hlimits : 0 < limits.writeRows)
    {both : State N M δ × Maps N M} (h : Refines hashes both.1 both.2)
    (events : List (Event N M δ)) :
    Refines hashes (run (stepBoth hashes limits header) both events).1
      (run (stepBoth hashes limits header) both events).2 :=
  run_inv (I := fun both : State N M δ × Maps N M => Refines hashes both.1 both.2)
    (fun _ event h => refines_step hlayout hlimits h event) h events

end

/-! ## reading -/

theorem enumerate_snd (chunks : Content) : (enumerate chunks).map Prod.snd = chunks := by
  simp [enumerate, List.map_map, Function.comp_def]

theorem enumerate_sorted (chunks : Content) :
    (enumerate chunks).mergeSort (fun a b => a.1 ≤ b.1) = enumerate chunks := by
  apply mergeSort_of_pairwise
  rw [enumerate, pairwise_map, pairwise_iff_getElem]
  intro i j hi hj hlt
  simp only [List.getElem_zipIdx, decide_eq_true_eq]
  omega

variable {marker : Option Nat}

theorem ReadsMap.sections (h : Sound hashes s) (hmarker : marker = none ∨ marker = s.marker)
    {ns : N} {map : Dict M Content}
    (hreads : ReadsMap hashes s marker ns map.get?) :
    (s.sections.filterMap fun row =>
      if row.key.1 = ns ∧ Version.Latest (Visible s marker) s.sections row then
        row.value.map fun value => (row.key.2, value)
      else none).Perm (map.entries.map fun e => (e.1, Section.of hashes e.2)) := by
  have hvisible := visible_iff h hmarker
  have hfound : ∀ (row : Version (N × M) (Section δ)) (name : M) (value : Section δ),
      (name, value) ∈ (if row.key.1 = ns ∧ Version.Latest (Visible s marker) s.sections row then
        row.value.map fun value => (row.key.2, value) else none) ↔
      Version.Latest (Version.Seen (Published s) marker) s.sections row ∧ row.key = (ns, name) ∧
        row.value = some value := by
    intro row name value
    obtain ⟨⟨rowNs, rowName⟩, batch, rowValue⟩ := row
    simp only [hvisible, Option.mem_def]
    cases rowValue <;> grind
  rw [perm_ext_iff_of_nodup]
  · rintro ⟨name, value⟩
    rw [mem_filterMap]
    calc (∃ row ∈ s.sections, _ = some (name, value))
        ↔ Version.Reads (Version.Seen (Published s) marker) s.sections (ns, name) value := by
          constructor
          · rintro ⟨row, -, hrow⟩
            exact ⟨row, (hfound row name value).mp hrow⟩
          · rintro ⟨row, hrow⟩
            exact ⟨row, hrow.1.1, (hfound row name value).mpr hrow⟩
      _ ↔ (map.get? name).map (Section.of hashes) = some value := hreads name value
      _ ↔ (name, value) ∈ map.entries.map fun e => (e.1, Section.of hashes e.2) := by
          simp only [Option.map_eq_some_iff, Dict.get?_eq_some, List.mem_map, Prod.mk.injEq,
            Prod.exists]
          grind
  · apply h.rows.filterMap
    rintro first second ⟨name, value⟩ hfirst hsecond
    obtain ⟨hlatest, hkey, -⟩ := (hfound first name value).mp hfirst
    obtain ⟨hlatest', hkey', -⟩ := (hfound second name value).mp hsecond
    have hle := hlatest.2.2 second hlatest'.1 (hkey'.trans hkey.symm) hlatest'.2.1
    have hge := hlatest'.2.2 first hlatest.1 (hkey.trans hkey'.symm) hlatest.2.1
    exact h.kept.single second hlatest'.1 first hlatest.1 (hkey.trans hkey'.symm) (by omega)
  · apply List.Nodup.of_map Prod.fst
    simpa [List.map_map, Function.comp_def] using map.nodup

omit [DecidableEq δ] in
theorem Sound.filled_latest (h : Sound hashes s)
    (hsane : ∀ batch, marker = some batch → s.sane = some batch) {row : Version (N × M) (Section δ)}
    (hlatest : Version.Latest (Version.Seen (Published s) marker) s.sections row)
    {value : Section δ} (hvalue : row.value = some value) :
    ∃ chunks, value = Section.of hashes chunks ∧
      chunksAt s row.key row.batch = enumerate chunks := by
  apply h.filled row hlatest.1 value hvalue
  · rcases hlatest.2.1 with hpublished | hopen
    · exact .inl hpublished
    · exact .inr (hsane row.batch hopen)
  · intro batch htask hpublished
    by_contra hlt
    obtain ⟨new, hnew, hkey, hle, hbatch⟩ := h.kept.superseded (row.key, batch) htask
      (.inl hpublished) row hlatest.1 rfl (by simp only; omega)
    simp only at hkey hle hbatch
    have hseen : Published s new.batch := by
      rcases hbatch with hsame | hpublished'
      · exact hsame ▸ hpublished
      · exact hpublished'
    have hnewest := hlatest.2.2 new hnew hkey (.inl hseen)
    omega

theorem Sound.chunks (h : Sound hashes s) (hlayout : Function.Injective hashes.layout)
    (hmarker : marker = none ∨ marker = s.marker)
    (hsane : ∀ batch, marker = some batch → s.sane = some batch) {key : N × M}
    {content : Option Content}
    (hreads : Version.ReadsAs (Version.Seen (Published s) marker) s.sections key
      (content.map (Section.of hashes))) :
    (((PreparedCheckpoint.latest s marker key).bind fun row => row.value.map fun value => (row.batch, value)).map
      fun found => ((chunksAt s key found.1).mergeSort fun a b => a.1 ≤ b.1).map Prod.snd) =
      content := by
  have hvalue := h.latest hmarker hreads
  cases hrow : PreparedCheckpoint.latest s marker key with
  | none =>
    rw [hrow] at hvalue
    cases content with
    | none => rfl
    | some chunks => simp at hvalue
  | some row =>
    have hfound := find?_some hrow
    rw [decide_eq_true_eq, visible_iff h hmarker] at hfound
    obtain ⟨rfl, hlatest⟩ := hfound
    rw [hrow, Option.bind_some] at hvalue
    cases content with
    | none => simp [hvalue]
    | some chunks =>
      rw [Option.map_some] at hvalue
      obtain ⟨chunks', hsection, hchunks⟩ := h.filled_latest hsane hlatest hvalue
      have hsame : chunks = chunks' := hlayout (congrArg Section.signature hsection)
      simp only [hvalue, Option.bind_some, Option.map_some, hchunks, enumerate_sorted,
        enumerate_snd, hsame]

/-- The reader with the marker gets the map of the namespace, and the head has its totals. -/
def Presents (hashes : Hashes δ) (s : State N M δ) (marker : Option Nat) (ns : N) :
    Option (Dict M Content) → Prop
  | none => checkpointHead s marker ns = none ∧ checkpointSections s marker ns = [] ∧
      ∀ name, checkpointChunks s marker ns name = none
  | some map =>
    (∀ name, checkpointChunks s marker ns name = map.get? name) ∧
    (checkpointSections s marker ns).Perm
      (map.entries.map fun e => (e.1, Section.of hashes e.2)) ∧
    ∃ head, checkpointHead s marker ns = some head ∧
      head.totalBytes = ((checkpointSections s marker ns).map
        fun found => (found.2.encodedBytes : Int)).sum ∧
      head.sectionCount = (checkpointSections s marker ns).length

theorem presents_none {ns : N}
    (hhead : checkpointHead s marker ns = none) : Presents hashes s marker ns none := by
  simp [Presents, checkpointSections, checkpointChunks, checkpointSection, hhead]

theorem Sound.presents (h : Sound hashes s) (hlayout : Function.Injective hashes.layout)
    {ns : N} {map : Dict M Content} {head : CheckpointVersion N}
    (hhead : checkpointHead s marker ns = some head) (hbytes : head.totalBytes = total map)
    (hcount : head.sectionCount = count map)
    (hmarker : headMarker marker head = none ∨ headMarker marker head = s.marker)
    (hsane : ∀ batch, headMarker marker head = some batch → s.sane = some batch)
    (hreads : ReadsMap hashes s (headMarker marker head) ns map.get?) :
    Presents hashes s marker ns (some map) := by
  have hperm : (checkpointSections s marker ns).Perm
      (map.entries.map fun e => (e.1, Section.of hashes e.2)) := by
    simp only [checkpointSections, hhead]
    exact hreads.sections h hmarker
  refine ⟨?_, hperm, head, hhead, ?_, ?_⟩
  · intro name
    simp only [checkpointChunks, checkpointSection, hhead]
    exact h.chunks hlayout hmarker hsane (hreads name)
  · rw [hbytes, (hperm.map _).sum_eq, List.map_map]
    rfl
  · rw [hcount, hperm.length_eq, length_map]
    simp [count, Dict.sumVal]

/-! ## calls that raise -/

section

variable {limits : Limits} {header : M}

def Event.InCheckpoint : Event N M δ → Prop
  | .start _ _ _ _ | .section_ _ _ _ | .torn _ _ _ _ | .endSections | .tombstone _ |
    .endTombstones | .withdraw | .finish => True
  | _ => False

def Event.named : Event N M δ → Option M
  | .section_ name _ _ => some name
  | _ => none

/-- What a call may do to the open stage: a failed stage stays so, and only the header
section marks the running checkpoint. -/
structure Goes (header : M) (event : Event N M δ) (stage stage' : Stage N M) : Prop where
  failed : stage.failed = true → stage'.failed = true
  header : ∀ running', stage'.running = some running' → running'.header = true →
    (∃ running, stage.running = some running ∧ running.header = true) ∨ event.named = some header

omit [DecidableEq N] [LinearOrder M] [DecidableEq δ] in
theorem stage_prunePublications [DecidableEq M] (batches : List Nat) (s : State N M δ) :
    (batches.foldl prunePublication s).stage = s.stage := by
  induction batches generalizing s with
  | nil => rfl
  | cons batch batches ih =>
    rw [foldl_cons, ih]
    exact stage_prunePublication s batch

theorem stage_maintain (rows : Nat) (plan : Plan) (s : State N M δ) :
    (maintain limits rows plan s).stage = s.stage := by
  unfold maintain
  simp only
  split
  · unfold cleanAbandoned
    simp only [apply_ite State.stage, ite_self]
  · split
    · simp only [cleanTask, apply_ite State.stage, stage_prunePublications,
        stage_prunePublication, ite_self]
    · rw [stage_prunePublications]

section

omit [DecidableEq N] [LinearOrder M] [DecidableEq δ]

theorem goes_refl (header : M) (event : Event N M δ) (s : State N M δ) :
    Option.Rel (Goes header event) s.stage s.stage := by
  cases s.stage with
  | none => exact .none
  | some stage =>
    exact .some ⟨id, fun running' hrunning hheader => .inl ⟨running', hrunning, hheader⟩⟩

theorem goes_fail (header : M) (event : Event N M δ) (namespaces : List N) (s : State N M δ) :
    Option.Rel (Goes header event) s.stage (fail namespaces s).stage := by
  unfold fail
  cases s.stage with
  | none => exact .none
  | some stage => exact .some ⟨fun _ => rfl, by simp⟩

end

variable {event : Event N M δ}

omit [DecidableEq N] [LinearOrder M] [DecidableEq δ] in
theorem goes_running {stage : Stage N M} {running running' : Running N M}
    (hstage : s.stage = some stage) (hrunning : stage.running = some running)
    (hstage' : s'.stage = some { stage with running := some running' })
    (hheader : running'.header = true → running.header = true ∨ event.named = some header) :
    Option.Rel (Goes header event) s.stage s'.stage := by
  rw [hstage, hstage']
  refine .some ⟨id, ?_⟩
  rintro _ ⟨⟩ hnamed
  exact (hheader hnamed).imp_left fun hbefore => ⟨running, hrunning, hbefore⟩

theorem goes_perform
    (hevent : event ≠ .begin_ ∧ event ≠ .publish ∧ event ≠ .abort ∧ event ≠ .reopen)
    (hperform : perform hashes limits header s event = some s') :
    Option.Rel (Goes header event) s.stage s'.stage := by
  cases event with
  | begin_ => exact absurd rfl hevent.1
  | publish => exact absurd rfl hevent.2.1
  | abort => exact absurd rfl hevent.2.2.1
  | reopen => exact absurd rfl hevent.2.2.2
  | start ns base token complete =>
    simp only [perform, start] at hperform
    split at hperform
    · cases hperform
    · rename_i stage hstage
      split_ifs at hperform <;> cases hperform <;> rw [hstage] <;> exact .some ⟨id, by simp⟩
  | section_ name digest chunks =>
    simp only [perform, checkpointStep] at hperform
    split at hperform
    · cases hperform
    · rename_i stage hstage
      split at hperform
      · cases hperform
      · rename_i running hrunning
        split_ifs at hperform <;> cases hperform <;>
          exact goes_running hstage hrunning rfl (by simp [Event.named])
  | torn name digest chunks flushed =>
    simp only [perform, torn, Option.map_eq_some_iff] at hperform
    obtain ⟨s₁, hstep, rfl⟩ := hperform
    simp only [checkpointStep] at hstep
    split at hstep
    · cases hstep
    · rename_i stage hstage
      split at hstep
      · cases hstep
      · split_ifs at hstep <;> cases hstep <;> rw [hstage] <;>
          exact .some ⟨fun _ => rfl, by simp⟩
  | endSections =>
    simp only [perform, endSections] at hperform
    split at hperform
    · cases hperform
    · rename_i stage hstage
      split at hperform
      · cases hperform
      · rename_i running hrunning
        split_ifs at hperform
        cases hperform
        exact goes_running hstage hrunning rfl .inl
  | tombstone name =>
    simp only [perform, tombstoneStep] at hperform
    split at hperform
    · cases hperform
    · rename_i stage hstage
      split at hperform
      · cases hperform
      · rename_i running hrunning
        split_ifs at hperform <;> cases hperform <;>
          exact goes_running hstage hrunning rfl .inl
  | endTombstones =>
    simp only [perform, endTombstones] at hperform
    split at hperform
    · cases hperform
    · rename_i stage hstage
      split at hperform
      · cases hperform
      · rename_i running hrunning
        split_ifs at hperform
        cases hperform
        exact goes_running hstage hrunning rfl .inl
  | withdraw =>
    simp only [perform, withdraw] at hperform
    split at hperform
    · cases hperform
    · rename_i stage hstage
      split at hperform
      · cases hperform
      · rename_i running hrunning
        split at hperform
        · split at hperform
          · cases hperform
          · cases hperform
            exact goes_running hstage hrunning rfl .inl
        · cases hperform
  | finish =>
    simp only [perform, finish] at hperform
    split at hperform
    · cases hperform
    · rename_i stage hstage
      split at hperform
      · cases hperform
      · split at hperform
        · split_ifs at hperform
          cases hperform
          rw [hstage]
          exact .some ⟨id, by simp⟩
        · cases hperform
  | fail =>
    cases hperform
    exact goes_fail header _ [] s
  | others batches pins pruned =>
    cases hperform
    rw [stage_prunePublications]
    exact goes_refl header _ s
  | maintain rows plan =>
    cases hperform
    rw [stage_maintain]
    exact goes_refl header _ s

omit [DecidableEq N] [LinearOrder M] [DecidableEq δ] in
theorem goes_raised (header : M) (event : Event N M δ) :
    Option.Rel (Goes header event) s.stage (raised s event).stage := by
  cases event with
  | start ns base token complete => exact goes_fail header _ [ns] s
  | section_ name digest chunks => exact goes_fail header _ [] s
  | torn name digest chunks flushed => exact goes_fail header _ [] s
  | endSections => exact goes_fail header _ [] s
  | tombstone name => exact goes_fail header _ [] s
  | endTombstones => exact goes_fail header _ [] s
  | withdraw => exact goes_fail header _ [] s
  | finish => exact goes_fail header _ [] s
  | _ => exact goes_refl header _ s

theorem goes_step (hevent : event ≠ .begin_ ∧ event ≠ .publish ∧ event ≠ .abort ∧ event ≠ .reopen) :
    Option.Rel (Goes header event) s.stage (step hashes limits header s event).stage := by
  unfold step
  cases hperform : perform hashes limits header s event with
  | none => exact goes_raised header event
  | some s' => exact goes_perform hevent hperform

/-! ## failed stages -/

def Failed (s : State N M δ) : Prop := ∃ stage, s.stage = some stage ∧ stage.failed = true

omit [LinearOrder M] [DecidableEq δ] in
theorem Failed.publish [DecidableEq M] (h : Failed s) : publish s = none := by
  obtain ⟨stage, hstage, hfailed⟩ := h
  simp [PreparedCheckpoint.publish, hstage, hfailed]

omit [DecidableEq N] [LinearOrder M] [DecidableEq δ] in
theorem failed_raised (hevent : event.InCheckpoint)
    (hopen : s.stage.isSome) : Failed (raised s event) := by
  obtain ⟨stage, hstage⟩ := Option.isSome_iff_exists.mp hopen
  cases event <;> simp_all [Event.InCheckpoint, raised, Failed, fail]

theorem Failed.step (h : Failed s) (hevent : event ≠ .abort ∧ event ≠ .reopen) : Failed
    (step hashes limits header s event) := by
  obtain ⟨stage, hstage, hfailed⟩ := h
  by_cases hends : event = .begin_ ∨ event = .publish
  · have hsame : PreparedCheckpoint.step hashes limits header s event = s := by
      rcases hends with rfl | rfl
      · simp [PreparedCheckpoint.step, perform, begin_, hstage, raised]
      · simp [PreparedCheckpoint.step, perform, Failed.publish ⟨stage, hstage, hfailed⟩, raised]
    rw [hsame]
    exact ⟨stage, hstage, hfailed⟩
  · rw [not_or] at hends
    have hgoes : Option.Rel (Goes header event) s.stage
        (PreparedCheckpoint.step hashes limits header s event).stage :=
      goes_step ⟨hends.1, hends.2, hevent⟩
    rw [hstage] at hgoes
    generalize hafter : (PreparedCheckpoint.step hashes limits header s event).stage = after at hgoes
    cases hgoes with
    | some hgoes => exact ⟨_, hafter, hgoes.failed hfailed⟩

theorem Failed.published {both : State N M δ × Maps N M} (h : Failed both.1) (event : Event N M δ) :
    (stepBoth hashes limits header both event).2.published = both.2.published := by
  simp only [stepBoth]
  split
  · cases event with
    | publish =>
      rename_i hpublish
      simp [perform, h.publish] at hpublish
    | _ => rfl
  · cases event <;> rfl

/-! ## missing headers -/

def Headless (s : State N M δ) : Prop :=
  ∀ stage running, s.stage = some stage → stage.running = some running → running.header = false

omit [DecidableEq N] [DecidableEq δ] in
theorem Headless.endSections (h : Headless s) : endSections s = none := by
  unfold PreparedCheckpoint.endSections
  split
  · rfl
  · split
    · rfl
    · rw [if_neg]
      simp [h _ _ ‹_› ‹_›]

omit [DecidableEq N] [LinearOrder M] [DecidableEq δ] in
theorem headless_of_idle (h : s.stage.bind Stage.running = none) : Headless s := by
  intro stage running hstage hrunning
  simp [hstage, hrunning] at h

theorem Headless.ends (h : Headless s)
    (hevent : event = .begin_ ∨ event = .publish ∨ event = .abort ∨ event = .reopen) :
    Headless (PreparedCheckpoint.step hashes limits header s event) := by
  have hstep : ∀ after : Option (State N M δ),
      (∀ s' ∈ after, s'.stage.bind Stage.running = none) → Headless (after.getD s) := by
    intro after hidle
    cases after with
    | none => exact h
    | some s' => exact headless_of_idle (hidle s' rfl)
  rcases hevent with rfl | rfl | rfl | rfl
  · apply hstep
    simp only [perform, begin_]
    split <;> simp
  · apply hstep
    simp only [perform, PreparedCheckpoint.publish]
    split
    · simp
    · split_ifs
      · simp
      · simp [stage_prunePublication]
  · apply hstep
    simp only [perform, abort]
    split <;> simp
  · apply hstep
    simp [perform, reopen]

theorem Headless.step (h : Headless s) (hnamed : event.named ≠ some header) :
    Headless (step hashes limits header s event) := by
  by_cases hends : event = .begin_ ∨ event = .publish ∨ event = .abort ∨ event = .reopen
  · exact h.ends hends
  · intro stage' running' hstage' hrunning'
    simp only [not_or] at hends
    have hgoes : Option.Rel (Goes header event) s.stage
        (PreparedCheckpoint.step hashes limits header s event).stage := goes_step hends
    rw [hstage'] at hgoes
    generalize hbefore : s.stage = before at hgoes
    cases hgoes with
    | some hgoes =>
      by_contra hheader
      rcases hgoes.header running' hrunning' (by simpa using hheader) with
        ⟨running, hrunning, htrue⟩ | hname
      · simp [h _ running hbefore hrunning] at htrue
      · exact hnamed hname

section

omit [LinearOrder M] [DecidableEq δ]

theorem headless_start [DecidableEq M] {ns : N} {base : Option Token} {token : Token}
    {complete : Bool} (hstart : start limits ns base token complete s = some s') : Headless s' := by
  simp only [start] at hstart
  split at hstart
  · cases hstart
  · split_ifs at hstart <;> cases hstart <;>
      (rintro stage running ⟨⟩ ⟨⟩; rfl)

theorem start_base [DecidableEq M] {ns : N} {base : Option Token} {token : Token} {complete : Bool}
    (hbase : base ≠ (checkpointHead s none ns).map (·.token))
    (hgiven : complete = false ∨ base.isSome) : start limits ns base token complete s = none := by
  unfold start
  split
  · rfl
  · split_ifs <;> grind

end

/-! ## the store -/

theorem run_stepBoth_fst (both : State N M δ × Maps N M) (events : List (Event N M δ)) :
    (run (stepBoth hashes limits header) both events).1 =
      run (step hashes limits header) both.1 events := by
  induction events generalizing both with
  | nil => rfl
  | cons event events ih => exact ih _

theorem Failed.run {both : State N M δ × Maps N M} (h : Failed both.1)
    {events : List (Event N M δ)} (hevents : ∀ event ∈ events, event ≠ .abort ∧ event ≠ .reopen) :
    Failed (run (stepBoth hashes limits header) both events).1 ∧
      (run (stepBoth hashes limits header) both events).2.published = both.2.published := by
  induction events generalizing both with
  | nil => exact ⟨h, rfl⟩
  | cons event events ih =>
    rw [run_cons]
    have hfirst : Failed (stepBoth hashes limits header both event).1 :=
      h.step (hevents event mem_cons_self)
    obtain ⟨hfailed, hsame⟩ :=
      ih hfirst fun other hother => hevents other (mem_cons_of_mem event hother)
    exact ⟨hfailed, hsame.trans (h.published event)⟩

theorem Headless.run (h : Headless s) {events : List (Event N M δ)}
    (hnamed : ∀ event ∈ events, event.named ≠ some header) :
    Headless (run (PreparedCheckpoint.step hashes limits header) s events) := by
  induction events generalizing s with
  | nil => exact h
  | cons event events ih =>
    rw [run_cons]
    exact ih (h.step (hnamed event mem_cons_self)) fun other hother =>
      hnamed other (mem_cons_of_mem event hother)

theorem Moved.presents (h : Refines hashes s maps) (hlayout : Function.Injective hashes.layout)
    (ns : N) : Presents hashes s none ns (maps.published ns) := by
  have hheads := h.heads ns not_mem_nil
  have hpublished := h.published ns
  cases hmap : maps.published ns with
  | none =>
    rw [hmap] at hheads
    apply presents_none
    simp only [HeadOf] at hheads
    simp [checkpointHead, hheads]
  | some map =>
    rw [hmap] at hheads hpublished
    obtain ⟨batch, hhead, -, v, hversion, hbytes, hcount⟩ := hheads
    have hfound : checkpointHead s none ns = some v := by simp [checkpointHead, hhead, hversion]
    apply h.sound.presents hlayout hfound hbytes hcount (.inl rfl)
    · intro _ hnone
      cases hnone
    · exact hpublished

theorem Moved.presents_stage (h : Refines hashes s maps)
    (hlayout : Function.Injective hashes.layout) {stage : Stage N M}
    (hstage : s.stage = some stage) (hfailed : stage.failed = false) :
    ∃ staged, maps.stage = some staged ∧ ∀ ns, Presents hashes s (some stage.batch) ns
      ((staged.done ns).or (maps.published ns)) := by
  have hopen : s.marker = some stage.batch := by simp [State.marker, hstage]
  have hsane : s.sane = some stage.batch := by simp [State.sane, hstage, hfailed]
  obtain ⟨staged, hmaps, hstaged⟩ := h.stage stage hstage
  refine ⟨staged, hmaps, fun ns => ?_⟩
  cases hdone : staged.done ns with
  | some map =>
    obtain ⟨-, -, ⟨v, hversion, hbytes, hcount⟩, hreads⟩ := hstaged.done ns map hdone
    have hmarker : headMarker (some stage.batch) v = some stage.batch := by
      simp [headMarker, version_batch hversion]
    have hfound : checkpointHead s (some stage.batch) ns = some v := by
      simp [checkpointHead, hversion]
    apply h.sound.presents hlayout hfound hbytes hcount (.inr (hmarker.trans hopen.symm))
    · intro batch hbatch
      rw [hsane, ← hmarker, hbatch]
    · rw [hmarker]
      exact hreads
  | none =>
    have hundone := hstaged.undone ns hdone
    have hheads := h.heads ns not_mem_nil
    have hpublished := h.published ns
    rw [Option.none_or]
    cases hmap : maps.published ns with
    | none =>
      rw [hmap] at hheads
      apply presents_none
      simp only [HeadOf] at hheads
      simp [checkpointHead, hundone, hheads]
    | some map =>
      rw [hmap] at hheads hpublished
      obtain ⟨batch, hhead, hbatch, v, hversion, hbytes, hcount⟩ := hheads
      have hfound : checkpointHead s (some stage.batch) ns = some v := by
        simp [checkpointHead, hundone, hhead, hversion]
      -- the head is published, so it is not of the open batch
      have hmarker : headMarker (some stage.batch) v = none := by
        have hne : stage.batch ≠ v.batch := by
          rw [(version_batch hversion).2]
          exact (h.sound.kept.newest stage.batch hopen batch hbatch).ne'
        simp [headMarker, hne]
      apply h.sound.presents hlayout hfound hbytes hcount (.inl hmarker)
      · intro _ hnone
        rw [hmarker] at hnone
        cases hnone
      · rw [hmarker]
        exact hpublished

/-- **Checkpoint namespaces are merged maps**: after any calls in any order, readers get the
published maps, section by section and chunk by chunk, and the head has their totals;
with the marker of the stage they get what it is done with; maintenance changes
nothing, and a checkpoint that raises, as one does whose base is not the head token or
whose header is missing, is never published. -/
theorem namespaces_are_maps (hlayout : Function.Injective hashes.layout)
    (hlimits : 0 < limits.writeRows) (events : List (Event N M δ)) :
    let s := run (step hashes limits header) ({} : State N M δ) events
    let maps := (run (stepBoth hashes limits header) (({} : State N M δ), Maps.empty) events).2
    (∀ ns, Presents hashes s none ns (maps.published ns)) ∧
      (∀ stage, s.stage = some stage → stage.failed = false →
        ∃ staged, maps.stage = some staged ∧ ∀ ns, Presents hashes s (some stage.batch) ns
          ((staged.done ns).or (maps.published ns))) ∧
      (∀ rows plan ns, Presents hashes (maintain limits rows plan s) none ns (maps.published ns)) ∧
      (∀ ns base token complete, base ≠ (checkpointHead s none ns).map (·.token) →
        complete = false ∨ base.isSome →
        perform hashes limits header s (.start ns base token complete) = none) ∧
      (∀ ns base token complete s',
        perform hashes limits header s (.start ns base token complete) = some s' →
        ∀ later : List (Event N M δ), (∀ event ∈ later, event.named ≠ some header) →
        perform hashes limits header (run (step hashes limits header) s' later) .endSections =
          none) ∧
      ∀ event : Event N M δ, event.InCheckpoint → s.stage.isSome →
        perform hashes limits header s event = none →
        ∀ later : List (Event N M δ), (∀ other ∈ later, other ≠ .abort ∧ other ≠ .reopen) →
        let after := run (step hashes limits header) (step hashes limits header s event) later
        perform hashes limits header after .publish = none ∧
          ∀ ns, Presents hashes after none ns (maps.published ns) := by
  intro s maps
  have hfst : (run (stepBoth hashes limits header) ({}, Maps.empty) events).1 = s :=
    run_stepBoth_fst _ events
  have h : Refines hashes s maps := by
    rw [← hfst]
    exact refines_run hlayout hlimits refines_init events
  refine ⟨h.presents hlayout, ?_, ?_, ?_, ?_, ?_⟩
  · intro stage hstage hfailed
    exact h.presents_stage hlayout hstage hfailed
  · intro rows plan ns
    exact (moved_maintain h hlimits rows plan).presents hlayout ns
  · intro ns base token complete hbase hgiven
    exact start_base hbase hgiven
  · intro ns base token complete s' hstart later hlater
    exact ((headless_start hstart).run hlater).endSections
  · intro event hevent hopen hraised later hlater after
    have hstep : step hashes limits header s event = raised s event := by simp [step, hraised]
    have hfailed : Failed (step hashes limits header s event) := by
      rw [hstep]
      exact failed_raised hevent hopen
    -- the failed stage stays open, so the maps stay as they are
    let both := (step hashes limits header s event, maps.raised event)
    have hboth : Refines hashes both.1 both.2 := by
      simp only [both, hstep]
      exact refines_raised h event
    have hpublished : both.2.published = maps.published := by cases event <;> rfl
    have hlast : Refines hashes (run (stepBoth hashes limits header) both later).1
        (run (stepBoth hashes limits header) both later).2 :=
      refines_run hlayout hlimits hboth later
    have hboth' : Failed both.1 := hfailed
    obtain ⟨hstill, hsame⟩ := hboth'.run hlater
    rw [run_stepBoth_fst] at hlast hstill
    refine ⟨hstill.publish, fun ns => ?_⟩
    have hpresents := hlast.presents hlayout ns
    rw [hsame, hpublished] at hpresents
    exact hpresents

end

def plainHashes : Hashes Content := ⟨fun bytes => [bytes], id⟩

/-- A complete checkpoint of two sections, and a delta that overrides the first and removes
the second; `0` is the header. -/
def twoCheckpoints : List (Event Nat Nat Content) :=
  [.begin_, .start 7 none ⟨"", 1⟩ true, .section_ 0 [[1]] [[1]], .section_ 1 [[2, 3]] [[2, 3]],
    .endSections, .endTombstones, .finish, .publish,
    .begin_, .start 7 (some ⟨"", 1⟩) ⟨"", 2⟩ false, .section_ 0 [[4]] [[4]], .endSections,
    .tombstone 1, .endTombstones, .finish, .publish, .maintain 16 ⟨id, .refl⟩]

theorem twoCheckpoints_map :
    Presents plainHashes (run (step plainHashes {} 0) {} twoCheckpoints) none 7
        ((run (stepBoth plainHashes {} 0) ({}, Maps.empty) twoCheckpoints).2.published 7) ∧
      checkpointChunks (run (step plainHashes {} 0) {} twoCheckpoints) none 7 0 = some [[4]] ∧
      checkpointChunks (run (step plainHashes {} 0) {} twoCheckpoints) none 7 1 = none := by
  have hlayout : Function.Injective plainHashes.layout := Function.injective_id
  have hlimits : 0 < ({} : Limits).writeRows := by decide
  constructor
  · exact (namespaces_are_maps hlayout hlimits twoCheckpoints).1 7
  · decide +kernel

end PreparedCheckpoint

end Codexon
