import Codexon.Dict
import Codexon.CacheHealth.Incidents

/-!
# Codexon.CacheHealth.Resume

The saved form of a `CacheHealth`, from `cachemonitor/prepared_append.py`.

`captureHealth` saves a classifier that read a whole history; `Health` continues
from a saved state without the earlier rows or incidents, and collects what its
rows change: the incidents by id, with their places, and the keys that joined them.
-/

namespace Codexon

namespace Caching

/-! ## saved state -/

/-- A row of a checkpoint, with its `_ordinal`. -/
structure Kept extends Facts where
  ordinal : Nat
deriving DecidableEq, Repr

instance : HasFacts Kept := ⟨Kept.toFacts⟩

def healthRow (r : Call) : Kept := { r.toFacts with ordinal := r.sessionOrdinal }

/-- The `health` entry of a checkpoint. -/
structure Saved where
  scope : Option Segment
  count : Nat
  recovery : Nat
  candidate : Nat
  missing : Nat
  state : HealthState
  reason : HealthReason
  last : Option Kept
  baseline : List Kept
  candidateRows : List Kept
  recoveryRows : List Kept
  incident : Option EventFixed
  occurrences : Nat
  incidentPositions : List (PyStr × Nat)
  recent : List Kept
deriving DecidableEq

/-- The saved state without the positions of an incident that is no longer
compared: `save` leaves these behind, and nothing reads them. -/
def Saved.current (saved : Saved) : Saved :=
  if saved.incident = none then { saved with incidentPositions := [] } else saved

/-- `[(key, positions[key]) for key in keys]`. -/
def pick (positions : PyStr → Option Nat) (keys : List PyStr) : Except PyError (List (PyStr × Nat)) :=
  keys.mapM fun key =>
    match positions key with
    | some ordinal => .ok (key, ordinal)
    | none => .error .keyError

def captureHealth (tracker : CacheHealth Call) (records : PyStr → Option Nat) :
    Except PyError Saved := do
  let incidentPositions ← pick records ((tracker.incident.map (·.baselineKeys)).getD [])
  return {
    scope := tracker.scope, count := tracker.count, recovery := tracker.recovery
    candidate := tracker.candidate, missing := tracker.missing
    state := tracker.state, reason := tracker.reason
    last := tracker.last.map healthRow
    baseline := tracker.baseline.map healthRow
    candidateRows := tracker.candidateRows.map healthRow
    recoveryRows := tracker.recoveryRows.map healthRow
    incident := tracker.incident.map (·.toEventFixed)
    occurrences := (tracker.incident.map (·.occurrenceKeys.len)).getD 0
    incidentPositions
    recent := (tracker.rows.drop (tracker.rows.length - 5)).map healthRow }

/-! ## continuing -/

/-- An entry of `changed`. -/
structure Change where
  event : Incident
  ordinal : Nat
  baselineOrdinals : List (PyStr × Nat)
  recoveryOrdinals : List (PyStr × Nat)

/-- A `_Health`. -/
structure Health where
  reducer : CacheHealth Kept := {}
  recent : List Kept := []
  changed : Dict PyStr Change := {}
  members : Dict PyStr (List (PyStr × Nat)) := {}
  annotations : Dict PyStr PyStr := {}
  incidentPositions : Dict PyStr Nat := {}

namespace Occurrences

/-- The keys as a `_Keys`. -/
def kept : Occurrences → Occurrences
  | keys ks => tally ks.length ks
  | tally count added => tally count added

/-- `keys.added.clear()`. -/
def cleared : Occurrences → Occurrences
  | keys ks => keys ks
  | tally count _ => tally count []

end Occurrences

namespace Health

/-- `_Health(saved)`. -/
def load (saved : Saved) : Health where
  reducer := {
    scope := saved.scope, count := saved.count, recovery := saved.recovery
    candidate := saved.candidate, missing := saved.missing
    state := saved.state, reason := saved.reason, last := saved.last
    baseline := saved.baseline, candidateRows := saved.candidateRows
    recoveryRows := saved.recoveryRows
    incident := saved.incident.map fun e => { e with occurrenceKeys := .tally saved.occurrences [] } }
  recent := saved.recent
  incidentPositions := Dict.update {} saved.incidentPositions

/-- The ordinals of the rows at hand after a row was consumed. -/
def positions (reducer : CacheHealth Kept) (recent : List Kept) (value : Kept) : Dict PyStr Nat :=
  Dict.update {} ((value :: (reducer.baseline ++ reducer.candidateRows ++ reducer.recoveryRows ++
    recent)).map fun r => (r.key, r.ordinal))

def join (h : Health) (id : PyStr) (pairs : List (PyStr × Nat)) : Health :=
  pairs.foldl (fun h p =>
    { h with
      members := h.members.set id ((h.members.get? id).getD [] ++ [p])
      annotations := h.annotations.set p.1 id }) h

/-- `incident_positions`, which a new incident replaces. -/
def basePositions (h : Health) (isNew : Bool) (found : Dict PyStr Nat) (event : Incident) :
    Except PyError (Dict PyStr Nat) :=
  if isNew then (pick found.get? event.baselineKeys).map (Dict.update {}) else .ok h.incidentPositions

/-- Enter the incident of the reducer in `changed`. -/
def register (h : Health) (reducer : CacheHealth Kept) (positions : Dict PyStr Nat)
    (event : Incident) : Except PyError (Dict PyStr Change) := do
  let baselineOrdinals ← pick positions.get? event.baselineKeys
  let recoveryOrdinals ← pick positions.get? event.recoveryKeys
  return h.changed.set event.id
    { event, ordinal := reducer.count - 1, baselineOrdinals, recoveryOrdinals }

/-- `add`.  The reducer replaces its incident exactly when its count grows.
What `changed` holds of an incident is its dictionary; a later assignment to that
comes with a new occurrence or a recovery, so it is registered again. -/
def add (h : Health) (row : Call) : Except PyError Health :=
  if row.eligible then
    let value := healthRow row
    let reducer := h.reducer.consume value
    let recent := pushFive h.recent value
    match reducer.incident with
    | none => .ok { h with reducer := { reducer with events := [] }, recent }
    | some event => do
      let keys := event.occurrenceKeys.kept
      let isNew := decide (reducer.count ≠ h.reducer.count)
      let found := positions reducer recent value
      let incidentPositions ← h.basePositions isNew found event
      let positions := Dict.update found incidentPositions.entries
      let joined ← pick positions.get? keys.list
      let cleared : Incident := { event with occurrenceKeys := keys.cleared }
      let changed ←
        (if keys.list ≠ [] ∨ reducer.recoveryRows ≠ [] ∨ isNew then
          h.register reducer positions cleared
        else .ok h.changed)
      return { join h event.id joined with
        reducer := { reducer with incident := some cleared, events := [] }
        recent, changed, incidentPositions }
  else .ok h

def save (h : Health) : Saved where
  scope := h.reducer.scope
  count := h.reducer.count
  recovery := h.reducer.recovery
  candidate := h.reducer.candidate
  missing := h.reducer.missing
  state := h.reducer.state
  reason := h.reducer.reason
  last := h.reducer.last
  baseline := h.reducer.baseline
  candidateRows := h.reducer.candidateRows
  recoveryRows := h.reducer.recoveryRows
  incident := h.reducer.incident.map (·.toEventFixed)
  occurrences := (h.reducer.incident.map (·.occurrenceKeys.len)).getD 0
  incidentPositions := h.incidentPositions.entries
  recent := h.recent

/-- What `head` returns. -/
structure Head extends CacheHealth.Recent where
  state : HealthState
  reason : HealthReason
  incident : Option EventHead
  incidents : Nat
deriving DecidableEq, Repr

/-- The head of a report: what `compact_owner_health` keeps of it. -/
def headOf (report : CacheHealth.Report) : Head :=
  { report.toRecent with
    state := report.state, reason := report.reason
    incident := report.incident.map (·.toEventHead), incidents := report.incidents }

def head (h : Health) : Head :=
  { CacheHealth.recentReport h.reducer.scope h.recent with
    state := h.reducer.state, reason := h.reducer.reason
    incident := h.reducer.incident.map (·.toEventHead), incidents := h.reducer.count }

/-! ## the stored incidents -/

/-- The incident that the sections hold at a place once the changes are written
over them (`_sections`, `read_event`). -/
def written (h : Health) (prior : List Incident) (i : Nat) : Option Incident :=
  match h.changed.entries.find? (·.2.ordinal = i) with
  | none => prior[i]?
  | some (id, change) =>
    let members := (h.members.get? id).getD []
    let first := change.event.occurrenceKeys.len - members.length
    let stored := ((prior[i]?.map (·.occurrenceKeys.list)).getD []).take first
    some { change.event with occurrenceKeys := .keys (stored ++ members.map (·.1)) }

def incidents (h : Health) (prior : List Incident) : List Incident :=
  (List.range h.reducer.count).filterMap (h.written prior)

end Health

end Caching

/-!
## resuming

Classification resumes at any call.  `retained` is what a checkpoint keeps of a
classifier; a row moves the retained state as it moves the whole one
(`consume_mirror`), and the changes collected on the way, written over the
stored incidents, give the incidents of the whole history.
-/

namespace Caching

/-! ## the retained state -/

def tallied (e : Incident) : Incident := { e with occurrenceKeys := .tally e.occurrenceKeys.len [] }

def handedOver (e : Incident) : Incident :=
  { e with occurrenceKeys := e.occurrenceKeys.kept.cleared }

/-- The state of a `Health` that stands for the classifier. -/
def retained (s : CacheHealth Call) : CacheHealth Kept where
  baseline := s.baseline.map healthRow
  scope := s.scope
  incident := s.incident.map tallied
  last := s.last.map healthRow
  count := s.count
  recovery := s.recovery
  candidate := s.candidate
  missing := s.missing
  candidateRows := s.candidateRows.map healthRow
  recoveryRows := s.recoveryRows.map healthRow
  state := s.state
  reason := s.reason

@[simp] theorem facts_healthRow (c : Call) : facts (healthRow c) = facts c := rfl

@[simp] theorem keyOf_healthRow (c : Call) : keyOf (healthRow c) = keyOf c := rfl

theorem map_pushFive {α β : Type} (f : α → β) (xs : List α) (x : α) :
    (pushFive xs x).map f = pushFive (xs.map f) (f x) := by
  simp [pushFive, List.map_drop]

theorem map_foldl_pushFive {α β : Type} (f : α → β) (xs ys : List α) :
    (ys.foldl pushFive xs).map f = (ys.map f).foldl pushFive (xs.map f) := by
  induction ys generalizing xs with
  | nil => rfl
  | cons y ys ih =>
    rw [List.foldl_cons, ih, map_pushFive]
    rfl

namespace CacheHealth

theorem cachedSum_retained (base : List Call) : cachedSum (base.map healthRow) = cachedSum base :=
    by
  unfold cachedSum
  rw [List.map_map]
  rfl

theorem inputSum_retained (base : List Call) : inputSum (base.map healthRow) = inputSum base := by
  unfold inputSum
  rw [List.map_map]
  rfl

theorem baseRate_retained (base : List Call) : baseRate (base.map healthRow) = baseRate base := by
  unfold baseRate
  rw [cachedSum_retained, inputSum_retained]

theorem baseRead_retained (base : List Call) : baseRead (base.map healthRow) = baseRead base := by
  simp [baseRead, cachedSum_retained]

theorem comparable_retained (base : List Call) (scope : Segment) :
    comparable (base.map healthRow) scope = comparable base scope := by
  simp [comparable, baseRead_retained]

theorem bad_retained (base : List Call) (scope : Segment) (c : Call) :
    bad (base.map healthRow) scope (healthRow c) = bad base scope c := by
  unfold bad
  rw [comparable_retained, baseRate_retained, baseRead_retained]
  rfl

theorem changes_retained (s : CacheHealth Call) (c : Call) :
    (retained s).changes (healthRow c) = s.changes c := by
  unfold changes retained
  cases s.last <;> rfl

theorem openIncident_retained (s : CacheHealth Call) :
    (retained s).openIncident = s.openIncident.map tallied := by
  unfold openIncident retained
  cases s.incident with
  | none => rfl
  | some e =>
    cases hresolved : e.resolved <;> simp [Option.filter, tallied, hresolved]

/-- What the incident of a retained state gained with the row `c`. -/
structure Gain (s s' : CacheHealth Call) (c : Call) (r : CacheHealth Kept) (e : Incident) :
    Prop where
  grown : ∃ e', s'.incident = some e' ∧
    ((s'.count ≠ s.count ∧ e'.occurrenceKeys = .keys e.occurrenceKeys.kept.list) ∨
      (s'.count = s.count ∧ ∃ e₀, s.incident = some e₀ ∧
        e'.occurrenceKeys.list = e₀.occurrenceKeys.list ++ e.occurrenceKeys.kept.list))
  named : ∀ key ∈ e.occurrenceKeys.kept.list, key = keyOf c ∨ key ∈ s'.candidateRows.map keyOf
  recovering : e.occurrenceKeys.kept.list ≠ [] → e.recoveryKeys = [] ∨ s'.recoveryRows ≠ []

/-- After the same row: the retained state `r` stands for `s'` once its new keys
are handed over, and these are what the incident gained since `s`. -/
structure Mirror (s s' : CacheHealth Call) (c : Call) (r : CacheHealth Kept) : Prop where
  retained_eq : { r with incident := r.incident.map handedOver, events := [] } = retained s'
  gained : ∀ e, r.incident = some e → Gain s s' c r e

variable {s : CacheHealth Call}

theorem gain_of_same {s' : CacheHealth Call} {c : Call} {r : CacheHealth Kept}
    (hr : r.incident = s.incident.map tallied) (hs : s'.incident = s.incident)
    (hcount : s'.count = s.count) : ∀ e, r.incident = some e → Gain s s' c r e := by
  intro e he
  rw [hr] at he
  obtain ⟨e₀, he₀, rfl⟩ := Option.map_eq_some_iff.mp he
  refine ⟨⟨e₀, hs.trans he₀, Or.inr ⟨hcount, e₀, he₀, ?_⟩⟩, ?_, ?_⟩
  · simp [tallied, Occurrences.kept, Occurrences.list]
  · simp [tallied, Occurrences.kept, Occurrences.list]
  · simp [tallied, Occurrences.kept, Occurrences.list]

theorem handedOver_tallied (e : Incident) : handedOver (tallied e) = tallied e := rfl

theorem mirror_lacking (s : CacheHealth Call) (c : Call) :
    Mirror s (s.lacking c) c ((retained s).lacking (healthRow c)) where
  retained_eq := by
    simp [retained, CacheHealth.lacking, Option.map_map, Function.comp_def, handedOver_tallied]
  gained := gain_of_same rfl rfl rfl

theorem mirror_compare (s : CacheHealth Call) (scope : Segment) (c : Call) :
    Mirror s (s.compare scope c) c ((retained s).compare scope (healthRow c)) where
  retained_eq := by
    simp [retained, CacheHealth.compare, Option.map_map, Function.comp_def, handedOver_tallied,
      map_pushFive, comparable_retained]
    rfl
  gained := gain_of_same rfl rfl rfl

theorem mirror_suspect (s : CacheHealth Call) (scope : Segment) (c : Call) :
    Mirror s (s.suspect scope c) c ((retained s).suspect scope (healthRow c)) := by
  by_cases hlen : 2 ≤ (s.candidateRows ++ [c]).length
  · have hlen' : 2 ≤ ((retained s).candidateRows ++ [healthRow c]).length := by
      simpa [retained] using hlen
    constructor
    · simp only [CacheHealth.suspect]
      rw [if_pos hlen, if_pos hlen']
      simp [retained, handedOver, tallied, opened, Occurrences.kept, Occurrences.cleared,
        Occurrences.len, baseRead_retained, baseRate_retained]
    · intro e he
      simp only [CacheHealth.suspect] at he ⊢
      rw [if_pos hlen'] at he
      rw [if_pos hlen]
      obtain rfl := Option.some.inj he
      refine ⟨⟨_, rfl, Or.inl ⟨by simp, ?_⟩⟩, ?_, fun _ => Or.inl rfl⟩
      · simp [retained, opened, Occurrences.kept, Occurrences.list]
      · intro key hkey
        refine Or.inr ?_
        simpa [retained, opened, Occurrences.kept, Occurrences.list] using hkey
  · have hlen' : ¬ 2 ≤ ((retained s).candidateRows ++ [healthRow c]).length := by
      simpa [retained] using hlen
    constructor
    · simp only [CacheHealth.suspect]
      rw [if_neg hlen, if_neg hlen']
      simp [retained, Option.map_map, Function.comp_def, handedOver_tallied]
    · simp only [CacheHealth.suspect]
      rw [if_neg hlen, if_neg hlen']
      exact gain_of_same rfl rfl rfl

variable {seen : List Call}

theorem mirror_follow (h : Sound seen s) {e : Incident}
    (hopen : s.openIncident = some e) (isBad : Bool) (c : Call) :
    Mirror s (s.follow e isBad c) c ((retained s).follow (tallied e) isBad (healthRow c)) := by
  have hincident := (openIncident_eq_some.mp hopen).1
  have hkeys : ∃ ks, e.occurrenceKeys = .keys ks := by
    obtain ⟨earlier, hevents⟩ := h.linked e hincident
    obtain ⟨first, second, rest, hkeys, -⟩ := h.formed e (by simp [hevents])
    exact ⟨_, hkeys⟩
  have hrows : (if recovers (tallied e) (healthRow c) then
      (retained s).recoveryRows ++ [healthRow c] else []) =
      (if recovers e c then s.recoveryRows ++ [c] else []).map healthRow := by
    have hsame : recovers (tallied e) (healthRow c) = recovers e c := rfl
    rw [hsame]
    split <;> simp [retained]
  have hevent : handedOver (if isBad then occur (tallied e) (healthRow c) else tallied e) =
      tallied (if isBad then occur e c else e) := by
    split
    · obtain ⟨ks, hkeys⟩ := hkeys
      simp [handedOver, tallied, occur, hkeys, Occurrences.append, Occurrences.kept,
        Occurrences.cleared, Occurrences.len]
    · rfl
  have hgained : (if isBad then occur e c else e).occurrenceKeys.list = e.occurrenceKeys.list ++
      (if isBad then occur (tallied e) (healthRow c) else tallied e).occurrenceKeys.kept.list := by
    obtain ⟨ks, hkeys⟩ := hkeys
    split <;>
      simp [tallied, occur, hkeys, Occurrences.append, Occurrences.kept, Occurrences.list]
  have hfields : (if isBad then occur (tallied e) (healthRow c) else tallied e).count =
      (if isBad then occur e c else e).count ∧
      (if isBad then occur (tallied e) (healthRow c) else tallied e).baselineKeys =
        (if isBad then occur e c else e).baselineKeys := by
    split
    · refine ⟨?_, rfl⟩
      show ((tallied e).occurrenceKeys.append (keyOf c)).len =
        (e.occurrenceKeys.append (keyOf c)).len
      rw [Occurrences.len_append, Occurrences.len_append]
      rfl
    · exact ⟨rfl, rfl⟩
  have hnamed : ∀ key ∈ (if isBad then occur (tallied e) (healthRow c) else
      tallied e).occurrenceKeys.kept.list, key = keyOf c := by
    split <;> simp [tallied, occur, Occurrences.append, Occurrences.kept, Occurrences.list]
  have hunrecovered : (if isBad then occur (tallied e) (healthRow c) else tallied e).recoveryKeys =
      [] := by
    have := h.unrecovered e hopen
    split <;> exact this
  simp only [CacheHealth.follow]
  rw [hrows]
  generalize (if recovers e c then s.recoveryRows ++ [c] else []) = rows
  generalize (if isBad then occur (tallied e) (healthRow c) else tallied e) = event'
    at hevent hgained hfields hnamed hunrecovered ⊢
  generalize (if isBad then occur e c else e) = event at hevent hgained hfields ⊢
  by_cases hlen : 2 ≤ rows.length
  · rw [if_pos hlen, if_pos (by simpa using hlen)]
    have hresolved : handedOver (resolve event' (rows.map healthRow) (healthRow c)) =
        tallied (resolve event rows c) := by
      have hstep := congrArg (fun x => ({ x with
        resolved := true, endedAt := some (facts c).ts, recoveryKeys := rows.map keyOf
        recoveryKey := some (keyOf c) } : Incident)) hevent
      simpa [handedOver, tallied, resolve] using hstep
    constructor
    · simp [retained, CacheHealth.amend, hresolved, map_foldl_pushFive]
    · intro x hx
      obtain rfl := Option.some.inj hx
      refine ⟨⟨_, rfl, Or.inr ⟨rfl, e, hincident, hgained⟩⟩, fun key hkey => Or.inl (hnamed key hkey),
        fun _ => Or.inr ?_⟩
      rintro rfl
      simp at hlen
  · rw [if_neg hlen, if_neg (by simpa using hlen)]
    constructor
    · simp [retained, CacheHealth.amend, hevent, hfields.1, hfields.2]
    · intro x hx
      obtain rfl := Option.some.inj hx
      exact ⟨⟨_, rfl, Or.inr ⟨rfl, e, hincident, hgained⟩⟩,
        fun key hkey => Or.inl (hnamed key hkey), fun _ => Or.inl hunrecovered⟩

theorem mirror_assess (h : Sound seen s) (c : Call) :
    Mirror s (s.assess c) c ((retained s).assess (healthRow c)) := by
  have hbad : bad (retained s).baseline (segment (facts (healthRow c))) (healthRow c) =
      bad s.baseline (segment (facts c)) c := bad_retained _ _ c
  unfold CacheHealth.assess
  rw [openIncident_retained]
  cases hopen : s.openIncident with
  | some e =>
    dsimp only [Option.map_some]
    rw [hbad]
    exact mirror_follow h hopen _ c
  | none =>
    dsimp only [Option.map_none]
    rw [hbad]
    split
    · exact mirror_suspect s _ c
    · exact mirror_compare s _ c

theorem Mirror.settle {s' : CacheHealth Call} {r : CacheHealth Kept} {c : Call}
    (h : Mirror s s' c r) :
    Mirror s (s'.settle c) c (r.settle (healthRow c)) where
  retained_eq := by
    have hrows := h.retained_eq
    have hcandidates := congrArg (·.candidateRows.length) hrows
    have hrecovery := congrArg (·.recoveryRows.length) hrows
    have hstep := congrArg (fun x => ({ x with
      candidate := s'.candidateRows.length, recovery := s'.recoveryRows.length
      last := some (healthRow c) } : CacheHealth Kept)) hrows
    simp only [retained, List.length_map] at hcandidates hrecovery
    simp only [CacheHealth.settle, hcandidates, hrecovery]
    exact hstep
  gained := fun e he =>
    let hgain := h.gained e he
    ⟨hgain.grown, hgain.named, hgain.recovering⟩

theorem retained_restart (s : CacheHealth Call) (c : Call) :
    retained (s.restart c) = (retained s).restart (healthRow c) := rfl

/-- **A row moves the retained state as it moves the classifier.** -/
theorem consume_mirror (h : Sound seen s) (c : Call) :
    Mirror s (s.consume c) c ((retained s).consume (healthRow c)) := by
  have hstart : ∀ s₁ : CacheHealth Call, Sound seen s₁ → s₁.count = s.count →
      (∀ e, s₁.incident = some e → s.incident = some e) →
      Mirror s (if (facts c).valid then (s₁.assess c).settle c else s₁.lacking c) c
        (if (facts c).valid then ((retained s₁).assess (healthRow c)).settle (healthRow c)
          else (retained s₁).lacking (healthRow c)) := by
    intro s₁ h₁ hcount hincident
    have hfrom : ∀ {s' : CacheHealth Call} {r : CacheHealth Kept}, Mirror s₁ s' c r →
        Mirror s s' c r := by
      intro s' r hm
      refine ⟨hm.retained_eq, fun e he => ?_⟩
      obtain ⟨⟨e', he', hgain⟩, hnamed, hrecovering⟩ := hm.gained e he
      rw [hcount] at hgain
      refine ⟨⟨e', he', hgain.imp_right fun ⟨hc, e₀, he₀, hlist⟩ => ?_⟩, hnamed, hrecovering⟩
      exact ⟨hc, e₀, hincident e₀ he₀, hlist⟩
    split
    · exact hfrom (mirror_assess h₁ c).settle
    · exact hfrom (mirror_lacking s₁ c)
  unfold CacheHealth.consume
  rw [changes_retained]
  by_cases hchanges : s.changes c
  · rw [if_pos hchanges, if_pos hchanges, ← retained_restart]
    exact hstart (s.restart c) (h.restart c) rfl (by simp [CacheHealth.restart])
  · rw [if_neg hchanges, if_neg hchanges]
    exact hstart s h rfl fun e he => he

end CacheHealth

end Caching

end Codexon
