import Mathlib.Data.List.Induction
import Codexon.CacheHealth
import Codexon.Run

/-!
# Codexon.CacheHealth.Incidents

What every classification keeps: the counts of its incidents, and that no call
is counted twice.  Each list of rows that a `CacheHealth` holds is a sublist of
the rows it consumed, and the occurrences of all incidents, followed by the rows
that may open the next one, are a sublist of their keys.
-/

namespace Codexon.Caching

open List

/-- An incident as `consume` forms it. -/
def Incident.Formed (e : Incident) : Prop :=
  ∃ first second rest, e.occurrenceKeys = .keys (first :: second :: rest) ∧
    e.count = (first :: second :: rest).length ∧ e.id = py "cache:" ++ first

theorem pushFive_sublist {α : Type} {xs ys : List α} {x : α} (h : xs.Sublist ys) :
    (pushFive xs x).Sublist (ys ++ [x]) :=
  (drop_sublist _ _).trans (h.append (List.Sublist.refl _))

theorem foldl_pushFive {α : Type} (xs ys : List α) (h : (xs ++ ys).length ≤ 5) :
    ys.foldl pushFive xs = xs ++ ys := by
  induction ys generalizing xs with
  | nil => simp
  | cons y ys ih =>
    have hpush : pushFive xs y = xs ++ [y] := by
      have hlen : xs.length + 1 - 5 = 0 := by
        simp only [length_append, length_cons] at h
        omega
      rw [pushFive, hlen, drop_zero]
    rw [foldl_cons, hpush, ih (xs ++ [y]) (by simpa using h), append_assoc]
    rfl

@[simp] theorem Occurrences.len_append (o : Occurrences) (key : PyStr) :
    (o.append key).len = o.len + 1 := by
  cases o <;> simp [Occurrences.append, Occurrences.len]

namespace CacheHealth

variable {ρ : Type} [HasFacts ρ]

def pendingKeys (s : CacheHealth ρ) : List PyStr :=
  if s.openIncident = none then s.candidateRows.map keyOf else []

def occurrences (s : CacheHealth ρ) : List PyStr := s.events.flatMap (·.occurrenceKeys.list)

/-- **The invariant of a classification** of the rows `seen`. -/
structure Sound (seen : List ρ) (s : CacheHealth ρ) : Prop where
  count_eq : s.count = s.events.length
  linked : ∀ e, s.incident = some e → ∃ earlier, s.events = earlier ++ [e]
  formed : ∀ e ∈ s.events, e.Formed
  waiting : s.openIncident = none → s.candidateRows.length ≤ 1
  counted : (s.occurrences ++ s.pendingKeys).Sublist (seen.map keyOf)
  baseline_sublist : s.baseline.Sublist seen
  candidate_sublist : s.candidateRows.Sublist seen
  recovery_sublist : s.recoveryRows.Sublist seen
  recovery_short : s.openIncident ≠ none → s.recoveryRows.length ≤ 1
  recovered : ∀ e, s.incident = some e →
    e.recoveryKeys = [] ∨ s.recoveryRows = [] ∨ e.recoveryKeys = s.recoveryRows.map keyOf
  unrecovered : ∀ e, s.openIncident = some e → e.recoveryKeys = []
  based : ∀ e, s.incident = some e → e.baselineKeys.Sublist (seen.map keyOf)

/-! ## the steps of `consume` -/

variable {s : CacheHealth ρ}

variable {e : Incident}

omit [HasFacts ρ] in
theorem openIncident_eq_some :
    s.openIncident = some e ↔ s.incident = some e ∧ e.resolved = false := by
  simp [openIncident, Option.filter_eq_some_iff]

theorem sound_nil : Sound (ρ := ρ) [] {} where
  count_eq := rfl
  linked := by simp
  formed := by simp
  waiting := by simp
  counted := by simp [occurrences, pendingKeys]
  baseline_sublist := List.Sublist.refl _
  candidate_sublist := List.Sublist.refl _
  recovery_sublist := List.Sublist.refl _
  recovery_short := by simp [openIncident]
  recovered := by simp
  unrecovered := by simp [openIncident]
  based := by simp

variable {seen : List ρ}

theorem Sound.restart (h : Sound seen s) (row : ρ) :
    Sound seen (s.restart row) where
  count_eq := h.count_eq
  linked := by simp [CacheHealth.restart]
  formed := h.formed
  waiting := by simp [CacheHealth.restart]
  counted := by
    have hleft : s.occurrences.Sublist (seen.map keyOf) :=
      (sublist_append_left _ _).trans h.counted
    simpa [pendingKeys, occurrences, CacheHealth.restart] using hleft
  baseline_sublist := nil_sublist _
  candidate_sublist := nil_sublist _
  recovery_sublist := nil_sublist _
  recovery_short := by simp [CacheHealth.restart]
  recovered := by simp [CacheHealth.restart]
  unrecovered := by simp [CacheHealth.restart, openIncident]
  based := by simp [CacheHealth.restart]

theorem Sound.based_append (h : Sound seen s) (row : ρ) :
    ∀ e, s.incident = some e → e.baselineKeys.Sublist ((seen ++ [row]).map keyOf) := by
  intro e he
  rw [map_append]
  exact (h.based e he).trans (sublist_append_left _ _)

theorem Sound.lacking (h : Sound seen s) (row : ρ) :
    Sound (seen ++ [row]) (s.lacking row) where
  count_eq := h.count_eq
  linked := h.linked
  formed := h.formed
  waiting := by simp [CacheHealth.lacking]
  counted := by
    have hleft : s.occurrences.Sublist (seen.map keyOf) :=
      (sublist_append_left _ _).trans h.counted
    have hpending : (s.lacking row).pendingKeys = [] := by simp [pendingKeys, CacheHealth.lacking]
    rw [hpending, List.append_nil, map_append]
    exact hleft.trans (sublist_append_left _ _)
  baseline_sublist := h.baseline_sublist.trans (sublist_append_left _ _)
  candidate_sublist := nil_sublist _
  recovery_sublist := nil_sublist _
  recovery_short := by simp [CacheHealth.lacking]
  recovered := by simp [CacheHealth.lacking]
  unrecovered := h.unrecovered
  based := h.based_append row

theorem Sound.compare (h : Sound seen s)
    (hopen : s.openIncident = none) (scope : Segment) (row : ρ) :
    Sound (seen ++ [row]) (s.compare scope row) where
  count_eq := h.count_eq
  linked := h.linked
  formed := h.formed
  waiting := by simp [CacheHealth.compare]
  counted := by
    have hleft : s.occurrences.Sublist (seen.map keyOf) :=
      (sublist_append_left _ _).trans h.counted
    have hpending : (s.compare scope row).pendingKeys = [] := by
      simp [pendingKeys, CacheHealth.compare]
    rw [hpending, List.append_nil, map_append]
    exact hleft.trans (sublist_append_left _ _)
  baseline_sublist := pushFive_sublist h.baseline_sublist
  candidate_sublist := nil_sublist _
  recovery_sublist := h.recovery_sublist.trans (sublist_append_left _ _)
  recovery_short := fun hne => absurd hopen hne
  recovered := h.recovered
  unrecovered := h.unrecovered
  based := h.based_append row

theorem opened_formed (base : List ρ) {candidates : List ρ} {row : ρ}
    (hlen : 2 ≤ (candidates ++ [row]).length) (scope : Segment) :
    (opened base (candidates ++ [row]) (candidates.headD row) row scope).Formed := by
  cases candidates with
  | nil => simp at hlen
  | cons first rest =>
    cases rest with
    | nil => exact ⟨keyOf first, keyOf row, [], rfl, rfl, rfl⟩
    | cons second rest =>
      exact ⟨keyOf first, keyOf second, (rest ++ [row]).map keyOf, by simp [opened],
        by simp [opened], rfl⟩

theorem Sound.suspect (h : Sound seen s)
    (hopen : s.openIncident = none) (scope : Segment) (row : ρ) :
    Sound (seen ++ [row]) (s.suspect scope row) := by
  have hcounted : (s.occurrences ++ (s.candidateRows ++ [row]).map keyOf).Sublist
      ((seen ++ [row]).map keyOf) := by
    have hbefore := h.counted
    rw [pendingKeys, if_pos hopen] at hbefore
    rw [map_append, map_append, ← append_assoc]
    exact hbefore.append (List.Sublist.refl _)
  have hcandidates : (s.candidateRows ++ [row]).Sublist (seen ++ [row]) :=
    h.candidate_sublist.append (List.Sublist.refl _)
  have hbaseline : s.baseline.Sublist (seen ++ [row]) :=
    h.baseline_sublist.trans (sublist_append_left _ _)
  by_cases hlen : 2 ≤ (s.candidateRows ++ [row]).length
  · -- The second drop: the candidates become the occurrences of a new incident.
    have hstep : s.suspect scope row = { s with
        candidateRows := s.candidateRows ++ [row], count := s.count + 1, recoveryRows := []
        incident := some (opened s.baseline (s.candidateRows ++ [row])
          (s.candidateRows.headD row) row scope)
        events := s.events ++ [opened s.baseline (s.candidateRows ++ [row])
          (s.candidateRows.headD row) row scope]
        state := .suspected
        reason := .lowered (s.candidateRows ++ [row]).length s.baseline.length } := by
      simp only [CacheHealth.suspect]
      rw [if_pos hlen]
    have hunresolved : (s.suspect scope row).openIncident = some (opened s.baseline
        (s.candidateRows ++ [row]) (s.candidateRows.headD row) row scope) := by
      rw [hstep, openIncident_eq_some]
      exact ⟨rfl, rfl⟩
    refine ⟨?_, ?_, ?_, ?_, ?_, ?_, ?_, ?_, ?_, ?_, ?_, ?_⟩
    · rw [hstep]
      simp [h.count_eq]
    · intro e he
      rw [hstep] at he ⊢
      obtain rfl := Option.some.inj he
      exact ⟨s.events, rfl⟩
    · intro e he
      rw [hstep] at he
      rcases mem_append.mp he with he | he
      · exact h.formed e he
      · obtain rfl := mem_singleton.mp he
        exact opened_formed s.baseline hlen scope
    · rw [hunresolved]
      simp
    · rw [pendingKeys, hunresolved, if_neg (by simp), List.append_nil, hstep]
      simpa [occurrences, opened, Occurrences.list] using hcounted
    · rw [hstep]
      exact hbaseline
    · rw [hstep]
      exact hcandidates
    · rw [hstep]
      exact nil_sublist _
    · rw [hstep]
      simp
    · rw [hstep]
      simp
    · intro e he
      rw [hunresolved] at he
      obtain rfl := Option.some.inj he
      rfl
    · intro e he
      rw [hstep] at he
      obtain rfl := Option.some.inj he
      exact hbaseline.map keyOf
  · have hstep : s.suspect scope row = { s with
        candidateRows := s.candidateRows ++ [row], state := .pending, reason := .loweredOnce } := by
      simp only [CacheHealth.suspect]
      rw [if_neg hlen]
    have hsame : (s.suspect scope row).openIncident = s.openIncident := by
      rw [hstep]
      rfl
    refine ⟨?_, ?_, ?_, ?_, ?_, ?_, ?_, ?_, ?_, ?_, ?_, ?_⟩
    · rw [hstep]
      exact h.count_eq
    · rw [hstep]
      exact h.linked
    · rw [hstep]
      exact h.formed
    · rw [hstep]
      intro _
      show (s.candidateRows ++ [row]).length ≤ 1
      omega
    · rw [pendingKeys, hsame, if_pos hopen, hstep]
      exact hcounted
    · rw [hstep]
      exact hbaseline
    · rw [hstep]
      exact hcandidates
    · rw [hstep]
      exact h.recovery_sublist.trans (sublist_append_left _ _)
    · rw [hsame]
      exact fun hne => absurd hopen hne
    · rw [hstep]
      exact h.recovered
    · rw [hsame]
      exact h.unrecovered
    · rw [hstep]
      exact h.based_append row

theorem formed_occur (he : e.Formed) (row : ρ) : (occur e row).Formed := by
  obtain ⟨first, second, rest, hkeys, -, hid⟩ := he
  refine ⟨first, second, rest ++ [keyOf row], ?_, ?_, hid⟩
  · simp [occur, hkeys, Occurrences.append]
  · simp [occur, hkeys, Occurrences.append, Occurrences.len]

/-- Amending the open incident with an event that is formed and adds at most the
row's key keeps what the invariant says of the incidents. -/
theorem Sound.amend (h : Sound seen s)
    (hopen : s.openIncident = some e) (e' : Incident) (row : ρ) (hformed : e'.Formed)
    (hkeys : e'.occurrenceKeys.list = e.occurrenceKeys.list ∨
      e'.occurrenceKeys.list = e.occurrenceKeys.list ++ [keyOf row]) :
    s.count = (s.amend e').events.length ∧ (∃ earlier, (s.amend e').events = earlier ++ [e']) ∧
      (∀ x ∈ (s.amend e').events, x.Formed) ∧
      (s.amend e').occurrences.Sublist ((seen ++ [row]).map keyOf) := by
  have hincident := (openIncident_eq_some.mp hopen).1
  obtain ⟨earlier, hevents⟩ := h.linked e hincident
  have hamended : (s.amend e').events = earlier ++ [e'] := by simp [CacheHealth.amend, hevents]
  have hbefore : (earlier.flatMap (·.occurrenceKeys.list) ++ e.occurrenceKeys.list).Sublist
      (seen.map keyOf) := by
    have hleft := (sublist_append_left _ _).trans h.counted
    simpa [occurrences, hevents] using hleft
  refine ⟨?_, ⟨earlier, hamended⟩, ?_, ?_⟩
  · rw [hamended, h.count_eq, hevents, length_append, length_append]
    rfl
  · intro x hx
    rw [hamended] at hx
    rcases mem_append.mp hx with hx | hx
    · exact h.formed x (hevents ▸ mem_append_left _ hx)
    · obtain rfl := mem_singleton.mp hx
      exact hformed
  · have hexpand : (s.amend e').occurrences =
        earlier.flatMap (·.occurrenceKeys.list) ++ e'.occurrenceKeys.list := by
      simp [occurrences, hamended]
    rw [hexpand, map_append]
    rcases hkeys with hkeys | hkeys
    · rw [hkeys]
      exact hbefore.trans (sublist_append_left _ _)
    · rw [hkeys, ← append_assoc]
      exact hbefore.append (List.Sublist.refl _)

theorem Sound.follow (h : Sound seen s) (hopen : s.openIncident = some e) (isBad : Bool) (row : ρ) :
    Sound (seen ++ [row]) (s.follow e isBad row) := by
  obtain ⟨hincident, hunresolved⟩ := openIncident_eq_some.mp hopen
  have hmem : e ∈ s.events := by
    obtain ⟨earlier, hevents⟩ := h.linked e hincident
    simp [hevents]
  have hformed : e.Formed := h.formed e hmem
  have hgrown : (if isBad then occur e row else e).Formed := by
    split
    · exact formed_occur hformed row
    · exact hformed
  have hlist : (occur e row).occurrenceKeys.list = e.occurrenceKeys.list ++ [keyOf row] := by
    obtain ⟨first, second, rest, hkeys, -⟩ := hformed
    simp [occur, hkeys, Occurrences.append, Occurrences.list]
  have hkeys : (if isBad then occur e row else e).occurrenceKeys.list = e.occurrenceKeys.list ∨
      (if isBad then occur e row else e).occurrenceKeys.list =
        e.occurrenceKeys.list ++ [keyOf row] := by
    split
    · exact Or.inr hlist
    · exact Or.inl rfl
  have hkept : (if isBad then occur e row else e).recoveryKeys = [] ∧
      (if isBad then occur e row else e).resolved = false := by
    have := h.unrecovered e hopen
    split
    · exact ⟨this, hunresolved⟩
    · exact ⟨this, hunresolved⟩
  have hbased : (if isBad then occur e row else e).baselineKeys.Sublist
      ((seen ++ [row]).map keyOf) := by
    have := h.based_append row e hincident
    split
    · exact this
    · exact this
  have hshort : s.recoveryRows.length ≤ 1 := h.recovery_short (by simp [hopen])
  have hseen : ∀ {xs : List ρ}, xs.Sublist seen → xs.Sublist (seen ++ [row]) :=
    fun hx => hx.trans (sublist_append_left _ _)
  have hrecovery : (if recovers e row then s.recoveryRows ++ [row] else []).Sublist
      (seen ++ [row]) := by
    split
    · exact h.recovery_sublist.append (List.Sublist.refl _)
    · exact nil_sublist _
  have hfew : (if recovers e row then s.recoveryRows ++ [row] else []).length ≤ 2 := by
    split
    · simp only [length_append, length_singleton]
      omega
    · simp
  generalize hrows : (if recovers e row then s.recoveryRows ++ [row] else []) = rows
    at hrecovery hfew
  generalize hevent : (if isBad then occur e row else e) = event at hgrown hkeys hkept hbased
  by_cases hlen : 2 ≤ rows.length
  · -- The second recovery in a row resolves the incident.
    obtain ⟨hcount, hlinked, hall, hcounted⟩ :=
      h.amend hopen (resolve event rows row) row hgrown hkeys
    have hstep : s.follow e isBad row = { s.amend (resolve event rows row) with
        recoveryRows := rows, state := .recovered, reason := .recoveredTwice
        baseline := rows.foldl pushFive [], candidateRows := [] } := by
      simp only [CacheHealth.follow]
      rw [hrows, hevent, if_pos hlen]
    have hclosed : (s.follow e isBad row).openIncident = none := by
      rw [hstep]
      rfl
    refine ⟨?_, ?_, ?_, ?_, ?_, ?_, ?_, ?_, ?_, ?_, ?_, ?_⟩
    · rw [hstep]
      exact hcount
    · intro x hx
      rw [hstep] at hx ⊢
      obtain rfl := Option.some.inj hx
      exact hlinked
    · rw [hstep]
      exact hall
    · rw [hstep]
      simp
    · have hpending : (s.follow e isBad row).pendingKeys = [] := by
        rw [pendingKeys, if_pos hclosed, hstep]
        rfl
      rw [hpending, List.append_nil, hstep]
      exact hcounted
    · have hbase : rows.foldl pushFive [] = rows :=
        foldl_pushFive [] rows (by rw [nil_append]; omega)
      rw [hstep, hbase]
      exact hrecovery
    · rw [hstep]
      exact nil_sublist _
    · rw [hstep]
      exact hrecovery
    · rw [hclosed]
      exact fun hne => absurd rfl hne
    · intro x hx
      rw [hstep] at hx ⊢
      obtain rfl := Option.some.inj hx
      exact Or.inr (Or.inr rfl)
    · rw [hclosed]
      simp
    · intro x hx
      rw [hstep] at hx
      obtain rfl := Option.some.inj hx
      exact hbased
  · obtain ⟨hcount, hlinked, hall, hcounted⟩ := h.amend hopen event row hgrown hkeys
    have hstep : s.follow e isBad row = { s.amend event with
        recoveryRows := rows, state := .suspected
        reason := .lowered event.count event.baselineKeys.length } := by
      simp only [CacheHealth.follow]
      rw [hrows, hevent, if_neg hlen]
    have hstill : (s.follow e isBad row).openIncident = some event := by
      rw [hstep, openIncident_eq_some]
      exact ⟨rfl, hkept.2⟩
    refine ⟨?_, ?_, ?_, ?_, ?_, ?_, ?_, ?_, ?_, ?_, ?_, ?_⟩
    · rw [hstep]
      exact hcount
    · intro x hx
      rw [hstep] at hx ⊢
      obtain rfl := Option.some.inj hx
      exact hlinked
    · rw [hstep]
      exact hall
    · rw [hstill]
      simp
    · rw [pendingKeys, hstill, if_neg (by simp), List.append_nil, hstep]
      exact hcounted
    · rw [hstep]
      exact hseen h.baseline_sublist
    · rw [hstep]
      exact hseen h.candidate_sublist
    · rw [hstep]
      exact hrecovery
    · rw [hstep]
      intro _
      show rows.length ≤ 1
      omega
    · intro x hx
      rw [hstep] at hx
      obtain rfl := Option.some.inj hx
      exact Or.inl hkept.1
    · intro x hx
      rw [hstill] at hx
      obtain rfl := Option.some.inj hx
      exact hkept.1
    · intro x hx
      rw [hstep] at hx
      obtain rfl := Option.some.inj hx
      exact hbased

theorem Sound.assess (h : Sound seen s) (row : ρ) : Sound (seen ++ [row]) (s.assess row) := by
  unfold CacheHealth.assess
  cases hopen : s.openIncident with
  | some e => exact h.follow hopen _ row
  | none =>
    dsimp only
    split
    · exact h.suspect hopen _ row
    · exact h.compare hopen _ row

theorem Sound.settle (h : Sound seen s) (row : ρ) :
    Sound seen (s.settle row) where
  count_eq := h.count_eq
  linked := h.linked
  formed := h.formed
  waiting := h.waiting
  counted := h.counted
  baseline_sublist := h.baseline_sublist
  candidate_sublist := h.candidate_sublist
  recovery_sublist := h.recovery_sublist
  recovery_short := h.recovery_short
  recovered := h.recovered
  unrecovered := h.unrecovered
  based := h.based

theorem Sound.consume (h : Sound seen s) (row : ρ) : Sound (seen ++ [row]) (s.consume row) := by
  have hstart : Sound seen (if s.changes row then s.restart row else s) := by
    split
    · exact h.restart row
    · exact h
  unfold CacheHealth.consume
  dsimp only
  split
  · exact (hstart.assess row).settle row
  · exact hstart.lacking row

/-! ## the effect of a row -/

/-- What a row does to the incidents. -/
inductive Effect (s s' : CacheHealth ρ) : Prop
  | quiet (hcount : s'.count = s.count) (hevents : s'.events = s.events)
      (hincident : s'.incident = none ∨ s'.incident = s.incident)
  | amends (e e' : Incident) (earlier : List Incident) (hcount : s'.count = s.count)
      (hincident : s.incident = some e) (hincident' : s'.incident = some e')
      (hevents : s.events = earlier ++ [e]) (hevents' : s'.events = earlier ++ [e'])
      (hid : e'.id = e.id) (hbaseline : e'.baselineKeys = e.baselineKeys)
      (hmarked : e' = e ∨ e.occurrenceKeys.len < e'.occurrenceKeys.len ∨ s'.recoveryRows ≠ [])
  | opens (e' : Incident) (hcount : s'.count = s.count + 1) (hincident' : s'.incident = some e')
      (hevents' : s'.events = s.events ++ [e'])
      (hbaseline : e'.baselineKeys = s'.baseline.map keyOf) (hrecovery : s'.recoveryRows = [])

theorem suspect_effect (s : CacheHealth ρ) (scope : Segment) (row : ρ) :
    Effect s (s.suspect scope row) := by
  unfold CacheHealth.suspect
  dsimp only
  split
  · exact .opens _ rfl rfl rfl rfl rfl
  · exact .quiet rfl rfl (Or.inr rfl)

theorem follow_effect (h : Sound seen s)
    (hopen : s.openIncident = some e) (isBad : Bool) (row : ρ) :
    Effect s (s.follow e isBad row) := by
  have hincident := (openIncident_eq_some.mp hopen).1
  obtain ⟨earlier, hevents⟩ := h.linked e hincident
  have hamend : ∀ e' : Incident, (s.amend e').events = earlier ++ [e'] := by
    intro e'
    simp [CacheHealth.amend, hevents]
  have hid : (if isBad then occur e row else e).id = e.id ∧
      (if isBad then occur e row else e).baselineKeys = e.baselineKeys := by
    split <;> exact ⟨rfl, rfl⟩
  have hmarked : (if isBad then occur e row else e) = e ∨
      e.occurrenceKeys.len < (if isBad then occur e row else e).occurrenceKeys.len := by
    split
    · refine Or.inr ?_
      show _ < (e.occurrenceKeys.append (keyOf row)).len
      rw [Occurrences.len_append]
      omega
    · exact Or.inl rfl
  unfold CacheHealth.follow
  dsimp only
  generalize (if recovers e row then s.recoveryRows ++ [row] else []) = rows
  generalize (if isBad then occur e row else e) = event at hid hmarked ⊢
  split
  case isTrue hlen =>
    refine .amends e (resolve event rows row) earlier rfl hincident rfl hevents (hamend _)
      hid.1 hid.2 (Or.inr (Or.inr ?_))
    rintro rfl
    simp at hlen
  case isFalse =>
    exact .amends e event earlier rfl hincident rfl hevents (hamend _) hid.1 hid.2
      (hmarked.imp_right Or.inl)

/-- **What `consume` does to the incidents.** -/
theorem consume_effect (h : Sound seen s) (row : ρ) : Effect s (s.consume row) := by
  have hassess : ∀ {s₁ : CacheHealth ρ}, Sound seen s₁ → Effect s₁ (s₁.assess row) := by
    intro s₁ h₁
    unfold CacheHealth.assess
    cases hopen : s₁.openIncident with
    | some e => exact follow_effect h₁ hopen _ row
    | none =>
      dsimp only
      split
      · exact suspect_effect s₁ _ row
      · exact .quiet rfl rfl (Or.inr rfl)
  have hsettle : ∀ {s₁ s₂ : CacheHealth ρ}, Effect s₁ s₂ → Effect s₁ (s₂.settle row) := by
    intro s₁ s₂ heffect
    cases heffect with
    | quiet hcount hevents hincident => exact .quiet hcount hevents hincident
    | amends e e' earlier hcount hincident hincident' hevents hevents' hid hbaseline hmarked =>
      exact .amends e e' earlier hcount hincident hincident' hevents hevents' hid hbaseline hmarked
    | opens e' hcount hincident' hevents' hbaseline hrecovery =>
      exact .opens e' hcount hincident' hevents' hbaseline hrecovery
  unfold CacheHealth.consume
  dsimp only
  by_cases hchanges : s.changes row
  · rw [if_pos hchanges]
    split
    · -- A restart leaves no incident, so the row can only open one.
      have heffect := hsettle (hassess (h.restart row))
      cases heffect with
      | quiet hcount hevents hincident =>
        refine .quiet hcount hevents (Or.inl ?_)
        exact hincident.elim id fun hsame => hsame.trans rfl
      | amends e e' earlier hcount hincident => exact absurd hincident (by simp [restart])
      | opens e' hcount hincident' hevents' hbaseline hrecovery =>
        exact .opens e' hcount hincident' hevents' hbaseline hrecovery
    · exact .quiet rfl rfl (Or.inl rfl)
  · rw [if_neg hchanges]
    split
    · exact hsettle (hassess h)
    · exact .quiet rfl rfl (Or.inr rfl)

def classified (rows : List ρ) : CacheHealth ρ := run CacheHealth.consume {} rows

theorem classified_append (xs ys : List ρ) :
    classified (xs ++ ys) = run CacheHealth.consume (classified xs) ys := run_append _ _ _ _

/-- **Every classification is sound.** -/
theorem classified_sound (rows : List ρ) : Sound rows (classified rows) := by
  induction rows using List.reverseRecOn with
  | nil => exact sound_nil
  | append_singleton rows row ih =>
    rw [classified_append]
    exact ih.consume row

/-! ## the incidents of a session -/

theorem classified_count {rows : List ρ} (he : e ∈ (classified rows).events) :
    e.count = e.occurrenceKeys.list.length ∧ 2 ≤ e.count := by
  obtain ⟨first, second, rest, hkeys, hcount, -⟩ := (classified_sound rows).formed e he
  rw [hcount, hkeys]
  exact ⟨rfl, by simp⟩

theorem Sound.nodup (h : Sound seen s) (hkeys : (seen.map keyOf).Nodup) : s.occurrences.Nodup :=
  hkeys.sublist ((sublist_append_left _ _).trans h.counted)

theorem Sound.ids_nodup (h : Sound seen s)
    (hkeys : (seen.map keyOf).Nodup) : (s.events.map (·.id)).Nodup := by
  have hdisjoint := (nodup_flatMap.mp (h.nodup hkeys)).2
  refine pairwise_map.mpr (hdisjoint.imp_of_mem fun {a b} ha hb hab hid => ?_)
  obtain ⟨first, second, rest, hfirst, -, hida⟩ := h.formed a ha
  obtain ⟨first', second', rest', hfirst', -, hidb⟩ := h.formed b hb
  have hsame : first = first' := append_cancel_left (hida.symm.trans (hid.trans hidb))
  refine hab (a := first) ?_ ?_
  · show first ∈ a.occurrenceKeys.list
    rw [hfirst]
    exact mem_cons_self
  · show first ∈ b.occurrenceKeys.list
    rw [hfirst', hsame]
    exact mem_cons_self

theorem Sound.one_incident (h : Sound seen s) (hkeys : (seen.map keyOf).Nodup) (key : PyStr) :
    (s.events.filter fun e => key ∈ e.occurrenceKeys.list).length ≤ 1 := by
  have hdisjoint := (nodup_flatMap.mp (h.nodup hkeys)).2.filter
    fun e => decide (key ∈ e.occurrenceKeys.list)
  have hmem : ∀ e ∈ s.events.filter fun e => key ∈ e.occurrenceKeys.list,
      key ∈ e.occurrenceKeys.list := by
    intro e he
    simpa using (List.mem_filter.mp he).2
  generalize (s.events.filter fun e => key ∈ e.occurrenceKeys.list) = found at hdisjoint hmem
  match found with
  | [] => simp
  | [e] => simp
  | e :: e' :: rest =>
    have hpair := (pairwise_cons.mp hdisjoint).1 e' (by simp)
    exact absurd (hmem e' (by simp)) (hpair (hmem e (by simp)))

end CacheHealth

end Codexon.Caching
