import Codexon.Dict
import Codexon.Keyed
import Codexon.Native
import Codexon.Run
import Mathlib.Data.List.MinMax
import Mathlib.Data.Prod.Lex

/-!
# Codexon.CallElection

Which session owns a call that several histories contain: `owned_histories` of
`cachemonitor/analysis_engine.py`, its native form in `native/src/analysis.rs`, and
`AnalysisEngine.update_ownership`, which elects again only where something changed.

A row has its key, the other fields of `row_signature` and the rest.
-/

namespace Codexon.CallElection

structure Row (σ δ : Type) where
  key : Option PyStr
  facts : σ
  rest : δ
deriving DecidableEq

structure Session (σ δ τ : Type) where
  home : PyStr
  id : PyStr
  history : List (Row σ δ)
  usageRevision : Option τ
  pending : Bool

abbrev Owner := PyStr ×ₗ PyStr

abbrev Identity := PyStr × Option PyStr × Option PyStr

variable {σ δ τ : Type}

def isLocal : Option PyStr → Bool
  | none => false
  | some key => (py "record:").isPrefixOf key || (py "legacy:").isPrefixOf key

def callIdentity (home sid : PyStr) (key : Option PyStr) : Identity :=
  if isLocal key then (home, some sid, key) else (home, none, key)

def Session.owner (s : Session σ δ τ) : Owner := toLex (s.home, s.id)

def Session.identity (s : Session σ δ τ) (row : Row σ δ) : Identity :=
  callIdentity s.home s.id row.key

def Session.identities (s : Session σ δ τ) : List Identity := s.history.map s.identity

variable {sessions : List (Session σ δ τ)} {s t : Session σ δ τ} {i : Identity}

theorem identities_eq (howner : s.owner = t.owner)
    (hkeys : s.history.map Row.key = t.history.map Row.key) : s.identities = t.identities := by
  have hof (u : Session σ δ τ) :
      u.identities = (u.history.map Row.key).map (callIdentity u.home u.id) := by
    simp [Session.identities, Session.identity, Function.comp_def]
  obtain ⟨hhome, hid⟩ := Prod.ext_iff.mp (toLex.injective howner)
  simp only at hhome hid
  rw [hof, hof, hkeys, hhome, hid]

def Distinct (sessions : List (Session σ δ τ)) : Prop := (sessions.map Session.owner).Nodup

theorem eq_of_owner (h : Distinct sessions) (hs : s ∈ sessions) (ht : t ∈ sessions)
    (howner : s.owner = t.owner) : s = t := List.inj_on_of_nodup_map h hs ht howner

/-! ## one sweep in the order of the owners -/

/-- `sorted(range(len(sessions)), key=…)` -/
def order (sessions : List (Session σ δ τ)) : List Nat :=
  (Keyed.sort (fun x : Session σ δ τ × Nat => x.1.owner) sessions.zipIdx).map Prod.snd

/-! ## the sweep -/

/-- The order of `priority`. -/
def Session.rank (s : Session σ δ τ) : Bool ×ₗ Owner := toLex (s.pending, s.owner)

/-- No session with the call comes before `s`. -/
def Leads (sessions : List (Session σ δ τ)) (s : Session σ δ τ) (i : Identity) : Prop :=
  ∀ t ∈ sessions, i ∈ t.identities → s.rank ≤ t.rank

instance (sessions : List (Session σ δ τ)) (s : Session σ δ τ) (i : Identity) :
    Decidable (Leads sessions s i) := inferInstanceAs (Decidable (∀ t ∈ sessions, _ → _))

theorem rank_le (hs : s.pending = false) (ht : t.pending = false) :
    s.rank ≤ t.rank ↔ s.owner ≤ t.owner := by
  simp [Session.rank, Prod.Lex.toLex_le_toLex, hs, ht]

inductive Revision (σ τ : Type) where
  | usage (revision : τ)
  | signatures (rows : List (Option PyStr × σ))
deriving DecidableEq

/-- The token of a session: its revision or the signatures of its rows, and `pending`. -/
def Session.token (s : Session σ δ τ) : Revision σ τ × Bool :=
  (match s.usageRevision with
    | some revision => .usage revision
    | none => .signatures (s.history.map fun row => (row.key, row.facts)), s.pending)

/-- The ownership of an `AnalysisEngine`.  The orders of the dictionaries and sets are
immaterial; a position list of `none` stands for the whole history. -/
structure Engine (σ τ : Type) where
  sources : List (Owner × (Revision σ τ × Bool) × List Identity) := []
  candidates : Identity → List Owner := fun _ => []
  positions : Owner → Option (Option (List Nat)) := fun _ => none
  versions : Owner → Option Nat := fun _ => none

/-- An owner with its identities of before and of now. -/
abbrev Move := Owner × List Identity × List Identity

/-- An owner leaves the candidates of its old identities and enters those of the new ones. -/
def reindex (candidates : Identity → List Owner) (m : Move) (i : Identity) : List Owner :=
  let kept := if i ∈ m.2.1 then (candidates i).filter (· ≠ m.1) else candidates i
  if i ∈ m.2.2 ∧ m.1 ∉ kept then m.1 :: kept else kept

/-- The positions of the rows that satisfy `p`, or `none` if all do. -/
def Session.place (s : Session σ δ τ) (p : Identity → Bool) : Option (List Nat) :=
  let positions := (s.identities.zipIdx.filter fun x => p x.1).map Prod.snd
  if positions.length = s.history.length then none else some positions

/-- `{(s['home'], s['id']): s for s in sessions}` -/
def latest (sessions : List (Session σ δ τ)) : List (Session σ δ τ) :=
  (({} : Dict Owner _).update (sessions.map fun s => (s.owner, s))).entries.map Prod.snd

/-! ## the same sessions -/

theorem find?_owner (h : Distinct sessions) (hs : s ∈ sessions) :
    sessions.find? (·.owner = s.owner) = some s := by
  obtain ⟨t, ht⟩ : ∃ t, sessions.find? (·.owner = s.owner) = some t :=
    Option.isSome_iff_exists.mp (by simpa using ⟨s, hs, rfl⟩)
  rw [ht, eq_of_owner h (List.mem_of_find?_eq_some ht) hs (by simpa using List.find?_some ht)]

theorem latest_eq (h : Distinct sessions) : latest sessions = sessions := by
  have hkeys : ((sessions.map fun s => (s.owner, s)).map Prod.fst).Nodup := by
    simpa [Distinct, Function.comp_def] using h
  simp [latest, Dict.entries_update ({} : Dict Owner (Session σ δ τ)) hkeys, Function.comp_def]

/-- Sessions of different owners.  A revision stands for the keys of the history: it covers
corrections as well as append. -/
structure Proper (revised : Owner → τ → List (Option PyStr))
    (sessions : List (Session σ δ τ)) : Prop where
  distinct : Distinct sessions
  versioned : ∀ s ∈ sessions, ∀ revision ∈ s.usageRevision,
    s.history.map Row.key = revised s.owner revision

variable {revised : Owner → τ → List (Option PyStr)} {before : List (Session σ δ τ)}
  {k : Owner}

theorem same_of_token (hbefore : Proper revised before) (hsessions : Proper revised sessions)
    (ht : t ∈ before) (hs : s ∈ sessions) (howner : t.owner = s.owner) (htoken : t.token = s.token) :
    t.identities = s.identities ∧ t.rank = s.rank := by
  obtain ⟨hrevision, hpending⟩ := Prod.ext_iff.mp htoken
  refine ⟨identities_eq howner ?_, by simp_all [Session.rank, Session.token]⟩
  have hkeys := hsessions.versioned s hs
  have hkeys' := hbefore.versioned t ht
  simp only [Session.token] at hrevision
  cases hsr : s.usageRevision <;> cases htr : t.usageRevision <;> simp only [hsr, htr] at hrevision
  · simpa [Function.comp_def] using congrArg (List.map Prod.fst) (Revision.signatures.inj hrevision)
  · cases hrevision
  · cases hrevision
  · rw [hkeys _ hsr, hkeys' _ htr, howner, Revision.usage.inj hrevision]

theorem place_congr {p q : Identity → Bool} (hidentities : t.identities = s.identities)
    (hpq : ∀ i ∈ s.identities, p i = q i) : t.place p = s.place q := by
  have hlength : t.history.length = s.history.length := by
    simpa [Session.identities] using congrArg List.length hidentities
  have hfilter : s.identities.zipIdx.filter (fun x => p x.1) =
      s.identities.zipIdx.filter fun x => q x.1 :=
    List.filter_congr fun x hx => hpq x.1 (List.fst_mem_of_mem_zipIdx hx)
  simp only [Session.place, hidentities, hlength, hfilter]

/-- The least candidate of a call leads. -/
theorem min?_iff (hs : s ∈ sessions) (hi : i ∈ s.identities)
    {candidates : List Owner} {priority : Owner → Bool ×ₗ Owner}
    (hpriority : ∀ t ∈ sessions, priority t.owner = t.rank)
    (hcandidates : ∀ k, k ∈ candidates ↔ ∃ t ∈ sessions, t.owner = k ∧ i ∈ t.identities) :
    (candidates.map priority).min? = some (priority s.owner) ↔ Leads sessions s i := by
  have hmem : priority s.owner ∈ candidates.map priority :=
    List.mem_map_of_mem ((hcandidates s.owner).mpr ⟨s, hs, rfl, hi⟩)
  rw [List.min?_eq_some_iff]
  constructor
  · rintro ⟨-, hle⟩ t ht hti
    rw [← hpriority s hs, ← hpriority t ht]
    exact hle _ (List.mem_map_of_mem ((hcandidates t.owner).mpr ⟨t, ht, rfl, hti⟩))
  · refine fun hleads => ⟨hmem, fun b hb => ?_⟩
    obtain ⟨k, hk, rfl⟩ := List.mem_map.mp hb
    obtain ⟨t, ht, rfl, hti⟩ := (hcandidates k).mp hk
    rw [hpriority s hs, hpriority t ht]
    exact hleads t ht hti

theorem priority_eq (hsessions : Distinct sessions) (ht : t ∈ sessions) :
    (toLex (decide (t.owner ∈ (sessions.filter (·.pending)).map Session.owner), t.owner) :
      Bool ×ₗ Owner) = t.rank := by
  have hpending : t.owner ∈ (sessions.filter (·.pending)).map Session.owner ↔
      t.pending = true := by
    constructor
    · intro h
      obtain ⟨u, hu, howner⟩ := List.mem_map.mp h
      obtain ⟨hu, hpending⟩ := List.mem_filter.mp hu
      exact eq_of_owner hsessions hu ht howner ▸ hpending
    · exact fun h => List.mem_map_of_mem (List.mem_filter.mpr ⟨ht, h⟩)
  rw [Session.rank, Bool.decide_congr hpending, Bool.decide_eq_true]

theorem mem_reindex {candidates : Identity → List Owner} {m : Move} :
    k ∈ reindex candidates m i ↔
      (k = m.1 ∧ i ∈ m.2.2) ∨ (k ∈ candidates i ∧ ¬(k = m.1 ∧ i ∈ m.2.1)) := by
  unfold reindex
  grind

theorem mem_moved {moves : List Move} (candidates : Identity → List Owner)
    (hnodup : (moves.map Prod.fst).Nodup) :
    k ∈ moves.foldl reindex candidates i ↔
      (∃ m ∈ moves, m.1 = k ∧ (i ∈ m.2.2 ∨ k ∈ candidates i ∧ i ∉ m.2.1)) ∨
      (¬(∃ m ∈ moves, m.1 = k) ∧ k ∈ candidates i) := by
  induction moves generalizing candidates with
  | nil => simp
  | cons m moves ih =>
    rw [List.map_cons, List.nodup_cons] at hnodup
    rw [List.foldl_cons, ih _ hnodup.2, mem_reindex]
    by_cases hk : k = m.1
    · subst hk
      have hnone : ∀ m' ∈ moves, m'.1 ≠ m.1 := fun m' hm' heq =>
        hnodup.1 (List.mem_map.mpr ⟨m', hm', heq⟩)
      grind
    · have hne : m.1 ≠ k := Ne.symm hk
      simp [hk, hne]

variable [DecidableEq σ] [DecidableEq τ]

def Engine.token (e : Engine σ τ) (owner : Owner) : Option (Revision σ τ × Bool) :=
  (e.sources.find? (·.1 = owner)).map (·.2.1)

def Engine.identities (e : Engine σ τ) (owner : Owner) : List Identity :=
  ((e.sources.find? (·.1 = owner)).map (·.2.2)).getD []

/-- The sessions with another token. -/
def Engine.changed (e : Engine σ τ) (sessions : List (Session σ δ τ)) : List (Session σ δ τ) :=
  sessions.filter fun s => e.token s.owner ≠ some s.token

/-- What the loops over the removed and the changed sessions reindex. -/
def Engine.moves (e : Engine σ τ) (sessions : List (Session σ δ τ)) : List Move :=
  ((e.sources.filter (·.1 ∉ sessions.map Session.owner)).map fun x => (x.1, x.2.2, [])) ++
    (e.changed sessions).map fun s => (s.owner, e.identities s.owner, s.identities)

def Engine.touched (e : Engine σ τ) (sessions : List (Session σ δ τ)) : List Identity :=
  (e.moves sessions).flatMap fun m => m.2.1 ++ m.2.2

/-- The sessions that are elected again. -/
def Engine.affected (e : Engine σ τ) (sessions : List (Session σ δ τ)) : List Owner :=
  (e.changed sessions).map Session.owner ++
    (e.touched sessions).flatMap ((e.moves sessions).foldl reindex e.candidates)

/-- `update_ownership` over sessions of different owners.  `min` by `priority` is by the
owner alone where nothing is pending. -/
def Engine.elect (e : Engine σ τ) (sessions : List (Session σ δ τ)) : Engine σ τ :=
  let candidates := (e.moves sessions).foldl reindex e.candidates
  let pending := (sessions.filter (·.pending)).map Session.owner
  let priority (owner : Owner) : Bool ×ₗ Owner := toLex (owner ∈ pending, owner)
  let affected := e.affected sessions
  { sources := sessions.map fun s => (s.owner, s.token,
      if e.token s.owner = some s.token then e.identities s.owner else s.identities)
    candidates := candidates
    positions owner := (sessions.find? (·.owner = owner)).bind fun s =>
      if owner ∈ affected then
        some (s.place fun i => ((candidates i).map priority).min? = some (priority owner))
      else e.positions owner
    versions owner := (sessions.find? (·.owner = owner)).bind fun _ =>
      if owner ∈ affected then some ((e.versions owner).getD 0 + 1) else e.versions owner }

def Engine.updateOwnership (e : Engine σ τ) (sessions : List (Session σ δ τ)) : Engine σ τ :=
  e.elect (latest sessions)

/-- The histories that `update_ownership` returns. -/
def Engine.histories (e : Engine σ τ) (sessions : List (Session σ δ τ)) :
    List (List (Row σ δ)) :=
  (latest sessions).map fun s => match e.positions s.owner with
    | some (some positions) => positions.filterMap (s.history[·]?)
    | _ => s.history

/-! ## electing again -/

/-- What the engine holds after a call with these sessions. -/
structure Kept (e : Engine σ τ) (sessions : List (Session σ δ τ)) : Prop where
  sources : e.sources = sessions.map fun s => (s.owner, s.token, s.identities)
  candidates : ∀ i k, k ∈ e.candidates i ↔ ∃ s ∈ sessions, s.owner = k ∧ i ∈ s.identities
  positions : ∀ s ∈ sessions, e.positions s.owner = some (s.place fun i => Leads sessions s i)

variable {e : Engine σ τ}

section

variable (hkept : Kept e before) (hbefore : Proper revised before)
  (hsessions : Proper revised sessions)

include hkept

section

include hbefore

omit [DecidableEq σ] [DecidableEq τ] in
theorem old_eq (ht : t ∈ before) :
    e.token t.owner = some t.token ∧ e.identities t.owner = t.identities := by
  have hfind : e.sources.find? (·.1 = t.owner) = some (t.owner, t.token, t.identities) := by
    rw [hkept.sources, List.find?_map, Function.comp_def, find?_owner hbefore.distinct ht]
    rfl
  simp [Engine.token, Engine.identities, hfind]

include hsessions

/-- A session that is not changed was there, with the same calls and the same rank. -/
theorem exists_same (hs : s ∈ sessions) (h : s ∉ e.changed sessions) :
    ∃ t ∈ before, t.owner = s.owner ∧ t.identities = s.identities ∧ t.rank = s.rank := by
  have htoken : e.token s.owner = some s.token := by simpa [Engine.changed, hs] using h
  obtain ⟨x, hx, hfst⟩ := Option.map_eq_some_iff.mp htoken
  have howner : x.1 = s.owner := by simpa using List.find?_some hx
  have hmem := List.mem_of_find?_eq_some hx
  rw [hkept.sources] at hmem
  obtain ⟨t, ht, rfl⟩ := List.mem_map.mp hmem
  exact ⟨t, ht, howner, same_of_token hbefore hsessions ht hs howner hfst⟩

theorem nodup_moves : ((e.moves sessions).map Prod.fst).Nodup := by
  have hmoves : (e.moves sessions).map Prod.fst =
      (before.map Session.owner).filter (· ∉ sessions.map Session.owner) ++
        (e.changed sessions).map Session.owner := by
    simp [Engine.moves, hkept.sources, List.filter_map, Function.comp_def]
  have hchanged : ((e.changed sessions).map Session.owner).Sublist (sessions.map Session.owner) :=
    List.filter_sublist.map _
  rw [hmoves]
  refine List.nodup_append.mpr
    ⟨List.Nodup.filter _ hbefore.distinct, hsessions.distinct.sublist hchanged, ?_⟩
  rintro a ha b hb rfl
  exact absurd (hchanged.mem hb) (by simpa using (List.mem_filter.mp ha).2)

end

theorem mem_moves {m : Move} :
    m ∈ e.moves sessions ↔
      (∃ t ∈ before, t.owner ∉ sessions.map Session.owner ∧ m = (t.owner, t.identities, [])) ∨
      ∃ s ∈ e.changed sessions, m = (s.owner, e.identities s.owner, s.identities) := by
  simp only [Engine.moves, hkept.sources, List.mem_append, List.mem_map, List.mem_filter]
  grind

include hsessions in
theorem exists_move (hs : s ∈ sessions) {P : List Identity × List Identity → Prop} :
    (∃ m ∈ e.moves sessions, m.1 = s.owner ∧ P m.2) ↔
      s ∈ e.changed sessions ∧ P (e.identities s.owner, s.identities) := by
  constructor
  · rintro ⟨m, hm, howner, hP⟩
    rcases (mem_moves hkept).mp hm with ⟨t, _, hgone, rfl⟩ | ⟨u, hu, rfl⟩
    · exact absurd (List.mem_map.mpr ⟨s, hs, howner.symm⟩) hgone
    · obtain rfl := eq_of_owner hsessions.distinct (List.mem_filter.mp hu).1 hs howner
      exact ⟨hu, hP⟩
  · rintro ⟨hchanged, hP⟩
    exact ⟨_, (mem_moves hkept).mpr (.inr ⟨s, hchanged, rfl⟩), rfl, hP⟩

theorem exists_move_of_not_mem (hk : k ∉ sessions.map Session.owner)
    {P : List Identity × List Identity → Prop} :
    (∃ m ∈ e.moves sessions, m.1 = k ∧ P m.2) ↔
      ∃ t ∈ before, t.owner = k ∧ P (t.identities, []) := by
  constructor
  · rintro ⟨m, hm, rfl, hP⟩
    rcases (mem_moves hkept).mp hm with ⟨t, ht, _, rfl⟩ | ⟨u, hu, rfl⟩
    · exact ⟨t, ht, rfl, hP⟩
    · exact absurd (List.mem_map_of_mem (List.mem_filter.mp hu).1) hk
  · rintro ⟨t, ht, rfl, hP⟩
    exact ⟨_, (mem_moves hkept).mpr (.inl ⟨t, ht, hk, rfl⟩), rfl, hP⟩

include hbefore hsessions

theorem mem_candidates :
    k ∈ (e.moves sessions).foldl reindex e.candidates i ↔
      ∃ s ∈ sessions, s.owner = k ∧ i ∈ s.identities := by
  have hany : (∃ m ∈ e.moves sessions, m.1 = k) ↔ ∃ m ∈ e.moves sessions, m.1 = k ∧ True := by simp
  rw [mem_moved _ (nodup_moves hkept hbefore hsessions), hkept.candidates, hany]
  by_cases hk : k ∈ sessions.map Session.owner
  · obtain ⟨s, hs, rfl⟩ := List.mem_map.mp hk
    have hone : (∃ u ∈ sessions, u.owner = s.owner ∧ i ∈ u.identities) ↔ i ∈ s.identities :=
      ⟨fun ⟨u, hu, howner, hi⟩ => eq_of_owner hsessions.distinct hu hs howner ▸ hi,
        fun hi => ⟨s, hs, rfl, hi⟩⟩
    rw [hone, exists_move hkept hsessions hs (P := fun m => i ∈ m.2 ∨ _ ∧ i ∉ m.1),
      exists_move hkept hsessions hs (P := fun _ => True)]
    by_cases hchanged : s ∈ e.changed sessions
    · have hold : (∃ t ∈ before, t.owner = s.owner ∧ i ∈ t.identities) →
          i ∈ e.identities s.owner := by
        rintro ⟨t, ht, howner, hi⟩
        rwa [← howner, (old_eq hkept hbefore ht).2]
      grind
    · obtain ⟨t, ht, howner, hsame, -⟩ := exists_same hkept hbefore hsessions hs hchanged
      have htone : (∃ u ∈ before, u.owner = s.owner ∧ i ∈ u.identities) ↔ i ∈ s.identities :=
        ⟨fun ⟨u, hu, hsu, hi⟩ =>
          hsame ▸ eq_of_owner hbefore.distinct hu ht (hsu.trans howner.symm) ▸ hi,
          fun hi => ⟨t, ht, howner, hsame ▸ hi⟩⟩
      simp [hchanged, htone]
  · rw [exists_move_of_not_mem hkept hk (P := fun m => i ∈ m.2 ∨ _ ∧ i ∉ m.1),
      exists_move_of_not_mem hkept hk (P := fun _ => True)]
    have hnone : ¬∃ s ∈ sessions, s.owner = k ∧ i ∈ s.identities := fun ⟨s, hs, howner, _⟩ =>
      hk (List.mem_map.mpr ⟨s, hs, howner⟩)
    have hone := fun t ht u hu => eq_of_owner hbefore.distinct (s := t) (t := u) ht hu
    grind

/-- A call that is not touched has the candidates of before, with the same ranks. -/
theorem same_ranks (hi : i ∉ e.touched sessions) :
    (∀ u ∈ sessions, i ∈ u.identities → ∃ t ∈ before, i ∈ t.identities ∧ t.rank = u.rank) ∧
    ∀ t ∈ before, i ∈ t.identities → ∃ u ∈ sessions, i ∈ u.identities ∧ u.rank = t.rank := by
  have hmove : ∀ m ∈ e.moves sessions, i ∉ m.2.1 ∧ i ∉ m.2.2 := fun m hm => by
    have hnot : i ∉ m.2.1 ++ m.2.2 := fun h => hi (List.mem_flatMap.mpr ⟨m, hm, h⟩)
    simpa using hnot
  have hsame : ∀ u ∈ sessions, i ∈ e.identities u.owner ∨ i ∈ u.identities →
      ∃ t ∈ before, t.owner = u.owner ∧ t.identities = u.identities ∧ t.rank = u.rank :=
    fun u hu hor => exists_same hkept hbefore hsessions hu fun hchanged => by
      obtain ⟨hold, hnew⟩ := hmove _ ((mem_moves hkept).mpr (.inr ⟨u, hchanged, rfl⟩))
      exact hor.elim hold hnew
  constructor
  · intro u hu hi
    obtain ⟨t, ht, -, hidentities, hrank⟩ := hsame u hu (.inr hi)
    exact ⟨t, ht, hidentities ▸ hi, hrank⟩
  · intro t ht hi
    by_cases hgone : t.owner ∈ sessions.map Session.owner
    · obtain ⟨u, hu, howner⟩ := List.mem_map.mp hgone
      obtain ⟨t', ht', howner', hidentities, hrank⟩ :=
        hsame u hu (.inl (by rwa [howner, (old_eq hkept hbefore ht).2]))
      obtain rfl := eq_of_owner hbefore.distinct ht' ht (howner'.trans howner)
      exact ⟨u, hu, hidentities ▸ hi, hrank.symm⟩
    · exact absurd hi (hmove _ ((mem_moves hkept).mpr (.inl ⟨t, ht, hgone, rfl⟩))).1

theorem kept_elect : Kept (e.elect sessions) sessions where
  sources := by
    refine List.map_congr_left fun s hs => ?_
    split
    · next htoken =>
      obtain ⟨t, ht, howner, hidentities, -⟩ := exists_same hkept hbefore hsessions hs
        (by simp [Engine.changed, hs, htoken])
      rw [← howner, (old_eq hkept hbefore ht).2, hidentities]
    · rfl
  candidates i k := mem_candidates hkept hbefore hsessions
  positions s hs := by
    simp only [Engine.elect, find?_owner hsessions.distinct hs, Option.bind_some]
    split
    · refine congrArg some (place_congr rfl fun i hi => ?_)
      exact decide_eq_decide.mpr (min?_iff hs hi (fun t => priority_eq hsessions.distinct)
        fun k => mem_candidates hkept hbefore hsessions)
    · next haffected =>
      have hchanged : s ∉ e.changed sessions := fun h =>
        haffected (List.mem_append_left _ (List.mem_map_of_mem h))
      obtain ⟨t, ht, howner, hidentities, hrank⟩ :=
        exists_same hkept hbefore hsessions hs hchanged
      rw [← howner, hkept.positions t ht]
      refine congrArg some (place_congr hidentities fun i hi => decide_eq_decide.mpr ?_)
      have hnot : i ∉ e.touched sessions := fun htouched =>
        haffected (List.mem_append_right _ (List.mem_flatMap.mpr ⟨i, htouched,
          (mem_candidates hkept hbefore hsessions).mpr ⟨s, hs, rfl, hi⟩⟩))
      obtain ⟨hback, hforth⟩ := same_ranks hkept hbefore hsessions hnot
      rw [Leads, Leads, hrank]
      constructor
      · intro h u hu hui
        obtain ⟨v, hv, hvi, hvu⟩ := hback u hu hui
        exact hvu ▸ h v hv hvi
      · intro h v hv hvi
        obtain ⟨u, hu, hui, huv⟩ := hforth v hv hvi
        exact huv ▸ h u hu hui

end

theorem kept_run (calls : List (List (Session σ δ τ)))
    (hcalls : ∀ call ∈ calls, Proper revised call) :
    Proper revised (calls.getLast?.getD []) ∧
      Kept (run Engine.updateOwnership ({} : Engine σ τ) calls) (calls.getLast?.getD []) := by
  induction calls using List.reverseRecOn with
  | nil => exact ⟨⟨List.nodup_nil, by simp⟩, rfl, by simp, by simp⟩
  | append_singleton calls call ih =>
    obtain ⟨hproper, hkept⟩ := ih fun call hcall => hcalls call (by simp [hcall])
    have hcall := hcalls call (by simp)
    simp only [run_append, run_cons, run_nil, List.getLast?_append, List.getLast?_singleton,
      Option.some_or, Option.getD_some]
    refine ⟨hcall, ?_⟩
    rw [Engine.updateOwnership, latest_eq hcall.distinct]
    exact kept_elect hkept hproper hcall

end Codexon.CallElection
