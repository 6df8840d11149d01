import Mathlib.Order.Basic
import Mathlib.Data.List.Basic
import Mathlib.Data.Nat.Basic

/-!
# Codexon.Versions

Multi-version tables: every key has versions written by numbered batches, a
version holds a value or is a tombstone, and a reader that sees some of the
batches reads the newest version it sees.

* `Reads` is that reading, `ReadsAs` says what a key reads as;
* `put` replaces the version of one batch;
* `ReadsAs.erase` is the rule of cleaning: a version may go where a newer one
  is seen, or where it is a tombstone with nothing seen below it.
-/

namespace Codexon

open List

universe u v

/-- The version of a key that a batch wrote: a value, or a tombstone. -/
structure Version (κ : Type u) (ν : Type v) where
  key : κ
  batch : Nat
  value : Option ν
deriving DecidableEq

namespace Version

variable {κ : Type u} {ν : Type v}

def Latest (visible : Nat → Prop) (rows : List (Version κ ν)) (row : Version κ ν) : Prop :=
  row ∈ rows ∧ visible row.batch ∧
    ∀ newer ∈ rows, newer.key = row.key → visible newer.batch → newer.batch ≤ row.batch

instance Latest.decidable [DecidableEq κ] [DecidableEq ν] (visible : Nat → Prop)
    [DecidablePred visible] (rows : List (Version κ ν)) : DecidablePred (Latest visible rows) :=
  fun row => inferInstanceAs (Decidable (row ∈ rows ∧ visible row.batch ∧
    ∀ newer ∈ rows, newer.key = row.key → visible newer.batch → newer.batch ≤ row.batch))

def Reads (visible : Nat → Prop) (rows : List (Version κ ν)) (key : κ) (value : ν) : Prop :=
  ∃ row, Latest visible rows row ∧ row.key = key ∧ row.value = some value

def ReadsAs (visible : Nat → Prop) (rows : List (Version κ ν)) (key : κ) (value : Option ν) :
    Prop :=
  ∀ v, Reads visible rows key v ↔ value = some v

def Single (rows : List (Version κ ν)) : Prop :=
  ∀ row ∈ rows, ∀ other ∈ rows, other.key = row.key → other.batch = row.batch → other = row

def put [DecidableEq κ] (rows : List (Version κ ν)) (row : Version κ ν) : List (Version κ ν) :=
  rows.filter (fun old => ¬ (old.key = row.key ∧ old.batch = row.batch)) ++ [row]

variable {visible : Nat → Prop} {rows rows' : List (Version κ ν)}

/-! ## reading -/

theorem readsAs_nil (key : κ) : ReadsAs visible ([] : List (Version κ ν)) key none := by
  intro v
  simp [Reads, Latest]

variable {row : Version κ ν}

theorem Latest.readsAs (hsingle : Single rows) (h : Latest visible rows row) :
    ReadsAs visible rows row.key row.value := by
  intro v
  constructor
  · rintro ⟨other, hother, hkey, hvalue⟩
    have hle := h.2.2 other hother.1 hkey hother.2.1
    have hge := hother.2.2 row h.1 hkey.symm h.2.1
    rw [← hsingle row h.1 other hother.1 hkey (Nat.le_antisymm hle hge)]
    exact hvalue
  · intro hvalue
    exact ⟨row, h, rfl, hvalue⟩

variable {value : Option ν}

theorem ReadsAs.congr {visible' : Nat → Prop} {key : κ} (h : ReadsAs visible rows key value)
    (hrows : ∀ row : Version κ ν, row.key = key → (row ∈ rows' ↔ row ∈ rows))
    (hvisible : ∀ row ∈ rows, row.key = key → (visible' row.batch ↔ visible row.batch)) :
    ReadsAs visible' rows' key value := by
  have hlatest : ∀ row : Version κ ν, row.key = key →
      (Latest visible' rows' row ↔ Latest visible rows row) := by
    intro row hkey
    simp only [Latest, hrows row hkey]
    constructor
    · rintro ⟨hmem, hseen, hnewest⟩
      refine ⟨hmem, (hvisible row hmem hkey).mp hseen, fun newer hnewer hsame hseen' => ?_⟩
      have hkey' := hsame.trans hkey
      exact hnewest newer ((hrows newer hkey').mpr hnewer) hsame
        ((hvisible newer hnewer hkey').mpr hseen')
    · rintro ⟨hmem, hseen, hnewest⟩
      refine ⟨hmem, (hvisible row hmem hkey).mpr hseen, fun newer hnewer hsame hseen' => ?_⟩
      have hkey' := hsame.trans hkey
      have hold := (hrows newer hkey').mp hnewer
      exact hnewest newer hold hsame ((hvisible newer hold hkey').mp hseen')
  intro v
  rw [← h v]
  constructor
  · rintro ⟨row, hrow, hkey, hvalue⟩
    exact ⟨row, (hlatest row hkey).mp hrow, hkey, hvalue⟩
  · rintro ⟨row, hrow, hkey, hvalue⟩
    exact ⟨row, (hlatest row hkey).mpr hrow, hkey, hvalue⟩

theorem readsAs_none {key : κ} (h : ∀ row ∈ rows, row.key = key → ¬ visible row.batch) :
    ReadsAs visible rows key none := by
  intro v
  simp only [reduceCtorEq, iff_false]
  rintro ⟨row, hrow, hkey, -⟩
  exact h row hrow.1 hkey hrow.2.1

theorem ReadsAs.unique {key : κ} {value' : Option ν} (h : ReadsAs visible rows key value)
    (h' : ReadsAs visible rows key value') : value = value' := by
  ext v
  exact (h v).symm.trans (h' v)

/-- **Cleaning**: versions may go where a newer one is seen, and tombstones where nothing
is seen below them. -/
theorem ReadsAs.erase {key : κ} (h : ReadsAs visible rows key value)
    (hsub : ∀ row ∈ rows', row ∈ rows)
    (hgone : ∀ row ∈ rows, row ∉ rows' → row.key = key → visible row.batch →
      (∃ newer ∈ rows', newer.key = key ∧ visible newer.batch ∧ row.batch < newer.batch) ∨
      row.value = none ∧ ∀ old ∈ rows', old.key = key → visible old.batch → row.batch ≤ old.batch) :
    ReadsAs visible rows' key value := by
  intro v
  rw [← h v]
  constructor
  · rintro ⟨row, ⟨hmem, hseen, hnewest⟩, hkey, hvalue⟩
    refine ⟨row, ⟨hsub row hmem, hseen, fun other hother hsame hseen' => ?_⟩, hkey, hvalue⟩
    have hkey' := hsame.trans hkey
    by_cases hkept : other ∈ rows'
    · exact hnewest other hkept hsame hseen'
    · rcases hgone other hother hkept hkey' hseen' with ⟨newer, hnewer, hkey'', hseen'', hlt⟩ | hlone
      · have hle := hnewest newer hnewer (hkey''.trans hkey.symm) hseen''
        omega
      · exact hlone.2 row hmem hkey hseen
  · rintro ⟨row, ⟨hmem, hseen, hnewest⟩, hkey, hvalue⟩
    have hkept : row ∈ rows' := by
      by_contra hgone'
      rcases hgone row hmem hgone' hkey hseen with ⟨newer, hnewer, hkey', hseen', hlt⟩ | hlone
      · have hle := hnewest newer (hsub newer hnewer) (hkey'.trans hkey.symm) hseen'
        omega
      · simp [hlone.1] at hvalue
    exact ⟨row, ⟨hkept, hseen, fun other hother => hnewest other (hsub other hother)⟩, hkey, hvalue⟩

/-! ## writing -/

variable [DecidableEq κ]

theorem mem_put {old : Version κ ν} : old ∈ put rows row ↔
      old = row ∨ old ∈ rows ∧ ¬ (old.key = row.key ∧ old.batch = row.batch) := by
  simp only [put, mem_append, List.mem_filter, mem_singleton, decide_eq_true_eq]
  exact or_comm

theorem Single.put (h : Single rows) (row : Version κ ν) : Single (put rows row) := by
  intro first hfirst second hsecond hkey hbatch
  rw [mem_put] at hfirst hsecond
  rcases hfirst with rfl | ⟨hfirst, hdiffer⟩ <;> rcases hsecond with rfl | ⟨hsecond, hdiffer'⟩
  · rfl
  · exact absurd ⟨hkey, hbatch⟩ hdiffer'
  · exact absurd ⟨hkey.symm, hbatch.symm⟩ hdiffer
  · exact h first hfirst second hsecond hkey hbatch

theorem readsAs_put_self (hsingle : Single rows) (row : Version κ ν) (hseen : visible row.batch)
    (hnewest : ∀ old ∈ rows, visible old.batch → old.batch ≤ row.batch) :
    ReadsAs visible (put rows row) row.key row.value := by
  apply Latest.readsAs (hsingle.put row)
  refine ⟨mem_put.mpr (.inl rfl), hseen, fun newer hnewer _ hseen' => ?_⟩
  rcases mem_put.mp hnewer with rfl | ⟨hold, -⟩
  · exact Nat.le_refl _
  · exact hnewest newer hold hseen'

theorem ReadsAs.put_other {key : κ} (h : ReadsAs visible rows key value)
    (hkey : key ≠ row.key) : ReadsAs visible (put rows row) key value := by
  apply h.congr ?_ (fun _ _ _ => Iff.rfl)
  intro old hold
  rw [mem_put]
  constructor
  · rintro (rfl | ⟨hmem, -⟩)
    · exact absurd hold.symm hkey
    · exact hmem
  · intro hmem
    exact .inr ⟨hmem, fun hsame => hkey (hold.symm.trans hsame.1)⟩

theorem ReadsAs.put_unseen {key : κ} (h : ReadsAs visible rows key value)
    (hunseen : ¬ visible row.batch) : ReadsAs visible (put rows row) key value := by
  have hlatest : ∀ old, Latest visible (put rows row) old ↔ Latest visible rows old := by
    intro old
    simp only [Latest, mem_put]
    constructor
    · rintro ⟨rfl | ⟨hmem, -⟩, hseen, hnewest⟩
      · exact absurd hseen hunseen
      · refine ⟨hmem, hseen, fun newer hnewer hkey hseen' => hnewest newer (.inr ⟨hnewer, ?_⟩) hkey hseen'⟩
        rintro ⟨-, hbatch⟩
        exact hunseen (hbatch ▸ hseen')
    · rintro ⟨hmem, hseen, hnewest⟩
      refine ⟨.inr ⟨hmem, ?_⟩, hseen, ?_⟩
      · rintro ⟨-, hbatch⟩
        exact hunseen (hbatch ▸ hseen)
      · rintro newer (rfl | ⟨hnewer, -⟩) hkey hseen'
        · exact absurd hseen' hunseen
        · exact hnewest newer hnewer hkey hseen'
  intro v
  simp only [Reads, hlatest]
  exact h v

end Version

/-!
## tasks

Multi-version tables with cleaning tasks: a batch that overwrites a key leaves a
task, and once the batch is published the versions below it may go, and at last
its tombstone.

* `Kept` is what makes that safe: a task that a reader sees has a version at
  its batch or a published one above;
* each write and each deletion keeps it, and keeps what readers get
  (`Kept.write`, `Kept.erase_unseen`, `Kept.erase_older`, `Kept.erase_tombstone`).
-/

namespace Version

variable {κ : Type*} {ν : Type*}

/-- The batches of a reader: the published ones, and the open one where it has a marker. -/
def Seen (published : Nat → Prop) (marker : Option Nat) (batch : Nat) : Prop :=
  published batch ∨ marker = some batch

/-- The open batch is the newest, and what a task promises. -/
structure Kept (published : Nat → Prop) (marker : Option Nat) (rows : List (Version κ ν))
    (tasks : List (κ × Nat)) : Prop where
  single : Single rows
  newest : ∀ batch, marker = some batch → ∀ other, published other → other < batch
  superseded : ∀ task ∈ tasks, Seen published marker task.2 →
    ∀ old ∈ rows, old.key = task.1 → old.batch < task.2 →
    ∃ new ∈ rows, new.key = task.1 ∧ task.2 ≤ new.batch ∧
      (new.batch = task.2 ∨ published new.batch)

variable {published published' : Nat → Prop} {marker : Option Nat} {rows : List (Version κ ν)}
  {tasks tasks' : List (κ × Nat)}

variable {batch : Nat}

section

variable (h : Kept published marker rows tasks)

include h

theorem Kept.seen_le (hmarker : marker = some batch)
    {other : Nat} (hseen : Seen published marker other) : other ≤ batch := by
  rcases hseen with hpublished | hopen
  · exact (h.newest batch hmarker other hpublished).le
  · rw [hmarker, Option.some.injEq] at hopen
    exact hopen.ge

theorem Kept.unpublished (hmarker : marker = some batch) : ¬
    Seen published none batch := by
  rintro (hpublished | hnone)
  · exact lt_irrefl batch (h.newest batch hmarker batch hpublished)
  · cases hnone

theorem Kept.dropTasks (hsub : ∀ task ∈ tasks', task ∈ tasks) : Kept published marker rows tasks' :=
  { h with superseded := fun task htask => h.superseded task (hsub task htask) }

theorem Kept.addTask {key : κ} (hrow : ∃ row ∈ rows, row.key = key ∧ row.batch = batch)
    (hsub : ∀ task ∈ tasks', task ∈ tasks ∨ task = (key, batch)) :
    Kept published marker rows tasks' := by
  refine { h with superseded := ?_ }
  intro task htask hseen old hold hkey hlt
  rcases hsub task htask with htask | rfl
  · exact h.superseded task htask hseen old hold hkey hlt
  · obtain ⟨row, hrow, hkey', hbatch⟩ := hrow
    exact ⟨row, hrow, hkey', hbatch.ge, .inl hbatch⟩

/-- **A write** of the open batch. -/
theorem Kept.write [DecidableEq κ] (hmarker : marker = some batch) (key : κ) (value : Option ν) :
    Kept published marker (put rows ⟨key, batch, value⟩) tasks := by
  refine ⟨h.single.put _, h.newest, ?_⟩
  intro task htask hseen old hold hkey hlt
  have hle := h.seen_le hmarker hseen
  rcases mem_put.mp hold with rfl | ⟨hold, -⟩
  · simp only at hlt
    omega
  · obtain ⟨new, hnew, hkey', hrest⟩ := h.superseded task htask hseen old hold hkey hlt
    by_cases hput : new.key = key ∧ new.batch = batch
    · refine ⟨⟨key, batch, value⟩, mem_put.mpr (.inl rfl), hput.1.symm.trans hkey', ?_⟩
      rw [hput.2] at hrest
      exact hrest
    · exact ⟨new, mem_put.mpr (.inr ⟨hnew, hput⟩), hkey', hrest⟩

theorem Kept.write_self [DecidableEq κ]
    (hmarker : marker = some batch) (key : κ) (value : Option ν) :
    ReadsAs (Seen published marker) (put rows ⟨key, batch, value⟩) key value :=
  readsAs_put_self h.single ⟨key, batch, value⟩ (.inr hmarker) fun _ _ hseen =>
    h.seen_le hmarker hseen

end

/-! ## cleaning -/

def SameReads (published : Nat → Prop) (marker : Option Nat) (rows rows' : List (Version κ ν)) :
    Prop :=
  ∀ marker', marker' = none ∨ marker' = marker → ∀ key value,
    ReadsAs (Seen published marker') rows key value →
    ReadsAs (Seen published marker') rows' key value

theorem Seen.mono (h : Seen published none batch) (marker : Option Nat) :
    Seen published marker batch := by
  rcases h with hpublished | hnone
  · exact .inl hpublished
  · cases hnone

theorem Kept.erase_unseen (h : Kept published marker rows tasks) (keep : Version κ ν → Bool)
    (hgone : ∀ row ∈ rows, keep row = false → ¬ Seen published marker row.batch) :
    Kept published marker (rows.filter keep) tasks ∧
      SameReads published marker rows (rows.filter keep) := by
  constructor
  · refine ⟨fun row hrow other hother => h.single row (mem_of_mem_filter hrow) other
      (mem_of_mem_filter hother), h.newest, ?_⟩
    intro task htask hseen old hold hkey hlt
    obtain ⟨new, hnew, hkey', hle, hbatch⟩ :=
      h.superseded task htask hseen old (mem_of_mem_filter hold) hkey hlt
    refine ⟨new, List.mem_filter.mpr ⟨hnew, ?_⟩, hkey', hle, hbatch⟩
    by_contra hkeep
    apply hgone new hnew (by simpa using hkeep)
    rcases hbatch with hbatch | hpublished
    · exact hbatch ▸ hseen
    · exact .inl hpublished
  · intro marker' hmarker' key value hreads
    apply hreads.erase fun row hrow => mem_of_mem_filter hrow
    intro row hrow hnot _ hseen
    have hkeep : keep row = false := by simpa [hrow] using hnot
    refine absurd ?_ (hgone row hrow hkeep)
    rcases hmarker' with rfl | rfl
    · exact hseen.mono marker
    · exact hseen

theorem Kept.erase_older (h : Kept published marker rows tasks) {task : κ × Nat}
    (htask : task ∈ tasks) (hpublished : published task.2) (keep : Version κ ν → Bool)
    (hgone : ∀ row ∈ rows, keep row = false → row.key = task.1 ∧ row.batch < task.2) :
    Kept published marker (rows.filter keep) tasks ∧
      SameReads published marker rows (rows.filter keep) := by
  -- what stays above a version that goes
  have hnewer : ∀ row ∈ rows, row.key = task.1 → row.batch < task.2 →
      ∃ new ∈ rows, keep new = true ∧ new.key = task.1 ∧ task.2 ≤ new.batch ∧
        published new.batch := by
    intro row hrow hkey hlt
    obtain ⟨new, hnew, hkey', hle, hbatch⟩ :=
      h.superseded task htask (.inl hpublished) row hrow hkey hlt
    refine ⟨new, hnew, ?_, hkey', hle, ?_⟩
    · by_contra hkeep
      have hlt' := (hgone new hnew (by simpa using hkeep)).2
      omega
    · rcases hbatch with hbatch | hpublished'
      · exact hbatch ▸ hpublished
      · exact hpublished'
  constructor
  · refine ⟨fun row hrow other hother => h.single row (mem_of_mem_filter hrow) other
      (mem_of_mem_filter hother), h.newest, ?_⟩
    intro other hother hseen old hold hkey hlt
    obtain ⟨new, hnew, hkey', hle, hbatch⟩ :=
      h.superseded other hother hseen old (mem_of_mem_filter hold) hkey hlt
    cases hkeep : keep new with
    | true => exact ⟨new, List.mem_filter.mpr ⟨hnew, hkeep⟩, hkey', hle, hbatch⟩
    | false =>
      obtain ⟨hsame, hlt'⟩ := hgone new hnew hkeep
      obtain ⟨new', hnew', hkept, hkey'', hle', hpublished'⟩ := hnewer new hnew hsame hlt'
      refine ⟨new', List.mem_filter.mpr ⟨hnew', hkept⟩, ?_, by omega, .inr hpublished'⟩
      rw [hkey'', ← hsame, hkey']
  · intro marker' _ key value hreads
    apply hreads.erase fun row hrow => mem_of_mem_filter hrow
    intro row hrow hnot hkey _
    have hkeep : keep row = false := by simpa [hrow] using hnot
    obtain ⟨hsame, hlt⟩ := hgone row hrow hkeep
    obtain ⟨new, hnew, hkept, hkey', hle, hpublished'⟩ := hnewer row hrow hsame hlt
    refine .inl ⟨new, List.mem_filter.mpr ⟨hnew, hkept⟩, ?_, .inl hpublished', by omega⟩
    rw [hkey', ← hsame, hkey]

theorem Kept.erase_tombstone (h : Kept published marker rows tasks) {key : κ}
    (hlast : ∀ row ∈ rows, row.key = key → batch ≤ row.batch) (keep : Version κ ν → Bool)
    (hgone : ∀ row ∈ rows, keep row = false →
      row.key = key ∧ row.batch = batch ∧ row.value = none) :
    Kept published marker (rows.filter keep) tasks ∧
      SameReads published marker rows (rows.filter keep) := by
  constructor
  · refine ⟨fun row hrow other hother => h.single row (mem_of_mem_filter hrow) other
      (mem_of_mem_filter hother), h.newest, ?_⟩
    intro task htask hseen old hold hkey hlt
    obtain ⟨hold', -⟩ := List.mem_filter.mp hold
    obtain ⟨new, hnew, hkey', hle, hbatch⟩ := h.superseded task htask hseen old hold' hkey hlt
    refine ⟨new, List.mem_filter.mpr ⟨hnew, ?_⟩, hkey', hle, hbatch⟩
    by_contra hkeep
    obtain ⟨hsame, hbatch', -⟩ := hgone new hnew (by simpa using hkeep)
    have hbelow := hlast old hold' (hkey.trans (hkey'.symm.trans hsame))
    omega
  · intro marker' _ key' value hreads
    apply hreads.erase fun row hrow => mem_of_mem_filter hrow
    intro row hrow hnot hkey _
    have hkeep : keep row = false := by simpa [hrow] using hnot
    obtain ⟨hsame, hbatch, hvalue⟩ := hgone row hrow hkeep
    refine .inr ⟨hvalue, fun old hold hkey' _ => ?_⟩
    rw [hbatch]
    exact hlast old (mem_of_mem_filter hold) (hkey'.trans (hkey.symm.trans hsame))

/-! ## who sees what -/

theorem Kept.forget (h : Kept published marker rows tasks)
    (hsub : ∀ batch, published' batch → published batch)
    (hrows : ∀ row ∈ rows, published row.batch → published' row.batch) :
    Kept published' marker rows tasks := by
  refine ⟨h.single, fun batch hmarker other hother => h.newest batch hmarker other (hsub _ hother), ?_⟩
  intro task htask hseen old hold hkey hlt
  obtain ⟨new, hnew, hkey', hle, hbatch⟩ :=
    h.superseded task htask (hseen.imp_left (hsub _)) old hold hkey hlt
  exact ⟨new, hnew, hkey', hle, hbatch.imp_right (hrows new hnew)⟩

theorem Kept.begin (h : Kept published none rows tasks)
    (hnewest : ∀ other, published other → other < batch)
    (htasks : ∀ task ∈ tasks, task.2 < batch) : Kept published (some batch) rows tasks := by
  refine ⟨h.single, ?_, ?_⟩
  · rintro _ ⟨⟩
    exact hnewest
  · intro task htask hseen
    apply h.superseded task htask
    refine .inl (hseen.resolve_right ?_)
    rintro ⟨⟩
    exact lt_irrefl _ (htasks task htask)

theorem Kept.publish (h : Kept published marker rows tasks)
    (hiff : ∀ other, published' other ↔ Seen published marker other) :
    Kept published' none rows tasks := by
  refine ⟨h.single, fun _ hnone => (nomatch hnone), ?_⟩
  intro task htask hseen old hold hkey hlt
  have hseen' : Seen published marker task.2 := (hiff _).mp (hseen.resolve_right (by simp))
  obtain ⟨new, hnew, hkey', hle, hbatch⟩ := h.superseded task htask hseen' old hold hkey hlt
  exact ⟨new, hnew, hkey', hle, hbatch.imp_right fun hpublished => (hiff _).mpr (.inl hpublished)⟩

theorem Kept.abandon (h : Kept published marker rows tasks) : Kept published none rows tasks :=
  ⟨h.single, fun _ hnone => (nomatch hnone),
    fun task htask hseen => h.superseded task htask (hseen.mono marker)⟩

end Version

end Codexon
