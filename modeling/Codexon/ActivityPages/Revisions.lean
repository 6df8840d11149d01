import Codexon.ActivityPages

/-!
# Codexon.ActivityPages.Revisions

The revisions of the stored rows.  They are counted from the largest one
stored, so they start again when a publication empties the table; `Keeps` names
the publications that do not, and these only add rows above it (`Grows`).
-/

namespace Codexon.Activity

open List

/-! ## the stored rows -/

def Stored (rows : Dict Key Row) (row : Row) : Prop := ∃ key, rows.get? key = some row

theorem stored_iff {rows : Dict Key Row} {row : Row} :
    Stored rows row ↔ row ∈ rows.entries.map Prod.snd := by
  constructor
  · rintro ⟨key, hkey⟩
    exact List.mem_map.mpr ⟨(key, row), Dict.get?_eq_some.mp hkey, rfl⟩
  · intro h
    obtain ⟨e, he, rfl⟩ := List.mem_map.mp h
    exact ⟨e.1, Dict.get?_eq_some.mpr he⟩

theorem le_maxRevision {rows : Dict Key Row} {row : Row} (h : Stored rows row) :
    row.revision ≤ maxRevision rows := by
  have hmem := stored_iff.mp h
  unfold maxRevision
  generalize rows.entries = entries at hmem
  induction entries with
  | nil => exact absurd hmem not_mem_nil
  | cons e entries ih =>
    rcases mem_cons.mp hmem with rfl | hmem
    · exact le_max_left _ _
    · exact (ih hmem).trans (le_max_right _ _)

theorem maxRevision_le {rows : Dict Key Row} {n : Nat}
    (h : ∀ row, Stored rows row → row.revision ≤ n) : maxRevision rows ≤ n := by
  have hall : ∀ e ∈ rows.entries, e.2.revision ≤ n := fun e he =>
    h e.2 ⟨e.1, Dict.get?_eq_some.mpr he⟩
  unfold maxRevision
  generalize rows.entries = entries at hall
  induction entries with
  | nil => exact Nat.zero_le _
  | cons e entries ih =>
    rw [forall_mem_cons] at hall
    exact max_le hall.1 (ih hall.2)

def Distinct (rows : Dict Key Row) : Prop :=
  ∀ key key' row row', rows.get? key = some row → rows.get? key' = some row' →
    row.revision = row'.revision → key = key'

/-- The rows, and the last revision given. -/
structure Numbered (t : Dict Key Row × Nat) : Prop where
  distinct : Distinct t.1
  bound : ∀ row, Stored t.1 row → row.revision ≤ t.2

/-- What storing records does: rows are kept or written above the old revisions. -/
structure Written (t t' : Dict Key Row × Nat) : Prop where
  le : t.2 ≤ t'.2
  kept : ∀ row, Stored t'.1 row → Stored t.1 row ∨ t.2 < row.revision
  top : t.2 < t'.2 → ∃ row, Stored t'.1 row ∧ row.revision = t'.2
  same : t'.2 = t.2 → t' = t

section

variable (encode : Record → Bytes)

theorem storeActivity_eq (t : Dict Key Row × Nat) (record : Record) :
    storeActivity encode t record = t ∨ storeActivity encode t record =
        (t.1.set (record.home, record.attempt) ⟨t.2 + 1, t.2 + 1, encode record⟩, t.2 + 1) := by
  unfold storeActivity
  dsimp only
  split
  · exact Or.inl rfl
  · exact Or.inr rfl

theorem stored_set {rows : Dict Key Row} {key : Key} {row row' : Row}
    (h : Stored (rows.set key row) row') : row' = row ∨ Stored rows row' := by
  obtain ⟨other, hother⟩ := h
  rw [Dict.get?_set] at hother
  split at hother
  · exact Or.inl (Option.some.inj hother).symm
  · exact Or.inr ⟨other, hother⟩

theorem numbered_storeActivity {t : Dict Key Row × Nat} (h : Numbered t) (record : Record) :
    Numbered (storeActivity encode t record) ∧ Written t (storeActivity encode t record) := by
  rcases storeActivity_eq encode t record with heq | heq
  · rw [heq]
    exact ⟨h, le_rfl, fun _ hrow => Or.inl hrow, fun hlt => absurd hlt (lt_irrefl _), fun _ => rfl⟩
  · rw [heq]
    refine ⟨⟨fun key key' row row' hrow hrow' hrev => ?_, fun row hrow => ?_⟩, Nat.le_succ _,
      fun row hrow => ?_, fun _ => ⟨_, ⟨_, by rw [Dict.get?_set, if_pos rfl]⟩, rfl⟩,
      fun hsame => absurd hsame (Nat.succ_ne_self _)⟩
    · have hbound (k : Key) (r : Row) (hr : t.1.get? k = some r) : r.revision ≤ t.2 := h.bound r ⟨k, hr⟩
      rw [Dict.get?_set] at hrow hrow'
      split at hrow <;> split at hrow'
      · simp [*]
      · have := hbound _ _ hrow'
        cases hrow
        simp at hrev
        omega
      · have := hbound _ _ hrow
        cases hrow'
        simp at hrev
        omega
      · exact h.distinct key key' row row' hrow hrow' hrev
    · rcases stored_set hrow with rfl | hrow
      · exact le_rfl
      · exact (h.bound row hrow).trans (Nat.le_succ _)
    · rcases stored_set hrow with rfl | hrow
      · exact Or.inr (Nat.lt_succ_self _)
      · exact Or.inl hrow

theorem numbered_foldl (records : List Record) : ∀ {t : Dict Key Row × Nat}, Numbered t →
    Numbered (records.foldl (storeActivity encode) t) ∧
      Written t (records.foldl (storeActivity encode) t) := by
  induction records with
  | nil =>
    exact fun h => ⟨h, le_rfl, fun _ hrow => Or.inl hrow, fun hlt => absurd hlt (lt_irrefl _),
      fun _ => rfl⟩
  | cons record records ih =>
    intro t h
    obtain ⟨hnumbered, hwritten⟩ := numbered_storeActivity encode h record
    obtain ⟨hnumbered', hwritten'⟩ := ih hnumbered
    refine ⟨hnumbered', hwritten.le.trans hwritten'.le, fun row hrow => ?_, fun hlt => ?_,
      fun hsame => ?_⟩
    · rcases hwritten'.kept row hrow with hold | hnew
      · exact hwritten.kept row hold
      · exact Or.inr (hwritten.le.trans_lt hnew)
    · by_cases hlater : (storeActivity encode t record).2 < (records.foldl (storeActivity encode)
          (storeActivity encode t record)).2
      · exact hwritten'.top hlater
      · have heq := hwritten'.same (le_antisymm (not_lt.mp hlater) hwritten'.le)
        rw [foldl_cons, heq] at hlt ⊢
        exact hwritten.top hlt
    · have hfirst := hwritten.same (le_antisymm (hwritten'.le.trans hsame.le) hwritten.le)
      rw [foldl_cons, hfirst]
      rw [foldl_cons, hfirst] at hsame
      rw [hfirst] at hwritten'
      exact hwritten'.same hsame

theorem lt_foldl_empty {records : List Record} (h : records ≠ []) (n : Nat) :
    n < (records.foldl (storeActivity encode) ({}, n)).2 := by
  cases records with
  | nil => exact absurd rfl h
  | cons record records =>
    have hempty : Numbered (({} : Dict Key Row), n) :=
      ⟨fun key key' row row' hrow => by simp [Dict.get?] at hrow,
        fun row hrow => absurd (stored_iff.mp hrow) not_mem_nil⟩
    have hfirst : (storeActivity encode ({}, n) record).2 = n + 1 := by
      simp [storeActivity, Dict.get?]
    have hle := (numbered_foldl encode records (numbered_storeActivity encode hempty record).1).2.le
    rw [foldl_cons]
    omega

/-! ## publications -/

variable (fingerprint : Header → Bytes)

/-- The publication does not empty the table: where it replaces the source of
stored rows, or lowers its limit, it brings a record. -/
def Publisher.Keeps (p : Publisher) (db : Db) (snapshot : Snapshot) : Prop :=
  ¬ p.equal fingerprint snapshot → p.replaces db snapshot → db.rows.entries ≠ [] →
    snapshot.records ≠ []

instance (p : Publisher) (db : Db) (snapshot : Snapshot) :
    Decidable (p.Keeps fingerprint db snapshot) :=
  inferInstanceAs (Decidable (_ → _ → _ → _))

/-- The headers that can be read tell the largest revision. -/
structure Publisher.Tells (p : Publisher) (db : Db) : Prop where
  durable : ∀ header, db.header = some header → header.highwater = maxRevision db.rows
  live : ∀ c, p.live.join = some c →
    c.1.highwater = maxRevision db.rows ∧ p.rowRevision = maxRevision db.rows

/-- What a publication does to the stored rows. -/
structure Grows (rows rows' : Dict Key Row) : Prop where
  distinct : Distinct rows'
  le : maxRevision rows ≤ maxRevision rows'
  kept : ∀ row, Stored rows' row → Stored rows row ∨ maxRevision rows < row.revision

theorem publish_grows {p : Publisher} {db : Db} {snapshot : Snapshot} (hdistinct : Distinct db.rows)
    (htells : p.Tells db) (hkeeps : p.Keeps fingerprint db snapshot) :
    Grows db.rows (publish encode fingerprint p db snapshot).2.rows ∧
      (publish encode fingerprint p db snapshot).1.Tells
        (publish encode fingerprint p db snapshot).2 := by
  unfold publish
  dsimp only
  by_cases hequal : p.equal fingerprint snapshot
  · rw [if_pos hequal]
    refine ⟨⟨hdistinct, le_rfl, fun _ hrow => Or.inl hrow⟩, htells.durable, ?_⟩
    obtain ⟨c, hc, -⟩ := Option.map_eq_some_iff.mp hequal.1
    have hrevision := (htells.live c hc).2
    rintro c' hc'
    cases hc'
    exact ⟨hrevision, hrevision⟩
  · rw [if_neg hequal]
    generalize hrows : (if p.replaces db snapshot then ({} : Dict Key Row) else db.rows) = rows
    have hsub : ∀ row, Stored rows row → Stored db.rows row := by
      intro row hrow
      rw [← hrows] at hrow
      split at hrow
      · exact absurd (stored_iff.mp hrow) not_mem_nil
      · exact hrow
    have hnumbered : Numbered (rows, maxRevision db.rows) := by
      refine ⟨?_, fun row hrow => le_maxRevision (hsub row hrow)⟩
      rw [← hrows]
      split
      · exact fun key key' row row' hrow => by simp [Dict.get?] at hrow
      · exact hdistinct
    obtain ⟨hnumbered', hwritten⟩ := numbered_foldl encode snapshot.records hnumbered
    have hempty (hreplaces : p.replaces db snapshot) (hnone : snapshot.records = []) :
        maxRevision db.rows = 0 := by
      have hentries : db.rows.entries = [] := by
        by_contra hne
        exact hkeeps hequal hreplaces hne hnone
      simp [maxRevision, hentries]
    generalize ht : snapshot.records.foldl (storeActivity encode) (rows, maxRevision db.rows) = t
      at hnumbered' hwritten
    have hmax : maxRevision t.1 = t.2 := by
      refine le_antisymm (maxRevision_le hnumbered'.bound) ?_
      rcases hwritten.le.lt_or_eq with hlt | heq
      · obtain ⟨row, hrow, hrevision⟩ := hwritten.top hlt
        exact hrevision ▸ le_maxRevision hrow
      · have hsame := hwritten.same heq.symm
        rw [hsame]
        by_cases hreplaces : p.replaces db snapshot
        · -- an emptied table was empty before
          have hnone : snapshot.records = [] := by
            by_contra hne
            have hlt := lt_foldl_empty encode hne (maxRevision db.rows)
            rw [if_pos hreplaces] at hrows
            rw [hrows, ht] at hlt
            exact absurd heq (ne_of_lt hlt)
          exact (hempty hreplaces hnone).le.trans (Nat.zero_le _)
        · rw [if_neg hreplaces] at hrows
          rw [← hrows]
    obtain ⟨rows', revision⟩ := t
    obtain rfl : maxRevision rows' = revision := hmax
    refine ⟨⟨hnumbered'.distinct, hwritten.le, fun row hrow => ?_⟩, ?_, ?_⟩
    · exact (hwritten.kept row hrow).imp_left (hsub row)
    · rintro header hheader
      cases hheader
      rfl
    · rintro c hc
      cases hlive : p.live with
      | none => simp [hlive] at hc
      | some live =>
        simp only [hlive, Option.map_some, Option.join_some, Option.some.injEq] at hc
        cases hc
        exact ⟨rfl, rfl⟩

end

end Codexon.Activity
