import Mathlib.Algebra.Order.BigOperators.Group.List
import Codexon.MismatchArchive

/-!
# Codexon.MismatchArchive.Keeping

What a call of `retry` does: what is committed is stored, the capture times of stored
calls stay, and the revision grows with the rows and the flag.
-/

namespace Codexon.MismatchArchive

open List

variable {κ τ σ ο : Type} [DecidableEq κ] [LinearOrder τ] [DecidableEq σ]
  {s s' : State κ τ σ}

/-! ## stored rows -/

def Frozen (before after : Dict κ (Stored τ σ)) : Prop :=
  ∀ key saved, before.get? key = some saved → ∃ saved', after.get? key = some saved' ∧
    saved'.firstCapturedAt = saved.firstCapturedAt ∧ saved'.recordedAt = saved.recordedAt

section

omit [LinearOrder τ] [DecidableEq σ]

theorem Frozen.refl (stored : Dict κ (Stored τ σ)) : Frozen stored stored :=
  fun _ saved hsaved => ⟨saved, hsaved, rfl, rfl⟩

theorem Frozen.trans {first second third : Dict κ (Stored τ σ)} (h : Frozen first second)
    (h' : Frozen second third) : Frozen first third := by
  intro key saved hsaved
  obtain ⟨saved', hsaved', hfirst, hrecorded⟩ := h key saved hsaved
  obtain ⟨saved'', hsaved'', hfirst', hrecorded'⟩ := h' key saved' hsaved'
  exact ⟨saved'', hsaved'', hfirst'.trans hfirst, hrecorded'.trans hrecorded⟩

end

def Holds (saved : Stored τ σ) (row : Row τ σ) : Prop :=
  saved.decode = { row with firstCapturedAt := saved.firstCapturedAt }

section

variable (stored : Dict κ (Stored τ σ)) (key : κ) (row : Row τ σ)

/-- **The write of a row** stores its facts, and touches no other call. -/
theorem get?_writeRow :
    ∃ saved, (∀ key', (writeRow stored key row).1.get? key' =
        if key' = key then some saved else stored.get? key') ∧ Holds saved row ∧
      ∀ old, stored.get? key = some old → saved.firstCapturedAt = old.firstCapturedAt ∧
        saved.recordedAt = old.recordedAt := by
  unfold writeRow
  cases hold : stored.get? key with
  | none =>
    refine ⟨row.insert, fun key' => Dict.get?_set stored key key' _, rfl, ?_⟩
    intro old hsome
    cases hsome
  | some old =>
    by_cases hsame : old.decode = row
    · simp only [if_pos hsame]
      refine ⟨old, fun key' => ?_, by simp [Holds, ← hsame, Stored.decode], by simp⟩
      split
      · rename_i hkey
        rw [hkey, hold]
      · rfl
    · simp only [if_neg hsame]
      refine ⟨_, fun key' => Dict.get?_set stored key key' _, rfl, ?_⟩
      rintro _ ⟨⟩
      exact ⟨rfl, rfl⟩

theorem frozen_writeRow :
    Frozen stored (writeRow stored key row).1 := by
  obtain ⟨saved, hget, -, hold⟩ := get?_writeRow stored key row
  intro key' old hkey'
  rw [hget key']
  by_cases hkey : key' = key
  · rw [if_pos hkey]
    subst hkey
    exact ⟨saved, rfl, hold old hkey'⟩
  · rw [if_neg hkey]
    exact ⟨old, hkey', rfl, rfl⟩

theorem writeRow_changed :
    ((writeRow stored key row).2 = false → (writeRow stored key row).1 = stored) ∧
      ((writeRow stored key row).2 = true → (stored.get? key).map Stored.decode ≠ some row) := by
  unfold writeRow
  cases hold : stored.get? key with
  | none => simp
  | some old =>
    by_cases hsame : old.decode = row
    · simp [hsame]
    · simp [hsame]

end

theorem writeRows_spec (entries : List (κ × Row τ σ × Nat)) (hnodup : (entries.map Prod.fst).Nodup)
    (stored : Dict κ (Stored τ σ)) : Frozen stored (writeRows stored entries).1 ∧
      (∀ key ∉ entries.map Prod.fst, (writeRows stored entries).1.get? key = stored.get? key) ∧
      (∀ entry ∈ entries, ∃ saved, (writeRows stored entries).1.get? entry.1 = some saved ∧
        Holds saved entry.2.1) ∧
      ((writeRows stored entries).2 = false → (writeRows stored entries).1 = stored) ∧
      ((writeRows stored entries).2 = true → ∃ entry ∈ entries,
        (stored.get? entry.1).map Stored.decode ≠ some entry.2.1) := by
  induction entries generalizing stored with
  | nil => simp [writeRows, Frozen.refl]
  | cons entry entries ih =>
    obtain ⟨key, row, size⟩ := entry
    rw [map_cons, nodup_cons] at hnodup
    obtain ⟨saved, hget, hfacts, -⟩ := get?_writeRow stored key row
    obtain ⟨hsame, hdiffers⟩ := writeRow_changed stored key row
    obtain ⟨hfrozen, hothers, hwritten, hunchanged, hchanged⟩ :=
      ih hnodup.2 (writeRow stored key row).1
    simp only [writeRows]
    refine ⟨(frozen_writeRow stored key row).trans hfrozen, ?_, ?_, ?_, ?_⟩
    · intro key' hkey'
      rw [map_cons, mem_cons, not_or] at hkey'
      rw [hothers key' hkey'.2, hget, if_neg hkey'.1]
    · intro entry hentry
      rcases mem_cons.mp hentry with rfl | hentry
      · exact ⟨saved, by rw [hothers key hnodup.1, hget, if_pos rfl], hfacts⟩
      · exact hwritten entry hentry
    · intro hnone
      rw [Bool.or_eq_false_iff] at hnone
      rw [hunchanged hnone.2, hsame hnone.1]
    · intro hsome
      rcases Bool.or_eq_true_iff.mp hsome with hfirst | hrest
      · exact ⟨_, mem_cons_self, hdiffers hfirst⟩
      · obtain ⟨entry, hentry, hdiffer⟩ := hchanged hrest
        refine ⟨entry, mem_cons_of_mem _ hentry, ?_⟩
        have hne : entry.1 ≠ key := by
          intro hkey
          have hmem := mem_map_of_mem (f := Prod.fst) hentry
          rw [hkey] at hmem
          exact hnodup.1 hmem
        rwa [hget, if_neg hne] at hdiffer

/-! ## pending rows -/

theorem erase_taken {ν : Type} (number : Nat) (d : Dict κ ν) :
    ((d.entries.take number).foldl (fun d entry => d.erase entry.1) d).entries =
      d.entries.drop number := by
  induction number generalizing d with
  | zero => simp
  | succ number ih =>
    cases hentries : d.entries with
    | nil => simp [hentries]
    | cons entry entries =>
      have hnodup := d.nodup
      rw [hentries, map_cons, nodup_cons] at hnodup
      have herase : (d.erase entry.1).entries = entries := by
        simp only [Dict.erase, hentries]
        rw [filter_cons_of_neg (by simp), filter_eq_self]
        intro other hother
        rw [decide_eq_true_eq]
        intro hkey
        exact hnodup.1 (hkey ▸ mem_map_of_mem hother)
      rw [take_succ_cons, foldl_cons, drop_succ_cons, ← herase]
      exact ih (d.erase entry.1)

/-! ## the object -/

/-- What the object keeps: the bytes of its pending rows, the flag of the archive, and the calls
with a confirmed mismatch that a scan met. -/
structure Kept (limit : Nat) (met : κ → Prop) (s : State κ τ σ) : Prop where
  same : s.pendingLimit = limit
  bytes : s.pendingBytes = s.pending.sumVal fun entry => (entry.2 : Int)
  bound : s.pendingBytes ≤ limit
  opened : s.db = true → s.savedGap = s.storedGap
  flagged : s.savedGap = true → s.storedGap = true
  sticky : s.savedGap = true → s.gap = true
  covered : ∀ key, met key → (s.stored.get? key).isSome ∨ (s.pending.get? key).isSome ∨ s.gap = true

/-- What a step changes in the archive: nothing, or rows or the flag and with them the revision,
which a row that differs only in its capture time raises too. -/
def Counted (s s' : State κ τ σ) : Prop :=
  (s'.stored = s.stored ∧ s'.storedGap = s.storedGap ∧ s'.storedRevision = s.storedRevision) ∨
    (s'.storedRevision = s.storedRevision + 1 ∧
      ((s.storedGap = false ∧ s'.storedGap = true) ∨ s'.stored ≠ s.stored ∨
        ∃ entry ∈ s.pending.entries, ∃ saved, s.stored.get? entry.1 = some saved ∧
          Holds saved entry.2.1 ∧ saved.firstCapturedAt ≠ entry.2.1.firstCapturedAt))

variable {limit : Nat} {met : κ → Prop}

section

omit [LinearOrder τ] [DecidableEq σ]

theorem Kept.mono (h : Kept limit met s) {met' : κ → Prop}
    (hmet : ∀ key, met' key → met key ∨ (s.stored.get? key).isSome ∨
      (s.pending.get? key).isSome ∨ s.gap = true) : Kept limit met' s :=
  { h with covered := fun key hkey => (hmet key hkey).elim (h.covered key) id }

theorem Kept.withGap (h : Kept limit met s) (met' : κ → Prop) :
    Kept limit met' { s with gap := true } :=
  { h with sticky := fun _ => rfl, covered := fun _ _ => .inr (.inr rfl) }

theorem kept_failure (h : Kept limit met s) : Kept limit met (failure s) := { h with }

theorem kept_open (h : Kept limit met s) {opens : Bool} (hopen : open_ opens s = some s') :
    Kept limit met s' ∧ s'.db = true ∧ s'.pending = s.pending ∧ s'.stored = s.stored ∧
      s'.storedGap = s.storedGap ∧ s'.storedRevision = s.storedRevision ∧
      (s.gap = true → s'.gap = true) := by
  unfold open_ at hopen
  split_ifs at hopen with hdb
  · cases hopen
    exact ⟨h, hdb, rfl, rfl, rfl, rfl, id⟩
  · cases hopen
    refine ⟨{ h with opened := fun _ => rfl, flagged := id, sticky := ?_, covered := ?_ }, rfl, rfl,
      rfl, rfl, rfl, fun hgap => by simp [hgap]⟩
    · intro hstored
      simp [show s.storedGap = true from hstored]
    · intro key hkey
      rcases h.covered key hkey with hstored | hpending | hgap
      · exact .inl hstored
      · exact .inr (.inl hpending)
      · exact .inr (.inr (by simp [hgap]))

end

/-- **A transaction**: what leaves the pending rows is stored. -/
theorem kept_commit (h : Kept limit met s) (hdb : s.db = true) (rows : Nat) :
    Kept limit met { commit rows s with savedGap := s.gap } ∧
      Frozen s.stored (commit rows s).stored ∧ Counted s (commit rows s) ∧
      (s.gap = true → (commit rows s).storedGap = true) := by
  have hsplit := take_append_drop (min rows 64) s.pending.entries
  have hnodup := s.pending.nodup
  rw [← hsplit, map_append, nodup_append] at hnodup
  obtain ⟨hfrozen, -, hwritten, hsame, hchanged⟩ :=
    writeRows_spec (s.pending.entries.take (min rows 64)) hnodup.1 s.stored
  have hleft := erase_taken (min rows 64) s.pending
  have hgaps := h.opened hdb
  have hflag : (s.storedGap || (s.gap && !s.savedGap)) = s.gap := by
    have hsticky := h.sticky
    rw [← hgaps]
    revert hsticky
    cases s.savedGap <;> cases s.gap <;> simp
  have hsum : s.pendingBytes - ((s.pending.entries.take (min rows 64)).map
      fun entry => (entry.2.2 : Int)).sum = (commit rows s).pending.sumVal fun entry =>
        (entry.2 : Int) := by
    have htotal := congrArg (fun entries : List (κ × Row τ σ × Nat) =>
      (entries.map fun entry => (entry.2.2 : Int)).sum) hsplit
    simp only [map_append, sum_append] at htotal
    simp only [commit, Dict.sumVal, hleft, h.bytes]
    omega
  refine ⟨⟨h.same, hsum, ?_, fun _ => hflag.symm, ?_, id, ?_⟩, hfrozen, ?_, ?_⟩
  · have hnonneg : 0 ≤ ((s.pending.entries.take (min rows 64)).map
        fun entry => (entry.2.2 : Int)).sum := by
      apply sum_nonneg
      intro size hsize
      obtain ⟨entry, -, rfl⟩ := List.mem_map.mp hsize
      exact Int.natCast_nonneg _
    have hbound := h.bound
    simp only [commit]
    omega
  · intro hgap
    exact hflag.trans hgap
  · intro key hkey
    rcases h.covered key hkey with hstored | hpending | hgap
    · left
      obtain ⟨saved, hsaved⟩ := Option.isSome_iff_exists.mp hstored
      obtain ⟨saved', hsaved', -⟩ := hfrozen key saved hsaved
      exact Option.isSome_iff_exists.mpr ⟨saved', hsaved'⟩
    · obtain ⟨entry, hentry⟩ := Option.isSome_iff_exists.mp hpending
      rw [Dict.get?_eq_some, ← hsplit, mem_append] at hentry
      rcases hentry with htaken | hkept
      · left
        obtain ⟨saved, hsaved, -⟩ := hwritten _ htaken
        exact Option.isSome_iff_exists.mpr ⟨saved, hsaved⟩
      · right
        left
        rw [← hleft] at hkept
        exact Option.isSome_iff_exists.mpr ⟨entry, Dict.get?_eq_some.mpr hkept⟩
    · exact .inr (.inr hgap)
  · simp only [Counted, commit]
    cases hset : s.gap && !s.savedGap with
    | true =>
      right
      rw [Bool.and_eq_true, Bool.not_eq_true'] at hset
      simp [← hgaps, hset.2]
    | false =>
      cases hany : (writeRows s.stored (s.pending.entries.take (min rows 64))).2 with
      | false =>
        left
        simp [hsame hany]
      | true =>
        right
        refine ⟨by simp, .inr ?_⟩
        by_contra hnot
        rw [not_or, not_not] at hnot
        obtain ⟨entry, hentry, hdiffers⟩ := hchanged hany
        obtain ⟨saved, hsaved, hholds⟩ := hwritten entry hentry
        rw [hnot.1] at hsaved
        refine hnot.2 ⟨entry, mem_of_mem_take hentry, saved, hsaved, hholds, ?_⟩
        intro htimes
        rw [hsaved, Option.map_some, hholds, htimes] at hdiffers
        exact hdiffers rfl
  · intro hgap
    exact hflag.trans hgap

/-- What every step keeps, whatever fails. -/
structure Steps (limit : Nat) (met : κ → Prop) (s s' : State κ τ σ) : Prop where
  kept : Kept limit met s'
  frozen : Frozen s.stored s'.stored
  counted : Counted s s'

omit [LinearOrder τ] [DecidableEq σ] in
theorem Kept.steps (h : Kept limit met s') (hstored : s'.stored = s.stored)
    (hgap : s'.storedGap = s.storedGap) (hrevision : s'.storedRevision = s.storedRevision) :
    Steps limit met s s' :=
  ⟨h, hstored ▸ Frozen.refl s.stored, .inl ⟨hstored, hgap, hrevision⟩⟩

theorem kept_retry (h : Kept limit met s) (force : Bool) (write : Write) :
    Steps limit met s (retry force write s) := by
  unfold retry
  split
  · exact h.steps rfl rfl rfl
  · cases hopen : open_ write.opens s with
    | none => exact (kept_failure h).steps rfl rfl rfl
    | some opened =>
      obtain ⟨hopened, hdb, hpending, hstored, hgap, hrevision, -⟩ := kept_open h hopen
      simp only
      split
      · exact (kept_failure hopened).steps hstored hgap hrevision
      · obtain ⟨hkept, hfrozen, hcounted, -⟩ := kept_commit hopened hdb write.rows
        refine ⟨{ hkept with }, hstored ▸ hfrozen, ?_⟩
        simp only [Counted, hpending, hstored, hgap, hrevision] at hcounted
        exact hcounted

end Codexon.MismatchArchive
