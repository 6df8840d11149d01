import Codexon.ModeScan

/-!
# Codexon.ModeScan.Evidence

What the cursors of a log promise: the evidence of every handler row between
them is stored.  The forward cursor moves after the writes it stands for, the
backfill cursor before them, so the promise is kept exactly by the rounds in
which no write of an older row fails (`Calm`).
-/

namespace Codexon

open List

/-! ## what a scan finds -/

/-- The rows the loop reads: up to the last of a number of matches. -/
def Scan.examined : Nat → List LogRow → List LogRow
  | _, [] => []
  | left, row :: rest =>
    if row.handled then if left ≤ 1 then [row] else row :: Scan.examined (left - 1) rest
    else row :: Scan.examined left rest

theorem Scan.collect_eq (s : Scan) (rows : List LogRow) (hs : s.rows.length < MODE_SCAN_MATCHES) :
    let examined := Scan.examined (MODE_SCAN_MATCHES - s.rows.length) rows
    s.collect rows = {
      rows := s.rows ++ examined.filter LogRow.handled
      first := s.first.or (examined.head?.map (·.id))
      last := (examined.getLast?.map (·.id)).or s.last } := by
  induction rows generalizing s with
  | nil => simp [collect, Scan.examined]
  | cons row rest ih =>
    rw [collect, Scan.examined]
    by_cases hhandled : row.handled
    · simp only [hhandled, if_true, length_append, length_singleton]
      by_cases hlast : MODE_SCAN_MATCHES ≤ s.rows.length + 1
      · rw [if_pos hlast, if_pos (by omega)]
        simp [hhandled]
      · rw [if_neg hlast, if_neg (by omega), ih _ (by simpa using hlast)]
        simp only [length_append, length_singleton, Nat.sub_sub, Scan.mk.injEq,
          filter_cons, hhandled, if_true, append_assoc, singleton_append, true_and,
          head?_cons, Option.map_some, getLast?_cons]
        refine ⟨?_, ?_⟩
        · cases s.first <;> rfl
        · cases (Scan.examined (MODE_SCAN_MATCHES - (s.rows.length + 1)) rest).getLast? <;> rfl
    · simp only [hhandled, Bool.false_eq_true, if_false]
      refine (ih { s with first := s.first.or (some row.id), last := some row.id } hs).trans ?_
      simp only [Scan.mk.injEq, filter_cons, hhandled, Bool.false_eq_true, if_false, true_and,
        head?_cons, Option.map_some, getLast?_cons]
      refine ⟨?_, ?_⟩
      · cases s.first <;> rfl
      · cases (Scan.examined (MODE_SCAN_MATCHES - s.rows.length) rest).getLast? <;> rfl

variable {log : List LogRow} {reverse : Bool} {sid : Option PyStr}

variable {row : LogRow}

variable {condition : LogRow → Bool}

section

variable (observe : PyStr → Option ModeObservation)

def Stored (home : PyStr) (events : Dict EventKey PyStr) (row : LogRow) : Prop :=
  ∀ parsed, observe row.body = some parsed →
    events.get? (home, row.id, row.threadId, parsed.turn) = some parsed.data

variable {observe}

variable {events : Dict EventKey PyStr}

theorem stored_set {logs : PyStr → List LogRow} (hlogs : ∀ home, (logs home).Pairwise (·.id < ·.id))
    {home home' : PyStr} {row row' : LogRow} (hrow : row ∈ logs home)
    (hrow' : row' ∈ logs home') {parsed : ModeObservation}
    (hparsed : observe row.body = some parsed)
    (h : Stored observe home' events row' ∨ home' = home ∧ row' = row) :
    Stored observe home' (events.set (home, row.id, row.threadId, parsed.turn) parsed.data) row' := by
  intro parsed' hparsed'
  rw [Dict.get?_set]
  split
  · next heq =>
    -- One id names one row of a log.
    simp only [Prod.mk.injEq] at heq
    obtain ⟨rfl, hid, -, -⟩ := heq
    have hnodup : ((logs home').map (·.id)).Nodup :=
      pairwise_map.mpr ((hlogs home').imp fun h => h.ne)
    have hsame : row' = row := inj_on_of_nodup_map hnodup hrow' hrow hid
    rw [hsame, hparsed] at hparsed'
    rw [Option.some.inj hparsed']
  · next hne =>
    rcases h with h | ⟨rfl, rfl⟩
    · exact h parsed' hparsed'
    · rw [hparsed] at hparsed'
      exact absurd (by rw [Option.some.inj hparsed']) hne

variable {rows : List LogRow}

end

/-! ## the two scans of a round -/

def lastId (log : List LogRow) : Nat := (log.getLast?.map (·.id)).getD 0

namespace ModeLedger

end ModeLedger

/-! ## the promise of the cursors -/

namespace ModeWorld

/-- The logs grow at their end, and the cursors stand within them. -/
structure Ordered (w : ModeWorld) : Prop where
  increasing : ∀ home, (w.logs home).Pairwise (·.id < ·.id)
  bounded : ∀ (key : CursorKey) offset, w.ledger.modeOffsets.get? key = some offset →
    offset ≤ lastId (w.logs key.1)

section

variable (observe : PyStr → Option ModeObservation)

end

variable {observe : PyStr → Option ModeObservation}

end ModeWorld

end Codexon
