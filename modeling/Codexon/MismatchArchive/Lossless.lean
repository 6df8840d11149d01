import Codexon.MismatchArchive.Runs

/-!
# Codexon.MismatchArchive.Lossless

Observing the same occurrences again finds the saved row as it is: the tally depends
on the clock only in the time of a snapshot, which the saved row keeps.
-/

namespace Codexon.MismatchArchive

open List

variable {κ τ σ ο : Type} [DecidableEq κ] [LinearOrder τ] [DecidableEq σ] [Zero τ]
  {s s' : State κ τ σ} {env : Env κ τ σ ο}

/-- A snapshot but for its time. -/
def Snapshot.timeless (snapshot : Snapshot τ σ) : Snapshot τ σ := { snapshot with ts := 0 }

/-- Tallies of the same occurrences, whatever the clock said. -/
structure Alike (tally tally' : Tally τ σ) : Prop where
  present : tally'.present = tally.present
  sourceOwners : tally'.sourceOwners = tally.sourceOwners
  confirmations : tally'.confirmations = tally.confirmations
  contradictory : tally'.contradictory = tally.contradictory
  pair : tally'.pair = tally.pair
  reason : tally'.reason = tally.reason
  selected : tally'.selected.map Snapshot.timeless = tally.selected.map Snapshot.timeless

omit [DecidableEq κ] [LinearOrder τ] [DecidableEq σ] in
theorem confirmedSnapshot_timeless (env : Env κ τ σ ο) (row : Occurrence τ ο) (at_ at' : τ) :
    (confirmedSnapshot env row at').map (Option.map Snapshot.timeless) =
      (confirmedSnapshot env row at_).map (Option.map Snapshot.timeless) := by
  unfold confirmedSnapshot
  split
  · rfl
  · split
    · rfl
    · rfl

omit [DecidableEq κ] [DecidableEq σ] in
theorem newer_timeless {snapshot snapshot' selected selected' : Snapshot τ σ}
    (h : snapshot'.timeless = snapshot.timeless) (h' : selected'.timeless = selected.timeless) :
    newer snapshot' selected' = newer snapshot selected := by
  simp only [Snapshot.timeless, Snapshot.mk.injEq] at h h'
  simp only [newer, h, h']

variable {tally tally' : Tally τ σ}

section

omit [DecidableEq κ] [DecidableEq σ]

theorem Alike.add {after : Tally τ σ} (h : Alike tally tally') {at_ : τ} (at' : τ)
    {row : Occurrence τ ο} (hadd : tally.add env at_ row = some after) :
    ∃ after', tally'.add env at' row = some after' ∧ Alike after after' := by
  have htimeless := confirmedSnapshot_timeless env row at_ at'
  unfold Tally.add at hadd ⊢
  cases hsnapshot : confirmedSnapshot env row at_ with
  | none => simp [hsnapshot] at hadd
  | some confirmed =>
    rw [hsnapshot] at htimeless hadd
    obtain ⟨confirmed', hsnapshot', hconfirmed⟩ := Option.map_eq_some_iff.mp htimeless
    rw [hsnapshot']
    cases confirmed with
    | none =>
      obtain rfl : confirmed' = none := by simpa using hconfirmed
      simp only [Option.some.injEq] at hadd
      subst hadd
      exact ⟨_, rfl, by simp [h.present], by simp [h.sourceOwners], h.confirmations,
        h.contradictory, h.pair, rfl, h.selected⟩
    | some snapshot =>
      obtain ⟨snapshot', rfl, hsame⟩ := Option.map_eq_some_iff.mp hconfirmed
      have hpair : (snapshot'.requestedModel, snapshot'.responseModel) =
          (snapshot.requestedModel, snapshot.responseModel) := by
        simp only [Snapshot.timeless, Snapshot.mk.injEq] at hsame
        simp [hsame]
      simp only [Option.some.injEq] at hadd
      subst hadd
      refine ⟨_, rfl, by simp [h.present], by simp [h.sourceOwners], by simp [h.confirmations],
        by simp only [h.contradictory, h.pair, hpair], by simp only [hpair], h.reason, ?_⟩
      have hselected := h.selected
      cases hbefore : tally.selected with
      | none =>
        rw [hbefore, Option.map_none, Option.map_eq_none_iff] at hselected
        simp [hselected, hsame]
      | some selected =>
        rw [hbefore] at hselected
        obtain ⟨selected', hselected', hsame'⟩ := Option.map_eq_some_iff.mp hselected
        simp only [hselected', newer_timeless hsame hsame']
        split
        · simp [hsame]
        · simp [hsame']

theorem Alike.rows {after : Tally τ σ} (h : Alike tally tally') {at_ : τ} (at' : τ)
    {rows : List (Occurrence τ ο)} (hrows : rows.foldlM (Tally.add env at_) tally = some after) :
    ∃ after', rows.foldlM (Tally.add env at') tally' = some after' ∧ Alike after after' := by
  induction rows generalizing tally tally' with
  | nil =>
    cases hrows
    exact ⟨tally', rfl, h⟩
  | cons row rows ih =>
    rw [foldlM_cons, Option.bind_eq_bind, Option.bind_eq_some_iff] at hrows
    obtain ⟨first, hfirst, hrest⟩ := hrows
    obtain ⟨first', hfirst', halike⟩ := h.add at' hfirst
    obtain ⟨after', hafter', halike'⟩ := ih halike hrest
    refine ⟨after', ?_, halike'⟩
    rw [foldlM_cons, hfirst']
    exact hafter'

end

def SameFacts (row row' : Row τ σ) : Prop :=
  row.snapshot = row'.snapshot ∧ row.sourceOwners = row'.sourceOwners ∧
    row.correctionReason = row'.correctionReason

variable {row : Row τ σ}

omit [LinearOrder τ] [DecidableEq σ] [Zero τ] in
theorem Holds.sameFacts {saved : Stored τ σ} (h : Holds saved row) :
    SameFacts saved.decode row := by
  unfold Holds at h
  unfold SameFacts
  rw [h]
  exact ⟨rfl, rfl, rfl⟩

def Observed (env : Env κ τ σ ο) (rows : List (Occurrence τ ο)) (row : Row τ σ) : Prop :=
  ∃ at_ tally previous value, rows.foldlM (Tally.add env at_) {} = some tally ∧
    tally.value previous at_ = some value ∧ SameFacts row value

section

omit [DecidableEq κ] [LinearOrder τ] [DecidableEq σ]

omit [Zero τ] in
theorem SameFacts.trans {first second third : Row τ σ} (h : SameFacts first second)
    (h' : SameFacts second third) : SameFacts first third :=
  ⟨h.1.trans h'.1, h.2.1.trans h'.2.1, h.2.2.trans h'.2.2⟩

theorem Alike.value (h : Alike tally tally') {at_ : τ} (at' : τ)
    {previous : Option (Row τ σ)} {value : Row τ σ}
    (hvalue : tally.value previous at_ = some value) (hrow : SameFacts row value) :
    ∃ value', tally'.value (some row) at' = some value' ∧ value'.comparable = row.comparable := by
  obtain ⟨hsnapshot, howners, hreason⟩ := hrow
  have hcorrection : tally'.correction = tally.correction := by
    simp only [Tally.correction, h.present, h.confirmations, h.contradictory, h.reason]
  have hpresent : tally.present ≠ 0 := by
    intro hzero
    simp [Tally.value, hzero] at hvalue
  have hselected := h.selected
  simp only [Tally.value, if_neg hpresent] at hvalue
  simp only [Tally.value, h.present, if_neg hpresent, h.sourceOwners, hcorrection]
  cases hbefore : tally.selected with
  | none =>
    rw [hbefore, Option.map_none, Option.map_eq_none_iff] at hselected
    cases previous with
    | none => simp [hbefore] at hvalue
    | some previous =>
      simp only [hbefore, Option.some.injEq] at hvalue
      subst hvalue
      simp only [hselected]
      exact ⟨_, rfl, by simp [Row.comparable, howners, hreason]⟩
  | some selected =>
    rw [hbefore] at hselected
    obtain ⟨selected', hselected', hsame⟩ := Option.map_eq_some_iff.mp hselected
    simp only [hselected']
    refine ⟨_, rfl, ?_⟩
    have hts : ({ selected' with ts := row.snapshot.ts } : Snapshot τ σ) = row.snapshot := by
      simp only [Snapshot.timeless, Snapshot.mk.injEq] at hsame
      cases previous <;> simp only [hbefore, Option.some.injEq] at hvalue <;>
        rw [hsnapshot, ← hvalue] <;> simp [hsame]
    cases previous <;> simp only [hbefore, Option.some.injEq] at hvalue <;> subst hvalue <;>
      simp [Row.comparable, hts, howners, hreason]

end

/-- **Observing again** queues nothing where the saved row is read. -/
theorem observe_again {key : κ} {rows : List (Occurrence τ ο)}
    (hsaved : saved s key = some row) (hrow : Observed env rows row) (at_ : τ) (write : Write) :
    observe env key rows at_ write s = some s := by
  obtain ⟨at', tally, previous, value, htally, hvalue, hfacts⟩ := hrow
  obtain ⟨tally', htally', halike⟩ :=
    Alike.rows ⟨rfl, rfl, rfl, rfl, rfl, rfl, rfl⟩ at_ htally
  obtain ⟨value', hvalue', hcomparable⟩ := halike.value at_ hvalue hfacts
  simp [observe, htally', hsaved, hvalue', hcomparable]

omit [DecidableEq κ] [LinearOrder τ] [DecidableEq σ] in
theorem Alike.value_none (h : Alike tally tally') {at_ : τ} (at' : τ)
    {previous : Option (Row τ σ)} (hvalue : tally.value previous at_ = none) :
    tally'.value previous at' = none := by
  by_cases hpresent : tally.present = 0
  · simp [Tally.value, h.present, hpresent]
  · have hselected := h.selected
    simp only [Tally.value, if_neg hpresent] at hvalue
    simp only [Tally.value, h.present, if_neg hpresent]
    cases hbefore : tally.selected with
    | none =>
      rw [hbefore, Option.map_none, Option.map_eq_none_iff] at hselected
      cases previous with
      | none => simp [hselected]
      | some previous => simp [hbefore] at hvalue
    | some selected => cases previous <;> simp [hbefore] at hvalue

omit [LinearOrder τ] [DecidableEq σ] [Zero τ] in
/-- What was queued is pending, unless it does not fit. -/
theorem saved_enqueue (key : κ) (row : Row τ σ) (size : Nat) (s : State κ τ σ) :
    ((enqueue key row size s).gap = true ∧ (enqueue key row size s).needsScan = true) ∨
      saved (enqueue key row size s) key = some row := by
  unfold enqueue
  split
  · exact .inl ⟨rfl, rfl⟩
  · right
    simp [saved, Dict.get?_set]

/-- **Observing twice**: an observation leaves nothing to queue for the same occurrences, unless
what it queued did not fit. -/
theorem observe_twice {key : κ} {rows : List (Occurrence τ ο)} {at_ : τ} {write : Write}
    (hobserve : observe env key rows at_ write s = some s') :
    (s'.gap = true ∧ s'.needsScan = true) ∨
      ∀ at' write', observe env key rows at' write' s' = some s' := by
  simp only [observe, Option.map_eq_some_iff] at hobserve
  obtain ⟨tally, htally, hafter⟩ := hobserve
  split at hafter
  · rename_i hvalue
    subst hafter
    right
    intro at' write'
    obtain ⟨tally', htally', halike⟩ :=
      Alike.rows ⟨rfl, rfl, rfl, rfl, rfl, rfl, rfl⟩ at' htally
    simp [observe, htally', halike.value_none at' hvalue]
  · rename_i value hvalue
    have hobserved : ∀ row, SameFacts row value → Observed env rows row :=
      fun row hrow => ⟨at_, tally, saved s key, value, htally, hvalue, hrow⟩
    split at hafter
    · rename_i hsame
      subst hafter
      obtain ⟨row, hsaved, hcomparable⟩ := hsame
      simp only [Row.comparable, Prod.mk.injEq] at hcomparable
      exact .inr fun at' write' => observe_again hsaved
        (hobserved row ⟨hcomparable.1, hcomparable.2.1, hcomparable.2.2.2⟩) at' write'
    · have hqueued : (s'.gap = true ∧ s'.needsScan = true) ∨ saved s' key = some value := by
        rw [← hafter]
        simp only [queue]
        split
        · exact saved_enqueue key value _ _
        · exact saved_enqueue key value _ s
      exact hqueued.imp_right fun hsaved at' write' =>
        observe_again hsaved (hobserved value ⟨rfl, rfl, rfl⟩) at' write'

/-! ## writes in between -/

omit [LinearOrder τ] [DecidableEq σ] [Zero τ] in
theorem saved_pending {key : κ} (h : saved s key = some row) :
    (∃ size, s.pending.get? key = some (row, size)) ∨ s.pending.get? key = none ∧ s.db = true ∧
        (s.stored.get? key).map Stored.decode = some row := by
  unfold saved at h
  cases hpending : s.pending.get? key with
  | some entry =>
    rw [hpending] at h
    cases h
    exact .inl ⟨entry.2, rfl⟩
  | none =>
    rw [hpending] at h
    simp only at h
    split at h
    · rename_i hdb
      exact .inr ⟨rfl, hdb, h⟩
    · cases h

omit [Zero τ] in
theorem saved_commit {key : κ} (hdb : s.db = true) (h : saved s key = some row) (rows : Nat) :
    ∃ row', saved (commit rows s) key = some row' ∧ SameFacts row' row := by
  have hsplit := take_append_drop (min rows 64) s.pending.entries
  have hnodup := s.pending.nodup
  rw [← hsplit, map_append, nodup_append] at hnodup
  obtain ⟨-, hothers, hwritten, -, -⟩ :=
    writeRows_spec (s.pending.entries.take (min rows 64)) hnodup.1 s.stored
  have hleft : (commit rows s).pending.entries = s.pending.entries.drop (min rows 64) :=
    erase_taken (min rows 64) s.pending
  -- a call that is not pending after the commit is read from the archive
  have hread : (commit rows s).pending.get? key = none → saved (commit rows s) key =
      ((commit rows s).stored.get? key).map Stored.decode := by
    intro hnone
    have hopen : (commit rows s).db = true := hdb
    simp [saved, hnone, hopen]
  rcases saved_pending h with ⟨size, hpending⟩ | ⟨hpending, -, hstored⟩
  · rw [Dict.get?_eq_some, ← hsplit, mem_append] at hpending
    rcases hpending with htaken | hkept
    · obtain ⟨saved', hsaved', hholds⟩ := hwritten _ htaken
      refine ⟨saved'.decode, ?_, hholds.sameFacts⟩
      rw [hread]
      · exact congrArg (Option.map Stored.decode) hsaved'
      · rw [Option.eq_none_iff_forall_ne_some]
        intro entry hentry
        rw [Dict.get?_eq_some, hleft] at hentry
        exact hnodup.2.2 key (mem_map_of_mem htaken) key (mem_map_of_mem hentry) rfl
    · refine ⟨row, ?_, rfl, rfl, rfl⟩
      have hstill : (commit rows s).pending.get? key = some (row, size) := by
        rw [Dict.get?_eq_some, hleft]
        exact hkept
      simp [saved, hstill]
  · have habsent : key ∉ s.pending.entries.map Prod.fst := by
      intro hmem
      obtain ⟨entry, hentry, rfl⟩ := List.mem_map.mp hmem
      rw [Dict.get?_eq_some.mpr hentry] at hpending
      cases hpending
    refine ⟨row, ?_, rfl, rfl, rfl⟩
    rw [hread]
    · have hsame := hothers key fun hmem => habsent
        (map_subset Prod.fst (take_subset _ _) hmem)
      exact (congrArg (Option.map Stored.decode) hsame).trans hstored
    · rw [Option.eq_none_iff_forall_ne_some]
      intro entry hentry
      rw [Dict.get?_eq_some, hleft] at hentry
      exact habsent (mem_map_of_mem (mem_of_mem_drop hentry))

omit [Zero τ] in
theorem saved_retry {key : κ} (h : saved s key = some row) (force : Bool) (write : Write) :
    ∃ row', saved (retry force write s) key = some row' ∧ SameFacts row' row := by
  have hsame : ∃ row', saved s key = some row' ∧ SameFacts row' row := ⟨row, h, rfl, rfl, rfl⟩
  unfold retry
  split
  · exact hsame
  · cases hopen : open_ write.opens s with
    | none => exact hsame
    | some opened =>
      have hopened : saved opened key = some row ∧ opened.db = true := by
        unfold open_ at hopen
        split_ifs at hopen with hdb
        · cases hopen
          exact ⟨h, hdb⟩
        · cases hopen
          rcases saved_pending h with ⟨size, hpending⟩ | ⟨-, hdb', -⟩
          · simp [saved, hpending]
          · exact absurd hdb' hdb
      simp only
      split
      · exact ⟨row, hopened.1, rfl, rfl, rfl⟩
      · exact saved_commit hopened.2 hopened.1 write.rows

/-! ## the archive -/

/-- **The mismatch archive loses nothing silently**: after any calls, whatever fails, a confirmed
mismatch that a scan met is stored, pending or covered by the gap, and after a close
whose write goes through it is stored or covered by the stored gap.  The pending bytes are
those of the pending rows and within the limit; stored calls keep their capture times;
what is read back is not queued again; the revision counts the changes. -/
theorem nothing_lost_silently (env : Env κ τ σ ο) (limit : Nat) (stored : Dict κ (Stored τ σ))
    (storedGap : Bool) (revision : Nat) (events : List (Event κ τ ο)) :
    let s := run (step env) (started limit stored storedGap revision) events
    let met := metBy env (started limit stored storedGap revision) events
    (∀ key ∈ met, (s.stored.get? key).isSome ∨ (s.pending.get? key).isSome ∨ s.gap = true) ∧
      (∀ write : Write, s.db = true ∨ write.opens = true → write.fails = false → ∀ key ∈ met,
        ((close write s).stored.get? key).isSome ∨ (close write s).storedGap = true) ∧
      s.pendingBytes = (s.pending.sumVal fun entry => (entry.2 : Int)) ∧
      s.pendingBytes ≤ limit ∧
      (∀ later, Frozen s.stored (run (step env) s later).stored) ∧
      (∀ key rows at_ write s', observe env key rows at_ write s = some s' →
        (s'.gap = true ∧ s'.needsScan = true) ∨
          ∀ at' write', observe env key rows at' write' s' = some s') ∧
      (∀ key rows row, saved s key = some row → Observed env rows row →
        (∀ at_ write, observe env key rows at_ write s = some s) ∧
        ∀ force write, ∃ row', saved (retry force write s) key = some row' ∧
          Observed env rows row') ∧
      ∀ event, Counted s (step env s event) := by
  intro s met
  have hkept : Kept limit (fun key => False ∨ key ∈ met) s :=
    (kept_run env (kept_started limit stored storedGap revision) events).1
  refine ⟨fun key hkey => hkept.covered key (.inr hkey), ?_, hkept.bytes, hkept.bound, ?_,
    fun _ _ _ _ _ hobserve => observe_twice hobserve, ?_, ?_⟩
  · intro write hopens hwrites key hkey
    exact close_covered hkept hopens hwrites (.inr hkey)
  · intro later
    exact (kept_run env hkept later).2
  · intro key rows row hsaved hrow
    refine ⟨observe_again hsaved hrow, fun force write => ?_⟩
    obtain ⟨row', hsaved', hfacts⟩ := saved_retry hsaved force write
    obtain ⟨at_, tally, previous, value, htally, hvalue, hsame⟩ := hrow
    exact ⟨row', hsaved', at_, tally, previous, value, htally, hvalue, hfacts.trans hsame⟩
  · intro event
    exact (kept_step env hkept event).counted

/-- A fixed environment. -/
def plain : Env Nat Nat Unit Unit where
  prepareRow row :=
    { home := row.home, sid := row.sid, ts := 0, requestedModel := row.requestedModel
      responseModel := row.responseModel, body := () }
  encodedBytes _ _ := 100

def mismatch : Occurrence Nat Unit :=
  { home := "h", sid := "s", alertConfirmed := true, requestedModel := "a", responseModel := "b"
    ts := some 5, body := () }

def unwritten : List (Event Nat Nat Unit) :=
  [.capture none, .pass { page := ([7], true), at_ := 1 }, .pass { rows := [mismatch], at_ := 1 },
    .close { opens := false }]

/-- The call is stored at `1` and corrected at `5`, and met again at `5` after the archive was
closed. -/
def reclosed : List (Event Nat Nat Unit) :=
  [.capture none, .pass { page := ([7, 7], true), at_ := 1 },
    .pass { rows := [mismatch], at_ := 1 }, .retry true {},
    .pass { rows := [{ mismatch with responseModel := "c" }], at_ := 5 }, .close {},
    .capture none, .pass { page := ([7], true), at_ := 5 }]

def again : Event Nat Nat Unit :=
  .pass { rows := [{ mismatch with responseModel := "c" }], at_ := 5 }

/-- A close that cannot write leaves a met call neither stored nor covered by the stored gap; a
stored call that cannot be read is queued again; and its write raises the revision where
the clock reads as it did, though the stored row and the flag stay as they are. -/
theorem unwritten_lost :
    (7 ∈ metBy plain (started 10000 {} false 0) unwritten ∧
        (run (step plain) (started 10000 {} false 0) unwritten).stored.get? 7 = none ∧
        (run (step plain) (started 10000 {} false 0) unwritten).storedGap = false) ∧
      (let s := run (step plain) (started 10000 {} false 0) reclosed
        let s' := run (step plain) s [again]
        let s'' := run (step plain) s' [.retry true {}]
        (s.stored.get? 7).isSome ∧ s.pending.get? 7 = none ∧ (s'.pending.get? 7).isSome ∧
          s''.storedRevision = s'.storedRevision + 1 ∧
          s''.stored.entries = s'.stored.entries ∧ s''.storedGap = s'.storedGap) := by
  decide +kernel

end Codexon.MismatchArchive
