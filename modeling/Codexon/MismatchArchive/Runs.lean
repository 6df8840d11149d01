import Codexon.MismatchArchive.Keeping

/-!
# Codexon.MismatchArchive.Runs

Every step keeps what the object keeps, and so does a run: a confirmed mismatch that a
scan met is stored, pending or covered by the gap, and after a close that could still
write it is stored or covered by the stored gap.
-/

namespace Codexon.MismatchArchive

variable {κ τ σ ο : Type} [DecidableEq κ] [LinearOrder τ] [DecidableEq σ]
  {s s' : State κ τ σ} {limit : Nat} {met : κ → Prop} {env : Env κ τ σ ο}

/-! ## observing -/

section

omit [LinearOrder τ] [DecidableEq σ]

theorem kept_enqueue (h : Kept limit met s) (key : κ) (row : Row τ σ) (size : Nat) :
    Kept limit (fun key' => met key' ∨ key' = key) (enqueue key row size s) := by
  unfold enqueue
  split
  · exact { h.withGap _ with }
  · rename_i hfits
    have hbytes : needed s key size =
        (s.pending.set key (row, size)).sumVal fun entry => (entry.2 : Int) := by
      rw [Dict.sumVal_set, needed, h.bytes]
    refine { h with bytes := hbytes, bound := ?_, covered := ?_ }
    · rw [← h.same]
      exact not_lt.mp hfits
    · rintro key' (hmet | rfl)
      · rcases h.covered key' hmet with hstored | hpending | hgap
        · exact .inl hstored
        · right
          left
          rw [Dict.get?_set]
          split
          · rfl
          · exact hpending
        · exact .inr (.inr hgap)
      · simp [Dict.get?_set]

theorem enqueue_archive (key : κ) (row : Row τ σ) (size : Nat) (s : State κ τ σ) :
    (enqueue key row size s).stored = s.stored ∧ (enqueue key row size s).storedGap = s.storedGap ∧
      (enqueue key row size s).storedRevision = s.storedRevision := by
  unfold enqueue
  split <;> simp

end

/-- **Queueing** a row: it is pending, or the gap is set. -/
theorem kept_queue (env : Env κ τ σ ο) (h : Kept limit met s) (key : κ) (row : Row τ σ)
    (write : Write) :
    Steps limit (fun key' => met key' ∨ key' = key) s (queue env key row write s) := by
  simp only [queue]
  split
  · have htried := kept_retry h true write
    obtain ⟨hstored, hgap, hrevision⟩ := enqueue_archive key row
      (sizeOf_ env key row (s.pending.get? key)) (retry true write s)
    refine ⟨kept_enqueue htried.kept key row _, hstored ▸ htried.frozen, ?_⟩
    have hcounted := htried.counted
    simp only [Counted, hstored, hgap, hrevision] at hcounted ⊢
    exact hcounted
  · obtain ⟨hstored, hgap, hrevision⟩ := enqueue_archive key row
      (sizeOf_ env key row (s.pending.get? key)) s
    exact (kept_enqueue h key row _).steps hstored hgap hrevision

omit [LinearOrder τ] [DecidableEq σ] in
theorem saved_covered {key : κ} (h : (saved s key).isSome) :
    (s.stored.get? key).isSome ∨ (s.pending.get? key).isSome ∨ s.gap = true := by
  unfold saved at h
  cases hpending : s.pending.get? key with
  | some entry => simp
  | none =>
    rw [hpending] at h
    simp only at h
    split at h
    · rw [Option.isSome_map] at h
      exact .inl h
    · cases h

variable [Zero τ]

section

omit [DecidableEq κ] [DecidableEq σ]

omit [LinearOrder τ] [Zero τ] in
theorem confirmedSnapshot_none {at_ : τ} {row : Occurrence τ ο}
    (h : confirmedSnapshot env row at_ = some none) : row.alertConfirmed = false := by
  by_contra hconfirmed
  by_cases hmodels : row.requestedModel = "" ∨ row.responseModel = "" <;>
    simp [confirmedSnapshot, hconfirmed, hmodels] at h

theorem tally_add {at_ : τ} {tally tally' : Tally τ σ} {row : Occurrence τ ο}
    (hadd : tally.add env at_ row = some tally') : tally'.present = tally.present + 1 ∧
      (row.alertConfirmed = true ∨ tally.selected.isSome → tally'.selected.isSome) := by
  unfold Tally.add at hadd
  cases hsnapshot : confirmedSnapshot env row at_ with
  | none => simp [hsnapshot] at hadd
  | some confirmed =>
    cases confirmed with
    | none =>
      simp only [hsnapshot, Option.some.injEq] at hadd
      simp [← hadd, confirmedSnapshot_none hsnapshot]
    | some snapshot =>
      simp only [hsnapshot, Option.some.injEq] at hadd
      rw [← hadd]
      refine ⟨rfl, fun _ => ?_⟩
      simp only
      split
      · rfl
      · split <;> rfl

theorem tally_rows {at_ : τ} {rows : List (Occurrence τ ο)} {tally tally' : Tally τ σ}
    (hrows : rows.foldlM (Tally.add env at_) tally = some tally') :
    tally'.present = tally.present + rows.length ∧
      ((∃ row ∈ rows, row.alertConfirmed = true) ∨ tally.selected.isSome →
        tally'.selected.isSome) := by
  induction rows generalizing tally with
  | nil =>
    cases hrows
    simp
  | cons row rows ih =>
    rw [List.foldlM_cons, Option.bind_eq_bind, Option.bind_eq_some_iff] at hrows
    obtain ⟨first, hfirst, hrest⟩ := hrows
    obtain ⟨hpresent, hselected⟩ := tally_add hfirst
    obtain ⟨hpresent', hselected'⟩ := ih hrest
    constructor
    · rw [hpresent', hpresent, List.length_cons]
      omega
    · rintro (⟨other, hother, hconfirmed⟩ | hbefore)
      · rcases List.mem_cons.mp hother with rfl | hother
        · exact hselected' (.inr (hselected (.inl hconfirmed)))
        · exact hselected' (.inl ⟨other, hother, hconfirmed⟩)
      · exact hselected' (.inr (hselected (.inr hbefore)))

end

/-- **An observation**: a confirmed mismatch is saved already, or it is queued. -/
theorem kept_observe (h : Kept limit met s) {key : κ} {rows : List (Occurrence τ ο)} {at_ : τ}
    {write : Write} (hobserve : observe env key rows at_ write s = some s') :
    Steps limit (fun key' => met key' ∨ key' = key ∧ ∃ row ∈ rows, row.alertConfirmed = true)
      s s' := by
  simp only [observe, Option.map_eq_some_iff] at hobserve
  obtain ⟨tally, htally, hafter⟩ := hobserve
  obtain ⟨hpresent, hselected⟩ := tally_rows htally
  split at hafter
  · rename_i hvalue
    subst hafter
    apply Kept.steps (h.mono fun key' hkey' => ?_) rfl rfl rfl
    rcases hkey' with hmet | ⟨rfl, row, hrow, hconfirmed⟩
    · exact .inl hmet
    · exfalso
      obtain ⟨selected, hsome⟩ :=
        Option.isSome_iff_exists.mp (hselected (.inl ⟨row, hrow, hconfirmed⟩))
      have hlength := List.length_pos_of_mem hrow
      have hne : tally.present ≠ 0 := by omega
      unfold Tally.value at hvalue
      rw [if_neg hne, hsome] at hvalue
      cases hsaved : saved s key' with
      | none => simp [hsaved] at hvalue
      | some previous => simp [hsaved] at hvalue
  · rename_i value _
    split at hafter
    · rename_i hsame
      subst hafter
      apply Kept.steps (h.mono fun key' hkey' => ?_) rfl rfl rfl
      rcases hkey' with hmet | ⟨rfl, -⟩
      · exact .inl hmet
      · right
        apply saved_covered
        cases hsaved : saved s key' with
        | none => simp [hsaved] at hsame
        | some previous => rfl
    · subst hafter
      have hqueued := kept_queue env h key value write
      refine ⟨hqueued.kept.mono fun key' hkey' => .inl ?_, hqueued.frozen, hqueued.counted⟩
      exact hkey'.imp_right And.left

/-! ## passes -/

def meets (answers : Answers κ τ ο) (s : State κ τ σ) : Option κ :=
  match s.current with
  | none => none
  | some (scan, _) =>
    match nextIdentity (s.pending.entries.map Prod.fst) answers.page answers.next scan with
    | .identity key existingOnly _ =>
      if existingOnly = true ∧ (saved s key).isNone then none
      else if ∃ row ∈ answers.rows, row.alertConfirmed = true then some key
      else none
    | _ => none

section

omit [LinearOrder τ] [DecidableEq σ] [Zero τ]

theorem Kept.scans (h : Kept limit met s) (scan : Option (Scan κ)) (waiting : List (Scan κ)) :
    Kept limit met { s with scan := scan, waitingScans := waiting } :=
  { h with }

theorem kept_abandon (h : Kept limit met s) (met' : κ → Prop) : Kept limit met' (abandon s) :=
  { (h.scans none s.waitingScans).withGap met' with }

end

theorem kept_visit (env : Env κ τ σ ο) (h : Kept limit met s) (answers : Answers κ τ ο) (key : κ)
    (existingOnly : Bool) : Steps limit (fun key' => met key' ∨ key' = key ∧
        ¬ (existingOnly = true ∧ (saved s key).isNone) ∧
        ∃ row ∈ answers.rows, row.alertConfirmed = true)
      s (visit env answers key existingOnly s) := by
  unfold visit
  split
  · exact (kept_abandon h _).steps rfl rfl rfl
  · split
    · rename_i hskip
      refine (h.mono fun key' hkey' => .inl ?_).steps rfl rfl rfl
      exact hkey'.resolve_right fun hmeets => hmeets.2.1 hskip
    · cases hobserve : observe env key answers.rows answers.at_ answers.write s with
      | none => exact (kept_abandon h _).steps rfl rfl rfl
      | some after =>
        have hobserved := kept_observe h hobserve
        refine ⟨hobserved.kept.mono fun key' hkey' => .inl ?_, hobserved.frozen, hobserved.counted⟩
        exact hkey'.imp_right fun hmeets => ⟨hmeets.1, hmeets.2.2⟩

/-- **A pass** of `step`. -/
theorem kept_pass (env : Env κ τ σ ο) (h : Kept limit met s) (answers : Answers κ τ ο) :
    Steps limit (fun key => met key ∨ meets answers s = some key) s (pass env answers s) := by
  unfold pass meets
  cases s.current with
  | none => exact (h.mono fun key hkey => .inl (by simpa using hkey)).steps rfl rfl rfl
  | some current =>
    obtain ⟨scan, waiting⟩ := current
    have hsame : Kept limit (fun key => met key ∨ none = some key) s :=
      h.mono fun key hkey => .inl (by simpa using hkey)
    simp only
    cases nextIdentity (s.pending.entries.map Prod.fst) answers.page answers.next scan with
    | again scan =>
      simp only
      split
      · exact (kept_abandon (h.scans s.scan waiting) _).steps rfl rfl rfl
      · exact (hsame.scans (some scan) waiting).steps rfl rfl rfl
    | done => exact (hsame.scans none waiting).steps rfl rfl rfl
    | identity key existingOnly scan =>
      have hvisit := kept_visit env (h.scans (some scan) waiting) answers key existingOnly
      refine ⟨hvisit.kept.mono fun key' hkey' => .inl ?_, hvisit.frozen, hvisit.counted⟩
      apply hkey'.imp_right
      intro hmeets
      dsimp only at hmeets
      split_ifs at hmeets with hskip hconfirmed
      cases hmeets
      exact ⟨rfl, hskip, hconfirmed⟩

/-! ## captures and closing -/

section

omit [LinearOrder τ] [DecidableEq σ] [Zero τ]

theorem kept_capture (h : Kept limit met s) (owners : Option (List Owner)) :
    Steps limit met s (capture owners s) := by
  unfold capture
  simp only
  split
  · exact h.steps rfl rfl rfl
  · split
    · exact Kept.steps { h.withGap met with } rfl rfl rfl
    · exact Kept.steps { h with } rfl rfl rfl

theorem kept_dropScans (h : Kept limit met s) : Kept limit met (dropScans s) where
  same := h.same
  bytes := h.bytes
  bound := h.bound
  opened := h.opened
  flagged := h.flagged
  sticky hsaved := by simp [dropScans, h.sticky hsaved]
  covered key hkey := by
    rcases h.covered key hkey with hstored | hpending | hgap
    · exact .inl hstored
    · exact .inr (.inl hpending)
    · simp [dropScans, hgap]

end

omit [Zero τ] in
theorem kept_close (h : Kept limit met s) (write : Write) : Steps limit met s (close write s) := by
  have hdropped := kept_dropScans h
  simp only [close]
  split
  · have hwritten := kept_retry hdropped true write
    exact ⟨{ hwritten.kept with opened := by simp }, hwritten.frozen, hwritten.counted⟩
  · exact Kept.steps { hdropped with opened := by simp } rfl rfl rfl

omit [Zero τ] in
/-- **A close that can write** leaves every call that was met stored, or the stored gap. -/
theorem close_covered (h : Kept limit met s) {write : Write}
    (hopens : s.db = true ∨ write.opens = true) (hwrites : write.fails = false) {key : κ}
    (hmet : met key) :
    ((close write s).stored.get? key).isSome ∨ (close write s).storedGap = true := by
  have hdropped := kept_dropScans h
  have hpending : (dropScans s).pending.entries ≠ [] → (dropScans s).gap = true := by
    intro hne
    have hsome : s.pending.entries ≠ [] := hne
    simp [dropScans, hsome]
  -- what is pending is covered by the gap here
  have hcovered : ((dropScans s).stored.get? key).isSome ∨ (dropScans s).gap = true := by
    rcases hdropped.covered key hmet with hstored | hqueued | hgap
    · exact .inl hstored
    · right
      apply hpending
      intro hnil
      simp [Dict.get?, hnil] at hqueued
    · exact .inr hgap
  simp only [close]
  split
  · obtain ⟨opened, hopen⟩ : ∃ opened, open_ write.opens (dropScans s) = some opened := by
      unfold open_
      rcases hopens with hdb | hopens
      · exact ⟨dropScans s, if_pos hdb⟩
      · simp only [hopens, if_true]
        split
        · exact ⟨_, rfl⟩
        · exact ⟨_, rfl⟩
    obtain ⟨hopened, hdb, -, hstored, -, -, hgaps⟩ := kept_open hdropped hopen
    obtain ⟨-, hfrozen, -, hflag⟩ := kept_commit hopened hdb write.rows
    have hretry : (retry true write (dropScans s)).stored = (commit write.rows opened).stored ∧
        (retry true write (dropScans s)).storedGap = (commit write.rows opened).storedGap := by
      simp [retry, hopen, hwrites]
    simp only [hretry.1, hretry.2]
    rcases hcovered with hbefore | hgap
    · left
      obtain ⟨saved, hsaved⟩ := Option.isSome_iff_exists.mp hbefore
      rw [← hstored] at hsaved
      obtain ⟨saved', hsaved', -⟩ := hfrozen key saved hsaved
      exact Option.isSome_iff_exists.mpr ⟨saved', hsaved'⟩
    · exact .inr (hflag (hgaps hgap))
  · rename_i hidle
    rw [not_or, not_not] at hidle
    rcases hcovered with hbefore | hgap
    · exact .inl hbefore
    · exact .inr (hdropped.flagged (hidle.1 ▸ hgap))

/-! ## runs -/

/-- The object as it is made, on an archive of an earlier run. -/
def started (limit : Nat) (stored : Dict κ (Stored τ σ)) (storedGap : Bool) (revision : Nat) :
    State κ τ σ :=
  { pendingLimit := limit, stored := stored, storedGap := storedGap, storedRevision := revision }

omit [LinearOrder τ] [DecidableEq σ] [Zero τ] in
theorem kept_started (limit : Nat) (stored : Dict κ (Stored τ σ)) (storedGap : Bool)
    (revision : Nat) : Kept limit (fun _ => False) (started limit stored storedGap revision) where
  same := rfl
  bytes := rfl
  bound := Int.natCast_nonneg limit
  opened := nofun
  flagged := nofun
  sticky := nofun
  covered _ hmet := hmet.elim

def metBy (env : Env κ τ σ ο) (s : State κ τ σ) : List (Event κ τ ο) → List κ
  | [] => []
  | event :: events =>
    (match event with
      | .pass answers => (meets answers s).toList
      | _ => []) ++ metBy env (step env s event) events

/-- **A step** keeps what the object keeps. -/
theorem kept_step (env : Env κ τ σ ο) (h : Kept limit met s) (event : Event κ τ ο) :
    Steps limit (fun key => met key ∨ key ∈ metBy env s [event]) s (step env s event) := by
  have hnothing : ∀ {after : State κ τ σ}, Steps limit met s after →
      Steps limit (fun key => met key ∨ key ∈ ([] ++ [] : List κ)) s after := by
    intro after hafter
    exact ⟨hafter.kept.mono fun key hkey => .inl (by simpa using hkey), hafter.frozen,
      hafter.counted⟩
  cases event with
  | capture owners => exact hnothing (kept_capture h owners)
  | retry force write => exact hnothing (kept_retry h force write)
  | close write => exact hnothing (kept_close h write)
  | pass answers =>
    have hpass := kept_pass env h answers
    refine ⟨hpass.kept.mono fun key hkey => .inl ?_, hpass.frozen, hpass.counted⟩
    simpa [metBy] using hkey

theorem kept_run (env : Env κ τ σ ο) (h : Kept limit met s) (events : List (Event κ τ ο)) :
    Kept limit (fun key => met key ∨ key ∈ metBy env s events) (run (step env) s events) ∧
      Frozen s.stored (run (step env) s events).stored := by
  induction events generalizing s met with
  | nil => exact ⟨h.mono fun key hkey => .inl (by simpa [metBy] using hkey), Frozen.refl _⟩
  | cons event events ih =>
    have hfirst := kept_step env h event
    obtain ⟨hkept, hfrozen⟩ := ih hfirst.kept
    rw [run_cons]
    refine ⟨hkept.mono fun key hkey => .inl ?_, hfirst.frozen.trans hfrozen⟩
    simpa [metBy, or_assoc] using hkey

end Codexon.MismatchArchive
