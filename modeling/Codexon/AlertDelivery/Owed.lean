import Codexon.Run
import Codexon.AlertDelivery.Adoption

/-!
# Codexon.AlertDelivery.Owed

Any order of adoptions, publications and resets of one store, with failures.  Every change
of an alert is owed until it is published or a reset starts over; the pending candidates are
exactly what is owed.
-/

namespace Codexon.AlertDelivery

variable {ι ν : Type} [DecidableEq ι] [DecidableEq ν]

/-! ## what is owed -/

omit [DecidableEq ν] in
def alertOf (gen : Nat → Generation ι ν) (token : Option Nat) (o : Owner) (i : ι) :
    Option (Signature ν) :=
  token.bind fun t => ((gen t).head o).bind (·.modelAlerts.get? i)

def announcedIn (gen : Nat → Generation ι ν) (token : Option Nat) (o : Owner) (i : ι) :
    Option (Signature ν) :=
  token.bind fun t => ((gen t).head o).bind (·.announced i)

def NeverInternal (gen : Nat → Generation ι ν) (o : Owner) : Prop :=
  ∀ t, ∀ h ∈ (gen t).heads, h.owner = o → h.isInternal = false

/-- The sets of an adoption name every owner whose alerts changed since the adopted
generation; `removed` has owners without a version only. -/
structure Covers (gen : Nat → Generation ι ν) (s : Publisher ι ν) (t : Nat)
    (changed removed : List Owner) : Prop where
  changed : s.token.isSome → ∀ o i, alertOf gen s.token o i ≠ alertOf gen (some t) o i →
    if ((gen t).head o).isSome then o ∈ changed else o ∈ removed
  absent : ∀ o ∈ removed, (gen t).head o = none

def Fits (gen : Nat → Generation ι ν) (s : Publisher ι ν) : Call → Prop
  | .adopt token _ changed removed _ _ => Covers gen s token changed removed
  | _ => True

/-- A publisher, and what its reader is owed. -/
structure Watched (ι ν : Type) where
  publisher : Publisher ι ν := {}
  owed : Owner → ι → Option (Signature ν) := fun _ _ => none

/-- What is owed when a call has adopted: a new difference replaces an older one. -/
def dueAt (gen : Nat → Generation ι ν) (w : Watched ι ν) (c : Call) (o : Owner) (i : ι) :
    Option (Signature ν) :=
  let token := (call gen w.publisher c).2.token
  if alertOf gen w.publisher.token o i = alertOf gen token o i then w.owed o i
  else (announcedIn gen token o i).or (w.owed o i)

/-- A publication settles what is due, a reset makes every current alert due. -/
def watch (gen : Nat → Generation ι ν) (w : Watched ι ν) (c : Call) : Watched ι ν where
  publisher := (call gen w.publisher c).2
  owed := match (call gen w.publisher c).1 with
    | .published _ => fun _ _ => none
    | .restarted => alertOf gen w.publisher.token
    | _ => dueAt gen w c

def Candidate.Carries (c : Candidate ν) (o : Owner) (sig : Signature ν) : Prop :=
  (c.home, c.sid) = o ∧ c.fields = modelKeys.zip sig

/-! ## the invariant -/

/-- The rows of the current work are the alerts of the adopted generation. -/
structure Agrees (gen : Nat → Generation ι ν) (s : Publisher ι ν) : Prop where
  closed : s.db.savepoints = []
  started : s.alertWork.isSome = s.token.isSome
  unused : s.alertWork = none → s.db.tables = {}
  rows : ∀ work, s.alertWork = some work →
    ∀ o i, s.db.tables.alerts.get? (work, o, i) = alertOf gen s.token o i
  names : ∀ work, s.alertWork = some work → ∀ o, NeverInternal gen o → ∀ i sig,
    alertOf gen s.token o i = some sig →
      ∃ title, s.db.tables.owners.get? (work, o) = some (title, false)
  sent : s.projectionDirty = false → s.pendingAlerts = {}
  keyed : ∀ k c, s.pendingAlerts.get? k = some c → (c.home, c.sid) = k.1

section

omit [DecidableEq ι] [DecidableEq ν]

theorem head_mem {g : Generation ι ν} {o : Owner} {h : Head ι ν} (hh : g.head o = some h) :
    h ∈ g.heads ∧ h.owner = o :=
  ⟨List.mem_of_find?_eq_some hh, by simpa using List.find?_some hh⟩

theorem head_none {g : Generation ι ν} {o : Owner} (hh : g.head o = none) :
    ∀ h ∈ g.heads, o ≠ h.owner := fun h hmem heq => by
  simpa [heq] using List.find?_eq_none.mp hh h hmem

end

variable {gen : Nat → Generation ι ν} {s : Publisher ι ν}

section

omit [DecidableEq ν]

theorem nextWork_eq (hs : Agrees gen s) (fresh work : Nat) (hwork : s.alertWork = some work) :
    s.nextWork fresh = work := by
  have htoken : s.token.isSome := by simpa [hwork] using hs.started.symm
  have hscan : s.scans = false := by
    simp [Publisher.scans, hwork, htoken]
  simp [Publisher.nextWork, hscan, hwork]

theorem scans_iff (hs : Agrees gen s) : s.scans = true ↔ s.alertWork = none := by
  have h := hs.started
  unfold Publisher.scans
  cases ha : s.alertWork <;> cases ht : s.token <;> simp_all

theorem rows_next (hs : Agrees gen s) (fresh : Nat) (o : Owner) (i : ι) :
    s.db.tables.alerts.get? (s.nextWork fresh, o, i) =
      if s.scans then none else alertOf gen s.token o i := by
  cases hwork : s.alertWork with
  | none => simp [(scans_iff hs).mpr hwork, hs.unused hwork]
  | some work =>
    have hscan : s.scans = false := by simp [← Bool.not_eq_true, scans_iff hs, hwork]
    rw [nextWork_eq hs fresh work hwork, hs.rows work hwork, hscan]
    rfl

theorem old_rows (hs : Agrees gen s) (w : Working ι ν) (o : Owner)
    (hw : ∀ n i, w.tables.alerts.get? (n, o, i) = s.db.tables.alerts.get? (n, o, i)) (i : ι) :
    (oldOf s.hadAlerts w o).get? i = alertOf gen s.token o i := by
  cases hwork : s.alertWork with
  | none =>
    have htoken : s.token = none := by simpa [hwork] using hs.started.symm
    simp [Publisher.hadAlerts, oldOf, hwork, htoken, alertOf]
  | some work =>
    unfold Publisher.hadAlerts oldOf
    by_cases hany : s.db.tables.alerts.entries.any (·.1.1 = work)
    · simp [hwork, Option.filter_some, hany, hw, hs.rows work hwork]
    · -- no row of this work, hence no alert
      have hnone : s.db.tables.alerts.get? (work, o, i) = none := by
        simp only [Dict.get?, Option.map_eq_none_iff, List.find?_eq_none]
        intro e he heq
        exact hany (List.any_eq_true.mpr ⟨e, he, by simp_all⟩)
      simp [hwork, Option.filter_some, hany, ← hs.rows work hwork, hnone]

end

/-! ## one adoption -/

/-- The candidates of an owner after the adoption of `token`. -/
def follow (gen : Nat → Generation ι ν) (s : Publisher ι ν) (token : Option Nat) (o : Owner)
    (i : ι) : Option (List (String × Option ν)) :=
  let pending := (s.pendingAlerts.get? (o, i)).map Candidate.fields
  if alertOf gen s.token o i = alertOf gen token o i then pending
  else ((announcedIn gen token o i).map modelKeys.zip).or pending

/-- The work of an adoption, read off for one owner. -/
structure Adopts (gen : Nat → Generation ι ν) (s : Publisher ι ν) (t next : Nat) (o : Owner)
    (w : Working ι ν) : Prop where
  alerts : ∀ i, w.tables.alerts.get? (next, o, i) = alertOf gen (some t) o i
  names : NeverInternal gen o → ∀ i sig, alertOf gen (some t) o i = some sig →
    ∃ title, w.tables.owners.get? (next, o) = some (title, false)
  pending : NeverInternal gen o →
    ∀ i, (w.pendingAlerts.get? (o, i)).map Candidate.fields = follow gen s (some t) o i
  keyed : ∀ i c, w.pendingAlerts.get? (o, i) = some c → (c.home, c.sid) = o

theorem adopts_same (hs : Agrees gen s) {t fresh : Nat} {o : Owner} {w : Working ι ν}
    (hsame : Same o { tables := s.db.tables, pendingAlerts := s.pendingAlerts } w)
    (hscan : s.scans = false) (heq : ∀ i, alertOf gen s.token o i = alertOf gen (some t) o i) :
    Adopts gen s t (s.nextWork fresh) o w where
  alerts i := by rw [hsame.1, rows_next hs, hscan, ← heq]; rfl
  names ho i sig halert := by
    obtain ⟨work, hwork⟩ : ∃ work, s.alertWork = some work := by
      rw [← Option.ne_none_iff_exists', ne_eq, ← scans_iff hs, hscan]
      decide
    rw [hsame.2.1, nextWork_eq hs fresh work hwork]
    exact hs.names work hwork o ho i sig ((heq i).trans halert)
  pending _ i := by rw [hsame.2.2, follow, if_pos (heq i)]
  keyed i c hc := hs.keyed (o, i) c ((hsame.2.2 i).symm.trans hc)

theorem adopts_absent (hs : Agrees gen s) {t fresh : Nat} {o : Owner} {w w' : Working ι ν}
    {changed removed : List Owner} (hcovers : Covers gen s t changed removed)
    (hhead : (gen t).head o = none)
    (hw : w = { tables := s.db.tables, pendingAlerts := s.pendingAlerts })
    (hsame : Same o (if o ∈ removed then
      { w with
        tables := ((w.tables.deleteAlerts (s.nextWork fresh) o).deleteOwner (s.nextWork fresh) o) }
      else w) w') :
    Adopts gen s t (s.nextWork fresh) o w' := by
  have hnone : ∀ i, alertOf gen (some t) o i = none := fun i => by simp [alertOf, hhead]
  have hpending : ∀ i, w'.pendingAlerts.get? (o, i) = s.pendingAlerts.get? (o, i) := fun i => by
    rw [hsame.2.2, hw]
    split <;> rfl
  refine ⟨fun i => ?_, fun _ i sig halert => ?_, fun _ i => ?_, fun i c hc => ?_⟩
  · rw [hsame.1, hnone]
    by_cases hremoved : o ∈ removed
    · simp [hremoved]
    · rw [if_neg hremoved, hw, rows_next hs]
      cases hscan : s.scans with
      | true => rfl
      | false =>
        -- an alert that went away would have put the owner into `removed`
        by_contra halert
        have htoken : s.token.isSome := by
          rw [← hs.started, Option.isSome_iff_ne_none, ne_eq, ← scans_iff hs, hscan]
          decide
        have := hcovers.changed htoken o i (by rw [hnone]; simpa using halert)
        rw [hhead] at this
        exact hremoved this
  · rw [hnone] at halert
    cases halert
  · rw [hpending, follow]
    simp [announcedIn, hhead]
  · exact hs.keyed (o, i) c ((hpending i).symm.trans hc)

theorem adopts_head (hs : Agrees gen s) {t fresh : Nat} {o : Owner} {w w' : Working ι ν}
    {h : Head ι ν} (hhead : (gen t).head o = some h)
    (hbefore : Same o { tables := s.db.tables, pendingAlerts := s.pendingAlerts } w)
    (hsame : Same o (perform (headSteps s.hadAlerts (s.nextWork fresh) s.scans h) w) w') :
    Adopts gen s t (s.nextWork fresh) o w' := by
  obtain ⟨hmem, rfl⟩ := head_mem hhead
  have halert : ∀ i, alertOf gen (some t) h.owner i = h.modelAlerts.get? i := fun i => by
    simp [alertOf, hhead]
  have hold := old_rows hs w h.owner hbefore.1
  have hbase : ∀ i, w.pendingAlerts.get? (h.owner, i) = s.pendingAlerts.get? (h.owner, i) :=
    hbefore.2.2
  refine ⟨fun i => ?_, fun ho i sig hsig => ?_, fun ho i => ?_, fun i c hc => ?_⟩
  · rw [hsame.1, alerts_headSteps, if_pos ⟨rfl, rfl⟩, hbefore.1, rows_next hs, halert]
    cases s.scans <;> simp
  · have hentries : h.modelAlerts.entries ≠ [] := fun he => by
      simp [halert, Dict.get?, he] at hsig
    rw [hsame.2.1, owners_headSteps, if_pos ⟨rfl, rfl⟩, if_neg hentries, ho t h hmem rfl]
    exact ⟨h.title, rfl⟩
  · rw [hsame.2.2, pending_headSteps, if_pos ⟨rfl, ho t h hmem rfl⟩, hbase, Head.news, hold,
      follow, halert]
    by_cases heq : alertOf gen s.token h.owner i = h.modelAlerts.get? i
    · simp [heq]
    · rw [if_neg heq, if_neg heq]
      cases hann : h.announced i <;> simp [announcedIn, hhead, hann, candidate]
  · rw [hsame.2.2, pending_headSteps, hbase] at hc
    have hkept := hs.keyed (h.owner, i) c
    split at hc
    · rcases Option.or_eq_some_iff.mp hc with hnews | ⟨-, hpending⟩
      · unfold Head.news at hnews
        split at hnews
        · cases hnews
        · obtain ⟨sig, -, rfl⟩ := Option.map_eq_some_iff.mp hnews
          rfl
      · exact hkept hpending
    · exact hkept hc

theorem adopts_work (hs : Agrees gen s) {t : Nat} (fresh : Nat) {changed removed : List Owner}
    (hcovers : Covers gen s t changed removed) (o : Owner) :
    Adopts gen s t (s.nextWork fresh) o (s.work (gen t) fresh changed removed none) := by
  have hremoved := perform_removed (s.nextWork fresh) removed
    { tables := s.db.tables, pendingAlerts := s.pendingAlerts } o
  have hwork : s.work (gen t) fresh changed removed none =
      perform ((s.heads (gen t) changed).flatMap (headSteps s.hadAlerts (s.nextWork fresh) s.scans))
        (perform (removed.flatMap (removedSteps (s.nextWork fresh)))
          { tables := s.db.tables, pendingAlerts := s.pendingAlerts }) :=
    perform_append _ _ _
  rw [hwork]
  have hsub : ∀ h ∈ s.heads (gen t) changed, h ∈ (gen t).heads := fun h hh => by
    unfold Publisher.heads at hh
    split at hh
    · exact hh
    · exact List.mem_of_mem_filter hh
  cases hhead : (gen t).head o with
  | none =>
    refine adopts_absent hs hcovers hhead rfl (hremoved.trans (same_heads _ _ _ ?_ _))
    exact fun h hh => head_none hhead h (hsub h hh)
  | some h =>
    obtain ⟨hmem, howner⟩ := head_mem hhead
    have hkeep : o ∉ removed := fun hc => by simp [hcovers.absent o hc] at hhead
    rw [if_neg hkeep] at hremoved
    by_cases hread : h ∈ s.heads (gen t) changed
    · have hnodup : ((s.heads (gen t) changed).map Head.owner).Nodup := by
        unfold Publisher.heads
        split
        · exact (gen t).nodup
        · exact (gen t).nodup.sublist (List.filter_sublist.map _)
      obtain ⟨w', hbefore, hafter⟩ := same_head_of_mem s.hadAlerts (s.nextWork fresh) s.scans
        hnodup hread (perform (removed.flatMap (removedSteps (s.nextWork fresh)))
          { tables := s.db.tables, pendingAlerts := s.pendingAlerts })
      rw [howner] at hbefore hafter
      exact adopts_head hs hhead (hremoved.trans hbefore) hafter
    · -- neither a scan nor a named owner
      have hunread : s.scans = false ∧ o ∉ changed := by
        unfold Publisher.heads at hread
        cases hscan : s.scans <;> simp_all
      have htoken : s.token.isSome := by
        rw [← hs.started, Option.isSome_iff_ne_none, ne_eq, ← scans_iff hs, hunread.1]
        decide
      refine adopts_same hs (hremoved.trans (same_heads _ _ _ ?_ _)) hunread.1 fun i => ?_
      · intro h' hh' heq
        simp only [Publisher.heads, hunread.1, Bool.false_eq_true, if_false, List.mem_filter,
          decide_eq_true_eq] at hh'
        exact hunread.2 (heq ▸ hh'.2)
      · by_contra hne
        have := hcovers.changed htoken o i hne
        rw [hhead] at this
        exact hunread.2 this

end Codexon.AlertDelivery
