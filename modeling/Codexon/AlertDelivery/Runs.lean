import Codexon.AlertDelivery.Owed

/-!
# Codexon.AlertDelivery.Runs

Each call keeps the rows those of the adopted generation and the candidates what is owed;
from there, whole runs.
-/

namespace Codexon.AlertDelivery

variable {ι ν : Type} [DecidableEq ι] [DecidableEq ν]
variable {gen : Nat → Generation ι ν} {s : Publisher ι ν}

/-! ## adoptions -/

omit [DecidableEq ν] in
theorem raised_eq (hs : Agrees gen s) (w : Working ι ν) : s.raised w = s := by
  obtain ⟨_, _, _, _, _, ⟨_, savepoints⟩, _, _, _, _⟩ := s
  obtain rfl : savepoints = [] := hs.closed
  rfl

omit [DecidableEq ν] in
theorem nextWork_started (hs : Agrees gen s) (fresh prior : Nat) (h : s.alertWork = some prior) :
    prior = s.nextWork fresh := (nextWork_eq hs fresh prior h).symm

theorem adopt_cases (hs : Agrees gen s) (t fresh : Nat) (changed removed : List Owner)
    (selected : Option (Option (List Owner))) (failure : Option Failure) :
    (adopt gen s t fresh changed removed selected failure).2 = s ∨
      (s.quiet (gen t) changed removed (s.selection selected) = true ∧
        (adopt gen s t fresh changed removed selected failure).2 = { s with token := some t }) ∨
      adopt gen s t fresh changed removed selected failure =
        (.adopted, s.adopted (gen t) t fresh (s.selection selected)
          (s.work (gen t) fresh changed removed none)) := by
  have hdb : s.db.savepoint.release = s.db := rfl
  unfold adopt
  simp only [raised_eq hs, hdb]
  split
  · exact .inl rfl
  · split
    · exact .inl rfl
    · split
      · exact .inl rfl
      · split
        · next hquiet => exact .inr (.inl ⟨hquiet, rfl⟩)
        · split
          · exact .inl rfl
          · exact .inr (.inr rfl)

variable {changed removed : List Owner}

/-- A failed adoption leaves the publisher and its rows as they were.  On the path that only
moves the token, that may have moved. -/
theorem adopt_failed (hs : Agrees gen s) {t fresh : Nat}
    {selected : Option (Option (List Owner))} {failure : Option Failure}
    (hfailed : (adopt gen s t fresh changed removed selected failure).1 = .failed) :
    (adopt gen s t fresh changed removed selected failure).2 = s ∨
      s.quiet (gen t) changed removed (s.selection selected) = true ∧
        (adopt gen s t fresh changed removed selected failure).2 = { s with token := some t } := by
  rcases adopt_cases hs t fresh changed removed selected failure with h | h | h
  · exact .inl h
  · exact .inr h
  · rw [h] at hfailed
    cases hfailed

theorem agrees_adopted (hs : Agrees gen s) {t fresh : Nat}
    (hcovers : Covers gen s t changed removed) (selection : Option (List Owner)) :
    Agrees gen (s.adopted (gen t) t fresh selection
      (s.work (gen t) fresh changed removed none)) := by
  have hwork := adopts_work hs fresh hcovers
  have hdb : (s.adopted (gen t) t fresh selection
      (s.work (gen t) fresh changed removed none)).db =
      { tables := (s.work (gen t) fresh changed removed none).tables, savepoints := [] } := by
    have hclosed := hs.closed
    unfold Publisher.adopted Connection.release Connection.savepoint
    cases hprior : s.alertWork with
    | none => simp [hclosed]
    | some prior => simp [hclosed, nextWork_started hs fresh prior hprior]
  refine ⟨by rw [hdb], rfl, fun h => (by cases h), fun work h o i => ?_,
    fun work h o ho i sig ha => ?_, fun h => (by cases h),
    fun k c hc => (hwork k.1).keyed k.2 c hc⟩
  · obtain rfl : s.nextWork fresh = work := Option.some.inj h
    rw [hdb]
    exact (hwork o).alerts i
  · obtain rfl : s.nextWork fresh = work := Option.some.inj h
    rw [hdb]
    exact (hwork o).names ho i sig ha

omit [DecidableEq ν] in
theorem agrees_quiet (hs : Agrees gen s) {t : Nat} (htoken : s.token.isSome)
    (heq : ∀ o i, alertOf gen s.token o i = alertOf gen (some t) o i) :
    Agrees gen { s with token := some t } where
  closed := hs.closed
  started := by simp [hs.started, htoken]
  unused := hs.unused
  rows work h o i := (hs.rows work h o i).trans (heq o i)
  names work h o ho i sig ha := hs.names work h o ho i sig ((heq o i).trans ha)
  sent := hs.sent
  keyed := hs.keyed

def Follows (gen : Nat → Generation ι ν) (s s' : Publisher ι ν) : Prop :=
  ∀ o, NeverInternal gen o → ∀ i,
    (s'.pendingAlerts.get? (o, i)).map Candidate.fields = follow gen s s'.token o i

theorem follows_refl : Follows gen s s := fun o _ i => by simp [follow]

theorem adopt_spec (hs : Agrees gen s) {t : Nat} (fresh : Nat)
    (hcovers : Covers gen s t changed removed) (selected : Option (Option (List Owner)))
    (failure : Option Failure) :
    Agrees gen (adopt gen s t fresh changed removed selected failure).2 ∧
      Follows gen s (adopt gen s t fresh changed removed selected failure).2 := by
  rcases adopt_cases hs t fresh changed removed selected failure with h | ⟨hquiet, h⟩ | h
  · rw [h]
    exact ⟨hs, follows_refl⟩
  · -- nobody is named, so no alert has changed
    obtain ⟨htoken, rfl, rfl, -⟩ : s.token.isSome ∧ changed = [] ∧ removed = [] ∧ _ := by
      simpa only [Publisher.quiet, decide_eq_true_eq] using hquiet
    have heq : ∀ o i, alertOf gen s.token o i = alertOf gen (some t) o i := fun o i => by
      by_contra hne
      have := hcovers.changed htoken o i hne
      split at this <;> cases this
    rw [h]
    exact ⟨agrees_quiet hs htoken heq, fun o _ i => by simp [follow, heq]⟩
  · rw [h]
    exact ⟨agrees_adopted hs hcovers _, fun o ho i => (adopts_work hs fresh hcovers o).pending ho i⟩

/-! ## publications and resets -/

section

omit [DecidableEq ν]

theorem agrees_deliver (hs : Agrees gen s) (t : Nat) (raises : Bool) :
    Agrees gen (deliver s t raises).2 := by
  unfold deliver
  split
  · exact hs
  · split
    · exact { hs with }
    · exact { hs with sent := fun _ => rfl, keyed := fun k c hc => by simp at hc }

theorem deliver_published (hs : Agrees gen s) {t : Nat} {raises : Bool} {m : List (Candidate ν)}
    (hm : (deliver s t raises).1 = .published m) :
    m = s.pendingAlerts.entries.map Prod.snd ∧ (deliver s t raises).2.pendingAlerts = {} ∧
      (deliver s t raises).2.token = s.token := by
  unfold deliver at hm ⊢
  split at hm
  · cases hm
  · split at hm
    · next hraises hidle =>
      have hnone := hs.sent hidle.2.2
      rw [if_neg hraises, if_pos hidle]
      obtain rfl : [] = m := by simpa using hm
      simp [hnone]
    · next hraises hidle =>
      rw [if_neg hraises, if_neg hidle]
      exact ⟨by simpa using hm.symm, rfl, rfl⟩

omit [DecidableEq ι] in
theorem deliver_other {t : Nat} {raises : Bool}
    (hother : ∀ m, (deliver s t raises).1 ≠ .published m) :
    (deliver s t raises).2 = s ∧ (deliver s t raises).1 = .failed := by
  unfold deliver at hother ⊢
  by_cases hraises : raises ∨ s.token ≠ some t
  · rw [if_pos hraises]
    exact ⟨rfl, rfl⟩
  · rw [if_neg hraises] at hother
    split at hother <;> exact absurd rfl (hother _)

theorem get?_keptCandidates (tables : Tables ι ν) (work : Nat) (o : Owner) (i : ι) :
    (keptCandidates tables work).get? (o, i) = (tables.alerts.get? (work, o, i)).bind fun sig =>
      rowCandidate tables ((work, o, i), sig) := by
  set rows := tables.alerts.entries.filter (·.1.1 = work) with hrows
  have hnodup : (rows.map fun e => e.1.2).Nodup := by
    refine List.Nodup.map_on ?_ ((List.Nodup.of_map _ tables.alerts.nodup).filter _)
    intro a ha b hb hab
    simp only [hrows, List.mem_filter, decide_eq_true_eq] at ha hb
    exact List.inj_on_of_nodup_map tables.alerts.nodup ha.1 hb.1
      (Prod.ext (ha.2.trans hb.2.symm) hab)
  rw [keptCandidates, Dict.get?_foldl_set (fun e => e.1.2) (rowCandidate tables) hnodup]
  cases hsig : tables.alerts.get? (work, o, i) with
  | none =>
    have hfind : rows.find? (fun e => e.1.2 = (o, i)) = none := by
      simp only [List.find?_eq_none, hrows, List.mem_filter]
      rintro ⟨⟨w, k⟩, v⟩ ⟨he, hw⟩ hk
      obtain rfl : w = work := by simpa using hw
      obtain rfl : k = (o, i) := by simpa using hk
      rw [Dict.get?_eq_some.mpr he] at hsig
      cases hsig
    rw [hfind]
    rfl
  | some sig =>
    have hmem : ((work, o, i), sig) ∈ rows :=
      List.mem_filter.mpr ⟨Dict.get?_eq_some.mp hsig, by simp⟩
    have hfind := Dict.find?_key (fun e : (Nat × Owner × ι) × Signature ν => e.1.2) hnodup hmem
    simp only at hfind
    rw [hfind]
    simp

omit [DecidableEq ι] in
theorem rowCandidate_eq_some {tables : Tables ι ν} {work : Nat} {o : Owner} {i : ι}
    {sig : Signature ν} {c : Candidate ν}
    (hc : rowCandidate tables ((work, o, i), sig) = some c) : (c.home, c.sid) = o := by
  unfold rowCandidate at hc
  split at hc
  · obtain rfl := Option.some.inj hc
    rfl
  · cases hc

theorem agrees_reset (hs : Agrees gen s) (raises : Bool) : Agrees gen (reset s raises).2 := by
  unfold reset
  split
  · exact hs
  · refine { hs with sent := fun h => (by cases h), keyed := fun k c hc => ?_ }
    cases hwork : s.alertWork with
    | none => simp [hwork] at hc
    | some work =>
      obtain ⟨o, i⟩ := k
      simp only [hwork, Option.elim_some, get?_keptCandidates] at hc
      obtain ⟨sig, -, hc⟩ := Option.bind_eq_some_iff.mp hc
      exact rowCandidate_eq_some hc

theorem reset_pending (hs : Agrees gen s) {o : Owner} (ho : NeverInternal gen o) (i : ι) :
    ((reset s false).2.pendingAlerts.get? (o, i)).map Candidate.fields =
      (alertOf gen s.token o i).map modelKeys.zip := by
  simp only [reset, Bool.false_eq_true, if_false]
  cases hwork : s.alertWork with
  | none =>
    have htoken : s.token = none := by simpa [hwork] using hs.started.symm
    simp [htoken, alertOf]
  | some work =>
    simp only [Option.elim_some, get?_keptCandidates, hs.rows work hwork]
    cases halert : alertOf gen s.token o i with
    | none => rfl
    | some sig =>
      obtain ⟨title, htitle⟩ := hs.names work hwork o ho i sig halert
      simp [rowCandidate, htitle, candidate]

end

/-! ## calls -/

theorem adopt_reply (gen : Nat → Generation ι ν) (s : Publisher ι ν) (t fresh : Nat)
    (changed removed : List Owner) (selected : Option (Option (List Owner)))
    (failure : Option Failure) :
    (adopt gen s t fresh changed removed selected failure).1 = .adopted ∨
      (adopt gen s t fresh changed removed selected failure).1 = .failed := by
  unfold adopt
  grind

theorem publish_cases (hs : Agrees gen s) (t fresh : Nat) (adoption : Option Failure)
    (raises : Bool) : ∃ p : Publisher ι ν, Agrees gen p ∧ Follows gen s p ∧
      (publish gen s t fresh adoption raises = (.failed, p) ∨
        publish gen s t fresh adoption raises = deliver p t raises) := by
  unfold publish
  split
  · next htoken =>
    have hfirst : Covers gen s t [] [] := ⟨by simp [htoken], by simp⟩
    obtain ⟨hp, hfollows⟩ := adopt_spec hs fresh hfirst none adoption
    refine ⟨_, hp, hfollows, ?_⟩
    by_cases hfailed : (adopt gen s t fresh [] [] none adoption).1 = .failed
    · exact .inl ((if_pos hfailed).trans (Prod.ext hfailed rfl))
    · exact .inr (if_neg hfailed)
  · exact ⟨s, hs, follows_refl, .inr rfl⟩

/-- A call publishes what was pending once it had adopted, starts over from the current alerts,
or leaves the candidates to follow the alerts. -/
theorem call_cases (hs : Agrees gen s) {c : Call} (hfits : Fits gen s c) :
    (∃ p : Publisher ι ν, Agrees gen p ∧ Follows gen s p ∧ p.token = (call gen s c).2.token ∧
      (call gen s c).1 = .published (p.pendingAlerts.entries.map Prod.snd) ∧
      (call gen s c).2.pendingAlerts = {}) ∨ call gen s c = (.restarted, (reset s false).2) ∨
    ((call gen s c).1 = .adopted ∨ (call gen s c).1 = .failed) ∧
      Follows gen s (call gen s c).2 := by
  cases c with
  | adopt t fresh changed removed selected failure =>
    exact .inr (.inr ⟨adopt_reply gen s t fresh changed removed selected failure,
      (adopt_spec hs fresh hfits selected failure).2⟩)
  | reset raises =>
    cases raises with
    | false => exact .inr (.inl rfl)
    | true => exact .inr (.inr ⟨.inr rfl, follows_refl⟩)
  | publish t fresh adoption raises =>
    obtain ⟨p, hp, hfollows, h | h⟩ := publish_cases hs t fresh adoption raises
    · simp only [call, h]
      exact .inr (.inr ⟨.inr trivial, hfollows⟩)
    · simp only [call, h]
      by_cases hsent : ∃ m, (deliver p t raises).1 = .published m
      · obtain ⟨m, hm⟩ := hsent
        obtain ⟨rfl, hnone, htoken⟩ := deliver_published hp hm
        exact .inl ⟨p, hp, hfollows, htoken.symm, hm, hnone⟩
      · obtain ⟨hstate, hreply⟩ := deliver_other fun m hm => hsent ⟨m, hm⟩
        rw [hstate]
        exact .inr (.inr ⟨.inr hreply, hfollows⟩)

theorem agrees_call (hs : Agrees gen s) {c : Call} (hfits : Fits gen s c) :
    Agrees gen (call gen s c).2 := by
  cases c with
  | adopt t fresh changed removed selected failure =>
    exact (adopt_spec hs fresh hfits selected failure).1
  | reset raises => exact agrees_reset hs raises
  | publish t fresh adoption raises =>
    obtain ⟨p, hp, -, h | h⟩ := publish_cases hs t fresh adoption raises
    · simp only [call, h]
      exact hp
    · simp only [call, h]
      exact agrees_deliver hp t raises

/-! ## runs -/

/-- The pending candidates of never internal owners are what is owed. -/
structure Pays (gen : Nat → Generation ι ν) (w : Watched ι ν) : Prop where
  agrees : Agrees gen w.publisher
  owed : ∀ o, NeverInternal gen o → ∀ i,
    (w.publisher.pendingAlerts.get? (o, i)).map Candidate.fields =
      (w.owed o i).map modelKeys.zip

theorem due_of_follows {w : Watched ι ν} (hw : Pays gen w) {c : Call} {p : Publisher ι ν}
    (hfollows : Follows gen w.publisher p) (htoken : p.token = (call gen w.publisher c).2.token)
    {o : Owner} (ho : NeverInternal gen o) (i : ι) :
    (p.pendingAlerts.get? (o, i)).map Candidate.fields = (dueAt gen w c o i).map modelKeys.zip := by
  rw [hfollows o ho i, follow, dueAt, hw.owed o ho i, htoken]
  split <;> simp [Option.map_or]

theorem pays_watch {w : Watched ι ν} (hw : Pays gen w) {c : Call}
    (hfits : Fits gen w.publisher c) : Pays gen (watch gen w c) where
  agrees := agrees_call hw.agrees hfits
  owed o ho i := by
    rcases call_cases hw.agrees hfits with ⟨p, -, -, -, hm, hnone⟩ | h | ⟨hreply, hfollows⟩
    · simp [watch, hm, hnone]
    · simp only [watch, h]
      exact reset_pending hw.agrees ho i
    · have hdue := due_of_follows hw (c := c) hfollows rfl ho i
      rcases hreply with h | h <;> simpa only [watch, h] using hdue

omit [DecidableEq ν] in
theorem pays_start : Pays gen {} where
  agrees :=
    { closed := rfl, started := rfl, unused := fun _ => rfl, rows := fun _ h => (by cases h),
      names := fun _ h => (by cases h), sent := fun _ => rfl, keyed := fun k c hc => by simp at hc }
  owed o _ i := rfl

/-- In every run of adoptions, publications and resets of a store, whose adoptions name the
owners with changed alerts: a publication has a candidate for exactly what is due of each never
internal owner.  A failed adoption changes nothing, but for the token where it names no owner. -/
theorem alerts_delivered (gen : Nat → Generation ι ν) (cs : List Call) (c : Call)
    (hcs : Along (watch gen) (fun w c => Fits gen w.publisher c) {} cs)
    (hc : Fits gen (run (watch gen) {} cs).publisher c) :
    (∀ m, (call gen (run (watch gen) {} cs).publisher c).1 = .published m →
      ∀ o, NeverInternal gen o →
        (∀ i sig, dueAt gen (run (watch gen) {} cs) c o i = some sig →
          ∃ cand ∈ m, cand.Carries o sig) ∧
        ∀ cand ∈ m, (cand.home, cand.sid) = o →
          ∃ i sig, dueAt gen (run (watch gen) {} cs) c o i = some sig ∧ cand.Carries o sig) ∧
    ∀ t fresh changed removed selected failure,
      c = .adopt t fresh changed removed selected failure →
      (call gen (run (watch gen) {} cs).publisher c).1 = .failed →
      (call gen (run (watch gen) {} cs).publisher c).2 = (run (watch gen) {} cs).publisher ∨
        (changed = [] ∧ removed = []) ∧
          (call gen (run (watch gen) {} cs).publisher c).2 =
            { (run (watch gen) {} cs).publisher with token := some t } := by
  have hw : Pays gen (run (watch gen) {} cs) :=
    run_inv_along (P := fun (w : Watched ι ν) c => Fits gen w.publisher c)
      (fun _ _ hw hfits => pays_watch hw hfits) pays_start hcs
  refine ⟨fun m hm o ho => ?_, ?_⟩
  · rcases call_cases hw.agrees hc with ⟨p, hp, hfollows, htoken, hsent, -⟩ | h | ⟨h | h, -⟩
    · have hdue := due_of_follows hw (c := c) hfollows htoken ho
      obtain rfl : p.pendingAlerts.entries.map Prod.snd = m := by simpa [hsent] using hm
      constructor
      · intro i sig hsig
        obtain ⟨cand, hcand, hfields⟩ :=
          Option.map_eq_some_iff.mp ((hdue i).trans (congrArg (Option.map modelKeys.zip) hsig))
        exact ⟨cand, List.mem_map.mpr ⟨_, Dict.get?_eq_some.mp hcand, rfl⟩,
          hp.keyed (o, i) cand hcand, hfields⟩
      · rintro cand hcand rfl
        obtain ⟨⟨⟨o, i⟩, cand'⟩, hentry, rfl⟩ := List.mem_map.mp hcand
        have hget := Dict.get?_eq_some.mpr hentry
        have howner := hp.keyed _ _ hget
        simp only at howner hcand ho hdue ⊢
        rw [howner] at hdue ⊢
        obtain ⟨sig, hsig, hzip⟩ :=
          Option.map_eq_some_iff.mp ((hdue i).symm.trans (congrArg (Option.map _) hget))
        exact ⟨i, sig, hsig, howner, hzip.symm⟩
    · simp [h] at hm
    · simp [h] at hm
    · simp [h] at hm
  · rintro t fresh changed removed selected failure rfl hfailed
    refine (adopt_failed hw.agrees hfailed).imp_right fun h => ⟨?_, h.2⟩
    have hquiet := h.1
    simp only [Publisher.quiet, decide_eq_true_eq] at hquiet
    exact ⟨hquiet.2.1, hquiet.2.2.1⟩

/-! ## a withdrawn alert -/

def withdrawing (t : Nat) : Generation Nat Nat where
  heads := [{ owner := ("home", "a"), title := "title", isInternal := false
              modelAlerts := if t = 2 then {} else
                { entries := [(7, [some 7, some 100, some 101, some 1, some 2, some 3])] }
              record := fun _ => some fun _ => some 0 }]
  nodup := by simp
  orderBatch := fun _ => 0
  ready := true

theorem covers_withdrawing (s : Publisher Nat Nat) (t : Nat) :
    Covers withdrawing s t [("home", "a")] [] where
  changed _ o i hne := by
    by_cases ho : o = ("home", "a")
    · simp [ho, withdrawing, Generation.head]
    · have hnone : ∀ token, alertOf withdrawing token o i = none := fun token => by
        cases token <;> simp [alertOf, Generation.head, withdrawing, Ne.symm ho]
      exact absurd ((hnone _).trans (hnone _).symm) hne
  absent := by simp

/-- The withdrawal goes out with the fields of the call. -/
theorem withdrawal_delivered :
    ∃ cand ∈ [candidate ("home", "a") "title" (recordSignature fun _ => some 0)],
      cand.Carries ("home", "a") (recordSignature fun _ => some 0) :=
  (((alerts_delivered withdrawing
    [.adopt 1 0 [("home", "a")] [] none none, .publish 1 0 none false,
      .adopt 2 0 [("home", "a")] [] none none] (.publish 2 0 none false)
    ⟨covers_withdrawing _ _, trivial, covers_withdrawing _ _, trivial⟩ trivial).1
      _ (by decide +kernel)) ("home", "a") (by simp [NeverInternal, withdrawing])).1
    7 _ (by decide +kernel)

def firstAlert : Candidate Nat :=
  candidate ("home", "a") "title" [some 7, some 100, some 101, some 1, some 2, some 3]

def replies (gen : Nat → Generation ι ν) (s : Publisher ι ν) : List Call → List (Reply ν)
  | [] => []
  | c :: cs => (call gen s c).1 :: replies gen (call gen s c).2 cs

/-- A reset sends an alert again that has not changed, and takes a withdrawal back that has not
gone out.  An adoption that fails as it ends may have moved the token. -/
theorem resets_start_over :
    replies withdrawing {} [.adopt 1 0 [("home", "a")] [] none none, .publish 1 0 none false,
        .reset false, .publish 1 0 none false] =
      [.adopted, .published [firstAlert], .restarted, .published [firstAlert]] ∧
    replies withdrawing {} [.adopt 1 0 [("home", "a")] [] none none, .publish 1 0 none false,
        .adopt 2 0 [("home", "a")] [] none none, .reset false, .publish 2 0 none false] =
      [.adopted, .published [firstAlert], .adopted, .restarted, .published []] ∧
    alertOf withdrawing (some 1) ("home", "a") 7 ≠ alertOf withdrawing (some 2) ("home", "a") 7 ∧
    (call withdrawing (call withdrawing {} (.adopt 1 0 [("home", "a")] [] none none)).2
      (.adopt 3 0 [] [] none (some .closing))).1 = .failed ∧
    (call withdrawing (call withdrawing {} (.adopt 1 0 [("home", "a")] [] none none)).2
      (.adopt 3 0 [] [] none (some .closing))).2.token = some 3 := by
  decide +kernel

end Codexon.AlertDelivery
