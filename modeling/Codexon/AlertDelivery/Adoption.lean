import Codexon.AlertDelivery

/-!
# Codexon.AlertDelivery.Adoption

What the statements of an adoption do to the rows and candidates of each owner: the
steps for one head touch its owner only, so a whole adoption is read off owner by owner.
-/

namespace Codexon.AlertDelivery

open List

variable {ι ν : Type}

/-! ## the tables -/

@[simp] theorem owners_deleteAlerts (t : Tables ι ν) (work : Nat) (key : Owner) :
    (t.deleteAlerts work key).owners = t.owners := rfl

@[simp] theorem alerts_deleteOwner (t : Tables ι ν) (work : Nat) (key : Owner) :
    (t.deleteOwner work key).alerts = t.alerts := rfl

@[simp] theorem get?_deleteOwner (t : Tables ι ν) (work w : Nat) (key o : Owner) :
    (t.deleteOwner work key).owners.get? (w, o) =
      if w = work ∧ o = key then none else t.owners.get? (w, o) := by
  by_cases h : w = work ∧ o = key <;> simp [Tables.deleteOwner, h]

@[simp] theorem alerts_insertOwner (t : Tables ι ν) (work : Nat) (h : Head ι ν) :
    (t.insertOwner work h).alerts = t.alerts := rfl

@[simp] theorem get?_insertOwner (t : Tables ι ν) (work w : Nat) (h : Head ι ν) (o : Owner) :
    (t.insertOwner work h).owners.get? (w, o) =
      if w = work ∧ o = h.owner then some (h.title, h.isInternal)
      else t.owners.get? (w, o) := by
  simp [Tables.insertOwner, Dict.get?_set]

theorem foldl_set_other {κ α : Type} [DecidableEq κ] (key : ι → κ) (es : List (ι × α))
    (d : Dict κ α) (k : κ) (hk : ∀ i, key i ≠ k) :
    (es.foldl (fun d e => d.set (key e.1) e.2) d).get? k = d.get? k := by
  induction es generalizing d with
  | nil => rfl
  | cons e es ih => simp [ih, Dict.get?_set, (hk e.1).symm]

def perform (steps : List (Working ι ν → Working ι ν)) (w : Working ι ν) : Working ι ν :=
  steps.foldl (fun w step => step w) w

@[simp] theorem perform_nil (w : Working ι ν) : perform [] w = w := rfl

@[simp] theorem perform_cons (step : Working ι ν → Working ι ν)
    (steps : List (Working ι ν → Working ι ν)) (w : Working ι ν) :
    perform (step :: steps) w = perform steps (step w) := rfl

@[simp] theorem perform_append (xs ys : List (Working ι ν → Working ι ν)) (w : Working ι ν) :
    perform (xs ++ ys) w = perform ys (perform xs w) := foldl_append

variable [DecidableEq ι]

@[simp] theorem get?_alertsOf (t : Tables ι ν) (work : Nat) (key : Owner) (i : ι) :
    (t.alertsOf work key).get? i = t.alerts.get? (work, key, i) := by
  refine Dict.ext_get? fun v => ?_
  simp only [Tables.alertsOf, List.mem_map, List.mem_filter, decide_eq_true_eq, Dict.get?_eq_some]
  constructor
  · rintro ⟨⟨⟨w, o, j⟩, x⟩, ⟨he, rfl, rfl⟩, heq⟩
    obtain ⟨rfl, rfl⟩ := Prod.mk.inj heq
    exact he
  · intro h
    exact ⟨_, ⟨h, rfl, rfl⟩, rfl⟩

@[simp] theorem get?_deleteAlerts (t : Tables ι ν) (work w : Nat) (key o : Owner) (i : ι) :
    (t.deleteAlerts work key).alerts.get? (w, o, i) =
      if w = work ∧ o = key then none else t.alerts.get? (w, o, i) := by
  by_cases h : w = work ∧ o = key <;> simp [Tables.deleteAlerts, h]

@[simp] theorem owners_insertAlerts (t : Tables ι ν) (work : Nat) (h : Head ι ν) :
    (t.insertAlerts work h).owners = t.owners := rfl

theorem foldl_set_pairs {κ α : Type} [DecidableEq κ] (key : ι → κ)
    (hkey : Function.Injective key) (a : Dict ι α) (d : Dict κ α) (i : ι) :
    (a.entries.foldl (fun d e => d.set (key e.1) e.2) d).get? (key i) =
      (a.get? i).or (d.get? (key i)) := by
  have hnodup : (a.entries.map fun e => key e.1).Nodup := by
    have h := a.nodup.map hkey
    rwa [List.map_map] at h
  have hfold := Dict.get?_foldl_set (fun e : ι × α => key e.1) (fun e => some e.2) hnodup d (key i)
  simp only [Option.elim_some, hkey.eq_iff] at hfold
  rw [hfold]
  simp only [Dict.get?]
  cases a.entries.find? fun e => e.1 = i <;> simp

@[simp] theorem get?_insertAlerts (t : Tables ι ν) (work w : Nat) (h : Head ι ν) (o : Owner)
    (i : ι) : (t.insertAlerts work h).alerts.get? (w, o, i) =
      if w = work ∧ o = h.owner then (h.modelAlerts.get? i).or (t.alerts.get? (w, o, i))
      else t.alerts.get? (w, o, i) := by
  by_cases hwo : w = work ∧ o = h.owner
  · obtain ⟨rfl, rfl⟩ := hwo
    rw [if_pos ⟨rfl, rfl⟩]
    exact foldl_set_pairs (fun i => (w, h.owner, i)) (fun i j hij => by simpa using hij)
      h.modelAlerts t.alerts i
  · rw [if_neg hwo]
    refine foldl_set_other (fun i => (work, h.owner, i)) _ _ _ fun j hj => hwo ?_
    simp only [Prod.mk.injEq] at hj
    exact ⟨hj.1.symm, hj.2.1.symm⟩

/-! ## one head -/

theorem foldl_pending (xs : List ι) (o o' : Owner) (val : ι → Option (Candidate ν))
    (d : Dict (Owner × ι) (Candidate ν)) (i : ι) :
    (xs.foldl (fun d i => (val i).elim d (d.set (o, i))) d).get? (o', i) =
      if o' = o ∧ i ∈ xs then (val i).or (d.get? (o', i)) else d.get? (o', i) := by
  induction xs generalizing d with
  | nil => simp
  | cons x xs ih =>
    rw [foldl_cons, ih]
    cases hval : val x with
    | none => grind
    | some c => grind [Dict.get?_set]

variable [DecidableEq ν]

def Same (o : Owner) (w w' : Working ι ν) : Prop :=
  (∀ n i, w'.tables.alerts.get? (n, o, i) = w.tables.alerts.get? (n, o, i)) ∧
    (∀ n, w'.tables.owners.get? (n, o) = w.tables.owners.get? (n, o)) ∧
    ∀ i, w'.pendingAlerts.get? (o, i) = w.pendingAlerts.get? (o, i)

omit [DecidableEq ν] in
theorem same_refl (o : Owner) (w : Working ι ν) : Same o w w := ⟨by simp, by simp, by simp⟩

omit [DecidableEq ν] in
theorem Same.trans {o : Owner} {w w' w'' : Working ι ν} (h : Same o w w') (h' : Same o w' w'') :
    Same o w w'' :=
  ⟨fun n i => (h'.1 n i).trans (h.1 n i), fun n => (h'.2.1 n).trans (h.2.1 n),
    fun i => (h'.2.2 i).trans (h.2.2 i)⟩

theorem pending_addPending (h : Head ι ν) (w : Working ι ν) (o : Owner) (i : ι) :
    (addPending h w).pendingAlerts.get? (o, i) =
      if o = h.owner then (h.news w.oldAlerts i).or (w.pendingAlerts.get? (o, i))
      else w.pendingAlerts.get? (o, i) := by
  rw [addPending, foldl_pending]
  by_cases ho : o = h.owner
  · by_cases hi : i ∈ w.oldAlerts.entries.map Prod.fst ++
        (h.modelAlerts.entries.map Prod.fst).filter (· ∉ w.oldAlerts.entries.map Prod.fst)
    · rw [if_pos ⟨ho, hi⟩, if_pos ho]
    · -- neither the old rows nor the new ones have the identity
      have hneither : w.oldAlerts.get? i = none ∧ h.modelAlerts.get? i = none := by
        simp only [mem_append, List.mem_filter, not_or] at hi
        constructor <;> simp only [Dict.get?, Option.map_eq_none_iff, List.find?_eq_none] <;> grind
      rw [if_neg fun hc => hi hc.2, if_pos ho, Head.news, hneither.1, hneither.2]
      rfl
  · rw [if_neg fun hc => ho hc.1, if_neg ho]

@[simp] theorem tables_addPending (h : Head ι ν) (w : Working ι ν) :
    (addPending h w).tables = w.tables := rfl

def oldOf (prior : Option Nat) (w : Working ι ν) (o : Owner) : Dict ι (Signature ν) :=
  prior.elim {} fun p => w.tables.alertsOf p o

theorem alerts_headSteps (prior : Option Nat) (work n : Nat) (scan : Bool) (h : Head ι ν)
    (w : Working ι ν) (o : Owner) (i : ι) :
    (perform (headSteps prior work scan h) w).tables.alerts.get? (n, o, i) =
      if n = work ∧ o = h.owner then
        (h.modelAlerts.get? i).or (if scan then w.tables.alerts.get? (n, o, i) else none)
      else w.tables.alerts.get? (n, o, i) := by
  have hnone : h.modelAlerts.entries = [] → h.modelAlerts.get? i = none := fun he => by
    simp [Dict.get?, he]
  unfold headSteps removedSteps
  cases scan <;> cases h.isInternal <;> by_cases he : h.modelAlerts.entries = [] <;>
    by_cases hk : n = work ∧ o = h.owner <;> simp [he, hk, hnone]

theorem owners_headSteps (prior : Option Nat) (work n : Nat) (scan : Bool) (h : Head ι ν)
    (w : Working ι ν) (o : Owner) :
    (perform (headSteps prior work scan h) w).tables.owners.get? (n, o) =
      if n = work ∧ o = h.owner then
        if h.modelAlerts.entries = [] then if scan then w.tables.owners.get? (n, o) else none
        else some (h.title, h.isInternal)
      else w.tables.owners.get? (n, o) := by
  unfold headSteps removedSteps
  cases scan <;> cases hint : h.isInternal <;> by_cases he : h.modelAlerts.entries = [] <;>
    by_cases hk : n = work ∧ o = h.owner <;> simp [he, hk, hint]

theorem pending_headSteps (prior : Option Nat) (work : Nat) (scan : Bool) (h : Head ι ν)
    (w : Working ι ν) (o : Owner) (i : ι) :
    (perform (headSteps prior work scan h) w).pendingAlerts.get? (o, i) =
      if o = h.owner ∧ h.isInternal = false then
        (h.news (oldOf prior w h.owner) i).or (w.pendingAlerts.get? (o, i))
      else w.pendingAlerts.get? (o, i) := by
  unfold headSteps removedSteps oldOf
  cases scan <;> cases h.isInternal <;> by_cases he : h.modelAlerts.entries = [] <;>
    by_cases ho : o = h.owner <;> simp [he, ho, pending_addPending]

theorem same_headSteps (prior : Option Nat) (work : Nat) (scan : Bool) (h : Head ι ν)
    (w : Working ι ν) (o : Owner) (ho : o ≠ h.owner) :
    Same o w (perform (headSteps prior work scan h) w) :=
  ⟨fun n i => by rw [alerts_headSteps, if_neg fun hc => ho hc.2],
    fun n => by rw [owners_headSteps, if_neg fun hc => ho hc.2],
    fun i => by rw [pending_headSteps, if_neg fun hc => ho hc.1]⟩

/-! ## all heads -/

theorem same_heads (prior : Option Nat) (work : Nat) (scan : Bool) {hs : List (Head ι ν)}
    {o : Owner} (ho : ∀ h ∈ hs, o ≠ h.owner) (w : Working ι ν) :
    Same o w (perform (hs.flatMap (headSteps prior work scan)) w) := by
  induction hs generalizing w with
  | nil => exact same_refl o w
  | cons h hs ih =>
    rw [flatMap_cons, perform_append]
    exact (same_headSteps prior work scan h w o (ho h mem_cons_self)).trans
      (ih (fun h' hh' => ho h' (mem_cons_of_mem h hh')) _)

theorem same_head_of_mem (prior : Option Nat) (work : Nat) (scan : Bool) {hs : List (Head ι ν)}
    (hnodup : (hs.map Head.owner).Nodup) {h : Head ι ν} (hh : h ∈ hs) (w : Working ι ν) :
    ∃ w', Same h.owner w w' ∧ Same h.owner (perform (headSteps prior work scan h) w')
      (perform (hs.flatMap (headSteps prior work scan)) w) := by
  obtain ⟨pre, post, rfl⟩ := append_of_mem hh
  have hpre : ∀ h' ∈ pre, h.owner ≠ h'.owner := by grind
  have hpost : ∀ h' ∈ post, h.owner ≠ h'.owner := by grind
  refine ⟨_, same_heads prior work scan hpre w, ?_⟩
  rw [flatMap_append, flatMap_cons, perform_append, perform_append]
  exact same_heads prior work scan hpost _

omit [DecidableEq ν] in
theorem perform_removed (work : Nat) (removed : List Owner) (w : Working ι ν) (o : Owner) :
    Same o (if o ∈ removed then
        { w with tables := (w.tables.deleteAlerts work o).deleteOwner work o }
      else w) (perform (removed.flatMap (removedSteps work)) w) := by
  induction removed generalizing w with
  | nil => exact same_refl o w
  | cons key removed ih =>
    rw [flatMap_cons, perform_append]
    refine Same.trans ?_ (ih _)
    unfold removedSteps Same
    by_cases hk : o = key
    · subst hk
      by_cases ho : o ∈ removed <;> simp +contextual [ho]
    · by_cases ho : o ∈ removed <;> simp [hk, ho]

end Codexon.AlertDelivery
