import Mathlib.Data.List.Dedup
import Mathlib.Data.List.Sublists

/-!
# Codexon.Closure

Searches of what is reachable, and walks to the ancestors of a node.

A search keeps what it has seen and what is pending.  On a finite domain it ends, and what it has
seen is the least set that has the start and is closed under the step.
-/

namespace Codexon.Closure

open List

variable {α : Type}

/-! ## what is reachable -/

/-- What is reached from a start by steps. -/
inductive Reach (step : α → List α) (start : List α) : α → Prop
  | start {a : α} (h : a ∈ start) : Reach step start a
  | next {a b : α} (ha : Reach step start a) (hb : b ∈ step a) : Reach step start b

theorem Reach.least {step : α → List α} {start : List α} {S : α → Prop}
    (hstart : ∀ a ∈ start, S a) (hstep : ∀ a, S a → ∀ b ∈ step a, S b) {a : α}
    (h : Reach step start a) : S a := by
  induction h with
  | start ha => exact hstart _ ha
  | next _ hb ih => exact hstep _ ih _ hb

theorem reach_iff_least {step : α → List α} {start : List α} {a : α} : Reach step start a ↔
      ∀ S : α → Prop, (∀ a ∈ start, S a) → (∀ a, S a → ∀ b ∈ step a, S b) → S a := by
  constructor
  · intro h S hstart hstep
    exact h.least hstart hstep
  · intro h
    exact h _ (fun _ => .start) fun _ ha _ => .next ha

section Search

variable [DecidableEq α]

/--
A search: the next pending node is taken, and what its step brings for the first time is pending
too, before the others (as of a stack) or after them.  It is none when the fuel is used up.
-/
def search (stack : Bool) (step : α → List α) : Nat → List α → List α → Option (List α)
  | _, seen, [] => some seen
  | 0, _, _ :: _ => none
  | fuel + 1, seen, a :: pending =>
    let fresh := (step a).dedup.filter (· ∉ seen)
    search stack step fuel (seen ++ fresh) (if stack then fresh ++ pending else pending ++ fresh)

/-- What a search has kept: what is pending was seen, and all else that was seen is done. -/
structure Searching (step : α → List α) (start domain seen pending : List α) : Prop where
  nodup : seen.Nodup
  began : ∀ a ∈ start, a ∈ seen
  reached : ∀ a ∈ seen, Reach step start a
  waits : ∀ a ∈ pending, a ∈ seen
  done : ∀ a ∈ seen, a ∉ pending → ∀ b ∈ step a, b ∈ seen
  within : ∀ a ∈ seen, a ∈ domain

variable {stack : Bool} {step : α → List α} {start domain seen pending : List α}

theorem searching_next (stack : Bool) {a : α} (hdomain : ∀ a ∈ domain, ∀ b ∈ step a, b ∈ domain)
    (h : Searching step start domain seen (a :: pending)) :
    Searching step start domain (seen ++ (step a).dedup.filter (· ∉ seen))
      (if stack then (step a).dedup.filter (· ∉ seen) ++ pending
        else pending ++ (step a).dedup.filter (· ∉ seen)) := by
  have ha : a ∈ seen := h.waits a (by simp)
  have hfresh {b : α} : b ∈ (step a).dedup.filter (· ∉ seen) ↔ b ∈ step a ∧ b ∉ seen := by simp
  have hmem {b : α} : (b ∈ if stack then (step a).dedup.filter (· ∉ seen) ++ pending
      else pending ++ (step a).dedup.filter (· ∉ seen)) ↔
      b ∈ (step a).dedup.filter (· ∉ seen) ∨ b ∈ pending := by
    cases stack
    · simp only [Bool.false_eq_true, if_false, mem_append]
      exact or_comm
    · simp only [if_true, mem_append]
  exact {
    nodup := by
      rw [nodup_append']
      refine ⟨h.nodup, (nodup_dedup _).filter _, fun b hb hnew => ?_⟩
      exact (hfresh.mp hnew).2 hb
    began := fun b hb => mem_append_left _ (h.began b hb)
    reached := by
      intro b hb
      obtain hb | hb := mem_append.mp hb
      · exact h.reached b hb
      · exact (h.reached a ha).next (hfresh.mp hb).1
    waits := by
      intro b hb
      obtain hb | hb := hmem.mp hb
      · exact mem_append_right _ hb
      · exact mem_append_left _ (h.waits b (by simp [hb]))
    done := by
      intro b hb hnot c hc
      rw [hmem, not_or] at hnot
      have hseen : b ∈ seen := by
        obtain hb | hb := mem_append.mp hb
        · exact hb
        · exact absurd hb hnot.1
      by_cases hba : b = a
      · subst hba
        by_cases hcs : c ∈ seen
        · exact mem_append_left _ hcs
        · exact mem_append_right _ (hfresh.mpr ⟨hc, hcs⟩)
      · exact mem_append_left _ (h.done b hseen (by simp [hba, hnot.2]) c hc)
    within := by
      intro b hb
      obtain hb | hb := mem_append.mp hb
      · exact h.within b hb
      · exact hdomain a (h.within a ha) b (hfresh.mp hb).1 }

theorem search_of_searching (hdomain : ∀ a ∈ domain, ∀ b ∈ step a, b ∈ domain) {fuel : Nat}
    (h : Searching step start domain seen pending)
    (hfuel : pending.length + domain.length ≤ fuel + seen.length) :
    ∃ result, search stack step fuel seen pending = some result ∧ result.Nodup ∧
      ∀ a, a ∈ result ↔ Reach step start a := by
  have hend : ∀ {seen : List α}, Searching step start domain seen [] →
      ∀ a, a ∈ seen ↔ Reach step start a := by
    intro seen h a
    refine ⟨h.reached a, fun hreach => ?_⟩
    exact hreach.least h.began fun b hb => h.done b hb (by simp)
  induction fuel generalizing seen pending with
  | zero =>
    cases pending with
    | nil => exact ⟨seen, by unfold search; rfl, h.nodup, hend h⟩
    | cons a pending =>
      have hle := (h.nodup.subperm fun b hb => h.within b hb).length_le
      simp only [length_cons] at hfuel
      omega
  | succ fuel ih =>
    cases pending with
    | nil => exact ⟨seen, by unfold search; rfl, h.nodup, hend h⟩
    | cons a pending =>
      have hnext := searching_next stack hdomain h
      refine ih hnext ?_
      simp only [length_cons] at hfuel
      cases stack <;> simp only [Bool.false_eq_true, if_false, if_true, length_append] <;>
        omega

theorem search_spec (stack : Bool) (hstart : ∀ a ∈ start, a ∈ domain) (hnodup : start.Nodup)
    (hdomain : ∀ a ∈ domain, ∀ b ∈ step a, b ∈ domain) {fuel : Nat} (hfuel : domain.length ≤ fuel) :
    ∃ result, search stack step fuel start start = some result ∧ result.Nodup ∧
      ∀ a, a ∈ result ↔ Reach step start a := by
  refine search_of_searching hdomain ⟨hnodup, fun _ ha => ha, fun _ => .start, fun _ ha => ha,
    fun _ ha hnot => absurd ha hnot, hstart⟩ ?_
  omega

end Search

/-! ## walks to the ancestors -/

/-- A chain of parents that ends. -/
inductive Ends (parent : α → Option α) : α → Prop
  | root {a : α} (h : parent a = none) : Ends parent a
  | child {a b : α} (h : parent a = some b) (hb : Ends parent b) : Ends parent a

/-- One node is an ancestor of the other. -/
abbrev Leads (parent : α → Option α) : α → α → Prop :=
  Relation.TransGen fun a b => parent a = some b

variable {parent : α → Option α}

theorem ends_parent {a b : α} (h : parent a = some b) : Ends parent a ↔ Ends parent b := by
  constructor
  · rintro (hroot | ⟨hchild, hb⟩)
    · simp [h] at hroot
    · obtain rfl : b = _ := Option.some.inj (h.symm.trans hchild)
      exact hb
  · exact .child h

theorem Ends.not_leads {a : α} (h : Ends parent a) : ¬ Leads parent a a := by
  induction h with
  | root hroot =>
    intro hcycle
    obtain ⟨b, hb, -⟩ := Relation.TransGen.head'_iff.mp hcycle
    simp [hroot] at hb
  | child hparent _ ih =>
    intro hcycle
    obtain ⟨c, hc, hrest⟩ := Relation.TransGen.head'_iff.mp hcycle
    obtain rfl := Option.some.inj (hparent.symm.trans hc)
    exact ih (Relation.TransGen.tail' hrest hparent)

/-- A walk from a node: whether it ends, and not at a node that was seen. -/
def walk [DecidableEq α] (parent : α → Option α) : Nat → List α → α → Option Bool
  | 0, _, _ => none
  | fuel + 1, seen, a =>
    if a ∈ seen then some false
    else
      match parent a with
      | some b => walk parent fuel (a :: seen) b
      | none => some true

theorem walk_spec [DecidableEq α] {domain seen : List α} {fuel : Nat} {a : α}
    (hdomain : ∀ b, parent b ≠ none → b ∈ domain) (hnodup : seen.Nodup)
    (hseen : ∀ b ∈ seen, parent b ≠ none ∧ Leads parent b a)
    (hfuel : domain.length < fuel + seen.length) :
    ∃ r, walk parent fuel seen a = some r ∧ (r = true ↔ Ends parent a) := by
  induction fuel generalizing seen a with
  | zero =>
    have hle := (hnodup.subperm fun b hb => hdomain b (hseen b hb).1).length_le
    omega
  | succ fuel ih =>
    unfold walk
    by_cases ha : a ∈ seen
    · refine ⟨false, if_pos ha, ?_⟩
      simp only [Bool.false_eq_true, false_iff]
      exact fun hends => hends.not_leads (hseen a ha).2
    · rw [if_neg ha]
      cases hparent : parent a with
      | none => exact ⟨true, rfl, by simpa using .root hparent⟩
      | some b =>
        have hseen' : ∀ c ∈ a :: seen, parent c ≠ none ∧ Leads parent c b := by
          intro c hc
          obtain rfl | hc : c = a ∨ c ∈ seen := by simpa using hc
          · exact ⟨by simp [hparent], .single hparent⟩
          · exact ⟨(hseen c hc).1, (hseen c hc).2.tail hparent⟩
        obtain ⟨r, hr, hends⟩ := ih (nodup_cons.mpr ⟨ha, hnodup⟩) hseen'
          (by simp only [length_cons]; omega)
        exact ⟨r, hr, hends.trans (ends_parent hparent).symm⟩

def chain (parent : α → Option α) : Nat → α → Option (List α)
  | 0, _ => none
  | fuel + 1, a =>
    match parent a with
    | some b => (chain parent fuel b).map (a :: ·)
    | none => some [a]

theorem chain_of_ends {a : α} (h : Ends parent a) :
    ∃ fuel nodes, chain parent fuel a = some nodes := by
  induction h with
  | @root a hroot =>
    refine ⟨1, [a], ?_⟩
    simp [chain, hroot]
  | @child a b hparent _ ih =>
    obtain ⟨fuel, nodes, hnodes⟩ := ih
    refine ⟨fuel + 1, a :: nodes, ?_⟩
    simp [chain, hparent, hnodes]

end Codexon.Closure
