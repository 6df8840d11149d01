import Codexon.SplitCycles

/-!
# Codexon.SplitCycles.Partition

Where no spike begins without a reset time, `split_cycles` puts each observation into one
group, in order, and the groups follow each other.
-/

namespace Codexon

open List

namespace SplitCycles

variable {α : Type} [LinearOrder α]

/-! ## what is claimed of groups -/

def contents (groups : List (Group α)) : List (Observation α) :=
  groups.flatMap fun group =>
    if group.discontinuous then [] else group.observations ++ group.rejected

/-- The observations of a timeline, without those before the `baseline_after` of the manual
reset that is active. -/
def counted : Option (Manual α) → List (Entry α) → List (Observation α)
  | _, [] => []
  | _, .manual m :: entries => counted (some m) entries
  | active, .observation r :: entries =>
    if active.any fun marker => r.at_ < marker.baselineAfter then counted active entries
    else r :: counted active entries

/-- `b` may follow `a` in a group. -/
structure Follows (a b : Observation α) : Prop where
  at_ : a.at_ ≤ b.at_
  used : a.used ≤ b.used
  account : a.account = b.account
  plan : field a.plan = field b.plan
  bucket : field a.bucket = field b.bucket
  separate : field a.separate = field b.separate
  minutes : a.minutes = b.minutes

/-- A group ends before another one begins, or as that one begins: an uncertain tail begins with
the last observation of its group. -/
def Before (g h : Group α) : Prop :=
  ∀ a ∈ g.observations, ∀ b ∈ h.observations, a.at_ ≤ b.at_

/-- What is claimed of the groups of a timeline. -/
structure Divides (entries : List (Entry α)) (groups : List (Group α)) : Prop where
  once : (contents groups).Perm (counted none entries)
  monotone : ∀ group ∈ groups, group.discontinuous = false → group.observations.Pairwise Follows
  apart : groups.Pairwise Before

theorem Follows.trans {a b c : Observation α} (hab : Follows a b) (hbc : Follows b c) :
    Follows a c where
  at_ := hab.at_.trans hbc.at_
  used := hab.used.trans hbc.used
  account := hab.account.trans hbc.account
  plan := hab.plan.trans hbc.plan
  bucket := hab.bucket.trans hbc.bucket
  separate := hab.separate.trans hbc.separate
  minutes := hab.minutes.trans hbc.minutes

/-! ## the invariant of the loop -/

def Entry.time : Entry α → α
  | .manual m => m.at_
  | .observation r => r.at_

/-- A group, while nothing later was seen than `time`. -/
structure Group.Sound (time : α) (group : Group α) : Prop where
  upper : ∀ r ∈ group.observations ++ group.rejected, r.at_ ≤ time
  monotone : group.discontinuous = false → group.observations.Pairwise Follows

/-- The groups after some entries, the last of them at `time`. -/
structure State.Sound (active : Option (Manual α)) (time : α) (s : State α) : Prop where
  groups : ∀ group ∈ s.groups, group.Sound time
  apart : s.groups.Pairwise Before
  current : ∀ group, s.current = some group → group.discontinuous = false ∧
    (group.manualReset = active ∨
      group.manualReset = none ∧ ∀ m, active = some m → m.baselineAfter ≤ time)
  started : s.current = none → active = none

variable {group : Group α}

variable {time : α}

theorem Group.Sound.mono {time' : α} (h : group.Sound time)
    (hle : time ≤ time') : group.Sound time' :=
  ⟨fun r hr => (h.upper r hr).trans hle, h.monotone⟩

variable {s : State α}

variable {active : Option (Manual α)}

theorem State.Sound.mono {time' : α} (h : s.Sound active time)
    (hle : time ≤ time') : s.Sound active time' :=
  ⟨fun group hgroup => (h.groups group hgroup).mono hle, h.apart, fun group hgroup =>
    ⟨(h.current group hgroup).1, (h.current group hgroup).2.imp_right fun hm =>
      ⟨hm.1, fun m hactive => (hm.2 m hactive).trans hle⟩⟩, h.started⟩

omit [LinearOrder α] in
theorem contents_append (gs hs : List (Group α)) :
    contents (gs ++ hs) = contents gs ++ contents hs := flatMap_append

/-! ## the steps -/

omit [LinearOrder α] in
theorem groups_appendGroup (s : State α) (group : Group α) :
    (appendGroup s group).groups = s.groups ++ [group] := by
  simp [appendGroup, State.groups]

theorem apart_append {groups : List (Group α)} (h : groups.Pairwise Before)
    (hempty : group.observations = []) : (groups ++ [group]).Pairwise Before := by
  rw [pairwise_append]
  refine ⟨h, by simp, fun g _ x hx => ?_⟩
  rw [mem_singleton] at hx
  subst hx
  simp [Before, hempty]

variable {item : Observation α}

theorem sound_enter (hs : s.Sound active time)
    (hcurrent : s.current = some group) (hitem : item.at_ = time) (admitted : Bool)
    (hfollows : ∀ r ∈ group.observations, admitted → Follows r item) (epochs : List (Epoch α)) :
    let group' := if admitted then { group with observations := group.observations ++ [item] }
      else { group with rejected := group.rejected ++ [item] }
    let s' : State α := { closed := s.closed, current := some group', epochs }
    s'.Sound active time ∧ (contents s'.groups).Perm (contents s.groups ++ [item]) := by
  have hgroups : s.groups = s.closed ++ [group] := by simp [State.groups, hcurrent]
  have hmem : group ∈ s.groups := by simp [hgroups]
  obtain ⟨hdiscontinuous, hmarker⟩ := hs.current group hcurrent
  have hsound := hs.groups group hmem
  have hapart := hs.apart
  rw [hgroups, pairwise_append] at hapart
  have hclosed : ∀ g ∈ s.closed, g.Sound time := fun g hg => hs.groups g (by simp [hgroups, hg])
  cases admitted with
  | true =>
    refine ⟨⟨fun g hg => ?_, ?_, fun g hg => ?_, by simp⟩, ?_⟩
    · simp only [State.groups, if_true, Option.toList_some, mem_append,
        mem_singleton] at hg
      rcases hg with hg | rfl
      · exact hclosed g hg
      · refine ⟨fun r hr => ?_, fun _ => ?_⟩
        · have := hsound.upper r
          grind
        · rw [pairwise_append]
          exact ⟨hsound.monotone hdiscontinuous, by simp, fun a ha b hb => by
            rw [mem_singleton] at hb
            exact hb ▸ hfollows a ha rfl⟩
    · simp only [State.groups, if_true, Option.toList_some]
      rw [pairwise_append]
      refine ⟨hapart.1, by simp, fun g hg h hh a ha b hb => ?_⟩
      rw [mem_singleton] at hh
      subst hh
      rcases mem_append.mp hb with hb | hb
      · exact hapart.2.2 g hg group (by simp) a ha b hb
      · have := (hclosed g hg).upper a (by simp [ha])
        grind
    · simp only [if_true, Option.some.injEq] at hg
      subst hg
      exact ⟨hdiscontinuous, hmarker⟩
    · rw [hgroups]
      simp only [State.groups, if_true, Option.toList_some, contents_append]
      simp only [contents, flatMap_cons, flatMap_nil, hdiscontinuous,
        Bool.false_eq_true, if_false, List.append_nil, append_assoc]
      exact (perm_append_comm.append_left _).append_left _
  | false =>
    refine ⟨⟨fun g hg => ?_, ?_, fun g hg => ?_, by simp⟩, ?_⟩
    · simp only [State.groups, Bool.false_eq_true, if_false, Option.toList_some, mem_append,
        mem_singleton] at hg
      rcases hg with hg | rfl
      · exact hclosed g hg
      · refine ⟨fun r hr => ?_, hsound.monotone⟩
        have := hsound.upper r
        grind
    · simp only [State.groups, Bool.false_eq_true, if_false, Option.toList_some]
      rw [pairwise_append]
      refine ⟨hapart.1, by simp, fun g hg h hh => ?_⟩
      rw [mem_singleton] at hh
      subst hh
      exact hapart.2.2 g hg group (by simp)
    · simp only [Bool.false_eq_true, if_false, Option.some.injEq] at hg
      subst hg
      exact ⟨hdiscontinuous, hmarker⟩
    · rw [hgroups]
      simp only [State.groups, Bool.false_eq_true, if_false, Option.toList_some, contents_append]
      simp [contents, hdiscontinuous]

theorem eq_or_of_getLast? {β : Type} {R : β → β → Prop} {l : List β} {x : β} (h : l.Pairwise R)
    (hlast : l.getLast? = some x) {a : β} (ha : a ∈ l) : a = x ∨ R a x := by
  obtain ⟨ys, rfl⟩ := getLast?_eq_some_iff.mp hlast
  rw [pairwise_append] at h
  rcases mem_append.mp ha with ha | ha
  · exact .inr (h.2.2 a ha x (by simp))
  · exact .inl (by simpa using ha)

theorem tailGroup_spec {t : Group α} (h : tailGroup group = some t) :
    t.discontinuous = true ∧ ∃ last final, group.observations.getLast? = some last ∧
      final ∈ group.rejected ∧ last.at_ < final.at_ ∧ t.observations = [last, final] ∧
      ∀ r ∈ t.rejected, r ∈ group.rejected := by
  rw [tailGroup] at h
  split at h
  · simp at h
  next last hlast =>
    simp only at h
    split at h
    next first final hfirst hfinal =>
      have hmem := mem_of_getLast? hfinal
      simp only [List.mem_filter, decide_eq_true_eq] at hmem
      simp only [Option.some.injEq] at h
      subst h
      exact ⟨rfl, last, final, hlast, hmem.1, hmem.2, rfl, fun r hr => (List.mem_filter.mp hr).1⟩
    · simp at h

theorem closeTail_spec (hs : s.Sound active time) :
    (∀ g ∈ (closeTail s).groups, g.Sound time) ∧ (closeTail s).groups.Pairwise Before ∧
      contents (closeTail s).groups = contents s.groups := by
  rw [closeTail]
  split
  · exact ⟨hs.groups, hs.apart, rfl⟩
  next t ht =>
    obtain ⟨group, hcurrent, htail⟩ := Option.bind_eq_some_iff.mp ht
    obtain ⟨hdiscontinuous, last, final, hlast, hfinal, hlt, hobservations, hrejected⟩ :=
      tailGroup_spec htail
    have hgroups : s.groups = s.closed ++ [group] := by simp [State.groups, hcurrent]
    have hmem : group ∈ s.groups := by simp [hgroups]
    have hsound := hs.groups group hmem
    have hmonotone := hsound.monotone (hs.current group hcurrent).1
    have hlast' := mem_of_getLast? hlast
    have hnew : ({ s with
        closed := s.closed ++ s.current.toList ++ [t], current := none } : State α).groups =
        s.groups ++ [t] := by
      simp [State.groups]
    rw [hnew]
    refine ⟨fun g hg => ?_, ?_, ?_⟩
    · rcases mem_append.mp hg with hg | hg
      · exact hs.groups g hg
      · rw [mem_singleton] at hg
        subst hg
        refine ⟨fun r hr => hsound.upper r ?_, by simp [hdiscontinuous]⟩
        grind
    · rw [pairwise_append]
      refine ⟨hs.apart, by simp, fun g hg h hh a ha b hb => ?_⟩
      rw [mem_singleton] at hh
      subst hh
      -- what is in an earlier group is not after the last observation of this one
      have hle : a.at_ ≤ last.at_ := by
        rw [hgroups] at hg
        rcases mem_append.mp hg with hg | hg
        · have hapart := hs.apart
          rw [hgroups, pairwise_append] at hapart
          exact hapart.2.2 g hg group (by simp) a ha last hlast'
        · rw [mem_singleton] at hg
          subst hg
          rcases eq_or_of_getLast? hmonotone hlast ha with rfl | hfollows
          · exact le_rfl
          · exact hfollows.at_
      rw [hobservations] at hb
      simp only [mem_cons, not_mem_nil, or_false] at hb
      rcases hb with rfl | rfl
      · exact hle
      · exact hle.trans hlt.le
    · rw [contents_append]
      simp [contents, hdiscontinuous]

theorem sound_appendGroup (active : Option (Manual α)) (group : Group α)
    (hgroups : ∀ g ∈ s.groups, g.Sound time) (hapart : s.groups.Pairwise Before)
    (hempty : group.observations = []) (hrejected : group.rejected = [])
    (hcertain : group.discontinuous = false) (hmarker : group.manualReset = active ∨
      group.manualReset = none ∧ ∀ m, active = some m → m.baselineAfter ≤ time) :
    (appendGroup s group).Sound active time ∧
      contents (appendGroup s group).groups = contents s.groups := by
  refine ⟨⟨fun g hg => ?_, ?_, fun g hg => ?_, by simp [appendGroup]⟩, ?_⟩
  · rw [groups_appendGroup] at hg
    rcases mem_append.mp hg with hg | hg
    · exact hgroups g hg
    · rw [mem_singleton] at hg
      subst hg
      exact ⟨by simp [hempty, hrejected], fun _ => by simp [hempty]⟩
  · rw [groups_appendGroup]
    exact apart_append hapart hempty
  · obtain rfl : group = g := by simpa [appendGroup] using hg
    exact ⟨hcertain, hmarker⟩
  · rw [groups_appendGroup, contents_append]
    simp [contents, hempty, hrejected]

variable [Zero α] [Sub α] [Mul α] [NatCast α]

omit [Mul α] in
theorem sound_accept (hs : s.Sound active time)
    (hcurrent : s.current = some group) (hitem : item.at_ = time)
    (hfollows : ∀ r ∈ group.observations, Follows r item) : (accept s item).Sound active time ∧
      (contents (accept s item).groups).Perm (contents s.groups ++ [item]) := by
  have henter := sound_enter hs hcurrent hitem (raiseHigh s.epochs item).2
    (fun r hr _ => hfollows r hr) (raiseHigh s.epochs item).1
  have heq : accept s item = { s with
      epochs := (raiseHigh s.epochs item).1
      current := some (if (raiseHigh s.epochs item).2 then
          { group with observations := group.observations ++ [item] }
        else { group with rejected := group.rejected ++ [item] }) } := by
    cases hraised : (raiseHigh s.epochs item).2 <;> simp [accept, reject, hraised, hcurrent]
  rw [heq]
  exact henter

omit [Zero α] [Sub α] [Mul α] [NatCast α] in
theorem sound_reject (hs : s.Sound active time)
    (hcurrent : s.current = some group) (hitem : item.at_ = time) :
    (reject s item).Sound active time ∧
      (contents (reject s item).groups).Perm (contents s.groups ++ [item]) := by
  have henter := sound_enter hs hcurrent hitem false (fun _ _ h => by simp at h) s.epochs
  simpa [reject, hcurrent] using henter

theorem breakReason_none {previous : Observation α} (h : breakReason item previous = none)
    (hat : previous.at_ ≤ item.at_) (hused : previous.used ≤ item.used) :
    Follows previous item := by
  rw [breakReason] at h
  split at h
  · simp at h
  · split at h
    · simp at h
    · split at h
      · simp at h
      · constructor <;> grind

theorem sound_observationStep (conflicts : α → Bool) (isolated : List PyStr)
    (hs : s.Sound active time)
    (hcurrent : s.current = some group) (hitem : item.at_ = time) :
    (observationStep conflicts isolated s group item).Sound active time ∧
      (contents (observationStep conflicts isolated s group item).groups).Perm
        (contents s.groups ++
          if active.any fun marker => item.at_ < marker.baselineAfter then [] else [item]) := by
  obtain ⟨hcertain, hmarker⟩ := hs.current group hcurrent
  have hsound := hs.groups group (by simp [State.groups, hcurrent])
  -- the marker of the group is the active reset, or that one is past
  have hskip : (group.manualReset.any fun marker => item.at_ < marker.baselineAfter) =
      active.any fun marker => item.at_ < marker.baselineAfter := by
    rcases hmarker with hmarker | ⟨hnone, hpast⟩
    · rw [hmarker]
    · rw [hnone]
      cases active with
      | none => rfl
      | some m => simpa [hitem] using hpast m rfl
  rw [observationStep, hskip]
  split
  · exact ⟨hs, by simp⟩
  next hcounted =>
    have hpast : ∀ m, active = some m → m.baselineAfter ≤ time := by
      rintro m rfl
      simpa [hitem] using hcounted
    split
    · exact sound_reject hs hcurrent hitem
    · split
      next hnone =>
        have hempty : group.observations = [] := getLast?_eq_none_iff.mp hnone
        simp only
        split
        · obtain ⟨happended, hcontents⟩ := sound_appendGroup active
            { id := item.id, reason := py "계정 변경", boundary := item.at_ } hs.groups hs.apart
            rfl rfl rfl (.inr ⟨rfl, hpast⟩)
          rw [← hcontents]
          exact sound_accept happended rfl hitem (by simp)
        · exact sound_accept hs hcurrent hitem (by simp [hempty])
      next previous hprevious =>
        split
        next reason boundary _ =>
          obtain ⟨hgroups, hapart, hclosed⟩ := closeTail_spec hs
          obtain ⟨happended, hcontents⟩ := sound_appendGroup active
            { id := item.id, reason, boundary } hgroups hapart rfl rfl rfl (.inr ⟨rfl, hpast⟩)
          rw [← hclosed, ← hcontents]
          exact sound_accept happended rfl hitem (by simp)
        next hbreak =>
          split
          · exact sound_reject hs hcurrent hitem
          next hused =>
            refine sound_accept hs hcurrent hitem fun r hr => ?_
            have hmem := mem_of_getLast? hprevious
            have hat : previous.at_ ≤ item.at_ := by
              rw [hitem]
              exact hsound.upper previous (by simp [hmem])
            have hlast := breakReason_none hbreak hat (not_lt.mp hused)
            rcases eq_or_of_getLast? (hsound.monotone hcertain) hprevious hr with rfl | hfollows
            · exact hlast
            · exact hfollows.trans hlast

/-- **One entry of the timeline.** -/
theorem sound_step (conflicts : α → Bool) (isolated : List PyStr)
    {entry : Entry α} (hs : s.Sound active entry.time) :
    match entry with
    | .manual m => (step conflicts isolated s entry).Sound (some m) entry.time ∧
        contents (step conflicts isolated s entry).groups = contents s.groups
    | .observation r => (step conflicts isolated s entry).Sound active entry.time ∧
        (contents (step conflicts isolated s entry).groups).Perm (contents s.groups ++
          if active.any fun marker => r.at_ < marker.baselineAfter then [] else [r]) := by
  cases entry with
  | manual m =>
    obtain ⟨hgroups, hapart, hclosed⟩ := closeTail_spec hs
    obtain ⟨happended, hcontents⟩ := sound_appendGroup (some m)
      (s := { closeTail s with epochs := [] })
      { id := py "manual:" ++ m.id
        reason := py "리셋권 사용, 사용자 기록"
        boundary := m.at_
        manualReset := some m } hgroups hapart rfl rfl rfl (.inl rfl)
    exact ⟨happended, hcontents.trans hclosed⟩
  | observation r =>
    cases hcurrent : s.current with
    | some group =>
      have := sound_observationStep conflicts isolated hs hcurrent (rfl : r.at_ = r.at_)
      simpa only [step, hcurrent] using this
    | none =>
      have hactive := hs.started hcurrent
      obtain ⟨happended, hcontents⟩ := sound_appendGroup active
        { id := r.id, reason := py "부분 관측", boundary := r.at_ } hs.groups hs.apart
        rfl rfl rfl (.inl hactive.symm)
      have := sound_observationStep conflicts isolated happended rfl (rfl : r.at_ = r.at_)
      rw [hcontents] at this
      simpa only [step, hcurrent, appendGroup] using this

/-- **The loop.** -/
theorem sound_foldl (conflicts : α → Bool) (isolated : List PyStr) {entries : List (Entry α)}
    (hsorted : entries.Pairwise fun a b => a.time ≤ b.time)
    (hs : ∀ entry ∈ entries.head?, s.Sound active entry.time)
    (hempty : entries = [] → ∃ time, s.Sound active time) :
    ∃ active' time, (entries.foldl (step conflicts isolated) s).Sound active' time ∧
      (contents (entries.foldl (step conflicts isolated) s).groups).Perm
        (contents s.groups ++ counted active entries) := by
  induction entries generalizing active s with
  | nil =>
    obtain ⟨time, hs⟩ := hempty rfl
    exact ⟨active, time, hs, by simp [counted]⟩
  | cons entry entries ih =>
    rw [pairwise_cons] at hsorted
    have hone := sound_step conflicts isolated (hs entry (by simp))
    have hnext : ∀ e ∈ entries.head?, entry.time ≤ e.time := fun e he =>
      hsorted.1 e (mem_of_mem_head? he)
    cases entry with
    | manual m =>
      obtain ⟨hstep, hcontents⟩ := hone
      obtain ⟨active', time, hend, hperm⟩ := ih hsorted.2 (fun e he => hstep.mono (hnext e he))
        fun _ => ⟨_, hstep⟩
      exact ⟨active', time, hend, by rw [← hcontents]; exact hperm⟩
    | observation r =>
      obtain ⟨hstep, hcontents⟩ := hone
      obtain ⟨active', time, hend, hperm⟩ := ih hsorted.2 (fun e he => hstep.mono (hnext e he))
        fun _ => ⟨_, hstep⟩
      refine ⟨active', time, hend, hperm.trans ?_⟩
      rw [counted]
      split at hcontents
      next hskip =>
        simpa [hskip] using hcontents.append_right (counted active entries)
      next hcounted =>
        simpa [hcounted] using hcontents.append_right (counted active entries)

end SplitCycles

/-!
## resets

`split_cycles` subtracts the reset time of the first of three observations without a look
at whether there is one.  It divides the timeline exactly when that never matters.
-/

namespace SplitCycles

variable {α : Type} [LinearOrder α]

/-! ## the loop over a sorted timeline -/

theorem time_le_of_order {a b : Entry α} (h : a.order ≤ b.order) : a.time ≤ b.time := by
  cases a <;> cases b <;> rw [Entry.order, Entry.order, Prod.Lex.toLex_le_toLex] at h <;>
    simp only [Entry.time] <;> grind

theorem timeline_sorted (observations : List (Observation α)) (manuals : List (Manual α)) :
    (timeline observations manuals).Pairwise fun a b => a.time ≤ b.time := by
  refine (pairwise_mergeSort (fun a b c hab hbc => ?_) (fun a b => ?_) _).imp fun h => ?_
  · simp only [decide_eq_true_eq] at hab hbc ⊢
    exact hab.trans hbc
  · simpa using le_total a.order b.order
  · simp only [decide_eq_true_eq] at h
    exact time_le_of_order h

theorem sound_empty (time : α) : ({} : State α).Sound none time where
  groups := by simp [State.groups]
  apart := by simp [State.groups]
  current := by simp
  started _ := rfl

variable [Zero α] [Sub α] [Mul α] [NatCast α]

theorem divides_foldl (conflicts : α → Bool) (isolated : List PyStr) {entries : List (Entry α)}
    (hsorted : entries.Pairwise fun a b => a.time ≤ b.time) :
    Divides entries (closeTail (entries.foldl (step conflicts isolated) {})).groups := by
  cases entries with
  | nil => exact ⟨by simp [closeTail, State.groups, contents, counted],
      by simp [closeTail, State.groups], by simp [closeTail, State.groups]⟩
  | cons entry entries =>
    obtain ⟨active, time, hs, hcontents⟩ := sound_foldl conflicts isolated hsorted
      (fun e _ => sound_empty e.time) fun h => nomatch h
    obtain ⟨hgroups, hapart, hclosed⟩ := closeTail_spec hs
    refine ⟨?_, fun group hgroup => (hgroups group hgroup).monotone, hapart⟩
    rw [hclosed]
    simpa [State.groups, contents] using hcontents

/-! ## reset times -/

/-- No observation without a reset time begins a spike whose middle has one. -/
def Readable (observations : List (Observation α)) : Prop :=
  ∀ t ∈ triples (ordered observations),
    isSpike t.1 t.2.1 t.2.2 → (resetOf t.2.1).isSome → t.1.reset.isSome

omit [Mul α] in
theorem sameWindow_ok {a : Observation α} (ha : a.reset.isSome) (r : Observation α) :
    ∃ same, sameWindow a r = .ok same := by
  obtain ⟨other, ha⟩ := Option.isSome_iff_exists.mp ha
  cases hr : resetOf r <;> simp [sameWindow, ha, hr]

omit [Mul α] in
theorem isIsolated_ok_iff {manuals : List (Manual α)} {a b c : Observation α} :
    (∃ found, isIsolated manuals a b c = .ok found) ↔
      (isSpike a b c → (resetOf b).isSome → a.reset.isSome) := by
  rw [isIsolated]
  cases hspike : isSpike a b c with
  | false => simp [pure, Except.pure]
  | true =>
    cases hb : resetOf b with
    | none => simp [sameWindow, hb, pure, Except.pure, bind, Except.bind]
    | some reset =>
      cases ha : a.reset with
      | none => simp [sameWindow, hb, ha, bind, Except.bind]
      | some other =>
        -- neither comparison raises where the first has a reset time
        have hreset : a.reset.isSome := by simp [ha]
        obtain ⟨sameB, hsameB⟩ := sameWindow_ok hreset b
        obtain ⟨sameC, hsameC⟩ := sameWindow_ok hreset c
        cases sameB <;> cases sameC <;>
          simp [hsameB, hsameC, pure, Except.pure, bind, Except.bind]

theorem foldlM_ok_iff {ε β γ : Type} {f : γ → β → Except ε γ} {P : β → Prop}
    (hf : ∀ c b, (∃ c', f c b = .ok c') ↔ P b) {l : List β} {c : γ} :
    (∃ c', l.foldlM f c = .ok c') ↔ ∀ b ∈ l, P b := by
  induction l generalizing c with
  | nil => simp [pure, Except.pure]
  | cons b l ih =>
    rw [foldlM_cons, forall_mem_cons, ← hf c b]
    cases hstep : f c b with
    | error e => simp [bind, Except.bind]
    | ok c' => simpa [bind, Except.bind] using ih

omit [Mul α] in
theorem isolated_ok_iff {manuals : List (Manual α)} {observations : List (Observation α)} :
    (∃ ids, isolated manuals (ordered observations) = .ok ids) ↔ Readable observations := by
  refine foldlM_ok_iff fun ids t => ?_
  rw [← isIsolated_ok_iff]
  cases hfound : isIsolated manuals t.1 t.2.1 t.2.2 with
  | error e => simp [hfound, bind, Except.bind]
  | ok found => cases found <;> simp [hfound, bind, Except.bind, pure, Except.pure]

/-- **`split_cycles` divides what it can read.** -/
theorem splitCycles_divides_iff (observations : List (Observation α)) (manuals : List (Manual α)) :
    (∃ groups, splitCycles observations manuals = .ok groups ∧
      Divides (timeline (ordered observations) manuals) groups) ↔ Readable observations := by
  rw [← isolated_ok_iff, splitCycles]
  cases hisolated : isolated manuals (ordered observations) with
  | error e => simp [bind, Except.bind]
  | ok ids =>
    simpa [bind, Except.bind, pure, Except.pure] using
      divides_foldl _ ids (timeline_sorted (ordered observations) manuals)

def tick (id : PyStr) (at_ used : ℤ) (reset : Option ℤ) : Observation ℤ :=
  { id, at_, used, reset, account := .str (py "a"), minutes := 10080, source := .str (py "local") }

/-- A spike after an observation without a reset time raises. -/
theorem spike_without_reset_raises :
    splitCycles [tick (py "1") 100 10 none, tick (py "2") 200 12 (some 1000),
      tick (py "3") 300 10 (some 1000)] [] = .error .typeError := by
  have hordered : ordered [tick (py "1") 100 10 none, tick (py "2") 200 12 (some 1000),
      tick (py "3") 300 10 (some 1000)] = [tick (py "1") 100 10 none,
        tick (py "2") 200 12 (some 1000), tick (py "3") 300 10 (some 1000)] :=
    mergeSort_of_pairwise (by decide +kernel)
  rw [splitCycles, hordered]
  rfl

end SplitCycles

end Codexon
