import Codexon.QueryActor

/-!
# Codexon.QueryActor.Requests

The latest request of each kind is in one place, in every state before stopping.
-/

namespace Codexon.QueryActor

open List Dict

variable {μ ρ : Type}

/-! ## what was requested -/

abbrev Requested := Nat × (Kind → Option Nat)

def request (r : Requested) : Event μ ρ → Requested
  | .submit kind _ => (r.1 + 1, Function.update r.2 kind (some (r.1 + 1)))
  | .cancel none => (r.1, fun _ => none)
  | .cancel (some kind) => (r.1, Function.update r.2 kind none)
  | _ => r

/-- The serial of the latest request of a kind, unless it was cancelled. -/
def lastRequest (events : List (Event μ ρ)) (kind : Kind) : Option Nat :=
  (events.foldl request (0, fun _ => none)).2 kind

/-! ## the invariant -/

/-- The request was answered: its answer waits or was drained. -/
def Finished (s : Actor μ ρ) (serial : Nat) : Prop :=
  (∃ kind done, s.completed.get? (.kind kind) = some done ∧ done.serial = serial) ∨
    (s.overlayCompleted.get? serial).isSome ∨ serial ∈ s.drained

structure Sound (r : Requested) (s : Actor μ ρ) : Prop where
  serial : s.serial = r.1
  latest : ∀ kind, s.latest.get? kind = r.2 kind
  bound : ∀ kind n, r.2 kind = some n → n ≤ s.serial
  apart : ∀ kind kind' n, r.2 kind = some n → r.2 kind' = some n → kind = kind'
  pending : ∀ kind n m, s.pending.get? kind = some (n, m) → r.2 kind = some n ∧ ¬ Finished s n
  active : ∀ a, s.active = some a → a.serial ≤ s.serial ∧ ¬ Finished s a.serial ∧
    (a.cancelled = false → r.2 a.kind = some a.serial ∧ s.pending.get? a.kind = none) ∧
    (a.cancelled = true → r.2 a.kind = some a.serial →
      ∃ m, s.pending.get? a.kind = some (a.serial, m))
  answered : ∀ kind done, s.completed.get? (.kind kind) = some done →
    r.2 kind = some done.serial ∧ s.overlayCompleted.get? done.serial = none ∧
      done.serial ∉ s.drained
  detail : ∀ n e, s.overlayCompleted.get? n = some e → n ∉ s.drained ∧ e.2 ≤ resultBytes ∧
    (∀ kind, r.2 kind = some n → kind = .overlayDetail) ∧ ∃ l, r.2 .overlayDetail = some l ∧ n ≤ l
  drained : ∀ n ∈ s.drained, n ≤ s.serial
  nodup : s.drained.Nodup
  placed : ∀ kind n, r.2 kind = some n → (∃ m, s.pending.get? kind = some (n, m)) ∨
    (∃ a, s.active = some a ∧ a.kind = kind ∧ a.serial = n ∧ a.cancelled = false) ∨ Finished s n
  progress : ∀ done, s.completed.get? .progress = some done → r.2 .query = some done.serial ∧
    ((∃ m, s.pending.get? .query = some (done.serial, m)) ∨
      ∃ a, s.active = some a ∧ a.kind = .query ∧ a.serial = done.serial)
  bytes : s.overlayCompletedBytes = (s.overlayCompleted.entries.map fun e => e.2.2).sum
  evicted : ∀ e ∈ s.evicted, e.1 < e.2
  pipe : s.pipe = if s.signalled then 1 else 0
  wake : s.signalled = false → s.completed.entries = [] ∧ s.overlayCompleted.entries = []

theorem sound_init : Sound (0, fun _ => none) ({} : Actor μ ρ) := by
  constructor <;> simp [Dict.get?]

/-! ## the dispatcher -/

variable {r : Requested} {s : Actor μ ρ}

theorem finished_le (hs : Sound r s) {n : Nat} (h : Finished s n) : n ≤ s.serial := by
  rcases h with ⟨kind, done, hdone, rfl⟩ | hover | hdrained
  · exact hs.bound kind _ (hs.answered kind done hdone).1
  · obtain ⟨e, he⟩ := Option.isSome_iff_exists.mp hover
    obtain ⟨-, -, -, l, hl, hle⟩ := hs.detail n e he
    exact Nat.le_trans hle (hs.bound _ l hl)
  · exact hs.drained n hdrained

theorem entries_erase {κ ν : Type} [DecidableEq κ] {d : Dict κ ν} (k : κ) (h : d.entries = []) :
    (d.erase k).entries = [] := by
  simp [Dict.erase, h]

/-- What `submit` does to the requests: another request of its kind is cancelled, a query
may be cancelled and put back. -/
theorem submit_cases (s : Actor μ ρ) (hrun : s.stopping = false) (kind : Kind) (message : μ) :
    ∃ pending active, submit s kind message = { s with
        serial := s.serial + 1
        latest := s.latest.set kind (s.serial + 1)
        completed := if kind = .query then (s.completed.erase (.kind kind)).erase .progress
          else s.completed.erase (.kind kind)
        pending
        active } ∧
      pending.get? kind = some (s.serial + 1, message) ∧
      ((active = s.active ∧ (∀ a, s.active = some a → a.kind ≠ kind) ∧
          ∀ k ≠ kind, pending.get? k = s.pending.get? k) ∨
        ∃ a, s.active = some a ∧ active = some { a with cancelled := true } ∧
          ∀ k ≠ kind, pending.get? k =
            if k = a.kind ∧ s.latest.get? k = some a.serial ∧ s.pending.get? k = none then
              some (a.serial, a.message)
            else s.pending.get? k) := by
  simp only [submit, hrun, Bool.false_eq_true, if_false]
  cases ha : s.active with
  | none =>
    refine ⟨_, none, rfl, ?_, .inl ⟨rfl, by simp, ?_⟩⟩ <;> grind [get?_set, get?_erase]
  | some a =>
    by_cases hkind : a.kind = kind
    · refine ⟨_, _, if_pos hkind, ?_, .inr ⟨a, rfl, rfl, ?_⟩⟩ <;>
        grind [get?_set, get?_erase]
    · by_cases hinterrupts : kind.interrupts ∧ a.kind = .query
      · refine ⟨_, _, (if_neg hkind).trans (if_pos hinterrupts), ?_, .inr ⟨a, rfl, rfl, ?_⟩⟩ <;>
          grind [get?_set, get?_erase, Option.isNone_iff_eq_none]
      · refine ⟨_, _, (if_neg hkind).trans (if_neg hinterrupts), ?_, .inl ⟨rfl, ?_, ?_⟩⟩ <;>
          grind [get?_set, get?_erase]

theorem sound_submit (hs : Sound r s) (hrun : s.stopping = false) (kind : Kind) (message : μ) :
    Sound (request r (.submit kind message : Event μ ρ)) (submit s kind message) := by
  have hle := fun n => finished_le hs (n := n)
  obtain ⟨hserial, hlatest, hbound, hapart, hpending, hactive, hanswered, hdetail, hdrained, hnodup,
    hplaced, hprogress, hbytes, hevicted, hpipe, hwake⟩ := hs
  obtain ⟨pending, active, heq, hkind, hothers⟩ := submit_cases s hrun kind message
  simp only [heq, request]
  refine ⟨?_, ?_, ?_, ?_, ?_, ?_, ?_, ?_, ?_, hnodup, ?_, ?_, hbytes, hevicted, hpipe, ?_⟩
  · grind
  · grind [get?_set]
  · grind
  · grind
  · grind [Finished, get?_set, get?_erase]
  · grind [Finished, get?_set, get?_erase]
  · grind [Finished, get?_set, get?_erase]
  · grind [Finished, get?_set, get?_erase]
  · grind
  · grind [Finished, get?_set, get?_erase]
  · grind [Finished, get?_set, get?_erase]
  · grind [entries_erase]

def cancelOne (s : Actor μ ρ) (kind : Kind) : Actor μ ρ :=
  { cancelKind s kind with
    active := s.active.map fun a => if a.kind = kind then { a with cancelled := true } else a }

theorem cancel_some (s : Actor μ ρ) (kind : Kind) : cancel s (some kind) = cancelOne s kind := by
  simp [cancel, cancelOne, cancelKind]

theorem cancel_none (s : Actor μ ρ) : cancel s none = kinds.foldl cancelOne s := by
  cases ha : s.active with
  | none => simp [cancel, kinds, cancelOne, cancelKind, ha]
  | some a => cases hk : a.kind <;> simp [cancel, kinds, cancelOne, cancelKind, ha, hk]

theorem request_none (r : Requested) : request r (.cancel none : Event μ ρ) =
    kinds.foldl (fun r kind => request r (.cancel (some kind) : Event μ ρ)) r := by
  simp only [request, kinds, foldl_cons, foldl_nil, Prod.mk.injEq, true_and]
  funext kind
  cases kind <;> simp [Function.update]

theorem sound_cancelOne (hs : Sound r s) (kind : Kind) :
    Sound (request r (.cancel (some kind) : Event μ ρ)) (cancelOne s kind) := by
  obtain ⟨hserial, hlatest, hbound, hapart, hpending, hactive, hanswered, hdetail, hdrained, hnodup,
    hplaced, hprogress, hbytes, hevicted, hpipe, hwake⟩ := hs
  have hempty : ∀ n, (({} : Dict Nat (Done ρ × Int))).get? n = none := fun _ => rfl
  simp only [request, cancelOne, cancelKind]
  refine ⟨hserial, ?_, ?_, ?_, ?_, ?_, ?_, ?_, hdrained, hnodup, ?_, ?_, ?_, hevicted, hpipe, ?_⟩
  · grind [get?_erase]
  · grind
  · grind
  · grind [Finished, get?_erase]
  · intro a ha
    obtain ⟨a', ha', rfl⟩ := Option.map_eq_some_iff.mp ha
    have := hactive a' ha'
    by_cases hk : a'.kind = kind <;> grind [Finished, get?_erase]
  · grind [Finished, get?_erase]
  · grind [Finished, get?_erase]
  · intro k n hk
    have hne : k ≠ kind := by grind
    rcases hplaced k n (by grind) with h | ⟨a, ha, hkind, hn, hc⟩ | h
    · grind [get?_erase]
    · exact .inr (.inl ⟨a, by grind, hkind, hn, hc⟩)
    · refine .inr (.inr ?_)
      rcases h with ⟨kind', done, hdone, hn⟩ | hover | hdrained
      · exact .inl ⟨kind', done, by grind [get?_erase], hn⟩
      · obtain ⟨e, he⟩ := Option.isSome_iff_exists.mp hover
        have hover' : k = .overlayDetail := (hdetail n e he).2.2.1 k (by grind)
        have hkind : kind ≠ .overlayDetail := by grind
        exact .inr (.inl (by simpa [hkind] using hover))
      · exact .inr (.inr hdrained)
  · intro done hdone
    have hne : kind ≠ .query := by grind [get?_erase]
    obtain ⟨hq, h | ⟨a, ha, hkind, hn⟩⟩ := hprogress done (by grind [get?_erase])
    · grind [get?_erase]
    · exact ⟨by grind, .inr ⟨a, by grind, hkind, hn⟩⟩
  · by_cases hk : kind = .overlayDetail <;> simp [hk, hbytes]
  · grind [entries_erase]

theorem sound_cancel (hs : Sound r s) (kind : Option Kind) :
    Sound (request r (.cancel kind : Event μ ρ)) (cancel s kind) := by
  cases kind with
  | none =>
    rw [cancel_none, request_none]
    generalize kinds = items
    induction items generalizing r s with
    | nil => exact hs
    | cons kind items ih => exact ih (sound_cancelOne hs kind)
  | some kind => exact cancel_some s kind ▸ sound_cancelOne hs kind

theorem nodup_answers (hs : Sound r s) : (answers s.completed.entries).Nodup := by
  rw [answers, List.Nodup, pairwise_filterMap]
  have hkeys := pairwise_map.mp s.completed.nodup
  refine hkeys.imp_of_mem fun {e e'} he he' hne n hn n' hn' => ?_
  obtain ⟨slot, done⟩ := e
  obtain ⟨slot', done'⟩ := e'
  have hget := get?_eq_some.mpr he
  have hget' := get?_eq_some.mpr he'
  cases slot <;> cases slot' <;> simp_all
  have := (hs.answered _ _ hget).1
  have := (hs.answered _ _ hget').1
  have := hs.apart
  grind

theorem mem_answers {n : Nat} : n ∈ answers s.completed.entries ↔
    ∃ kind done, s.completed.get? (.kind kind) = some done ∧ done.serial = n := by
  rw [answers, mem_filterMap]
  constructor
  · rintro ⟨⟨slot, done⟩, he, hn⟩
    cases slot with
    | kind kind => exact ⟨kind, done, get?_eq_some.mpr he, by simpa using hn⟩
    | progress => simp at hn
    | fatal => simp at hn
  · rintro ⟨kind, done, hget, rfl⟩
    exact ⟨(.kind kind, done), get?_eq_some.mp hget, rfl⟩

theorem mem_details {n : Nat} :
    n ∈ s.overlayCompleted.entries.map Prod.fst ↔ (s.overlayCompleted.get? n).isSome :=
  mem_keys_iff

theorem finished_drain {n : Nat} : Finished (drain s) n ↔ Finished s n := by
  have hslot : ∀ slot, (({} : Dict Slot (Done ρ))).get? slot = none := fun _ => rfl
  have hdetail : ∀ n, (({} : Dict Nat (Done ρ × Int))).get? n = none := fun _ => rfl
  simp only [Finished, drain, mem_append, mem_answers, mem_details, hslot, hdetail]
  grind

theorem sound_drain (hs : Sound r s) : Sound (request r (.drain : Event μ ρ)) (drain s) := by
  have hfinished := fun n => finished_drain (s := s) (n := n)
  have hle := fun n => finished_le hs (n := n)
  refine ⟨hs.serial, hs.latest, hs.bound, hs.apart, fun kind n m h => ?_, fun a ha => ?_,
    fun _ _ h => (nomatch h), fun _ _ h => (nomatch h), fun n hn => ?_, ?_, fun kind n h => ?_,
    fun _ h => (nomatch h), rfl, hs.evicted, ?_, fun _ => ⟨rfl, rfl⟩⟩
  · rw [hfinished]
    exact hs.pending kind n m h
  · rw [hfinished]
    exact hs.active a ha
  · exact hle n ((hfinished n).mp (.inr (.inr hn)))
  · have hanswers := nodup_answers hs
    have hdetails := s.overlayCompleted.nodup
    simp only [drain, nodup_append]
    refine ⟨⟨hs.nodup, hanswers, fun a ha b hb => ?_⟩, hdetails, fun a ha b hb => ?_⟩
    · obtain ⟨kind, done, hdone, rfl⟩ := mem_answers.mp hb
      have := (hs.answered kind done hdone).2.2
      grind
    · rw [mem_details, Option.isSome_iff_exists] at hb
      obtain ⟨e, he⟩ := hb
      have hdetail := (hs.detail b e he).1
      rintro rfl
      rcases mem_append.mp ha with ha | ha
      · exact hdetail ha
      · obtain ⟨kind, done, hdone, rfl⟩ := mem_answers.mp ha
        have := (hs.answered kind done hdone).2.1
        grind
  · have := hs.placed kind n h
    rwa [hfinished]
  · have := hs.pipe
    simp only [drain]
    grind

/-! ## the thread -/

theorem sound_take (hs : Sound r s) : Sound (request r (.take : Event μ ρ)) (take s) := by
  have hsame : request r (.take : Event μ ρ) = r := rfl
  rw [take, hsame]
  split
  · exact hs
  next hidle =>
    split
    · exact hs
    next kind hnext =>
      split
      · exact hs
      next serial message hpending =>
        obtain ⟨hserial, hlatest, hbound, hapart, hpend, hactive, hanswered, hdetail, hdrained,
          hnodup, hplaced, hprogress, hbytes, hevicted, hpipe, hwake⟩ := hs
        have hnone : s.active = none := by simpa using (not_or.mp hidle).2
        refine ⟨hserial, hlatest, hbound, hapart, ?_, ?_, hanswered, hdetail, hdrained, hnodup, ?_,
          ?_, hbytes, hevicted, hpipe, hwake⟩
        · grind [Finished, get?_erase]
        · grind [Finished, get?_erase]
        · grind [Finished, get?_erase]
        · grind [Finished, get?_erase]

theorem signal_cases (s : Actor μ ρ) : s.signal = { s with
    signalled := true, pipe := if s.signalled then s.pipe else s.pipe + 1 } := by
  obtain ⟨_, _, _, _, _, _, _, _, signalled, _, _, _⟩ := s
  cases signalled <;> rfl

theorem sound_progress (hs : Sound r s) :
    Sound (request r (.progress : Event μ ρ)) (progress s) := by
  have hsame : request r (.progress : Event μ ρ) = r := rfl
  rw [progress, hsame]
  split
  · exact hs
  next active hactive' =>
    split
    · exact hs
    next hreport =>
      rw [signal_cases]
      obtain ⟨hserial, hlatest, hbound, hapart, hpend, hactive, hanswered, hdetail, hdrained,
        hnodup, hplaced, hprogress, hbytes, hevicted, hpipe, hwake⟩ := hs
      refine ⟨hserial, hlatest, hbound, hapart, ?_, ?_, ?_, hdetail, hdrained, hnodup, ?_, ?_,
        hbytes, hevicted, ?_, by simp⟩
      · grind [Finished, get?_set]
      · grind [Finished, get?_set]
      · grind [Finished, get?_set]
      · grind [Finished, get?_set]
      · grind [Finished, get?_set]
      · grind

theorem sound_dropped (hs : Sound r s) {a : Active μ}
    (ha : s.active = some a) (hdropped : a.cancelled ∨ s.latest.get? a.kind ≠ some a.serial) :
    Sound r { s with active := none } := by
  obtain ⟨hserial, hlatest, hbound, hapart, hpend, hactive, hanswered, hdetail, hdrained,
    hnodup, hplaced, hprogress, hbytes, hevicted, hpipe, hwake⟩ := hs
  refine ⟨hserial, hlatest, hbound, hapart, hpend, by simp, hanswered, hdetail, hdrained, hnodup,
    ?_, ?_, hbytes, hevicted, hpipe, hwake⟩
  · intro kind n hn
    rcases hplaced kind n hn with h | ⟨a', ha', hkind, hn', hc⟩ | h
    · exact .inl h
    · have := hactive a ha
      grind
    · exact .inr (.inr h)
  · intro done hdone
    obtain ⟨hq, h | ⟨a', ha', hkind, hn⟩⟩ := hprogress done hdone
    · exact ⟨hq, .inl h⟩
    · have := hactive a ha
      grind

theorem sound_store (hs : Sound r s) {a : Active μ}
    (ha : s.active = some a) (hc : a.cancelled = false) (value : Value ρ)
    {completed : Dict Slot (Done ρ)}
    (hcompleted : ∀ slot, completed.get? slot = if slot = .kind a.kind then some ⟨a.serial, value⟩
      else if a.kind = .query ∧ slot = .progress then none else s.completed.get? slot) :
    Sound r ({ s with active := none, completed } : Actor μ ρ).signal := by
  rw [signal_cases]
  obtain ⟨hserial, hlatest, hbound, hapart, hpend, hactive, hanswered, hdetail, hdrained,
    hnodup, hplaced, hprogress, hbytes, hevicted, hpipe, hwake⟩ := hs
  obtain ⟨hle, hfresh, hlive, -⟩ := hactive a ha
  obtain ⟨hnow, hnone⟩ := hlive hc
  refine ⟨hserial, hlatest, hbound, hapart, ?_, by simp, ?_, hdetail, hdrained, hnodup, ?_, ?_,
    hbytes, hevicted, ?_, by simp⟩
  · grind [Finished]
  · intro kind done hdone
    by_cases hk : kind = a.kind
    · have hnew : done = ⟨a.serial, value⟩ := by simpa [hcompleted, hk] using hdone.symm
      refine ⟨by grind, ?_, by grind [Finished]⟩
      rw [hnew, ← Option.not_isSome_iff_eq_none]
      exact fun h => hfresh (.inr (.inl h))
    · exact hanswered kind done (by simpa [hcompleted, hk] using hdone)
  · intro kind n hn
    rcases hplaced kind n hn with h | ⟨a', ha', hkind, hn', hc'⟩ | h
    · exact .inl h
    · exact .inr (.inr (.inl ⟨a.kind, ⟨a.serial, value⟩, by simp [hcompleted], by grind⟩))
    · refine .inr (.inr ?_)
      rcases h with ⟨kind', done, hdone, hn⟩ | h
      · have hother : kind' ≠ a.kind := by
          have := (hanswered kind' done hdone).1
          have := fun h => hfresh (.inl ⟨kind', done, hdone, h⟩)
          grind
        exact .inl ⟨kind', done, by simp [hcompleted, hother, hdone], hn⟩
      · exact .inr h
  · grind
  · grind

/-! ### overlay details -/

theorem evictions_le (old : List (Nat × Done ρ × Int)) (e : Nat × Done ρ × Int) {bytes : Int}
    (hbytes : bytes = ((old ++ [e]).map fun e => e.2.2).sum) (hsize : e.2.2 ≤ resultBytes) :
    evictions (old ++ [e]) bytes ≤ old.length := by
  induction old generalizing bytes with
  | nil =>
    simp only [nil_append, map_cons, map_nil, sum_cons, sum_nil] at hbytes
    have hlimit : ¬ (overlayCompletions < [e].length ∨ resultBytes < bytes) := by
      simp [overlayCompletions]
      omega
    simp only [nil_append, evictions, hlimit, if_false, Nat.zero_le]
  | cons x old ih =>
    rw [cons_append, evictions]
    split
    · have hrest : bytes - x.2.2 = ((old ++ [e]).map fun e => e.2.2).sum := by
        simp only [cons_append, map_cons, sum_cons] at hbytes
        omega
      simpa using ih hrest
    · simp

theorem get?_dropFirst {κ ν : Type} [DecidableEq κ] {d : Dict κ ν} {n : Nat} {k : κ} {v : ν} :
    (dropFirst d n).get? k = some v ↔ (k, v) ∈ d.entries.drop n := get?_eq_some

theorem sound_storeDetail (hs : Sound r s) {a : Active μ}
    (ha : s.active = some a) (hc : a.cancelled = false) (hkind : a.kind = .overlayDetail)
    (result : ρ) {size : Int} (hsize : size ≤ resultBytes) :
    Sound r (storeDetail { s with active := none } a.serial result size).signal := by
  rw [signal_cases]
  obtain ⟨hserial, hlatest, hbound, hapart, hpend, hactive, hanswered, hdetail, hdrained,
    hnodup, hplaced, hprogress, hbytes, hevicted, hpipe, hwake⟩ := hs
  obtain ⟨hle, hfresh, hlive, -⟩ := hactive a ha
  obtain ⟨hnow, hnone⟩ := hlive hc
  have hnew : a.serial ∉ s.overlayCompleted.entries.map Prod.fst := by
    rw [mem_details]
    exact fun h => hfresh (.inr (.inl h))
  have hentries := entries_set_of_not_mem (v := (⟨a.serial, .result result⟩, size)) hnew
  have hsum : s.overlayCompletedBytes + size = ((s.overlayCompleted.entries ++
      [(a.serial, (⟨a.serial, .result result⟩ : Done ρ), size)]).map fun e => e.2.2).sum := by
    simp [hbytes]
  have hcount := evictions_le s.overlayCompleted.entries
    (a.serial, ⟨a.serial, .result result⟩, size) hsum hsize
  simp only [storeDetail, hentries]
  generalize hn : evictions (s.overlayCompleted.entries ++
    [(a.serial, (⟨a.serial, .result result⟩ : Done ρ), size)])
    (s.overlayCompletedBytes + size) = n at hcount ⊢
  have hget : ∀ m e, (dropFirst (s.overlayCompleted.set a.serial
      (⟨a.serial, .result result⟩, size)) n).get? m = some e →
      m = a.serial ∧ e.2 = size ∨ s.overlayCompleted.get? m = some e := by
    intro m e h
    rw [get?_dropFirst, hentries] at h
    rcases mem_append.mp (mem_of_mem_drop h) with h | h
    · exact .inr (get?_eq_some.mpr h)
    · grind
  have hstays : ((dropFirst (s.overlayCompleted.set a.serial
      (⟨a.serial, .result result⟩, size)) n).get? a.serial).isSome := by
    rw [Option.isSome_iff_exists]
    refine ⟨(⟨a.serial, .result result⟩, size), get?_dropFirst.mpr ?_⟩
    rw [hentries, drop_append_of_le_length hcount]
    simp
  generalize hoverlay : dropFirst (s.overlayCompleted.set a.serial
    (⟨a.serial, .result result⟩, size)) n = overlay at hget hstays
  have hentries' : overlay.entries = (s.overlayCompleted.entries ++
      [(a.serial, (⟨a.serial, .result result⟩ : Done ρ), size)]).drop n := by
    rw [← hoverlay]
    exact congrArg (List.drop n) hentries
  refine ⟨hserial, hlatest, hbound, hapart, ?_, by simp, ?_, ?_, hdrained, hnodup, ?_, ?_,
    ?_, ?_, ?_, by simp⟩
  · intro kind m message hm
    refine ⟨(hpend kind m message hm).1, fun hfinished => ?_⟩
    have hother := (hpend kind m message hm).2
    rcases hfinished with h | h | h
    · exact hother (.inl h)
    · obtain ⟨e, he⟩ := Option.isSome_iff_exists.mp h
      grind [Finished]
    · exact hother (.inr (.inr h))
  · intro kind done hdone
    obtain ⟨hr, hover, hdr⟩ := hanswered kind done hdone
    refine ⟨hr, ?_, hdr⟩
    cases he : overlay.get? done.serial with
    | none => rfl
    | some e => grind [Finished]
  · intro m e he
    rcases hget m e he with ⟨rfl, hsize'⟩ | he
    · refine ⟨fun h => hfresh (.inr (.inr h)), hsize' ▸ hsize, fun kind h => ?_, a.serial, ?_⟩
      · exact (hapart kind a.kind a.serial h hnow).trans hkind
      · grind
    · exact hdetail m e he
  · intro kind m hm
    rcases hplaced kind m hm with h | ⟨a', ha', hkind', hn', hc'⟩ | h | h | h
    · exact .inl h
    · exact .inr (.inr (.inr (.inl (by grind))))
    · exact .inr (.inr (.inl h))
    · obtain ⟨e, he⟩ := Option.isSome_iff_exists.mp h
      have := (hdetail m e he).2.2.1 kind hm
      grind [Finished]
    · exact .inr (.inr (.inr (.inr h)))
  · intro done hdone
    obtain ⟨hq, h | ⟨a', ha', hkind', hn'⟩⟩ := hprogress done hdone
    · exact ⟨hq, .inl h⟩
    · grind
  · have := congrArg (fun es : List (Nat × Done ρ × Int) => (es.map fun e => e.2.2).sum)
      (take_append_drop n (s.overlayCompleted.entries ++
        [(a.serial, (⟨a.serial, .result result⟩ : Done ρ), size)]))
    simp only [map_append, sum_append] at this
    simp only [hentries', hbytes]
    simp only [map_cons, map_nil, sum_cons, sum_nil] at this ⊢
    omega
  · intro e he
    rcases mem_append.mp he with he | he
    · exact hevicted e he
    · obtain ⟨e', he', rfl⟩ := List.mem_map.mp he
      rw [take_append_of_le_length hcount] at he'
      have hold := get?_eq_some.mpr (mem_of_mem_take he')
      obtain ⟨-, -, -, l, hl, hle'⟩ := hdetail e'.1 e'.2 hold
      have hne : e'.1 ≠ a.serial := fun h => hfresh (.inr (.inl (by simp [← h, hold])))
      have : l = a.serial := by grind
      show e'.1 < a.serial
      omega
  · grind

theorem sound_finish (hs : Sound r s) (hrun : s.stopping = false)
    (outcome : Outcome ρ) : Sound (request r (.finish outcome : Event μ ρ)) (finish s outcome) := by
  have hsame : request r (.finish outcome : Event μ ρ) = r := rfl
  rw [finish, hsame]
  cases ha : s.active with
  | none => exact hs
  | some a =>
    simp only [hrun, Bool.false_eq_true, if_false]
    by_cases hdropped : a.cancelled ∨ s.latest.get? a.kind ≠ some a.serial
    · rw [if_pos hdropped]
      simpa only [hrun] using sound_dropped hs ha hdropped
    · rw [if_neg hdropped]
      have hc : a.cancelled = false := by grind
      have hstore : ∀ value, Sound r ({ s with
          active := none
          completed := (if a.kind = .query then s.completed.erase .progress
            else s.completed).set (.kind a.kind) ⟨a.serial, value⟩ } : Actor μ ρ).signal :=
        fun value => sound_store hs ha hc value fun slot => by
          by_cases hq : a.kind = .query <;> simp [hq, get?_set, get?_erase]
      cases outcome with
      | raised => simpa only [hrun] using hstore .error
      | returned result detail size =>
        by_cases hlarge : resultBytes < (size : Int)
        · simpa only [hrun, hlarge, if_true] using hstore .error
        · by_cases hdetail : a.kind = Kind.overlayDetail ∧ detail
          · have := sound_storeDetail hs ha hc hdetail.1 result (Int.not_lt.mp hlarge)
            simpa [hlarge, hdetail, hrun] using this
          · simpa only [hrun, hlarge, hdetail, if_false] using hstore (.result result)

/-! ## runs -/

theorem stopping_step (h : s.stopping = true) (event : Event μ ρ) :
    (step s event).stopping = true := by
  have hsignal : ∀ s : Actor μ ρ, s.signal.stopping = s.stopping := fun s => by
    rw [signal_cases]
  cases event with
  | submit kind message => simp [step, submit, h]
  | cancel kind =>
    have hkind : ∀ (items : List Kind) (s : Actor μ ρ),
        (items.foldl cancelKind s).stopping = s.stopping := by
      intro items
      induction items with
      | nil => exact fun _ => rfl
      | cons kind items ih => exact fun s => ih (cancelKind s kind)
    exact (hkind _ s).trans h
  | drain => exact h
  | close => rfl
  | take => simp [step, take, h]
  | progress =>
    rw [step, progress]
    split
    · exact h
    · simp [h]
  | finish outcome =>
    rw [step, finish]
    split
    · exact h
    · simp [h]
  | fail => simp [step, fail, hsignal]

/-- **One event** keeps the invariant, or stops the actor. -/
theorem step_sound (hs : Sound r s) (hrun : s.stopping = false) (event : Event μ ρ) :
    (step s event).stopping = true ∨ Sound (request r event) (step s event) := by
  cases event with
  | submit kind message => exact .inr (sound_submit hs hrun kind message)
  | cancel kind => exact .inr (sound_cancel hs kind)
  | drain => exact .inr (sound_drain hs)
  | close => exact .inl rfl
  | take => exact .inr (sound_take hs)
  | progress => exact .inr (sound_progress hs)
  | finish outcome => exact .inr (sound_finish hs hrun outcome)
  | fail =>
    refine .inl ?_
    rw [step, fail, signal_cases]

theorem run_sound (events : List (Event μ ρ))
    (hrun : (run step ({} : Actor μ ρ) events).stopping = false) :
    Sound (events.foldl request (0, fun _ => none)) (run step ({} : Actor μ ρ) events) := by
  have h : ∀ (r : Requested) (s : Actor μ ρ), s.stopping = true ∨ Sound r s →
      (run step s events).stopping = true ∨ Sound (events.foldl request r) (run step s events) := by
    clear hrun
    induction events with
    | nil => exact fun _ _ h => h
    | cons event events ih =>
      intro r s h
      refine ih (request r event) (step s event) ?_
      rcases h with hstop | hs
      · exact .inl (stopping_step hstop event)
      · cases hrun : s.stopping with
        | true => exact .inl (stopping_step hrun event)
        | false => exact step_sound hs hrun event
  exact (h _ {} (.inr sound_init)).resolve_left (by simp [hrun])

/-- Where the latest request of a kind can be. -/
inductive Place where
  | pending
  | active
  | completed
  | drained

def Actor.holds (s : Actor μ ρ) (kind : Kind) (serial : Nat) : Place → Prop
  | .pending => ∃ message, s.pending.get? kind = some (serial, message)
  | .active => ∃ a, s.active = some a ∧ a.kind = kind ∧ a.serial = serial ∧ a.cancelled = false
  | .completed => (∃ done, s.completed.get? (.kind kind) = some done ∧ done.serial = serial) ∨
      kind = .overlayDetail ∧ (s.overlayCompleted.get? serial).isSome
  | .drained => s.drained.count serial = 1

theorem holds_unique (hs : Sound r s) {kind : Kind} {serial : Nat}
    (hlast : r.2 kind = some serial) : ∃! place, s.holds kind serial place := by
  have hfinished : s.holds kind serial .completed ∨ s.holds kind serial .drained →
      Finished s serial := by
    rintro ((⟨done, hdone, hn⟩ | ⟨-, h⟩) | h)
    · exact .inl ⟨kind, done, hdone, hn⟩
    · exact .inr (.inl h)
    · exact .inr (.inr (count_pos_iff.mp (by rw [h]; decide)))
  have hpending : s.holds kind serial .pending → ¬ s.holds kind serial .active ∧
      ¬ Finished s serial := by
    rintro ⟨m, hm⟩
    refine ⟨?_, (hs.pending kind serial m hm).2⟩
    rintro ⟨a, ha, rfl, -, hc⟩
    have := ((hs.active a ha).2.2.1 hc).2
    grind
  have hactive : s.holds kind serial .active → ¬ Finished s serial := by
    rintro ⟨a, ha, -, rfl, -⟩
    exact (hs.active a ha).2.1
  have hdrained : s.holds kind serial .drained → ¬ s.holds kind serial .completed := by
    intro h
    have hmem : serial ∈ s.drained := count_pos_iff.mp (by rw [h]; decide)
    rintro (⟨done, hdone, rfl⟩ | ⟨-, hover⟩)
    · exact (hs.answered kind done hdone).2.2 hmem
    · obtain ⟨e, he⟩ := Option.isSome_iff_exists.mp hover
      exact (hs.detail serial e he).1 hmem
  have hplaced : ∃ place, s.holds kind serial place := by
    rcases hs.placed kind serial hlast with h | h | ⟨kind', done, hdone, hn⟩ | hover | h
    · exact ⟨.pending, h⟩
    · exact ⟨.active, h⟩
    · have hkind : kind' = kind :=
        hs.apart _ _ _ (hn ▸ (hs.answered kind' done hdone).1) hlast
      exact ⟨.completed, .inl ⟨done, hkind ▸ hdone, hn⟩⟩
    · obtain ⟨e, he⟩ := Option.isSome_iff_exists.mp hover
      exact ⟨.completed, .inr ⟨(hs.detail serial e he).2.2.1 kind hlast, hover⟩⟩
    · exact ⟨.drained, count_eq_one_of_mem hs.nodup h⟩
  obtain ⟨place, hplace⟩ := hplaced
  refine ⟨place, hplace, fun other hother => ?_⟩
  cases place <;> cases other <;> first | rfl | (exfalso; grind)

/-- **The latest request of a kind is in one place**, before the actor stops: it is
pending, active without being cancelled, completed or drained once.  Only the latest
result of a kind is stored, a progress report does not outlive its query, and the pipe
holds one byte when `signalled` is set. -/
theorem latest_request_placed (events : List (Event μ ρ))
    (hrun : (run step ({} : Actor μ ρ) events).stopping = false) :
    let s := run step ({} : Actor μ ρ) events
    (∀ kind serial, lastRequest events kind = some serial → ∃! place, s.holds kind serial place) ∧
      (∀ kind done, s.completed.get? (.kind kind) = some done →
        lastRequest events kind = some done.serial) ∧
      (∀ done, s.completed.get? .progress = some done →
        lastRequest events .query = some done.serial ∧
          (s.holds .query done.serial .pending ∨
            ∃ a, s.active = some a ∧ a.kind = .query ∧ a.serial = done.serial)) ∧
      s.drained.Nodup ∧ (∀ e ∈ s.evicted, e.1 < e.2) ∧
      s.pipe = (if s.signalled then 1 else 0) ∧ (s.values ≠ [] → s.signalled = true) := by
  have hs := run_sound events hrun
  refine ⟨fun kind serial hlast => holds_unique hs hlast,
    fun kind done hdone => (hs.answered kind done hdone).1, hs.progress, hs.nodup, hs.evicted,
    hs.pipe, fun hvalues => ?_⟩
  by_contra hquiet
  have hempty := hs.wake (by simpa using hquiet)
  exact hvalues (by simp [Actor.values, hempty])

/-- A detail interrupts the query, which reports progress and is put back. -/
theorem latest_request_placed_interrupted :
    let events : List (Event Unit Nat) := [.submit .query (), .take, .progress,
      .submit .overlayDetail (), .finish (.returned 1 false 10), .take,
      .finish (.returned 2 true 10)]
    ∃! place, (run step ({} : Actor Unit Nat) events).holds .query 1 place := by
  exact (latest_request_placed [.submit .query (), .take, .progress,
    .submit .overlayDetail (), .finish (.returned 1 false 10), .take,
    .finish (.returned 2 true 10)] (by decide +kernel)).1 .query 1 (by decide +kernel)

end Codexon.QueryActor
