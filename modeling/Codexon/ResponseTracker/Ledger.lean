import Codexon.ResponseTracker

/-!
# Codexon.ResponseTracker.Ledger

The tracker as a ledger: every attempt has one place and one record there
(`Kept.holds`), and what the store was told of a record stays true of it
(`Kept.follows`).  A call replaces the entry of one attempt (`Kept.update`), but for
`finish`, which drops them all.
-/

namespace Codexon.ResponseTracker

/-! ## records through the calls -/

@[simp] theorem marked_attempt (env : Env) (record : Record) :
    (marked env record).attempt = record.attempt := by
  simp only [marked]
  split <;> rfl

@[simp] theorem marked_status (env : Env) (record : Record) :
    (marked env record).status = record.status := by
  simp only [marked]
  split <;> rfl

@[simp] theorem marked_responseId (env : Env) (record : Record) :
    (marked env record).responseId = record.responseId := by
  simp only [marked]
  split <;> rfl

theorem responseEffort_keeps (response : Members) (record : Record) :
    (responseEffort response record).1.attempt = record.attempt ∧
      (responseEffort response record).1.status = record.status ∧
      (responseEffort response record).1.responseId = record.responseId := by
  simp only [responseEffort]
  split
  · exact ⟨rfl, rfl, rfl⟩
  · split <;> exact ⟨rfl, rfl, rfl⟩

theorem absorb_keeps (rid : PyStr) (response : Members) (record : Record) :
    (absorb rid response record).attempt = record.attempt ∧
      (absorb rid response record).status = record.status ∧
      (absorb rid response record).responseId = rid := by
  have heffort := responseEffort_keeps response { record with responseId := rid }
  simp only [absorb]
  split
  · split
    · split <;> exact heffort
    · exact heffort
  · split
    · split <;> exact heffort
    · exact heffort

/-! ## the maps -/

@[simp] theorem queue_setQueue (s : State) (lane lane' : PyStr) (records : List Record) :
    queue (setQueue s lane records) lane' = if lane' = lane then records else queue s lane' := by
  simp only [queue, setQueue]
  split
  · rw [Dict.get?_erase]
    split <;> simp_all
  · rw [Dict.get?_set]
    split <;> simp_all

@[simp] theorem save_pending (env : Env) (finishing : Bool) (record : Record) (s : State) :
    (save env finishing record s).pending = s.pending := by
  simp only [save]
  split <;> rfl

@[simp] theorem save_active (env : Env) (finishing : Bool) (record : Record) (s : State) :
    (save env finishing record s).active = s.active := by
  simp only [save]
  split <;> rfl

@[simp] theorem save_completed (env : Env) (finishing : Bool) (record : Record) (s : State) :
    (save env finishing record s).completed = s.completed := by
  simp only [save]
  split <;> rfl

@[simp] theorem save_dropped (env : Env) (finishing : Bool) (record : Record) (s : State) :
    (save env finishing record s).dropped = s.dropped := by
  simp only [save]
  split <;> rfl

@[simp] theorem save_attempts (env : Env) (finishing : Bool) (record : Record) (s : State) :
    (save env finishing record s).attempts = s.attempts := by
  simp only [save]
  split <;> rfl

@[simp] theorem save_handed (env : Env) (finishing : Bool) (record : Record) (s : State) :
    (save env finishing record s).handed =
      if env.enabled then s.handed ++ [⟨record, finishing⟩] else s.handed := by
  simp only [save]
  split <;> rfl

@[simp] theorem save_requested (env : Env) (finishing : Bool) (record : Record) (s : State) :
    (save env finishing record s).requested = s.requested := by
  simp only [save]
  split <;> rfl

/-! ## the ledger -/

abbrev Ledger := Nat → Option (Place × Record)

/-- The record has its last status. -/
def Place.closed : Place → Prop
  | .completed _ | .dropped => True
  | .pending _ | .active _ => False

/-- A row the store was given still speaks of the record. -/
def Follows (row : Handed) (entry : Place × Record) : Prop :=
  (row.final → entry.1.closed ∧ entry.2.status = row.record.status) ∧
    (row.record.responseId ≠ [] → entry.2.responseId = row.record.responseId)

def Evolves (entry entry' : Place × Record) : Prop :=
  (entry.1.closed → entry'.1.closed ∧ entry'.2.status = entry.2.status) ∧
    (entry.2.responseId ≠ [] → entry'.2.responseId = entry.2.responseId)

def Agrees (row later : Handed) : Prop :=
  later.record.attempt = row.record.attempt →
    (row.final → later.record.status = row.record.status) ∧
      (row.record.responseId ≠ [] → later.record.responseId = row.record.responseId)

/-- A queued record has no response id, and an active one has none but its own. -/
def Owned : Place × Record → Prop
  | (.pending _, record) => record.responseId = []
  | (.active rid, record) => record.responseId = [] ∨ record.responseId = rid
  | (.completed _, _) | (.dropped, _) => True

theorem Follows.evolve {row : Handed} {entry entry' : Place × Record} (h : Follows row entry)
    (hevolves : Evolves entry entry') : Follows row entry' := by
  constructor
  · intro hfinal
    obtain ⟨hclosed, hstatus⟩ := h.1 hfinal
    obtain ⟨hclosed', hstatus'⟩ := hevolves.1 hclosed
    exact ⟨hclosed', hstatus'.trans hstatus⟩
  · intro hid
    have hsame := h.2 hid
    rw [← hsame]
    exact hevolves.2 (hsame ▸ hid)

/-- The state keeps the ledger. -/
structure Kept (s : State) (ledger : Ledger) : Prop where
  holds : ∀ place record, Holds s record place ↔ ledger record.attempt = some (place, record)
  own : ∀ attempt entry, ledger attempt = some entry → entry.2.attempt = attempt ∧ Owned entry
  placed : ∀ attempt, (ledger attempt).isSome ↔ attempt < s.attempts
  follows : ∀ row ∈ s.handed, ∃ entry, ledger row.record.attempt = some entry ∧ Follows row entry
  agrees : s.handed.Pairwise Agrees

theorem kept_init : Kept {} (fun _ => none) where
  holds place record := by cases place <;> simp [Holds, queue, Dict.get?]
  own _ _ h := nomatch h
  placed attempt := by simp
  follows _ h := nomatch h
  agrees := .nil

/-- What a call gives the store of the record: nothing, or a row of its new state. -/
def Tells (s s' : State) (entry : Place × Record) : Prop :=
  s'.handed = s.handed ∨ ∃ row, s'.handed = s.handed ++ [row] ∧
    row.record.attempt = entry.2.attempt ∧ row.record.status = entry.2.status ∧
    row.record.responseId = entry.2.responseId ∧ (row.final → entry.1.closed)

theorem tells_save (env : Env) (record : Record) {s s' : State} {place : Place}
    (finishing : Bool) (hhanded : s'.handed = (save env finishing record s).handed)
    (hfinal : record.status ∈ terminal ∨ finishing = true → place.closed) :
    Tells s s' (place, marked env record) := by
  simp only [save] at hhanded
  split at hhanded
  · exact .inr ⟨⟨record, finishing⟩, hhanded, by simp, by simp, by simp, hfinal⟩
  · exact .inl hhanded

/-- **One record moves**: a call that changes one record, new or old, at the place it
leaves and the place it enters, keeps the ledger. -/
theorem Kept.move {s s' : State} {ledger : Ledger} (h : Kept s ledger) (source : Place)
    (entry : Place × Record) (hframe : ∀ place record, place ≠ source → place ≠ entry.1 →
      (Holds s' record place ↔ Holds s record place))
    (hsource : source ≠ entry.1 → ∀ record, Holds s' record source ↔
      Holds s record source ∧ record.attempt ≠ entry.2.attempt)
    (htarget : ∀ record, Holds s' record entry.1 ↔
      record = entry.2 ∨ Holds s record entry.1 ∧ record.attempt ≠ entry.2.attempt)
    (hattempts : s'.attempts = s.attempts ∧ entry.2.attempt < s.attempts ∨
      s'.attempts = s.attempts + 1 ∧ entry.2.attempt = s.attempts) (howned : Owned entry)
    (hevolves : ∀ old, ledger entry.2.attempt = some old → old.1 = source ∧ Evolves old entry)
    (htells : Tells s s' entry) : ∃ ledger', Kept s' ledger' := by
  have hholds : ∀ place record, Holds s' record place ↔
      if record.attempt = entry.2.attempt then (place, record) = entry
      else Holds s record place := by
    intro place record
    by_cases htar : place = entry.1
    · subst htar
      rw [htarget]
      split
      · simp [Prod.ext_iff, *]
      · rename_i hother
        have hne : record ≠ entry.2 := fun heq => hother (by rw [heq])
        simp [hne, hother]
    · have hne : (place, record) ≠ entry := fun heq => htar (congrArg Prod.fst heq)
      by_cases hsrc : place = source
      · subst hsrc
        rw [hsource htar]
        split
        · simp [*]
        · simp [*]
      · rw [hframe place record hsrc htar]
        split
        · rename_i hsame
          simp only [hne, iff_false]
          intro hrecord
          rw [h.holds, hsame] at hrecord
          exact hsrc (hevolves _ hrecord).1
        · exact Iff.rfl
  refine ⟨Function.update ledger entry.2.attempt (some entry), ?_⟩
  have hold : ∀ row ∈ s.handed, ∃ e,
      Function.update ledger entry.2.attempt (some entry) row.record.attempt = some e ∧
        Follows row e := by
    intro row hrow
    obtain ⟨e, hledger, hfollows⟩ := h.follows row hrow
    by_cases hsame : row.record.attempt = entry.2.attempt
    · rw [hsame, Function.update_self]
      exact ⟨entry, rfl, hfollows.evolve (hevolves e (hsame ▸ hledger)).2⟩
    · rw [Function.update_of_ne hsame]
      exact ⟨e, hledger, hfollows⟩
  constructor
  · intro place record
    rw [hholds]
    by_cases hsame : record.attempt = entry.2.attempt
    · rw [hsame, Function.update_self, if_pos rfl, Option.some.injEq, eq_comm]
    · rw [Function.update_of_ne hsame, if_neg hsame]
      exact h.holds place record
  · intro attempt e he
    by_cases hsame : attempt = entry.2.attempt
    · rw [hsame, Function.update_self, Option.some.injEq] at he
      exact ⟨by rw [← he, hsame], he ▸ howned⟩
    · rw [Function.update_of_ne hsame] at he
      exact h.own attempt e he
  · intro attempt
    have hplaced := h.placed attempt
    by_cases hsame : attempt = entry.2.attempt
    · rw [hsame, Function.update_self]
      simp only [Option.isSome_some, true_iff]
      omega
    · rw [Function.update_of_ne hsame, hplaced]
      omega
  · intro row hrow
    rcases htells with hhanded | ⟨new, hhanded, hattempt, hstatus, hid, hfinal⟩
    · exact hold row (hhanded ▸ hrow)
    · rw [hhanded, List.mem_append, List.mem_singleton] at hrow
      rcases hrow with hrow | rfl
      · exact hold row hrow
      · rw [hattempt, Function.update_self]
        exact ⟨entry, rfl, fun h => ⟨hfinal h, hstatus.symm⟩, fun _ => hid.symm⟩
  · rcases htells with hhanded | ⟨new, hhanded, hattempt, hstatus, hid, hfinal⟩
    · rw [hhanded]
      exact h.agrees
    · rw [hhanded, List.pairwise_append]
      refine ⟨h.agrees, by simp, ?_⟩
      intro row hrow later hlater hsame
      rw [List.mem_singleton.mp hlater] at hsame ⊢
      obtain ⟨e, hledger, hfollows⟩ := hold row hrow
      rw [← hsame, hattempt, Function.update_self, Option.some.injEq] at hledger
      subst hledger
      constructor
      · intro h
        rw [hstatus, (hfollows.1 h).2]
      · intro h
        rw [hid, hfollows.2 h]

end Codexon.ResponseTracker
