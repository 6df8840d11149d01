import Mathlib.Tactic.Ring
import Codexon.EventStore.Tokens
import Codexon.ObservationImport

/-!
# Codexon.ObservationImport.Growth

Why an equal count means an unchanged prefix.  A write either rotates the epoch, or the sum
of the counters grows at least by as much as the number of records after a place, and by
more where a visible record up to that place is not as before (`Grows`).
-/

namespace Codexon.ObservationImport

open List

open EventStore

variable {α β ε : Type}

/-! ## sums -/

theorem total_perm {os os' : List (SessionRow α)} (h : os.Perm os') : total os = total os' := by
  induction h with
  | nil => rfl
  | cons o _ ih => simp [total, ih]
  | swap o o' os =>
    simp only [total]
    cases o.revision <;> cases o'.revision <;> cases total os <;> simp
    omega
  | trans _ _ ih ih' => exact ih.trans ih'

variable {hit : SessionRow α → Bool}

theorem total_bumped {n : Int} {os : List (SessionRow α)} {t' : Int}
    (h : total (os.map (Store.bumped n hit)) = some t') :
    ∃ t, total os = some t ∧ t' = t + n * (os.countP hit : Nat) := by
  induction os generalizing t' with
  | nil => exact ⟨0, rfl, by simpa [total] using h.symm⟩
  | cons o os ih =>
    simp only [map_cons, total, Option.bind_eq_some_iff, Option.map_eq_some_iff] at h
    obtain ⟨m', hm', rest', hrest', rfl⟩ := h
    obtain ⟨rest, hrest, rfl⟩ := ih hrest'
    by_cases hhit : hit o = true
    · simp only [Store.bumped, hhit, if_true, Store.raise, Option.bind_eq_some_iff] at hm'
      obtain ⟨m, hm, hm'⟩ := hm'
      split at hm'
      · obtain rfl := Option.some.inj hm'
        refine ⟨m + rest, by simp [total, hm, hrest], ?_⟩
        rw [countP_cons_of_pos hhit]
        push_cast
        ring
      · contradiction
    · simp only [Store.bumped, hhit] at hm'
      refine ⟨m' + rest, by simp_all [total], ?_⟩
      rw [countP_cons_of_neg hhit]
      ring

theorem put_perm {ρ : Type} {key : ρ → Int} (t : Table ρ key) (r : ρ) :
    (t.put r).rows.Perm (r :: t.rows.filter (key · ≠ key r)) := by
  have hless : (t.rows.filter (key · ≠ key r)).filter (key · < key r) =
      t.rows.filter (key · < key r) := by
    rw [filter_filter]
    refine filter_congr fun x _ => ?_
    simp only [decide_eq_decide, Bool.and_eq_decide, decide_eq_true_eq]
    omega
  have hmore : (t.rows.filter (key · ≠ key r)).filter (fun x => !decide (key x < key r)) =
      t.rows.filter (key r < key ·) := by
    rw [filter_filter]
    refine filter_congr fun x _ => ?_
    simp only [Bool.and_eq_decide, decide_eq_decide, Bool.not_eq_true', decide_eq_false_iff_not,
      decide_eq_true_eq]
    omega
  have hsplit := filter_append_perm (key · < key r) (t.rows.filter (key · ≠ key r))
  rw [hless, hmore] at hsplit
  exact perm_middle.trans (hsplit.cons r)

def beyond (s : Store α) (place : Int) : Nat := s.records.rows.countP (place < ·.seq)

def Visible (one : α) (s : Store α) (row : SourceRow α) : Prop :=
  ∃ r ∈ s.records.rows, r.quota = one ∧ joined s r = some row

def Old (one : α) (place : Int) (s s' : Store α) : Prop :=
  ∀ row, Visible one s' row → row.seq ≤ place → Visible one s row

/-- The epoch was rotated, or the counters account for the records after a place. -/
def Grows (one : α) (place : Int) (s s' : Store α) : Prop :=
  s.epoch < s'.epoch ∨ s'.epoch = s.epoch ∧ ∀ t', total s'.sessions.rows = some t' →
    ∃ t, total s.sessions.rows = some t ∧ (beyond s' place : Int) - beyond s place ≤ t' - t ∧
      ((beyond s' place : Int) - beyond s place = t' - t → Old one place s s')

theorem grows_refl (one : α) (place : Int) (s : Store α) : Grows one place s s :=
  .inr ⟨rfl, fun t ht => ⟨t, ht, by omega, fun _ _ hrow _ => hrow⟩⟩

variable {place : Int} {s : Store α}

variable {one : α}

theorem grows_trans {s' s'' : Store α} (h : Grows one place s s')
    (h' : Grows one place s' s'') : Grows one place s s'' := by
  rcases h with h | ⟨hepoch, h⟩ <;> rcases h' with h' | ⟨hepoch', h'⟩
  · exact .inl (h.trans h')
  · exact .inl (by omega)
  · exact .inl (by omega)
  · refine .inr ⟨hepoch'.trans hepoch, fun t'' ht'' => ?_⟩
    obtain ⟨t', ht', hle', hsame'⟩ := h' t'' ht''
    obtain ⟨t, ht, hle, hsame⟩ := h t' ht'
    refine ⟨t, ht, by omega, fun heq row hrow hseq => ?_⟩
    exact hsame (by omega) row (hsame' (by omega) row hrow hseq) hseq

/-! ## what is visible -/

theorem seq_of_joined {r : RecordRow α} {row : SourceRow α}
    (h : joined s r = some row) : row.seq = r.seq := by
  obtain ⟨o, -, rfl⟩ := Option.map_eq_some_iff.mp h
  rfl

theorem old_of_records {s' : Store α}
    (hrecords : ∀ r ∈ s'.records.rows, r.seq ≤ place → r ∈ s.records.rows)
    (howners : ∀ r ∈ s.records.rows, ∀ o', r.sessionId.bind s'.sessions.find? = some o' →
      ∃ o, r.sessionId.bind s.sessions.find? = some o ∧ o.home = o'.home) : Old one place s s' := by
  rintro row ⟨r, hr, hquota, hjoined⟩ hseq
  have hr' := hrecords r hr (seq_of_joined hjoined ▸ hseq)
  obtain ⟨o', ho', hrow⟩ := Option.map_eq_some_iff.mp hjoined
  obtain ⟨o, ho, hhome⟩ := howners r hr' o' ho'
  exact ⟨r, hr', hquota, by rw [joined, ho, Option.map_some, hhome, hrow]⟩

theorem owner_of_bump {n : Int} {id : Option Int}
    {o' : SessionRow α} (h : id.bind (s.bump n hit).sessions.find? = some o') :
    ∃ o, id.bind s.sessions.find? = some o ∧ o.home = o'.home := by
  cases id with
  | none => contradiction
  | some id =>
    simp only [Option.bind_some, Store.bump, Table.find?_map, Option.map_eq_some_iff] at h ⊢
    obtain ⟨o, ho, rfl⟩ := h
    refine ⟨o, ho, ?_⟩
    unfold Store.bumped
    split <;> rfl

theorem total_bump {n : Int} (hn : 0 ≤ n) {t' : Int}
    (h : total (s.bump n hit).sessions.rows = some t') :
    ∃ t, total s.sessions.rows = some t ∧ t ≤ t' ∧
      ((∃ o ∈ s.sessions.rows, hit o = true) → t + n ≤ t') := by
  obtain ⟨t, ht, rfl⟩ := total_bumped h
  have hcount : 0 ≤ n * (s.sessions.rows.countP hit : Nat) := Int.mul_nonneg hn (by omega)
  refine ⟨t, ht, by omega, fun ⟨o, ho, hhit⟩ => ?_⟩
  have hpos : 0 < s.sessions.rows.countP hit := countP_pos_iff.mpr ⟨o, ho, hhit⟩
  have hone : n * 1 ≤ n * (s.sessions.rows.countP hit : Nat) :=
    Int.mul_le_mul_of_nonneg_left (by omega) hn
  omega

/-! ## writes -/

theorem grows_of_bump {s' : Store α} {n : Int} (hn : 0 ≤ n)
    (hsessions : s'.sessions = (s.bump n hit).sessions)
    (hrecords : s'.records = s.records) (hepoch : s'.epoch = s.epoch) : Grows one place s s' := by
  refine .inr ⟨hepoch, fun t' ht' => ?_⟩
  rw [hsessions] at ht'
  obtain ⟨t, ht, hle, -⟩ := total_bump hn ht'
  refine ⟨t, ht, by simp only [beyond, hrecords]; omega, fun _ => ?_⟩
  refine old_of_records (fun r hr _ => hrecords ▸ hr) fun r _ o' ho' => ?_
  rw [hsessions] at ho'
  exact owner_of_bump ho'

theorem countP_put_le {ρ : Type} {key : ρ → Int} (t : Table ρ key) (p q : ρ → Bool) (r : ρ) :
    ((t.filter p).put r).rows.countP q ≤ t.rows.countP q + (if q r then 1 else 0) := by
  rw [(put_perm (t.filter p) r).countP_eq, countP_cons]
  have hle : ((t.filter p).rows.filter (key · ≠ key r)).countP q ≤ t.rows.countP q :=
    (filter_sublist.trans filter_sublist).countP_le
  omega

variable [DecidableEq α]

variable {orReplace : Bool}

theorem grows_insertRecord {auto : Bool}
    {new : RecordRow α} (hcounted : Counted s (.insertRecord orReplace auto new))
    (hvalid : s.admits (.insertRecord orReplace auto new)) :
    Grows one place s (s.apply (.insertRecord orReplace auto new)) := by
  obtain ⟨o, ho, hsession⟩ := hcounted hvalid
  refine .inr ⟨rfl, fun t' ht' => ?_⟩
  obtain ⟨t₁, ht₁, -, hone⟩ := total_bump (n := 1) (by omega) ht'
  obtain ⟨t, ht, hle, -⟩ := total_bump (n := 1) (by omega) ht₁
  have hgrown : t + 1 ≤ t' := by
    have := hone ⟨_, mem_map_of_mem ho, by simpa using hsession⟩
    omega
  have hcount := countP_put_le s.records (!Store.recordConflict new ·) (place < ·.seq) new
  have hbeyond : beyond (s.apply (.insertRecord orReplace auto new)) place ≤
      beyond s place + if place < new.seq then 1 else 0 := by
    simp only [decide_eq_true_eq] at hcount
    exact hcount
  refine ⟨t, ht, by split at hbeyond <;> omega, fun heq => ?_⟩
  have hlater : place < new.seq := by
    by_contra hnot
    rw [if_neg hnot] at hbeyond
    omega
  refine old_of_records (fun r hr hseq => ?_) fun r _ o' ho' => ?_
  · have hput : r ∈ (s.records.filter (!Store.recordConflict new ·)).put new := hr
    rcases Table.mem_put.mp hput with rfl | ⟨hr, -⟩
    · omega
    · exact (Table.mem_filter.mp hr).1
  · obtain ⟨o₁, ho₁, hhome₁⟩ := owner_of_bump ho'
    obtain ⟨o, ho, hhome⟩ := owner_of_bump ho₁
    exact ⟨o, ho, hhome.trans hhome₁⟩

theorem grows_updateRecord {seq : Int} {new : RecordRow α}
    (hcounted : Counted s (.updateRecord seq new)) (hvalid : s.admits (.updateRecord seq new)) :
    Grows one place s (s.apply (.updateRecord seq new)) := by
  cases hold : s.records.find? seq with
  | none =>
    have hsame : s.apply (.updateRecord seq new) = s := by simp [Store.apply, hold]
    rw [hsame]
    exact grows_refl one place s
  | some old =>
    obtain ⟨hmem, hseq⟩ := Table.find?_eq_some.mp hold
    subst hseq
    obtain ⟨o, ho, hsession⟩ := hcounted hvalid (by rw [hold]; rfl)
    have happly : s.apply (.updateRecord old.seq new) =
        { s with records := (s.records.filter (·.seq ≠ old.seq)).put new }.update old new := by
      simp [Store.apply, hold]
    rw [happly]
    by_cases hchanged : old = new
    · subst hchanged
      have hsame : { s with records := (s.records.filter (·.seq ≠ old.seq)).put old } = s := by
        rw [Table.put_filter_ne hmem]
      rw [hsame]
      simp only [Store.update, ne_eq, not_true_eq_false, if_false]
      exact grows_refl one place s
    · -- The update counts more than it moves beyond the place.
      have hold' := (put_perm (s.records.filter (·.seq ≠ old.seq)) old).countP_eq
        (place < ·.seq)
      have hnew := (put_perm (s.records.filter (·.seq ≠ old.seq)) new).countP_eq
        (place < ·.seq)
      rw [Table.put_filter_ne hmem, countP_cons] at hold'
      rw [countP_cons] at hnew
      have hless : ((s.records.filter (·.seq ≠ old.seq)).rows.filter
            (fun r => decide (r.seq ≠ new.seq))).countP (place < ·.seq) ≤
          ((s.records.filter (·.seq ≠ old.seq)).rows.filter
            (fun r => decide (r.seq ≠ old.seq))).countP (place < ·.seq) := by
        have hall : (s.records.filter (·.seq ≠ old.seq)).rows.filter
            (fun r => decide (r.seq ≠ old.seq)) = (s.records.filter (·.seq ≠ old.seq)).rows := by
          rw [filter_eq_self]
          exact fun r hr => (List.mem_filter.mp hr).2
        rw [hall]
        exact filter_sublist.countP_le
      simp only [Store.update, ne_eq, hchanged, not_false_eq_true, if_true]
      refine .inr ⟨rfl, fun t' ht' => ?_⟩
      obtain ⟨t, ht, -, hone⟩ := total_bump (by split <;> omega) ht'
      have hgrown := hone ⟨o, ho, by simp [hsession]⟩
      have hbeyond : (beyond (Store.bump
            { s with records := (s.records.filter (·.seq ≠ old.seq)).put new }
            (if ¬old.seq = new.seq then 2 else 1) fun o =>
              decide (old.sessionId = some o.id ∨ new.sessionId = some o.id)) place : Int) -
          beyond s place < t' - t := by
        change (((s.records.filter (·.seq ≠ old.seq)).put new).rows.countP
          (place < ·.seq) : Int) - s.records.rows.countP (place < ·.seq) < t' - t
        by_cases hseq : old.seq = new.seq
        · rw [hseq] at hold' hgrown
          simp only [not_true_eq_false, if_false] at hgrown
          rw [hseq] at hless hnew ⊢
          omega
        · rw [if_pos hseq] at hgrown
          split at hnew <;> omega
      exact ⟨t, ht, hbeyond.le, fun heq => absurd heq hbeyond.ne⟩

theorem grows_deleteRecord {seq : Int} : Grows one place s (s.apply (.deleteRecord seq)) := by
  cases hold : s.records.find? seq with
  | none =>
    have hsame : s.apply (.deleteRecord seq) = s := by simp [Store.apply, hold]
    rw [hsame]
    exact grows_refl one place s
  | some old =>
    have happly : s.apply (.deleteRecord seq) =
        { s with records := s.records.filter (·.seq ≠ seq) }.delete old := by
      simp [Store.apply, hold]
    rw [happly]
    refine .inr ⟨rfl, fun t' ht' => ?_⟩
    obtain ⟨t, ht, hle, -⟩ := total_bump (n := 1) (by omega) ht'
    have hbeyond : beyond ({ s with records := s.records.filter (·.seq ≠ seq) }.delete old)
        place ≤ beyond s place := filter_sublist.countP_le
    refine ⟨t, ht, by omega, fun _ => ?_⟩
    refine old_of_records (fun r hr _ => (List.mem_filter.mp hr).1) fun r _ o' ho' => ?_
    exact owner_of_bump ho'

variable {new : SessionRow α}

theorem sessions_insert {auto : Bool} (hvalid : s.admits (.insertSession orReplace auto new))
    (hfree : ∀ o ∈ s.sessions, o.id ≠ Store.seen auto new.id ∧ o.owns new.home new.tid = false) :
    s.sessions.filter (!Store.sessionConflict new ·) = s.sessions ∧
      ∀ o ∈ s.sessions, o.id ≠ new.id := by
  have hid : ∀ o ∈ s.sessions, o.id ≠ new.id := by
    intro o ho heq
    cases auto with
    | false => exact (hfree o ho).1 heq
    | true =>
      have hnone : s.sessions.find? new.id = none := by
        have := of_decide_eq_true hvalid
        exact this.1 rfl
      exact Table.find?_eq_none.mp hnone o ho heq
  refine ⟨Table.ext_mem fun o => ?_, hid⟩
  rw [Table.mem_filter]
  refine and_iff_left_of_imp fun ho => ?_
  simp [Store.sessionConflict, hid o ho, (hfree o ho).2]

theorem grows_insertSession {auto : Bool} (hcounted : Counted s (.insertSession orReplace auto new))
    (hvalid : s.admits (.insertSession orReplace auto new)) :
    Grows one place s (s.apply (.insertSession orReplace auto new)) := by
  obtain ⟨n, hn, hpositive⟩ := hcounted hvalid
  have hrevive := Store.epoch_le_ownerRevive
    { s.ownerReplace (Store.seen auto new.id) new with
      sessions := ((s.ownerReplace (Store.seen auto new.id) new).sessions.filter
        (!Store.sessionConflict new ·)).put new } new
  rcases Store.ownerReplace_cases s (Store.seen auto new.id) new with ⟨hreplace, hfree⟩ | hrotated
  · obtain ⟨hfilter, hid⟩ := sessions_insert hvalid hfree
    have happly : s.apply (.insertSession orReplace auto new) =
        { s with sessions := s.sessions.put new }.ownerRevive new := by
      simp only [Store.apply, hreplace, hfilter]
    rw [happly]
    rcases Store.ownerRevive_cases { s with sessions := s.sessions.put new } new with
      ⟨hsame, hnone⟩ | hrotated
    · rw [hsame]
      have hperm := put_perm s.sessions new
      have hall : s.sessions.rows.filter (fun o => decide (o.id ≠ new.id)) = s.sessions.rows := by
        rw [filter_eq_self]
        exact fun o ho => by simpa using hid o ho
      rw [hall] at hperm
      refine .inr ⟨rfl, fun t' ht' => ?_⟩
      rw [total_perm hperm, total, hn, Option.bind_some, Option.map_eq_some_iff] at ht'
      obtain ⟨t, ht, rfl⟩ := ht'
      refine ⟨t, ht, by simp only [beyond]; omega, fun _ => ?_⟩
      refine old_of_records (fun r hr _ => hr) fun r hr o' ho' => ⟨o', ?_, rfl⟩
      cases hsession : r.sessionId with
      | none => simp [hsession] at ho'
      | some id =>
        have hne : new.id ≠ id := fun heq => hnone r hr (by rw [hsession, heq])
        rw [hsession, Option.bind_some, Table.find?_put_of_ne hne] at ho'
        exact ho'
    · rw [hrotated]
      exact .inl (Nat.lt_succ_self _)
  · left
    rw [hrotated] at hrevive
    simp only [Store.apply, hrotated]
    exact Nat.lt_of_lt_of_le (Nat.lt_succ_self _) hrevive

theorem grows_updateSession {id : Int}
    (hcounted : Counted s (.updateSession id new)) (hvalid : s.admits (.updateSession id new)) :
    Grows one place s (s.apply (.updateSession id new)) := by
  cases hold : s.sessions.find? id with
  | none =>
    have hsame : s.apply (.updateSession id new) = s := by simp [Store.apply, hold]
    rw [hsame]
    exact grows_refl one place s
  | some old =>
    obtain ⟨hmem, hid⟩ := Table.find?_eq_some.mp hold
    subst hid
    by_cases hmoved : Store.moved old new = true
    · left
      simp [Store.apply, hold, Store.ownerMove, Store.owner, hmoved, Store.rotate, Store.bump]
    · have hcount := hcounted hvalid old hold (by simpa using hmoved)
      have happly : s.apply (.updateSession old.id new) =
          { s with sessions := (s.sessions.filter (·.id ≠ old.id)).put new } := by
        simp [Store.apply, hold, Store.ownerMove, Store.owner, hmoved]
      rw [happly]
      simp only [Store.moved, decide_eq_true_eq, not_or, not_not] at hmoved
      obtain ⟨hid, hhome, -⟩ := hmoved
      have hold' := put_perm (s.sessions.filter (·.id ≠ old.id)) old
      have hnew := put_perm (s.sessions.filter (·.id ≠ old.id)) new
      rw [Table.put_filter_ne hmem] at hold'
      rw [← hid] at hnew
      refine .inr ⟨rfl, fun t' ht' => ?_⟩
      rw [total_perm hnew, total, Option.bind_eq_some_iff] at ht'
      obtain ⟨n, hn, ht'⟩ := ht'
      obtain ⟨rest, hrest, rfl⟩ := Option.map_eq_some_iff.mp ht'
      obtain ⟨m, hm, hle⟩ := hcount n hn
      refine ⟨m + rest, ?_, by simp only [beyond]; omega, fun _ => ?_⟩
      · have hm : old.revision = some m := hm
        rw [total_perm hold', total, hm, Option.bind_some, hrest]
        rfl
      · refine old_of_records (fun r hr _ => hr) fun r _ o' ho' => ?_
        cases hsession : r.sessionId with
        | none => simp [hsession] at ho'
        | some key =>
          rw [hsession, Option.bind_some] at ho'
          rw [Option.bind_some]
          by_cases hkey : new.id = key
          · subst hkey
            rw [Table.find?_put_self, Option.some.injEq] at ho'
            subst ho'
            exact ⟨old, hid ▸ hold, hhome⟩
          · rw [Table.find?_put_of_ne hkey, Table.find?_filter_of] at ho'
            · exact ⟨o', ho', rfl⟩
            · intro o ho
              simpa [ho, hid] using Ne.symm hkey

/-- **One write.** -/
theorem grows_step {statement : Statement α}
    (hcounted : Counted s statement) : Grows one place s (s.step statement) := by
  unfold Store.step
  split
  case isFalse => exact grows_refl one place s
  next hvalid =>
  cases statement with
  | insertPath orReplace auto new =>
    exact grows_of_bump (n := 1) (by omega) rfl rfl rfl
  | updatePath id new =>
    simp only [Store.apply]
    split
    · exact grows_refl one place s
    · simp only [Store.path]
      split
      · exact grows_of_bump (n := 1) (by omega) rfl rfl rfl
      · refine .inr ⟨rfl, fun t ht => ⟨t, ht, by simp only [beyond]; omega, fun _ => ?_⟩⟩
        exact old_of_records (fun r hr _ => hr) fun r _ o ho => ⟨o, ho, rfl⟩
  | deletePath id =>
    simp only [Store.apply]
    split
    · exact grows_refl one place s
    · exact grows_of_bump (n := 1) (by omega) rfl rfl rfl
  | insertSession orReplace auto new => exact grows_insertSession hcounted hvalid
  | updateSession id new => exact grows_updateSession hcounted hvalid
  | deleteSession id =>
    simp only [Store.apply]
    split
    · exact grows_refl one place s
    · exact .inl (Nat.lt_succ_self _)
  | insertRecord orReplace auto new => exact grows_insertRecord hcounted hvalid
  | updateRecord seq new => exact grows_updateRecord hcounted hvalid
  | deleteRecord seq => exact grows_deleteRecord

/-- **A run of writes.** -/
theorem grows_run {statements : List (Statement α)}
    (hcounted : Along Store.step Counted s statements) :
    Grows one place s (run Store.step s statements) := by
  induction statements generalizing s with
  | nil => exact grows_refl one place s
  | cons statement statements ih => exact grows_trans (grows_step hcounted.1) (ih hcounted.2)

end Codexon.ObservationImport
