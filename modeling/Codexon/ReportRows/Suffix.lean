import Codexon.ReportRows
import Codexon.Run

/-!
# Codexon.ReportRows.Suffix

A cached prefix with the suffix that is read again.  A change moves only rows at
or after its recorded time (`select_change`), so below the earliest time of the
changes the cached rows are those of a fresh read.  Cached rows for which this
holds `Agrees` with the tables, and `_report_rows` turns them into fresh ones.
-/

namespace Codexon.ReportRows

open List

variable {ρ : Type} [TimedRow ρ]

/-! ## ordered rows -/

theorem pairwise_sort (rows : List ρ) : (rows.mergeSort (· ≤ ·)).Pairwise (· ≤ ·) :=
  pairwise_mergeSort' (· ≤ ·) rows

theorem eq_sort {rows rows' : List ρ} (hsorted : rows.Pairwise (· ≤ ·)) (h : rows.Perm rows') :
    rows = rows'.mergeSort (· ≤ ·) :=
  List.Perm.eq_of_pairwise' hsorted (pairwise_sort rows')
    (h.trans (mergeSort_perm rows' _).symm)

theorem pairwise_split {head tail : List ρ} (lower : ℚ) (hhead : head.Pairwise (· ≤ ·))
    (htail : tail.Pairwise (· ≤ ·)) (hbefore : ∀ row ∈ head, TimedRow.time row < lower)
    (hafter : ∀ row ∈ tail, lower ≤ TimedRow.time row) : (head ++ tail).Pairwise (· ≤ ·) := by
  rw [pairwise_append]
  refine ⟨hhead, htail, fun a ha b hb => ?_⟩
  rcases le_total a b with hab | hba
  · exact hab
  · have htime := TimedRow.time_mono hba
    have h1 := hbefore a ha
    have h2 := hafter b hb
    linarith

namespace Ledger

theorem bisect_spec {rows : List ρ} (hsorted : rows.Pairwise (· ≤ ·)) (lower : ℚ) :
    ∀ left right : Nat, left ≤ right → right ≤ rows.length →
      (∀ row ∈ rows.take left, TimedRow.time row < lower) →
      (∀ row ∈ rows.drop right, lower ≤ TimedRow.time row) →
      (∀ row ∈ rows.take (bisect rows lower left right), TimedRow.time row < lower) ∧
        ∀ row ∈ rows.drop (bisect rows lower left right), lower ≤ TimedRow.time row := by
  intro left right
  induction left, right using bisect.induct rows lower with
  | case1 left right hlt mid hnone =>
    intro _ hlength
    have hmid : rows.length ≤ (left + right) / 2 := List.getElem?_eq_none_iff.mp hnone
    omega
  | case2 left right hlt mid row hrow hbelow ih =>
    intro _ hlength _ hafter
    rw [bisect, if_pos hlt]
    simp only [show rows[(left + right) / 2]? = some row from hrow, if_pos hbelow]
    refine ih (by omega) hlength (fun other hother => ?_) hafter
    -- every row up to the middle is at most the middle one
    obtain ⟨i, hi, rfl⟩ := mem_iff_getElem.mp hother
    obtain ⟨hm, rfl⟩ := List.getElem?_eq_some_iff.mp hrow
    rw [length_take] at hi
    rw [List.getElem_take]
    rcases Nat.lt_or_ge i mid with h | h
    · have hle := pairwise_iff_getElem.mp hsorted i mid (by omega) hm h
      exact lt_of_le_of_lt (TimedRow.time_mono hle) hbelow
    · obtain rfl : i = mid := by omega
      exact hbelow
  | case3 left right hlt mid row hrow hbelow ih =>
    intro _ hlength hbefore _
    rw [bisect, if_pos hlt]
    simp only [show rows[(left + right) / 2]? = some row from hrow, if_neg hbelow]
    refine ih (by omega) (by omega) hbefore fun other hother => ?_
    obtain ⟨i, hi, rfl⟩ := mem_iff_getElem.mp hother
    obtain ⟨hm, rfl⟩ := List.getElem?_eq_some_iff.mp hrow
    rw [List.getElem_drop]
    rw [length_drop] at hi
    have habove : lower ≤ TimedRow.time rows[mid] := not_lt.mp hbelow
    rcases Nat.eq_zero_or_pos i with rfl | h
    · simpa using habove
    · have hle := pairwise_iff_getElem.mp hsorted mid (mid + i) hm (by omega) (by omega)
      exact habove.trans (TimedRow.time_mono hle)
  | case4 left right hge =>
    intro hle _ hbefore hafter
    obtain rfl : left = right := by omega
    rw [bisect, if_neg hge]
    exact ⟨hbefore, hafter⟩

theorem take_bisect {rows : List ρ} (hsorted : rows.Pairwise (· ≤ ·)) (lower : ℚ) :
    rows.take (bisect rows lower 0 rows.length) =
      rows.filter fun row => TimedRow.time row < lower := by
  obtain ⟨hbefore, hafter⟩ := bisect_spec hsorted lower 0 rows.length (Nat.zero_le _) le_rfl
    (by simp) (by simp)
  conv_rhs => rw [← take_append_drop (bisect rows lower 0 rows.length) rows]
  rw [filter_append, filter_eq_self.mpr fun row hrow => by simpa using hbefore row hrow,
    filter_eq_nil_iff.mpr fun row hrow => by simpa using hafter row hrow, List.append_nil]

theorem earliest_spec {stamps : List (Option ℚ)} {lower : ℚ} (h : earliest stamps = some lower) :
    ∀ stamp ∈ stamps, ∃ t, stamp = some t ∧ lower ≤ t := by
  induction stamps using earliest.induct generalizing lower with
  | case1 => cases h
  | case2 t =>
    intro stamp hmem
    rw [earliest] at h
    obtain rfl := mem_singleton.mp hmem
    exact ⟨lower, h, le_rfl⟩
  | case3 ts hts =>
    rw [earliest] at h
    · cases h
    · exact hts
  | case4 t ts hts ih =>
    rw [earliest] at h
    · obtain ⟨low, hlow, rfl⟩ := Option.map_eq_some_iff.mp h
      intro stamp hmem
      rcases mem_cons.mp hmem with rfl | hrest
      · exact ⟨t, rfl, min_le_left t low⟩
      · obtain ⟨x, hx, hle⟩ := ih hlow stamp hrest
        exact ⟨x, hx, (min_le_right t low).trans hle⟩
    · exact hts

end Ledger

/-! ## what a change moves -/

theorem filter_erase_ne {l : List Record} {r : Record} {p : Record → Bool} (h : ¬ p r) :
    (l.erase r).filter p = l.filter p := by
  rw [← erase_filter]
  refine erase_of_not_mem fun hmem => h ?_
  exact (List.mem_filter.mp hmem).2

theorem linked_not_timed {table : SourceTable} (h : table.linked) : ¬ table.timed := by
  cases table <;> simp_all [SourceTable.linked, SourceTable.timed]

variable {store : Store}

theorem Change.apply_other {c : Change} {table : SourceTable}
    (h : table ≠ c.table) : c.apply store table = store table := if_neg h

theorem Query.time_of_mem_rowsOf {q : Query ρ} {home : PyStr} {now : ℚ}
    {r : Record} {row : ρ} (h : row ∈ q.rowsOf home store now r) :
    r.time = some (TimedRow.time row) := by
  unfold Query.rowsOf at h
  split at h
  · exact q.join_time r _ row h
  · cases h

theorem Query.filter_rowsOf_nil {q : Query ρ} {home : PyStr} {now : ℚ}
    {r : Record} {p : ρ → Bool} {times : List ℚ} (htimes : ∀ t, r.time = some t → t ∈ times)
    (hp : ∀ row, p row → TimedRow.time row ∉ times) :
    (q.rowsOf home store now r).filter p = [] := by
  refine filter_eq_nil_iff.mpr fun row hrow hprow => ?_
  exact hp row hprow (htimes _ (Query.time_of_mem_rowsOf hrow))

theorem Query.side_apply {q : Query ρ} {c : Change} {r : Record}
    (hold : ∀ old, c.old = some old → old.id ≠ r.id)
    (hnew : ∀ new, c.new = some new → new.id ≠ r.id) (table : SourceTable) :
    q.side (c.apply store) r table = q.side store r table := by
  unfold Query.side
  by_cases htable : table = c.table
  · rw [Change.apply, if_pos htable, filter_append]
    have hnil : c.new.toList.filter (fun x => decide (x.id = r.id)) = [] := by
      refine filter_eq_nil_iff.mpr fun new hmem => ?_
      simpa using hnew new (Option.mem_toList.mp hmem)
    rw [hnil, List.append_nil]
    cases hc : c.old with
    | none => rfl
    | some old =>
      show (if table ∈ q.sides then ((store table).erase old).filter _ else []) = _
      rw [filter_erase_ne (by simpa using hold old hc)]
  · rw [Change.apply_other htable]

/-- **A change moves no row away from its times**: the rows that `p` selects stay
when the change is to another table, or `p` avoids its times. -/
theorem select_change (q : Query ρ) (home : PyStr) (store : Store) (now : ℚ) (c : Change)
    (p : ρ → Bool) (h : c.table ∈ q.tables → ∀ row, p row → TimedRow.time row ∉ c.times store) :
    ((q.select home (c.apply store) now).filter p).Perm ((q.select home store now).filter p) := by
  have htimes : ∀ r ∈ c.old.toList ++ c.new.toList, c.table.timed →
      ∀ t, r.time = some t → t ∈ c.times store := by
    intro r hr htimed t ht
    refine mem_flatMap.mpr ⟨r, hr, ?_⟩
    rw [if_pos htimed, ht]
    exact mem_singleton.mpr rfl
  unfold Query.select
  rw [filter_flatMap, filter_flatMap]
  by_cases hmain : c.table = q.main
  · -- a change of the main table: no other row sees it
    have htimed : c.table.timed := hmain ▸ q.main_timed
    have hp := h (hmain ▸ mem_cons_self)
    have hside : ∀ r, q.side (c.apply store) r = q.side store r := by
      intro r
      funext table
      by_cases hmem : table ∈ q.sides
      · have hlinked := (q.sides_linked table hmem).1
        have hne : table ≠ c.table := fun heq => linked_not_timed hlinked (heq ▸ htimed)
        rw [Query.side, Query.side, Change.apply_other hne]
      · rw [Query.side, Query.side, if_neg hmem, if_neg hmem]
    have hrows : (fun r => (q.rowsOf home (c.apply store) now r).filter p) =
        fun r => (q.rowsOf home store now r).filter p := by
      funext r
      rw [Query.rowsOf, Query.rowsOf, hside]
    rw [hrows, Change.apply, if_pos hmain.symm, flatMap_append]
    have hnew : c.new.toList.flatMap (fun r => (q.rowsOf home store now r).filter p) = [] := by
      refine flatMap_eq_nil_iff.mpr fun r hr => ?_
      exact Query.filter_rowsOf_nil (htimes r (mem_append_right _ hr) htimed) hp
    rw [hnew, List.append_nil]
    cases hold : c.old with
    | none => exact List.Perm.refl _
    | some old =>
      have hnil : (q.rowsOf home store now old).filter p = [] :=
        Query.filter_rowsOf_nil (htimes old (by simp [hold]) htimed) hp
      show (((store q.main).erase old).flatMap _).Perm _
      by_cases hmem : old ∈ store q.main
      · have hperm := (perm_cons_erase hmem).flatMap_right
          fun r => (q.rowsOf home store now r).filter p
        rw [flatMap_cons, hnil, nil_append] at hperm
        exact hperm.symm
      · rw [erase_of_not_mem hmem]
  · rw [Change.apply_other (Ne.symm hmain)]
    refine List.Perm.of_eq (flatMap_congr fun r hr => ?_)
    by_cases hnamed : c.table ∈ q.sides ∧ ∃ x ∈ c.old.toList ++ c.new.toList, x.id = r.id
    · -- a linked row of this observation: the times of the change contain its time
      obtain ⟨hside, x, hx, hid⟩ := hnamed
      obtain ⟨hlinked, hobs⟩ := q.sides_linked _ hside
      have hp := h (mem_cons_of_mem _ hside)
      have htime : ∀ t, r.time = some t → t ∈ c.times store := by
        intro t ht
        refine mem_flatMap.mpr ⟨x, hx, ?_⟩
        rw [if_neg (linked_not_timed hlinked), if_pos hlinked]
        refine mem_flatMap.mpr ⟨r, List.mem_filter.mpr ⟨hobs ▸ hr, by simp [hid]⟩, ?_⟩
        rw [ht]
        exact mem_singleton.mpr rfl
      rw [Query.filter_rowsOf_nil htime hp, Query.filter_rowsOf_nil htime hp]
    · have hsides : q.side (c.apply store) r = q.side store r := by
        funext table
        by_cases htable : table = c.table
        · by_cases hmem : table ∈ q.sides
          · have hfree := fun x hx hid => hnamed ⟨htable ▸ hmem, x, hx, hid⟩
            refine Query.side_apply (fun old hold => ?_) (fun new hnew => ?_) table
            · exact hfree old (by simp [hold])
            · exact hfree new (by simp [hnew])
          · rw [Query.side, Query.side, if_neg hmem, if_neg hmem]
        · rw [Query.side, Query.side, Change.apply_other htable]
      rw [Query.rowsOf, Query.rowsOf, hsides]

def replay (store : Store) (cs : List Change) : Store := run (fun store c => c.apply store) store cs

def Recorded (store : Store) (cs : List Change) : Prop :=
  Along (fun store c => c.apply store) (fun store c => c.Recorded store) store cs

/-- `p` selects only rows before every change to a table of the query. -/
def Query.Avoids (q : Query ρ) (changes : List (SourceTable × Option ℚ)) (p : ρ → Bool) : Prop :=
  ∀ change ∈ changes, change.1 ∈ q.tables →
    ∃ t, change.2 = some t ∧ ∀ row, p row → TimedRow.time row < t

def Change.noted (c : Change) : SourceTable × Option ℚ := (c.table, c.stamp)

theorem select_replay (q : Query ρ) (home : PyStr) (now : ℚ) (p : ρ → Bool) {cs : List Change} :
    ∀ {store : Store}, Recorded store cs → q.Avoids (cs.map Change.noted) p →
      ((q.select home (replay store cs) now).filter p).Perm
        ((q.select home store now).filter p) := by
  induction cs with
  | nil => exact fun _ _ => List.Perm.refl _
  | cons c cs ih =>
    intro store hrec havoids
    rw [map_cons] at havoids
    have hrest := ih hrec.2 fun change hmem => havoids change (mem_cons_of_mem _ hmem)
    refine hrest.trans (select_change q home store now c p fun htable row hrow hmem => ?_)
    obtain ⟨t, ht, hbefore⟩ := havoids c.noted mem_cons_self htable
    have hle : t ≤ TimedRow.time row := hrec.1 t ht _ hmem
    have hlt := hbefore row hrow
    linarith

/-! ## cached rows -/

/-- Cached rows are those of a fresh read, save for rows at or after the changes. -/
structure Agrees (q : Query ρ) (home : PyStr) (store : Store) (now : ℚ)
    (changes : List (SourceTable × Option ℚ)) (rows : List ρ) : Prop where
  ordered : rows.Pairwise (· ≤ ·)
  perm : ∀ p, q.Avoids changes p → (rows.filter p).Perm ((q.select home store now).filter p)

section Agreement

variable {q : Query ρ} {home : PyStr} {store : Store} {now : ℚ}
  {changes : List (SourceTable × Option ℚ)} {rows : List ρ}

theorem agrees_exec : Agrees q home store now changes (q.exec home store now) where
  ordered := pairwise_sort _
  perm := fun p _ => (mergeSort_perm (q.select home store now) _).filter p

theorem Agrees.eq_exec (h : Agrees q home store now changes rows)
    (hnone : ∀ change ∈ changes, change.1 ∉ q.tables) : rows = q.exec home store now := by
  refine eq_sort h.ordered ?_
  have hperm := h.perm (fun _ => true) fun change hmem htable => absurd htable (hnone change hmem)
  rwa [filter_true, filter_true] at hperm

/-- **The cached prefix with the suffix read again is a fresh read.** -/
theorem Agrees.splice (h : Agrees q home store now changes rows) {lower : ℚ}
    (hlower : ∀ change ∈ changes, change.1 ∈ q.tables → ∃ t, change.2 = some t ∧ lower ≤ t) :
    rows.take (Ledger.bisect rows lower 0 rows.length) ++ q.execFrom home store now lower =
      q.exec home store now := by
  rw [Ledger.take_bisect h.ordered]
  have hperm := h.perm (fun row => decide (TimedRow.time row < lower)) fun change hmem htable => by
    obtain ⟨t, ht, hle⟩ := hlower change hmem htable
    refine ⟨t, ht, fun row hrow => ?_⟩
    have hlt : TimedRow.time row < lower := by simpa using hrow
    linarith
  refine eq_sort (pairwise_split lower (h.ordered.filter _) (pairwise_sort _) ?_ ?_) ?_
  · intro row hrow
    simpa using (List.mem_filter.mp hrow).2
  · intro row hrow
    have hmem := (mergeSort_perm _ _).mem_iff.mp hrow
    simpa using (List.mem_filter.mp hmem).2
  · have hsuffix : (q.execFrom home store now lower).Perm
        ((q.select home store now).filter fun row => !decide (TimedRow.time row < lower)) := by
      have hsame : (fun row : ρ => !decide (TimedRow.time row < lower)) =
          fun row => decide (lower ≤ TimedRow.time row) := by
        funext row
        rw [← decide_not, decide_eq_decide]
        exact not_lt
      rw [hsame]
      exact mergeSort_perm _ _
    exact (hperm.append hsuffix).trans (filter_append_perm _ _)

end Agreement

namespace Ledger

variable (sql : PyStr → List Json → Query ρ) (budget : Budget ρ) (home : PyStr) (store : Store)
  (now : ℚ) (changes : List (SourceTable × Option ℚ))

def Sound (cache : Dict PyStr (Entry ρ)) : Prop :=
  ∀ key e, cache.get? key = some e →
    Agrees (sql key e.params) home store now changes e.rows

variable {cache : Dict PyStr (Entry ρ)} {params : List Json}

omit [TimedRow ρ] in
theorem get?_keepRows_self {key : PyStr}
    {rows : List ρ} {e : Entry ρ} (h : (keepRows budget cache key params rows).get? key = some e) :
    e = ⟨params, rows⟩ := by
  simp only [keepRows] at h
  split at h
  · rw [Dict.get?_set, if_pos rfl] at h
    exact (Option.some.inj h).symm
  · rw [Dict.get?_erase, if_pos rfl] at h
    cases h

omit [TimedRow ρ] in
theorem get?_keepRows_other {key other : PyStr} {rows : List ρ} (h : other ≠ key) :
    (keepRows budget cache key params rows).get? other = cache.get? other := by
  simp only [keepRows]
  split
  · rw [Dict.get?_set, if_neg h]
  · rw [Dict.get?_erase, if_neg h]

/-- What one read does: its rows are fresh, and so is what it leaves in the cache;
the other queries are left alone. -/
structure Reads (cache : Dict PyStr (Entry ρ)) (key : PyStr) (params : List Json)
    (result : List ρ × Dict PyStr (Entry ρ)) : Prop where
  rows : result.1 = (sql key params).exec home store now
  kept : ∀ e, result.2.get? key = some e → e.rows = (sql key e.params).exec home store now
  others : ∀ other, other ≠ key → result.2.get? other = cache.get? other

theorem reads_keepRows {key : PyStr}
    {rows : List ρ} (h : rows = (sql key params).exec home store now) :
    Reads sql home store now cache key params (rows, keepRows budget cache key params rows) where
  rows := h
  kept := fun e he => by
    obtain rfl := get?_keepRows_self budget he
    exact h
  others := fun _ hne => get?_keepRows_other budget hne

/-- **`_report_rows` reads what a fresh read does.** -/
theorem reportRows_spec (hsound : Sound sql home store now changes cache)
    (key : PyStr) (params : List Json) : Reads sql home store now cache key params
      (reportRows sql budget home store now changes cache key params) := by
  unfold reportRows
  cases hprevious : (cache.get? key).filter (·.params = params) with
  | none => exact reads_keepRows sql budget home store now rfl
  | some previous =>
    obtain ⟨hget, hparams⟩ := Option.filter_eq_some_iff.mp hprevious
    obtain rfl : previous.params = params := by simpa using hparams
    have hagrees := hsound key previous hget
    have hmem : ∀ change ∈ changes, change.1 ∈ (sql key previous.params).tables →
        change.2 ∈ (changes.filter (·.1 ∈ (sql key previous.params).tables)).map (·.2) :=
      fun change hchange htable => List.mem_map.mpr
        ⟨change, List.mem_filter.mpr ⟨hchange, by simpa using htable⟩, rfl⟩
    dsimp only
    split
    · next hnone =>
      have hfresh := hagrees.eq_exec fun change hchange htable => by
        have := hmem change hchange htable
        rw [hnone] at this
        cases this
      refine ⟨hfresh, fun e he => ?_, fun _ _ => rfl⟩
      rw [hget] at he
      obtain rfl := Option.some.inj he
      exact hfresh
    · split
      · exact reads_keepRows sql budget home store now rfl
      · next lower hlower =>
        exact reads_keepRows sql budget home store now (hagrees.splice fun change hchange htable =>
          earliest_spec hlower _ (hmem change hchange htable))

theorem Reads.sound {key : PyStr}
    {result : List ρ × Dict PyStr (Entry ρ)} (h : Reads sql home store now cache key params result)
    (hsound : Sound sql home store now changes cache) :
    Sound sql home store now changes result.2 := by
  intro other e he
  by_cases hother : other = key
  · subst hother
    rw [h.kept e he]
    exact agrees_exec
  · rw [h.others other hother] at he
    exact hsound other e he

/-- **A report reads fresh rows**, and its queries leave fresh rows behind. -/
theorem readAll_spec
    (hsound : Sound sql home store now changes cache) (reads : List (PyStr × List Json)) :
    (readAll sql budget home store now changes cache reads).1 =
        reads.map (fun read => (sql read.1 read.2).exec home store now) ∧
      (∀ key ∈ reads.map Prod.fst, ∀ e,
        (readAll sql budget home store now changes cache reads).2.get? key = some e →
          e.rows = (sql key e.params).exec home store now) ∧ ∀ key ∉ reads.map Prod.fst,
        (readAll sql budget home store now changes cache reads).2.get? key = cache.get? key := by
  induction reads generalizing cache with
  | nil => exact ⟨rfl, fun _ h => absurd h (not_mem_nil), fun _ _ => rfl⟩
  | cons read reads ih =>
    have hread := reportRows_spec sql budget home store now changes hsound read.1 read.2
    obtain ⟨hrows, hkept, hothers⟩ := ih (hread.sound sql home store now changes hsound)
    simp only [readAll, map_cons, mem_cons, not_or]
    refine ⟨by rw [hrows, hread.rows], fun key hkey e he => ?_, fun key hkey => ?_⟩
    · by_cases hrest : key ∈ reads.map Prod.fst
      · exact hkept key hrest e he
      · -- read here for the last time
        obtain rfl := hkey.resolve_right hrest
        rw [hothers _ hrest] at he
        exact hread.kept e he
    · rw [hothers key hkey.2, hread.others key hkey.1]

end Ledger

end Codexon.ReportRows
