import Codexon.EvidenceJoin.Witnesses

/-!
# Codexon.EvidenceJoin.Summary

`EvidenceSummary` keeps a record for every answer that the join can ask about.
-/

namespace Codexon.EvidenceJoin

open List Dict

variable {τ : Type} [LinearOrder τ] {gaps : List (τ × τ)}

/-! ## adding a record -/

/-- What a summary has kept of the records that were added. -/
structure Kept (gaps : List (τ × τ)) (done : List (Record τ)) (s : Summary τ) : Prop where
  records : ∀ {k r}, s.records.get? k = some r → r ∈ done ∧ r.seq = k
  nodup : ∀ field, (s.values field).Nodup
  values : ∀ field ∈ fields, ∀ v ∈ s.values field,
    ∃ r : Record τ, s.records.get? r.seq = some r ∧ r.counted field = some v
  full : ∀ field ∈ fields, ∀ r ∈ done, ∀ v, r.counted field = some v →
    v ∈ s.values field ∨ 2 ≤ (s.values field).length
  flagged : ∀ i b, (i, b) ∈ s.flags →
    ∃ r : Record τ, s.records.get? r.seq = some r ∧ (r.flags gaps)[i]? = some b
  flags : ∀ r ∈ done, ∀ i b, (r.flags gaps)[i]? = some b → (i, b) ∈ s.flags
  first : s.first = done.take 2
  earliest : (done = [] ∧ s.earliest = none) ∨
    ∃ r ∈ done, s.earliest = some r ∧ ∀ x ∈ done, r.ts ≤ x.ts
  latest : s.latest = latestOf done

theorem kept_nil : Kept gaps [] ({} : Summary τ) where
  records h := by simp [Dict.get?] at h
  nodup _ := nodup_nil
  values _ _ _ h := by simp at h
  full _ _ _ h := by simp at h
  flagged _ _ h := by simp at h
  flags _ h := by simp at h
  first := rfl
  earliest := .inl ⟨rfl, rfl⟩
  latest := rfl

omit [LinearOrder τ] in
theorem mem_fresh {values : List Value} {value : Option Value} {v : Value} :
    v ∈ fresh values value ↔ value = some v ∧ v ∉ values ∧ values.length < 2 := by
  cases value with
  | none => simp [fresh]
  | some w =>
    by_cases h : w ∉ values ∧ values.length < 2
    · simp only [fresh, if_pos h, mem_singleton, Option.some.injEq]
      constructor
      · rintro rfl
        exact ⟨rfl, h⟩
      · exact fun hv => hv.1.symm
    · simp only [fresh, if_neg h, not_mem_nil, Option.some.injEq, false_iff]
      rintro ⟨rfl, hv⟩
      exact h hv

theorem nodup_fresh {values : List Value} {value : Option Value} : (fresh values value).Nodup := by
  unfold fresh
  split
  · split <;> simp
  · simp

def newFlags (gaps : List (τ × τ)) (s : Summary τ) (record : Record τ) : List (Nat × Bool) :=
  ((record.flags gaps).zipIdx.map fun flag => (flag.2, flag.1)).filter (· ∉ s.flags)

theorem mem_newFlags {s : Summary τ} {record : Record τ} {i : Nat} {b : Bool} :
    (i, b) ∈ newFlags gaps s record ↔ (record.flags gaps)[i]? = some b ∧ (i, b) ∉ s.flags := by
  simp [newFlags, mem_zipIdx_iff_getElem?]

/-- Whether a record is kept for a value or a flag that it brings. -/
def keeps (gaps : List (τ × τ)) (s : Summary τ) (record : Record τ) : Bool :=
  fields.any (fun field => fresh (s.values field) (record.counted field) ≠ []) ||
    newFlags gaps s record ≠ []

theorem add_records (s : Summary τ) (record : Record τ) : (s.add gaps record).records =
    if keeps gaps s record then s.records.set record.seq record else s.records := rfl

theorem add_values (s : Summary τ) (record : Record τ) {field : Column} (h : field ∈ fields) :
    (s.add gaps record).values field =
      s.values field ++ fresh (s.values field) (record.counted field) := if_pos h

theorem add_flags (s : Summary τ) (record : Record τ) :
    (s.add gaps record).flags = s.flags ++ newFlags gaps s record := rfl

section Add

variable {done : List (Record τ)} {s : Summary τ} {record : Record τ}

theorem kept_stays (h : Kept gaps done s) (hnew : record.seq ∉ done.map Record.seq)
    {r : Record τ} (hr : s.records.get? r.seq = some r) :
    (s.add gaps record).records.get? r.seq = some r := by
  rw [add_records]
  by_cases hkeep : keeps gaps s record
  · have hne : r.seq ≠ record.seq := fun heq =>
      hnew (heq ▸ List.mem_map.mpr ⟨r, (h.records hr).1, rfl⟩)
    rw [if_pos hkeep, get?_set, if_neg hne]
    exact hr
  · rw [if_neg hkeep]
    exact hr

theorem keeps_of_flag {i : Nat} {b : Bool} (h : (i, b) ∈ newFlags gaps s record) :
    keeps gaps s record := by
  simp [keeps, ne_nil_of_mem h]

theorem keeps_of_value {field : Column} (hfield : field ∈ fields) {v : Value}
    (h : v ∈ fresh (s.values field) (record.counted field)) : keeps gaps s record := by
  have hany : fields.any fun field => fresh (s.values field) (record.counted field) ≠ [] :=
    any_eq_true.mpr ⟨field, hfield, by simpa using ne_nil_of_mem h⟩
  unfold keeps
  rw [hany]
  rfl

theorem kept_self (h : keeps gaps s record) :
    (s.add gaps record).records.get? record.seq = some record := by
  rw [add_records, if_pos h, get?_set, if_pos rfl]

theorem kept_add (h : Kept gaps done s) (hnew : record.seq ∉ done.map Record.seq) :
    Kept gaps (done ++ [record]) (s.add gaps record) where
  records {k r} hr := by
    rw [add_records] at hr
    by_cases hkeep : keeps gaps s record
    · rw [if_pos hkeep, get?_set] at hr
      by_cases hk : k = record.seq
      · rw [if_pos hk] at hr
        obtain rfl : record = r := by simpa using hr
        simp [hk]
      · rw [if_neg hk] at hr
        have hold := h.records hr
        simp [hold]
    · rw [if_neg hkeep] at hr
      have hold := h.records hr
      simp [hold]
  nodup field := by
    by_cases hfield : field ∈ fields
    · rw [add_values s record hfield, nodup_append']
      refine ⟨h.nodup field, nodup_fresh, fun v hv hnewv => ?_⟩
      exact (mem_fresh.mp hnewv).2.1 hv
    · have hsame : (s.add gaps record).values field = s.values field := if_neg hfield
      rw [hsame]
      exact h.nodup field
  values field hfield v hv := by
    rw [add_values s record hfield, mem_append] at hv
    obtain hv | hv := hv
    · obtain ⟨r, hr, hcount⟩ := h.values field hfield v hv
      exact ⟨r, kept_stays h hnew hr, hcount⟩
    · exact ⟨record, kept_self (keeps_of_value hfield hv), (mem_fresh.mp hv).1⟩
  full field hfield r hr v hv := by
    rw [add_values s record hfield]
    have hlength : 2 ≤ (s.values field).length →
        2 ≤ (s.values field ++ fresh (s.values field) (record.counted field)).length := by
      intro hle
      rw [length_append]
      omega
    obtain hr | rfl : r ∈ done ∨ r = record := by simpa using hr
    · obtain hmem | hlong := h.full field hfield r hr v hv
      · exact .inl (mem_append_left _ hmem)
      · exact .inr (hlength hlong)
    · by_cases hmem : v ∈ s.values field
      · exact .inl (mem_append_left _ hmem)
      · by_cases hshort : (s.values field).length < 2
        · exact .inl (mem_append_right _ (mem_fresh.mpr ⟨hv, hmem, hshort⟩))
        · exact .inr (hlength (not_lt.mp hshort))
  flagged i b hflag := by
    rw [add_flags, mem_append] at hflag
    obtain hflag | hflag := hflag
    · obtain ⟨r, hr, hrb⟩ := h.flagged i b hflag
      exact ⟨r, kept_stays h hnew hr, hrb⟩
    · exact ⟨record, kept_self (keeps_of_flag hflag), (mem_newFlags.mp hflag).1⟩
  flags r hr i b hb := by
    rw [add_flags, mem_append]
    obtain hr | rfl : r ∈ done ∨ r = record := by simpa using hr
    · exact .inl (h.flags r hr i b hb)
    · by_cases hseen : (i, b) ∈ s.flags
      · exact .inl hseen
      · exact .inr (mem_newFlags.mpr ⟨hb, hseen⟩)
  first := by
    have hadd : (s.add gaps record).first =
      if s.first.length < 2 then s.first ++ [record] else s.first := rfl
    rw [hadd, h.first, take_append]
    by_cases hlt : done.length < 2
    · have htake : done.take 2 = done := take_of_length_le hlt.le
      have hone : [record].take (2 - done.length) = [record] :=
        take_of_length_le (by simp; omega)
      rw [htake, hone, if_pos hlt]
    · have hzero : 2 - done.length = 0 := by omega
      rw [hzero, if_neg (by simp; omega), take_zero, List.append_nil]
  earliest := by
    right
    obtain ⟨rfl, hnone⟩ | ⟨m, hm, hearliest, hmin⟩ := h.earliest
    · have hadd : (s.add gaps record).earliest = some record := by simp only [Summary.add, hnone]
      exact ⟨record, by simp, hadd, by simp⟩
    · have hadd : (s.add gaps record).earliest =
          if record.ts < m.ts then some record else some m := by
        simp only [Summary.add, hearliest]
      rw [hadd]
      by_cases hlt : record.ts < m.ts
      · refine ⟨record, by simp, if_pos hlt, fun x hx => ?_⟩
        obtain hx | rfl : x ∈ done ∨ x = record := by simpa using hx
        · exact hlt.le.trans (hmin x hx)
        · exact le_rfl
      · refine ⟨m, by simp [hm], if_neg hlt, fun x hx => ?_⟩
        obtain hx | rfl : x ∈ done ∨ x = record := by simpa using hx
        · exact hmin x hx
        · exact not_lt.mp hlt
  latest := by
    rw [latestOf_append, ← h.latest]
    rfl

end Add

theorem kept_foldl {records : List (Record τ)} (h : (records.map Record.seq).Nodup) :
    Kept gaps records (records.foldl (Summary.add gaps) {}) := by
  induction records using List.reverseRecOn with
  | nil => exact kept_nil
  | append_singleton done record ih =>
    rw [map_append, nodup_append'] at h
    rw [foldl_append]
    refine kept_add (ih h.1) fun hmem => ?_
    exact h.2.2 hmem (by simp)

/-! ## the records that are kept -/

/-- The records of a dictionary are some of the response's, under their numbers. -/
def Own (all : List (Record τ)) (d : Dict Nat (Record τ)) : Prop :=
  ∀ {k r}, d.get? k = some r → r ∈ all ∧ r.seq = k

section Rows

variable {all : List (Record τ)}

omit [LinearOrder τ] in
theorem update_spec (hseq : (all.map Record.seq).Nodup) {xs : List (Record τ)}
    (hxs : ∀ x ∈ xs, x ∈ all) {d : Dict Nat (Record τ)} (hd : Own all d) :
    Own all (d.update (xs.map fun r => (r.seq, r))) ∧ (∀ r : Record τ, d.get? r.seq = some r →
        (d.update (xs.map fun r => (r.seq, r))).get? r.seq = some r) ∧
      ∀ x ∈ xs, (d.update (xs.map fun r => (r.seq, r))).get? x.seq = some x := by
  induction xs generalizing d with
  | nil => exact ⟨hd, fun _ hr => hr, by simp⟩
  | cons x xs ih =>
    have hx := hxs x (by simp)
    have hset : Own all (d.set x.seq x) := by
      intro k r hr
      rw [get?_set] at hr
      by_cases hk : k = x.seq
      · rw [if_pos hk] at hr
        obtain rfl : x = r := by simpa using hr
        exact ⟨hx, hk.symm⟩
      · rw [if_neg hk] at hr
        exact hd hr
    obtain ⟨hown, hstay, hall⟩ := ih (fun y hy => hxs y (by simp [hy])) hset
    have hself : (d.set x.seq x).get? x.seq = some x := by rw [get?_set, if_pos rfl]
    refine ⟨hown, fun r hr => hstay r ?_, fun y hy => ?_⟩
    · rw [get?_set]
      by_cases hk : r.seq = x.seq
      · rw [if_pos hk, inj_on_of_nodup_map hseq (hd hr).1 hx hk]
      · rw [if_neg hk]
        exact hr
    · obtain rfl | hy : y = x ∨ y ∈ xs := by simpa using hy
      · exact hstay y hself
      · exact hall y hy

/-- The records of a summary. -/
structure Rows (gaps : List (τ × τ)) (all rows : List (Record τ)) (s : Summary τ) : Prop where
  sub : ∀ r ∈ rows, r ∈ all
  nodup : rows.Nodup
  kept : ∀ r : Record τ, s.records.get? r.seq = some r → r ∈ rows
  first : ∀ r ∈ all.take 2, r ∈ rows
  earliest : ∀ r, s.earliest = some r → r ∈ rows
  latest : ∀ r, latestOf all = some r → r ∈ rows

variable {s : Summary τ}

theorem rows_spec (hseq : (all.map Record.seq).Nodup) (h : Kept gaps all s) :
    Rows gaps all s.rows s := by
  have hmore : ∀ x ∈ s.first ++ s.earliest.toList ++ s.latest.toList, x ∈ all := by
    intro x hx
    simp only [mem_append, Option.mem_toList] at hx
    obtain (hx | hx) | hx := hx
    · rw [h.first] at hx
      exact mem_of_mem_take hx
    · obtain ⟨-, hnone⟩ | ⟨m, hm, hearliest, -⟩ := h.earliest
      · simp [hnone] at hx
      · rw [hearliest] at hx
        obtain rfl : m = x := by simpa using hx
        exact hm
    · rw [h.latest] at hx
      obtain ⟨-, hnone⟩ | ⟨m, hm, hlatest, -⟩ := latestOf_spec all
      · simp [hnone] at hx
      · rw [hlatest] at hx
        obtain rfl : m = x := by simpa using hx
        exact hm
  obtain ⟨hown, hstay, hall⟩ := update_spec hseq hmore (fun {k r} => h.records)
  have hmem : ∀ {r : Record τ}, (s.records.update ((s.first ++ s.earliest.toList ++
      s.latest.toList).map fun r => (r.seq, r))).get? r.seq = some r → r ∈ s.rows :=
    fun hr => List.mem_map.mpr ⟨_, get?_eq_some.mp hr, rfl⟩
  exact {
    sub := by
      intro r hr
      obtain ⟨⟨k, r⟩, hentry, rfl⟩ := List.mem_map.mp hr
      exact (hown (get?_eq_some.mpr hentry)).1
    nodup := by
      refine List.Nodup.of_map Record.seq ?_
      have hkeys : s.rows.map Record.seq = (s.records.update ((s.first ++ s.earliest.toList ++
          s.latest.toList).map fun r => (r.seq, r))).entries.map Prod.fst := by
        rw [Summary.rows, List.map_map]
        refine map_congr_left fun entry hentry => ?_
        exact (hown (get?_eq_some.mpr hentry)).2
      rw [hkeys]
      exact Dict.nodup _
    kept := fun r hr => hmem (hstay r hr)
    first := fun r hr => hmem (hall r (by simp [h.first, hr]))
    earliest := fun r hr => hmem (hall r (by simp [hr]))
    latest := fun r hr => hmem (hall r (by simp [h.latest, hr])) }

variable {rows : List (Record τ)}

theorem values_of_rows (h : Kept gaps all s)
    (hrows : Rows gaps all rows s) {field : Column} (hfield : field ∈ fields) :
    (valuesOf rows field = [] ↔ valuesOf all field = []) ∧
      single (valuesOf rows field) = single (valuesOf all field) ∧
      (1 < (valuesOf rows field).length ↔ 1 < (valuesOf all field).length) := by
  have hkept : ∀ v ∈ s.values field, v ∈ valuesOf rows field := by
    intro v hv
    obtain ⟨r, hr, hcount⟩ := h.values field hfield v hv
    exact mem_valuesOf.mpr ⟨r, hrows.kept r hr, hcount⟩
  have hfull : ∀ v ∈ valuesOf all field, v ∈ s.values field ∨ 1 < (s.values field).length := by
    intro v hv
    obtain ⟨r, hr, hcount⟩ := mem_valuesOf.mp hv
    exact h.full field hfield r hr v hcount
  have htwo : 1 < (s.values field).length → 1 < (valuesOf rows field).length := by
    intro hlt
    obtain ⟨u, hu, v, hv, hne⟩ := (one_lt_length_iff (h.nodup field)).mp hlt
    exact (one_lt_length_iff (nodup_valuesOf _ _)).mpr ⟨u, hkept u hu, v, hkept v hv, hne⟩
  refine values_alike (nodup_valuesOf _ _) (nodup_valuesOf _ _) ?_ ?_ ?_
  · intro v hv
    obtain ⟨r, hr, hcount⟩ := mem_valuesOf.mp hv
    exact mem_valuesOf.mpr ⟨r, hrows.sub r hr, hcount⟩
  · intro v hv
    obtain hv | hlt := hfull v hv
    · exact ne_nil_of_mem (hkept v hv)
    · exact ne_nil_of_length_pos (Nat.zero_lt_one.trans (htwo hlt))
  · intro hlt
    obtain ⟨u, hu, v, hv, hne⟩ := (one_lt_length_iff (nodup_valuesOf _ _)).mp hlt
    obtain hu | hlt := hfull u hu
    · obtain hv | hlt := hfull v hv
      · exact (one_lt_length_iff (nodup_valuesOf _ _)).mpr ⟨u, hkept u hu, v, hkept v hv, hne⟩
      · exact htwo hlt
    · exact htwo hlt

theorem flag_of_rows (h : Kept gaps all s)
    (hrows : Rows gaps all rows s) {f : Record τ → Bool} (hf : IsFlag gaps f) (b : Bool) :
    (∃ r ∈ rows, f r = b) ↔ ∃ r ∈ all, f r = b := by
  obtain ⟨i, hi⟩ := hf
  constructor
  · rintro ⟨r, hr, hb⟩
    exact ⟨r, hrows.sub r hr, hb⟩
  · rintro ⟨r, hr, hb⟩
    obtain ⟨k, hk, hkb⟩ := h.flagged i b (h.flags r hr i b ((hi r).trans (congrArg some hb)))
    exact ⟨k, hrows.kept k hk, by simpa using (hi k).symm.trans hkb⟩

omit [LinearOrder τ] in
theorem latest_of_rows (hseq : (all.map Record.seq).Nodup)
    (hrows : Rows gaps all rows s) : latestOf rows = latestOf all := by
  obtain ⟨rfl, hnone⟩ | ⟨m, hm, hlatest, hmax⟩ := latestOf_spec all
  · obtain rfl : rows = [] :=
      eq_nil_iff_forall_not_mem.mpr fun r hr => by simpa using hrows.sub r hr
    rfl
  · have hmem := hrows.latest m hlatest
    obtain ⟨rfl, -⟩ | ⟨x, hx, hrow, hxmax⟩ := latestOf_spec rows
    · simp at hmem
    · have hxall := hrows.sub x hx
      have heq : x.seq = m.seq := le_antisymm (hmax x hxall) (hxmax m hmem)
      rw [hrow, hlatest, inj_on_of_nodup_map hseq hxall hm heq]

theorem earliest_of_rows (h : Kept gaps all s)
    (hrows : Rows gaps all rows s) : (rows.map Record.ts).min? = (all.map Record.ts).min? := by
  obtain ⟨rfl, -⟩ | ⟨m, hm, hearliest, hmin⟩ := h.earliest
  · obtain rfl : rows = [] :=
      eq_nil_iff_forall_not_mem.mpr fun r hr => by simpa using hrows.sub r hr
    rfl
  · have hall : (all.map Record.ts).min? = some m.ts := by
      rw [min?_eq_some_iff]
      refine ⟨List.mem_map.mpr ⟨m, hm, rfl⟩, fun t ht => ?_⟩
      obtain ⟨r, hr, rfl⟩ := List.mem_map.mp ht
      exact hmin r hr
    rw [hall, min?_eq_some_iff]
    refine ⟨List.mem_map.mpr ⟨m, hrows.earliest m hearliest, rfl⟩, fun t ht => ?_⟩
    obtain ⟨r, hr, rfl⟩ := List.mem_map.mp ht
    exact hmin r (hrows.sub r hr)

omit [LinearOrder τ] in
theorem alone_of_rows (hnodup : all.Nodup) (hrows : Rows gaps all rows s) :
    (rows.length = 1 ↔ all.length = 1) ∧ (all.length = 1 → rows.head? = all.head?) ∧
      (rows = [] ↔ all = []) := by
  match all, hnodup with
  | [], _ =>
    obtain rfl : rows = [] :=
      eq_nil_iff_forall_not_mem.mpr fun r hr => by simpa using hrows.sub r hr
    simp
  | [a], _ =>
    have ha : a ∈ rows := hrows.first a (by simp)
    have hperm : rows.Perm [a] := (perm_ext_iff_of_nodup hrows.nodup (by simp)).mpr
      fun r => ⟨hrows.sub r, fun hr => by
        obtain rfl : r = a := by simpa using hr
        exact ha⟩
    obtain rfl := perm_singleton.mp hperm
    simp
  | a :: b :: rest, hnodup =>
    have ha : a ∈ rows := hrows.first a (by simp)
    have hb : b ∈ rows := hrows.first b (by simp)
    have hne : a ≠ b := fun heq => by simp [heq] at hnodup
    match rows, ha, hb with
    | [x], ha, hb => exact absurd (by simp_all) hne
    | _ :: _ :: _, _, _ => simp

theorem alike_rows (hseq : (all.map Record.seq).Nodup) :
    Alike gaps (evidenceRows gaps all) all := by
  have h : Kept gaps all (all.foldl (Summary.add gaps) {}) := kept_foldl hseq
  have hrows := rows_spec hseq h
  obtain ⟨halone, hhead, hempty⟩ := alone_of_rows (List.Nodup.of_map _ hseq) hrows
  exact {
    empty := hempty
    none := fun field hfield => (values_of_rows h hrows hfield).1
    single := fun field hfield => (values_of_rows h hrows hfield).2.1
    many := fun field hfield => (values_of_rows h hrows hfield).2.2
    any := fun f hf => by
      have hflag := flag_of_rows h hrows hf true
      rw [Bool.eq_iff_iff, any_eq_true, any_eq_true]
      exact hflag
    every := fun f hf => by
      have hflag : (∃ r ∈ evidenceRows gaps all, f r = false) ↔ ∃ r ∈ all, f r = false :=
        flag_of_rows h hrows hf false
      rw [Bool.eq_iff_iff, ← not_iff_not, Bool.not_eq_true, Bool.not_eq_true, all_eq_false,
        all_eq_false]
      simpa only [Bool.not_eq_true] using hflag
    latest := latest_of_rows hseq hrows
    earliest := earliest_of_rows h hrows
    alone := halone
    head := hhead }

end Rows

/-- The join of the kept records is the join of all of them. -/
theorem join_of_witnesses (gaps : List (τ × τ)) (row : Row) (records : List (Record τ))
    (hseq : (records.map Record.seq).Nodup) :
    join gaps row (evidenceRows gaps records) = join gaps row records :=
  join_congr (alike_rows hseq) row

def attempt (seq ts : Nat) : Record Nat where
  seq := seq
  ts := ts
  get
    | .status => ofText "completed"
    | .requestedModel => ofText "gpt-5"
    | .responseModel => ofText "gpt-5"
    | .transport => ofText "WebSocket"
    | _ => .null

/-- Three of five alike attempts are kept. -/
theorem join_of_three_witnesses :
    (evidenceRows [(20, 30)] [attempt 1 10, attempt 2 11, attempt 3 12, attempt 4 13,
        attempt 5 14]).map Record.seq = [1, 2, 5] ∧
      join [(20, 30)] {} (evidenceRows [(20, 30)] [attempt 1 10, attempt 2 11, attempt 3 12,
        attempt 4 13, attempt 5 14]) =
      join [(20, 30)] {} [attempt 1 10, attempt 2 11, attempt 3 12, attempt 4 13, attempt 5 14] :=
  ⟨by decide, join_of_witnesses _ _ _ (by decide)⟩

end Codexon.EvidenceJoin
