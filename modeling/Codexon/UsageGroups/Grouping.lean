import Codexon.UsageGroups

/-!
# Codexon.UsageGroups.Grouping

The groups of the extension are those of Python, in their order, unless a label raises before the
extension gives up.
-/

namespace Codexon.UsageGroups

open List

/-! ## labels -/

def keyOf (row : Row) : Json × Json :=
  (labelPython (row.get (py "model")), labelPython (row.get (py "effort")))

def Labelled (label : Json) (text : PyStr) : Prop := label = .str text ∧ Native.Encodable text

def Failing (label : Json) : Prop := ∃ text, label = .str text ∧ ¬Native.Encodable text

theorem label_some {row : Row} {key : PyStr} {text : PyStr} :
    label row key = .ok (some text) ↔ Labelled (labelPython (row.get key)) text := by
  have hunknown : Native.Encodable unknown := by decide +kernel
  unfold label labelPython Labelled
  cases row.get key with
  | none =>
    constructor
    · intro h
      rw [← Option.some.inj (Except.ok.inj h)]
      exact ⟨rfl, hunknown⟩
    · rintro ⟨h, -⟩
      rw [Json.str.inj h]
  | some value =>
    cases htruthy : value.truthy with
    | false =>
      simp only [Json.orElse, htruthy]
      constructor
      · intro h
        rw [← Option.some.inj (Except.ok.inj h)]
        exact ⟨rfl, hunknown⟩
      · rintro ⟨h, -⟩
        rw [← Json.str.inj h]
        rfl
    | true =>
      cases value with
      | str t =>
        simp only [Json.orElse, htruthy]
        by_cases h : Native.Encodable t
        · simp [Native.extractText_of h]
          grind
        · simp [Native.extractText_of_not h]
          grind
      | _ => simp [Json.orElse, htruthy]

variable {e : PyError}

theorem label_error {row : Row} {key : PyStr} :
    label row key = .error e ↔ Failing (labelPython (row.get key)) ∧ e = .valueError := by
  have hunknown : Native.Encodable unknown := by decide +kernel
  have hnot : ¬Failing (.str unknown) := by
    rintro ⟨text, htext, h⟩
    exact h (Json.str.inj htext ▸ hunknown)
  unfold label labelPython
  cases row.get key with
  | none => simp [hnot]
  | some value =>
    cases htruthy : value.truthy with
    | false => simp [Json.orElse, htruthy, hnot]
    | true =>
      cases value with
      | str t =>
        by_cases h : Native.Encodable t
        · simp [Json.orElse, htruthy, Native.extractText_of h, Failing, h]
        · simp [Json.orElse, htruthy, Native.extractText_of_not h, Failing, h, eq_comm]
      | _ => simp [Json.orElse, htruthy, Failing]

/-! ## rows the extension takes -/

def textKey (key : PyStr × PyStr) : Json × Json := (.str key.1, .str key.2)

theorem textKey_injective : Function.Injective textKey := by
  rintro ⟨a, b⟩ ⟨c, d⟩ h
  simpa [textKey] using h

def groupOf (rows : List Row) (key : Json × Json) : List Row := rows.filter (keyOf · = key)

/-- The extension takes a row, as far as it goes. -/
structure Taken (row : Row) : Prop where
  exact : row.exact = true
  model : ∃ text, Labelled (keyOf row).1 text
  effort : ∃ text, Labelled (keyOf row).2 text
  fits : row.Fits

/-- The extension takes all rows, and the sums of each group fit. -/
structure Accepted (rows : List Row) : Prop where
  taken : ∀ row ∈ rows, Taken row
  sums : ∀ key, (counted (groupOf rows key)).Fits

def Raising (row : Row) : Prop :=
  row.exact = true ∧ (Failing (keyOf row).1 ∨
    (∃ text, Labelled (keyOf row).1 text) ∧ Failing (keyOf row).2)

theorem groupOf_append (rows : List Row) (row : Row) (key : Json × Json) :
    groupOf (rows ++ [row]) key =
      groupOf rows key ++ if keyOf row = key then [row] else [] := by
  by_cases h : keyOf row = key <;> simp [groupOf, h]

theorem Accepted.nil : Accepted [] := ⟨by simp, fun _ => counted_nil⟩

variable {rows : List Row}

theorem Accepted.of_append {row : Row} (h : Accepted (rows ++ [row])) :
    Accepted rows where
  taken r hr := h.taken r (by simp [hr])
  sums key := by
    have hsums := h.sums key
    rw [groupOf_append] at hsums
    split_ifs at hsums
    · exact fits_of_append hsums
    · simpa using hsums

theorem Accepted.of_prefix {rest : List Row} (h : Accepted (rows ++ rest)) : Accepted rows := by
  induction rest using List.reverseRecOn with
  | nil => simpa using h
  | append_singleton rest row ih =>
    rw [← append_assoc] at h
    exact ih h.of_append

/-! ## one row -/

def countGroup (group : (Json × Json) × List Row) : Counter := counted group.2

/-- The counters are those of the groups of Python. -/
structure Represents (counters : Counters) (rows : List Row) (groups : Groups) : Prop where
  python : rows.foldlM groupRowPython {} = .ok groups
  group : ∀ key, groups.get? key =
    if groupOf rows key = [] then none else some (key, groupOf rows key)
  view : counters.view textKey id = groups.view id countGroup

theorem Represents.nil : Represents {} [] {} := ⟨rfl, fun _ => rfl, rfl⟩

section Row

variable {counters : Counters} {rows : List Row} {groups : Groups} {row : Row}

theorem Represents.counter (h : Represents counters rows groups) (key : PyStr × PyStr) :
    (counters.get? key).getD {} = counted (groupOf rows (textKey key)) := by
  have hcounter := Dict.view_get? id textKey_injective counters key
  have hgroup := Dict.view_get? countGroup Function.injective_id groups
    (textKey key)
  rw [h.view, Option.map_id, id] at hcounter
  rw [h.group] at hgroup
  rw [hcounter.trans hgroup.symm]
  split_ifs with hnil
  · rw [hnil]
    rfl
  · rfl

theorem groupRowPython_of {key : PyStr × PyStr} (hkey : keyOf row = textKey key) (groups : Groups) :
    groupRowPython groups row = .ok (groups.set (keyOf row)
      (((groups.get? (keyOf row)).getD (keyOf row, [])).1,
        ((groups.get? (keyOf row)).getD (keyOf row, [])).2 ++ [row])) := by
  have hmodel : labelPython (row.get (py "model")) = .str key.1 := congrArg Prod.fst hkey
  have heffort : labelPython (row.get (py "effort")) = .str key.2 := congrArg Prod.snd hkey
  have hkeyOf : keyOf row = (.str key.1, .str key.2) := hkey
  rw [groupRowPython, hmodel, heffort, hkeyOf]
  rfl

theorem Represents.set (h : Represents counters rows groups) {key : PyStr × PyStr}
    (hkey : keyOf row = textKey key) : ∃ groups',
    Represents (counters.set key (counted (groupOf (rows ++ [row]) (textKey key))))
      (rows ++ [row]) groups' := by
  have hgroup : ((groups.get? (keyOf row)).getD (keyOf row, [])) =
      (keyOf row, groupOf rows (keyOf row)) := by
    rw [h.group]
    split_ifs with hnil
    · rw [hnil]
      rfl
    · rfl
  have hstep := groupRowPython_of hkey groups
  have happend := groupOf_append rows row (keyOf row)
  rw [hgroup] at hstep
  rw [if_pos rfl] at happend
  refine ⟨groups.set (keyOf row) (keyOf row, groupOf (rows ++ [row]) (keyOf row)), ?_, ?_, ?_⟩
  · rw [foldlM_append, h.python, happend]
    simp only [foldlM_cons, foldlM_nil]
    exact (congrArg (· >>= pure) hstep).trans rfl
  · intro key'
    rw [Dict.get?_set]
    by_cases hsame : key' = keyOf row
    · have hne : groupOf (rows ++ [row]) (keyOf row) ≠ [] := by simp [happend]
      rw [hsame, if_pos rfl, if_neg hne]
    · rw [if_neg hsame, groupOf_append, if_neg (Ne.symm hsame), List.append_nil]
      exact h.group key'
  · rw [Dict.view_set id textKey_injective, h.view,
      Dict.view_set countGroup Function.injective_id, hkey]
    rfl

theorem groupRow_cases (row : Row) (h : Represents counters rows groups)
    (haccepted : Accepted rows) : (Raising row ∧ groupRow counters row = .error .valueError) ∨
    (¬Raising row ∧ ¬Accepted (rows ++ [row]) ∧ groupRow counters row = .ok none) ∨
    ∃ counters' groups', Represents counters' (rows ++ [row]) groups' ∧
      Accepted (rows ++ [row]) ∧ ¬Raising row ∧ groupRow counters row = .ok (some counters') := by
  have hlast : ∀ {p : Prop}, (Taken row → p) → Accepted (rows ++ [row]) → p := fun hp ha =>
    hp (ha.taken row (by simp))
  by_cases hexact : row.exact = true
  swap
  · exact .inr (.inl ⟨fun hr => hexact hr.1, hlast fun ht => hexact ht.exact,
      by simp [groupRow, hexact]⟩)
  cases hmodel : label row (py "model") with
  | error e =>
    obtain ⟨hfailing, rfl⟩ := label_error.mp hmodel
    exact .inl ⟨⟨hexact, .inl hfailing⟩, by simp [groupRow, hexact, hmodel]⟩
  | ok o =>
  have hmodelFails : ¬Failing (keyOf row).1 := by
    intro hfailing
    have herror := label_error.mpr ⟨hfailing, rfl⟩
    rw [hmodel] at herror
    contradiction
  cases o with
  | none =>
    have hnone : ¬∃ text, Labelled (keyOf row).1 text := by
      rintro ⟨text, htext⟩
      have hsome := label_some.mpr htext
      rw [hmodel] at hsome
      exact nomatch Except.ok.inj hsome
    refine .inr (.inl ⟨?_, hlast fun ht => hnone ht.model, by simp [groupRow, hexact, hmodel]⟩)
    exact fun hr => hr.2.elim hmodelFails fun hr => hnone hr.1
  | some model =>
  have hlabelled : Labelled (keyOf row).1 model := label_some.mp hmodel
  cases heffort : label row (py "effort") with
  | error e =>
    obtain ⟨hfailing, rfl⟩ := label_error.mp heffort
    exact .inl ⟨⟨hexact, .inr ⟨⟨model, hlabelled⟩, hfailing⟩⟩,
      by simp [groupRow, hexact, hmodel, heffort]⟩
  | ok o =>
  have heffortFails : ¬Failing (keyOf row).2 := by
    intro hfailing
    have herror := label_error.mpr ⟨hfailing, rfl⟩
    rw [heffort] at herror
    contradiction
  have hraising : ¬Raising row := fun hr => hr.2.elim hmodelFails fun hr => heffortFails hr.2
  cases o with
  | none =>
    have hnone : ¬∃ text, Labelled (keyOf row).2 text := by
      rintro ⟨text, htext⟩
      have hsome := label_some.mpr htext
      rw [heffort] at hsome
      exact nomatch Except.ok.inj hsome
    exact .inr (.inl ⟨hraising, hlast fun ht => hnone ht.effort,
      by simp [groupRow, hexact, hmodel, heffort]⟩)
  | some effort =>
  have hlabelled' : Labelled (keyOf row).2 effort := label_some.mp heffort
  have hkey : keyOf row = textKey (model, effort) := Prod.ext hlabelled.1 hlabelled'.1
  by_cases hfits : row.Fits
  swap
  · exact .inr (.inl ⟨hraising, hlast fun ht => hfits ht.fits,
      by simp [groupRow, hexact, hmodel, heffort, values_of_not hfits]⟩)
  have happend := groupOf_append rows row (keyOf row)
  rw [if_pos rfl, hkey] at happend
  by_cases hsums : (counted (groupOf (rows ++ [row]) (textKey (model, effort)))).Fits
  · obtain ⟨groups', hrepresents⟩ := h.set hkey
    refine .inr (.inr ⟨_, groups', hrepresents, ⟨?_, fun key => ?_⟩, hraising, ?_⟩)
    · intro r hr
      rcases mem_append.mp hr with hr | hr
      · exact haccepted.taken r hr
      · rw [mem_singleton.mp hr]
        exact ⟨hexact, ⟨model, hlabelled⟩, ⟨effort, hlabelled'⟩, hfits⟩
    · by_cases hsame : keyOf row = key
      · rw [← hsame, hkey]
        exact hsums
      · rw [groupOf_append, if_neg hsame, List.append_nil]
        exact haccepted.sums key
    · rw [happend] at hsums ⊢
      simp [groupRow, hexact, hmodel, heffort, values_of hfits, h.counter, add_of hsums]
  · refine .inr (.inl ⟨hraising, fun ha => hsums (ha.sums _), ?_⟩)
    rw [happend] at hsums
    simp [groupRow, hexact, hmodel, heffort, values_of hfits, h.counter,
      add_of_not (haccepted.sums _) hsums]

end Row

/-! ## all rows -/

section Rows

variable {counters : Counters} {rows : List Row} {groups : Groups}

theorem groupRows_cases (rest : List Row) (h : Represents counters rows groups)
    (haccepted : Accepted rows) :
    ((∃ before row after, rest = before ++ row :: after ∧ Accepted (rows ++ before) ∧
        Raising row) ∧ groupRows counters rest = .error .valueError) ∨
    ((¬∃ before row after, rest = before ++ row :: after ∧ Accepted (rows ++ before) ∧
        Raising row) ∧ (groupRows counters rest = .ok none ∨
      ∃ counters' groups', Represents counters' (rows ++ rest) groups' ∧
        groupRows counters rest = .ok (some counters'))) := by
  induction rest generalizing counters rows groups with
  | nil => exact .inr ⟨by simp, .inr ⟨counters, groups, by simpa using h, rfl⟩⟩
  | cons row rest ih =>
    rcases groupRow_cases row h haccepted with
      ⟨hraising, hrow⟩ | ⟨hraising, hnot, hrow⟩ |
      ⟨counters', groups', h', haccepted', hraising, hrow⟩
    · exact .inl ⟨⟨[], row, rest, rfl, by simpa using haccepted, hraising⟩,
        by simp [groupRows, hrow]⟩
    · refine .inr ⟨?_, .inl (by simp [groupRows, hrow])⟩
      rintro ⟨before, row', after, heq, hbefore, hraising'⟩
      cases before with
      | nil =>
        rw [nil_append, List.cons.injEq] at heq
        exact hraising (heq.1 ▸ hraising')
      | cons first before =>
        rw [cons_append, List.cons.injEq] at heq
        rw [← heq.1, ← singleton_append, ← append_assoc] at hbefore
        exact hnot hbefore.of_prefix
    · have hsame : (∃ before row' after, row :: rest = before ++ row' :: after ∧
            Accepted (rows ++ before) ∧ Raising row') ↔
          ∃ before row' after, rest = before ++ row' :: after ∧
            Accepted (rows ++ [row] ++ before) ∧ Raising row' := by
        constructor
        · rintro ⟨before, row', after, heq, hbefore, hraising'⟩
          cases before with
          | nil =>
            rw [nil_append, List.cons.injEq] at heq
            exact absurd (heq.1 ▸ hraising') hraising
          | cons first before =>
            rw [cons_append, List.cons.injEq] at heq
            exact ⟨before, row', after, heq.2, by simpa [heq.1] using hbefore, hraising'⟩
        · rintro ⟨before, row', after, rfl, hbefore, hraising'⟩
          exact ⟨row :: before, row', after, rfl, by simpa using hbefore, hraising'⟩
      have hrows : groupRows counters (row :: rest) = groupRows counters' rest := by
        simp [groupRows, hrow]
      rw [hsame, hrows]
      simpa using ih h' haccepted'

end Rows

/-! ## the groups in order -/

def viewOutput (e : (Json × Json) × Counter) : Option Group :=
  e.2.output.map fun summary => ⟨e.1.1, e.1.2, summary⟩

theorem mapM_or {α β : Type} {f : α → Option β} {g : α → β} {xs : List α}
    (h : ∀ x ∈ xs, f x = none ∨ f x = some (g x)) :
    xs.mapM f = none ∨ xs.mapM f = some (xs.map g) := by
  induction xs with
  | nil => exact .inr rfl
  | cons x xs ih =>
    rcases h x (by simp) with hx | hx
    · exact .inl (by simp [hx])
    · rcases ih fun y hy => h y (by simp [hy]) with hxs | hxs
      · exact .inl (by simp [hx, hxs])
      · exact .inr (by simp [hx, hxs])

theorem Represents.output {counters : Counters} {groups : Groups}
    (h : Represents counters rows groups) :
    let found := (Keyed.sort (fun e => OrderDual.toDual (e.2.sums .total))
      counters.entries).mapM groupOutput
    found = none ∨ groupUsagePython rows = .ok (found.getD []) := by
  intro found
  let sorted := Keyed.sort (fun e => OrderDual.toDual ((counted e.2.2).sums .total)) groups.entries
  have hnative : found = sorted.mapM fun e => viewOutput (e.1, counted e.2.2) := by
    have hview : counters.entries.map (fun e => (textKey e.1, e.2)) =
        groups.entries.map fun e => (e.1, counted e.2.2) := h.view
    let total := fun e : (Json × Json) × Counter => OrderDual.toDual (e.2.sums .total)
    have hleft := Keyed.sort_map total
      (fun e : (PyStr × PyStr) × Counter => (textKey e.1, e.2)) counters.entries
    have hright := Keyed.sort_map total
      (fun e : (Json × Json) × ((Json × Json) × List Row) => (e.1, counted e.2.2)) groups.entries
    rw [hview, hright] at hleft
    have hfound : found = ((Keyed.sort (fun e => OrderDual.toDual (e.2.sums .total))
        counters.entries).map fun e => (textKey e.1, e.2)).mapM viewOutput := by
      rw [mapM_map]
      rfl
    rw [hfound, ← hleft, mapM_map]
    rfl
  have hkeys : ∀ e ∈ groups.entries, e.2.1 = e.1 := by
    intro e he
    have hget := Dict.get?_eq_some.mpr he
    rw [h.group] at hget
    split_ifs at hget
    rw [← Option.some.inj hget]
  have hpython : groupUsagePython rows =
      .ok (sorted.map fun e => Group.mk e.1.1 e.1.2 (summarizePython e.2.2)) := by
    have hgroups : groups.entries.map (fun e => Group.mk e.2.1.1 e.2.1.2 (summarizePython e.2.2)) =
        groups.entries.map fun e => Group.mk e.1.1 e.1.2 (summarizePython e.2.2) := by
      refine map_congr_left fun e he => ?_
      rw [hkeys e he]
    have htotal : ∀ rows, ((summarizePython rows).sums .total).getD 0 =
        (counted rows).sums .total := by
      intro rows
      by_cases hknown : known rows .total ≠ [] ∨ rows = []
      · simp [summarizePython, counted, hknown]
      · have hnil : known rows .total = [] := by
          by_contra hne
          exact hknown (.inl hne)
        have hrows : rows ≠ [] := fun hrows => hknown (.inr hrows)
        simp [summarizePython, counted, hnil, hrows]
    have hsort := Keyed.sort_map
      (fun group : Group => OrderDual.toDual ((group.summary.sums .total).getD 0))
      (fun e : (Json × Json) × ((Json × Json) × List Row) =>
        Group.mk e.1.1 e.1.2 (summarizePython e.2.2)) groups.entries
    simp only [htotal] at hsort
    rw [groupUsagePython, h.python]
    exact congrArg Except.ok ((congrArg _ hgroups).trans hsort)
  have hgroup : ∀ e ∈ sorted, viewOutput (e.1, counted e.2.2) = none ∨
      viewOutput (e.1, counted e.2.2) = some ⟨e.1.1, e.1.2, summarizePython e.2.2⟩ := by
    intro e _
    have houtput := output_counted e.2.2
    split_ifs at houtput
    · exact .inl (by simp [viewOutput, houtput])
    · exact .inr (by simp [viewOutput, houtput])
  rcases mapM_or hgroup with hall | hall
  · exact .inl (hnative.trans hall)
  · exact .inr (by rw [hpython, hnative, hall, Option.getD_some])

/-! ## agreement -/

theorem hashed_error {value : Json} (h : hashed value = .error e) : e = .typeError := by
  cases value with
  | arr => exact (Except.error.inj h).symm
  | obj => exact (Except.error.inj h).symm
  | float x => cases x <;> contradiction
  | _ => contradiction

theorem groupRowPython_error {groups : Groups} {row : Row}
    (h : groupRowPython groups row = .error e) : e = .typeError := by
  cases hmodel : hashed (labelPython (row.get (py "model"))) with
  | error e' =>
    simp only [groupRowPython, hmodel] at h
    rw [← Except.error.inj h]
    exact hashed_error hmodel
  | ok model =>
    cases heffort : hashed (labelPython (row.get (py "effort"))) with
    | error e' =>
      simp only [groupRowPython, hmodel, heffort] at h
      rw [← Except.error.inj h]
      exact hashed_error heffort
    | ok effort =>
      simp only [groupRowPython, hmodel, heffort] at h
      contradiction

theorem groupRowsPython_error {groups : Groups}
    (h : rows.foldlM groupRowPython groups = .error e) : e = .typeError := by
  induction rows generalizing groups with
  | nil => contradiction
  | cons row rows ih =>
    rw [foldlM_cons] at h
    cases hfirst : groupRowPython groups row with
    | error e' =>
      rw [hfirst] at h
      rw [← Except.error.inj h]
      exact groupRowPython_error hfirst
    | ok groups' =>
      rw [hfirst] at h
      exact ih h

theorem groupUsagePython_error (h : groupUsagePython rows = .error e) : e = .typeError := by
  unfold groupUsagePython at h
  cases hgroups : rows.foldlM groupRowPython {} with
  | error e' =>
    rw [hgroups] at h
    rw [← Except.error.inj h]
    exact groupRowsPython_error hgroups
  | ok groups =>
    rw [hgroups] at h
    contradiction

def Breaks (rows : List Row) : Prop :=
  ∃ before row after, rows = before ++ row :: after ∧ Accepted before ∧ Raising row

/-- The totals always agree, and the groups do unless a label raises. -/
theorem usage_grouping (rows : List Row) : summarize rows = summarizePython rows ∧
    (groupUsage rows = groupUsagePython rows ↔ ¬Breaks rows) := by
  refine ⟨summarize_eq rows, ?_⟩
  rcases groupRows_cases rows Represents.nil Accepted.nil with
    ⟨hbreaks, hrows⟩ | ⟨hbreaks, hrows⟩
  · have hnative : groupUsage rows = .error .valueError := by
      simp [groupUsage, groupUsageNative, hrows]
    have hbreaks : Breaks rows := by simpa only [nil_append, Breaks] using hbreaks
    rw [hnative]
    refine ⟨fun h => ?_, fun h => absurd hbreaks h⟩
    exact nomatch groupUsagePython_error h.symm
  · have hbreaks : ¬Breaks rows := by simpa only [nil_append, Breaks] using hbreaks
    refine ⟨fun _ => hbreaks, fun _ => ?_⟩
    rcases hrows with hrows | ⟨counters, groups, h, hrows⟩
    · simp [groupUsage, groupUsageNative, hrows]
    · rw [nil_append] at h
      have houtput := h.output
      dsimp only at houtput
      generalize hfound : (Keyed.sort (fun e => OrderDual.toDual (e.2.sums .total))
        counters.entries).mapM groupOutput = found at houtput
      have hnative : groupUsageNative rows = .ok found := by
        simp [groupUsageNative, hrows, hfound]
      cases found with
      | none => simp [groupUsage, hnative]
      | some found =>
        have hpython : groupUsagePython rows = .ok found := houtput.resolve_left (by simp)
        simp [groupUsage, hnative, hpython]

/-- A row whose model is half of a surrogate pair, as JSON may escape it. -/
theorem grouping_raises : ¬∀ rows, groupUsage rows = groupUsagePython rows := by
  intro h
  have hlabel : label { members := [(py "model", .str [0xD800])] } (py "model") =
      .error .valueError := by decide +kernel
  have hnative : groupUsage [{ members := [(py "model", .str [0xD800])] }] =
      .error .valueError := by
    simp [groupUsage, groupUsageNative, groupRows, groupRow, hlabel]
  exact nomatch groupUsagePython_error ((h _).symm.trans hnative)

end Codexon.UsageGroups
