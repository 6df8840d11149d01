import Codexon.EvidenceJoin

/-!
# Codexon.EvidenceJoin.Witnesses

The records that a summary keeps answer every question of the join as all records do.
-/

namespace Codexon.EvidenceJoin

variable {τ : Type} [LinearOrder τ] {gaps : List (τ × τ)}

/-! ## the latest record -/

section Latest

omit [LinearOrder τ]

theorem latestOf_append (evidence : List (Record τ)) (r : Record τ) :
    latestOf (evidence ++ [r]) =
      match latestOf evidence with
      | some latest => if latest.seq < r.seq then some r else some latest
      | none => some r := List.foldl_append

theorem latestOf_spec (evidence : List (Record τ)) : (evidence = [] ∧ latestOf evidence = none) ∨
      ∃ m ∈ evidence, latestOf evidence = some m ∧ ∀ r ∈ evidence, r.seq ≤ m.seq := by
  induction evidence using List.reverseRecOn with
  | nil => exact .inl ⟨rfl, rfl⟩
  | append_singleton evidence r ih =>
    right
    rw [latestOf_append]
    obtain ⟨rfl, hnone⟩ | ⟨m, hm, hlatest, hmax⟩ := ih
    · rw [hnone]
      exact ⟨r, by simp, rfl, by simp⟩
    · rw [hlatest]
      by_cases hlt : m.seq < r.seq
      · refine ⟨r, by simp, if_pos hlt, fun x hx => ?_⟩
        obtain hx | rfl : x ∈ evidence ∨ x = r := by simpa using hx
        · exact (hmax x hx).trans hlt.le
        · exact le_rfl
      · refine ⟨m, by simp [hm], if_neg hlt, fun x hx => ?_⟩
        obtain hx | rfl : x ∈ evidence ∨ x = r := by simpa using hx
        · exact hmax x hx
        · exact not_lt.mp hlt

end Latest

/-! ## what the join asks -/

def IsFlag (gaps : List (τ × τ)) (f : Record τ → Bool) : Prop :=
  ∃ i : Nat, ∀ r : Record τ, (r.flags gaps)[i]? = some (f r)

/-- Some records answer what the join asks as others do. -/
structure Alike (gaps : List (τ × τ)) (some_ all : List (Record τ)) : Prop where
  empty : some_ = [] ↔ all = []
  none : ∀ field ∈ fields, valuesOf some_ field = [] ↔ valuesOf all field = []
  single : ∀ field ∈ fields, single (valuesOf some_ field) = single (valuesOf all field)
  many : ∀ field ∈ fields, 1 < (valuesOf some_ field).length ↔ 1 < (valuesOf all field).length
  any : ∀ f, IsFlag gaps f → some_.any f = all.any f
  every : ∀ f, IsFlag gaps f → some_.all f = all.all f
  latest : latestOf some_ = latestOf all
  earliest : (some_.map Record.ts).min? = (all.map Record.ts).min?
  alone : some_.length = 1 ↔ all.length = 1
  head : all.length = 1 → some_.head? = all.head?

section Values

omit [LinearOrder τ]

variable {evidence : List (Record τ)} {field : Column}

theorem mem_valuesOf {v : Value} :
    v ∈ valuesOf evidence field ↔ ∃ r ∈ evidence, r.counted field = some v := by
  simp [valuesOf]

theorem nodup_valuesOf (evidence : List (Record τ)) (field : Column) :
    (valuesOf evidence field).Nodup := List.nodup_dedup _

theorem one_lt_length_iff {vs : List Value} (h : vs.Nodup) :
    1 < vs.length ↔ ∃ u ∈ vs, ∃ v ∈ vs, u ≠ v := by
  constructor
  · intro hlt
    match vs, hlt with
    | u :: v :: rest, _ =>
      have hne : u ≠ v := fun heq => by simp [heq] at h
      exact ⟨u, by simp, v, by simp, hne⟩
  · rintro ⟨u, hu, v, hv, hne⟩
    match vs, hu, hv with
    | [w], hu, hv => exact absurd (by simp_all) hne
    | _ :: _ :: _, _, _ => simp

theorem single_eq_some {vs : List Value} (h : vs.Nodup) {v : Value} :
    single vs = some v ↔ v ∈ vs ∧ ∀ u ∈ vs, u = v := by
  match vs with
  | [] => simp [single]
  | [w] => simp [single, eq_comm]
  | w :: x :: rest =>
    have hne : w ≠ x := fun heq => by simp [heq] at h
    constructor
    · intro hsingle
      simp [single] at hsingle
    · rintro ⟨-, hall⟩
      exact absurd ((hall w (by simp)).trans (hall x (by simp)).symm) hne

theorem values_alike {us vs : List Value} (hus : us.Nodup) (hvs : vs.Nodup)
    (hsub : ∀ u ∈ us, u ∈ vs) (hne : ∀ v ∈ vs, us ≠ []) (hmany : 1 < vs.length → 1 < us.length) :
    (us = [] ↔ vs = []) ∧ single us = single vs ∧ (1 < us.length ↔ 1 < vs.length) := by
  have hnone : us = [] ↔ vs = [] := by
    constructor
    · intro h
      exact List.eq_nil_iff_forall_not_mem.mpr fun v hv => hne v hv h
    · intro h
      exact List.eq_nil_iff_forall_not_mem.mpr fun u hu => by simpa [h] using hsub u hu
  have hlength : 1 < us.length ↔ 1 < vs.length := by
    refine ⟨fun h => ?_, hmany⟩
    rw [one_lt_length_iff hus] at h
    obtain ⟨u, hu, v, hv, hdiff⟩ := h
    exact (one_lt_length_iff hvs).mpr ⟨u, hsub u hu, v, hsub v hv, hdiff⟩
  refine ⟨hnone, ?_, hlength⟩
  ext w
  rw [single_eq_some hus, single_eq_some hvs]
  constructor
  · rintro ⟨hw, hall⟩
    refine ⟨hsub w hw, fun v hv => by_contra fun hdiff => ?_⟩
    have htwo := hmany ((one_lt_length_iff hvs).mpr ⟨v, hv, w, hsub w hw, hdiff⟩)
    obtain ⟨a, ha, b, hb, hab⟩ := (one_lt_length_iff hus).mp htwo
    exact hab ((hall a ha).trans (hall b hb).symm)
  · rintro ⟨hw, hall⟩
    obtain ⟨u, hu⟩ := List.exists_mem_of_ne_nil us (hne w hw)
    obtain rfl := hall u (hsub u hu)
    exact ⟨hu, fun x hx => hall x (hsub x hx)⟩

end Values

/-! ## the join -/

omit [LinearOrder τ] in
theorem completedPair_eq {evidence : List (Record τ)} {requested responded : Value}
    (hreq : single (valuesOf evidence .requestedModel) = some requested)
    (hres : single (valuesOf evidence .responseModel) = some responded)
    (htruthy : requested.truthy && responded.truthy) :
    completedPair evidence requested responded = evidence.any fun e => e.completed && e.paired := by
  have hone : ∀ r ∈ evidence, (r.get .requestedModel).truthy → r.get .requestedModel = requested :=
    fun r hr h => ((single_eq_some (nodup_valuesOf _ _)).mp hreq).2 _
      (mem_valuesOf.mpr ⟨r, hr, by simp [Record.counted, h]⟩)
  have htwo : ∀ r ∈ evidence, (r.get .responseModel).truthy → r.get .responseModel = responded :=
    fun r hr h => ((single_eq_some (nodup_valuesOf _ _)).mp hres).2 _
      (mem_valuesOf.mpr ⟨r, hr, by simp [Record.counted, h]⟩)
  rw [Bool.and_eq_true] at htruthy
  rw [Bool.eq_iff_iff, completedPair, List.any_eq_true, List.any_eq_true]
  refine exists_congr fun r => and_congr_right fun hr => ?_
  simp only [Record.paired, Bool.and_eq_true, decide_eq_true_eq, and_assoc]
  refine and_congr_right fun _ => ⟨?_, ?_⟩
  · rintro ⟨hrequested, hresponded⟩
    rw [hrequested, hresponded]
    exact htruthy
  · rintro ⟨hrequested, hresponded⟩
    exact ⟨hone r hr hrequested, htwo r hr hresponded⟩

theorem alert_congr {some_ all : List (Record τ)} (h : Alike gaps some_ all) (conflict : Bool) :
    let requested := (single (valuesOf all .requestedModel)).getD (.text [])
    let responded := (single (valuesOf all .responseModel)).getD (.text [])
    (requested.truthy && responded.truthy && decide (requested ≠ responded) && !conflict &&
        completedPair some_ requested responded && some_.all Record.completed) =
      (requested.truthy && responded.truthy && decide (requested ≠ responded) && !conflict &&
        completedPair all requested responded && all.all Record.completed) := by
  intro requested responded
  have hcompleted := h.every Record.completed ⟨2, fun r => rfl⟩
  have hpair := h.any (fun r => r.completed && r.paired) ⟨4, fun r => rfl⟩
  rw [hcompleted]
  by_cases htruthy : requested.truthy && responded.truthy
  · obtain ⟨a, ha⟩ : ∃ a, single (valuesOf all .requestedModel) = some a := by
      rw [← Option.isSome_iff_exists]
      by_contra hnone
      simp [requested, Option.not_isSome_iff_eq_none.mp hnone, Value.truthy] at htruthy
    obtain ⟨b, hb⟩ : ∃ b, single (valuesOf all .responseModel) = some b := by
      rw [← Option.isSome_iff_exists]
      by_contra hnone
      simp [responded, Option.not_isSome_iff_eq_none.mp hnone, Value.truthy] at htruthy
    have hrequested : requested = a := by simp [requested, ha]
    have hresponded : responded = b := by simp [responded, hb]
    rw [hrequested, hresponded] at htruthy ⊢
    have hsome : completedPair some_ a b = some_.any fun e => e.completed && e.paired :=
      completedPair_eq ((h.single _ (by simp [fields])).trans ha)
        ((h.single _ (by simp [fields])).trans hb) htruthy
    rw [hsome, completedPair_eq ha hb htruthy, hpair]
  · simp [Bool.eq_false_iff.mpr htruthy]

theorem effort_congr {some_ all : List (Record τ)} (h : Alike gaps some_ all) (row : Row)
    (conflict : Bool) : joinEffort row some_ conflict = joinEffort row all conflict := by
  have hempty : (some_ ≠ []) = (all ≠ []) := propext (not_congr h.empty)
  have hrequested := h.any (fun r => (r.get .requestedEffortConflict).truthy) ⟨6, fun r => rfl⟩
  have hresponse := h.any (fun r => (r.get .responseEffortConflict).truthy) ⟨7, fun r => rfl⟩
  have hconfirmed := h.every
    (fun r => r.completed && r.paired && (r.get .responseEffort).truthy) ⟨8, fun r => rfl⟩
  have hmany (field : Column) (hmem : field ∈ fields) :=
    propext (h.many field hmem)
  have hnone := propext (not_congr (h.none .requestedEffort (by simp [fields])))
  unfold joinEffort
  simp only [hempty, hrequested, hresponse, hconfirmed, hmany .requestedEffort (by simp [fields]),
    hmany .responseEffort (by simp [fields]), h.single .requestedEffort (by simp [fields]),
    h.single .responseEffort (by simp [fields]), ne_eq, hnone]

theorem join_congr {some_ all : List (Record τ)} (h : Alike gaps some_ all) (row : Row) :
    join gaps row some_ = join gaps row all := by
  have hempty : (some_ ≠ []) = (all ≠ []) := propext (not_congr h.empty)
  have halone : (some_.length = 1) = (all.length = 1) := propext h.alone
  have hmissing := h.any (·.missing gaps) ⟨0, fun r => rfl⟩
  have hconflict := h.any (fun r => (r.get .conflict).truthy) ⟨1, fun r => rfl⟩
  have hpaired := h.any Record.paired ⟨3, fun r => rfl⟩
  have hcompleted := h.every Record.completed ⟨2, fun r => rfl⟩
  have hconfirmed := h.every
    (fun r => r.completed && r.paired && (r.get .responseServiceTier).truthy) ⟨5, fun r => rfl⟩
  have hmany (field : Column) (hmem : field ∈ fields) := propext (h.many field hmem)
  have hone (field : Column) (hmem : field ∈ fields) :
      ((valuesOf some_ field).length ≤ 1) = ((valuesOf all field).length ≤ 1) := by
    rw [← not_lt, ← not_lt, hmany field hmem]
  have hnone (field : Column) (hmem : field ∈ fields) := propext (h.none field hmem)
  have hsingle := h.single
  have htransport : joinTransport some_ = joinTransport all := by
    unfold joinTransport
    simp only [ne_eq, hnone .transport (by simp [fields]), h.latest,
      hsingle .transport (by simp [fields])]
  have hmode : joinMode (valuesOf some_ .requestedServiceTier) =
      joinMode (valuesOf all .requestedServiceTier) := by
    unfold joinMode
    simp only [ne_eq, hnone .requestedServiceTier (by simp [fields]),
      hmany .requestedServiceTier (by simp [fields]),
      hsingle .requestedServiceTier (by simp [fields])]
  have htiming (b : Bool) : (decide (all.length = 1) && b && some_.head?.any Record.completed) =
      (decide (all.length = 1) && b && all.head?.any Record.completed) := by
    by_cases hall : all.length = 1
    · rw [h.head hall]
    · simp [hall]
  have htimes (b : Bool) :
      (if decide (all.length = 1) && b && all.head?.any Record.completed then
        some_.head?.map Record.timing else none) =
      if decide (all.length = 1) && b && all.head?.any Record.completed then
        all.head?.map Record.timing else none := by
    by_cases hall : all.length = 1
    · rw [h.head hall]
    · simp [hall]
  unfold join
  simp only [hempty, halone, hmissing, hconflict, hpaired, hcompleted, hconfirmed, hmode,
    htransport, htiming, htimes, h.latest, h.earliest, effort_congr h,
    hmany .requestedModel (by simp [fields]), hmany .responseModel (by simp [fields]),
    hmany .requestedServiceTier (by simp [fields]), hmany .cachePolicy (by simp [fields]),
    hone .requestedServiceTier (by simp [fields]), hnone .requestedServiceTier (by simp [fields]),
    hnone .wireServiceTierPresent (by simp [fields]), ne_eq,
    hsingle .requestedModel (by simp [fields]), hsingle .responseModel (by simp [fields]),
    hsingle .cachePolicy (by simp [fields]), hsingle .responseServiceTier (by simp [fields]),
    hsingle .wireServiceTierPresent (by simp [fields])]
  have halert := alert_congr h
  simp only [hcompleted, ne_eq] at halert
  simp only [halert]

end Codexon.EvidenceJoin
