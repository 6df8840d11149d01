import Codexon.TransportMatch
import Mathlib.Data.List.Induction

/-!
# Codexon.TransportMatch.Agreement

The sweep selects what `transport_details` selects: a candidate that is best among the transports
that qualify is the only one, and both find one.
-/

namespace Codexon.TransportMatch

open List

/-! ## the best candidate -/

/-- The first, in the order of the indices, of the latest that satisfy `P`. -/
def Best (ts : List TimedTurn) (P : TimedTurn → Prop) : Option Candidate → Prop
  | none => ∀ t ∈ ts, ¬P t
  | some (time, index) => (∃ t ∈ ts, P t ∧ t.time = time ∧ t.index = index) ∧
      ∀ t ∈ ts, P t → t.time < time ∨ t.time = time ∧ index ≤ t.index

section Best

variable {ts : List TimedTurn} {P Q : TimedTurn → Prop} {a b : Option Candidate}

theorem Best.unique (ha : Best ts P a) (hb : Best ts P b) : a = b := by
  cases a with
  | none =>
    cases b with
    | none => rfl
    | some b =>
      obtain ⟨⟨t, ht, hP, -⟩, -⟩ := hb
      exact absurd hP (ha t ht)
  | some a =>
    obtain ⟨⟨t, ht, hP, hta, hia⟩, ha⟩ := ha
    cases b with
    | none => exact absurd hP (hb t ht)
    | some b =>
      obtain ⟨⟨u, hu, hQ, htb, hib⟩, hb⟩ := hb
      have hab := ha u hu hQ
      have hba := hb t ht hP
      have htime : a.1 = b.1 := by grind
      have hindex : a.2 = b.2 := by grind
      rw [Prod.ext htime hindex]

theorem Best.congr {us : List TimedTurn} (h : Best ts P a)
    (hmem : ∀ t, t ∈ ts ∧ P t ↔ t ∈ us ∧ Q t) : Best us Q a := by
  cases a with
  | none => exact fun t ht hQ => h t ((hmem t).mpr ⟨ht, hQ⟩).1 ((hmem t).mpr ⟨ht, hQ⟩).2
  | some a =>
    obtain ⟨⟨t, ht, hP, hta, hia⟩, hbest⟩ := h
    have hu := (hmem t).mp ⟨ht, hP⟩
    refine ⟨⟨t, hu.1, hu.2, hta, hia⟩, fun u hu hQ => ?_⟩
    have hu' := (hmem u).mpr ⟨hu, hQ⟩
    exact hbest u hu'.1 hu'.2

theorem Best.later (ha : Best ts P a) (hb : Best ts Q b) :
    Best ts (fun t => P t ∨ Q t) (later a b) := by
  cases a with
  | none =>
    have hnot : ∀ t ∈ ts, ¬P t := ha
    cases b with
    | none => exact fun t ht h => h.elim (ha t ht) (hb t ht)
    | some b => exact hb.congr fun t => ⟨by grind, by grind⟩
  | some a =>
    cases b with
    | none =>
      have hnot : ∀ t ∈ ts, ¬Q t := hb
      exact ha.congr fun t => ⟨by grind, by grind⟩
    | some b =>
      obtain ⟨⟨t, ht, hP, hta, hia⟩, ha⟩ := ha
      obtain ⟨⟨u, hu, hQ, htb, hib⟩, hb⟩ := hb
      rw [TransportMatch.later]
      split_ifs with hlater
      · exact ⟨⟨u, hu, .inr hQ, htb, hib⟩, fun v hv h => by grind⟩
      · exact ⟨⟨t, ht, .inl hP, hta, hia⟩, fun v hv h => by grind⟩

theorem Best.singleton (t : TimedTurn) : Best [t] (fun u => u = t) (some (t.time, t.index)) :=
  ⟨⟨t, by simp, rfl, rfl, rfl⟩, fun u _ hu => .inr ⟨by rw [hu], by rw [hu]⟩⟩

theorem Best.concat (h : Best ts P a) {t : TimedTurn} (ht : P t) :
    Best (ts ++ [t]) P (TransportMatch.later a (some (t.time, t.index))) := by
  have hold : Best (ts ++ [t]) (fun u => u ∈ ts ∧ P u) a := h.congr fun u => by grind
  have hnew : Best (ts ++ [t]) (fun u => u = t) (some (t.time, t.index)) :=
    (Best.singleton t).congr fun u => by grind
  exact (hold.later hnew).congr fun u => by grind

theorem Best.concat_not (h : Best ts P a) {t : TimedTurn} (ht : ¬P t) : Best (ts ++ [t]) P a :=
  h.congr fun u => by grind

end Best

/-! ## the sweep -/

/-- What has been seen of the transports so far. -/
structure Seen.Of (seen : Seen) (ts : List TimedTurn) : Prop where
  any : Best ts (fun _ => True) seen.any
  blank : Best ts (fun t => t.turn = []) seen.blank
  byTurn : ∀ turn ≠ [], Best ts (fun t => t.turn = turn) (seen.byTurn turn)

theorem Seen.Of.add {seen : Seen} {ts : List TimedTurn} (h : seen.Of ts) (t : TimedTurn) :
    (seen.add t).Of (ts ++ [t]) := by
  by_cases hblank : t.turn = []
  · have hadd : seen.add t = { seen with
        any := later seen.any (some (t.time, t.index))
        blank := later seen.blank (some (t.time, t.index)) } := by simp [Seen.add, hblank]
    rw [hadd]
    exact {
      any := h.any.concat trivial
      blank := h.blank.concat hblank
      byTurn := fun turn hturn => (h.byTurn turn hturn).concat_not (hblank ▸ hturn.symm) }
  · have hadd : seen.add t = { seen with
        any := later seen.any (some (t.time, t.index))
        byTurn := Function.update seen.byTurn t.turn
          (later (seen.byTurn t.turn) (some (t.time, t.index))) } := by simp [Seen.add, hblank]
    rw [hadd]
    refine { any := h.any.concat trivial, blank := h.blank.concat_not hblank, byTurn := ?_ }
    intro turn hturn
    by_cases hsame : turn = t.turn
    · subst hsame
      simpa using (h.byTurn t.turn hturn).concat rfl
    · simpa [Function.update_of_ne hsame] using
        (h.byTurn turn hturn).concat_not fun h => hsame h.symm

theorem Seen.Of.foldl {seen : Seen} {before : List TimedTurn} (h : seen.Of before)
    (ts : List TimedTurn) : (ts.foldl Seen.add seen).Of (before ++ ts) := by
  induction ts generalizing seen before with
  | nil => simpa using h
  | cons t ts ih => simpa using ih (h.add t)

theorem Seen.Of.empty : ({} : Seen).Of [] :=
  ⟨fun _ ht => by simp at ht, fun _ ht => by simp at ht, fun _ _ _ ht => by simp at ht⟩

def SameTurn (request t : TimedTurn) : Prop :=
  request.turn = [] ∨ t.turn = [] ∨ t.turn = request.turn

theorem Seen.Of.selected {seen : Seen} {ts : List TimedTurn} (h : seen.Of ts)
    (request : TimedTurn) : Best ts (SameTurn request) (seen.selected request) := by
  unfold Seen.selected
  split_ifs with hany
  · exact h.any.congr fun t => by simp [SameTurn, hany]
  · exact (h.blank.later (h.byTurn _ hany)).congr fun t => by simp [SameTurn, hany]

theorem sorted_time (ts : List TimedTurn) :
    (Keyed.sort TimedTurn.total ts).Pairwise fun t u => t.time ≤ u.time := by
  have hsorted : (Keyed.sort TimedTurn.total ts).Pairwise fun t u => t.total ≤ u.total :=
    Keyed.sorted_sort ts
  refine hsorted.imp fun {t u} h => ?_
  rcases Prod.Lex.toLex_le_toLex.mp h with hlt | heq
  · exact hlt.le
  · exact heq.1.le

theorem sweep_best {requests before rest : List TimedTurn} {seen : Seen} (hseen : seen.Of before)
    (hrequests : requests.Pairwise fun r s => r.time ≤ s.time)
    (hbefore : ∀ r ∈ requests, ∀ t ∈ before, t.time ≤ r.time)
    (hrest : rest.Pairwise fun t u => t.time ≤ u.time) :
    List.Forall₂ (fun request write => write.1 = request.index ∧ ∃ best, write.2 = best.map (·.2) ∧
          Best (before ++ rest) (fun t => t.time ≤ request.time ∧ SameTurn request t) best)
      requests (sweep requests rest seen) := by
  induction requests generalizing before rest seen with
  | nil => exact .nil
  | cons request requests ih =>
    have hpassed : (rest.takeWhile fun t => t.time ≤ request.time) =
        rest.filter fun t => t.time ≤ request.time :=
      Keyed.takeWhile_eq_filter hrest fun t u hle hu => by
        simpa using hle.trans (by simpa using hu)
    have hseen' := hseen.foldl (rest.takeWhile fun t => t.time ≤ request.time)
    refine .cons ⟨rfl, _, rfl, (hseen'.selected request).congr fun t => ?_⟩ ?_
    · have hold : t ∈ before → t.time ≤ request.time := hbefore request (by simp) t
      rw [hpassed]
      simp only [mem_append, List.mem_filter, decide_eq_true_eq]
      grind
    · have hnext := ih hseen' hrequests.of_cons ?_ (hrest.sublist (dropWhile_sublist
        fun t => t.time ≤ request.time))
      · simpa [append_assoc] using hnext
      · intro r hr t ht
        have hle : request.time ≤ r.time := rel_of_pairwise_cons hrequests hr
        rcases mem_append.mp ht with ht | ht
        · exact hbefore r (by simp [hr]) t ht
        · rw [hpassed] at ht
          exact le_trans (by simpa using (List.mem_filter.mp ht).2) hle

/-! ## the results in the order of the requests -/

@[simp]
theorem length_written (result : List (Option Nat)) (writes : List (Nat × Option Nat)) :
    (written result writes).length = result.length := by
  induction writes generalizing result with
  | nil => rfl
  | cons write writes ih => simpa [written] using ih (result.set write.1 write.2)

theorem written_of_not_mem {result : List (Option Nat)} {writes : List (Nat × Option Nat)} {i : Nat}
    (h : ∀ write ∈ writes, write.1 ≠ i) : (written result writes)[i]? = result[i]? := by
  induction writes generalizing result with
  | nil => rfl
  | cons write writes ih =>
    have hset : (result.set write.1 write.2)[i]? = result[i]? :=
      List.getElem?_set_ne (h write (by simp))
    have hrest := @ih (result.set write.1 write.2) fun w hw => h w (by simp [hw])
    exact hrest.trans hset

theorem written_of_mem (result : List (Option Nat)) {writes : List (Nat × Option Nat)}
    (hnodup : (writes.map Prod.fst).Nodup) {write : Nat × Option Nat} (hwrite : write ∈ writes)
    (hlt : write.1 < result.length) : (written result writes)[write.1]? = some write.2 := by
  induction writes generalizing result with
  | nil => simp at hwrite
  | cons first writes ih =>
    rw [map_cons, nodup_cons] at hnodup
    rcases mem_cons.mp hwrite with rfl | hwrite
    · have hother : ∀ w ∈ writes, w.1 ≠ write.1 := by
        intro w hw heq
        exact hnodup.1 (heq ▸ mem_map_of_mem hw)
      have hkept : (written (result.set write.1 write.2) writes)[write.1]? =
          (result.set write.1 write.2)[write.1]? := written_of_not_mem hother
      rw [List.getElem?_set_self hlt] at hkept
      exact hkept
    · exact ih _ hnodup.2 hwrite (by simpa using hlt)

theorem matched_best {requests : List TimedTurn} (transports : List TimedTurn)
    (hindex : requests.map TimedTurn.index = List.range requests.length) :
    (matched requests transports).length = requests.length ∧ ∀ request ∈ requests, ∃ best,
        (matched requests transports)[request.index]? = some (best.map (·.2)) ∧
        Best transports (fun t => t.time ≤ request.time ∧ SameTurn request t) best := by
  have hperm : (Keyed.sort TimedTurn.total requests).Perm requests := perm_insertionSort _ _
  have hsweep := sweep_best Seen.Of.empty (sorted_time requests) (by simp) (sorted_time transports)
  have hfst : (sweep (Keyed.sort TimedTurn.total requests) (Keyed.sort TimedTurn.total transports)
      {}).map Prod.fst = (Keyed.sort TimedTurn.total requests).map TimedTurn.index := by
    rw [← List.forall₂_eq_eq_eq, List.forall₂_map_left_iff, List.forall₂_map_right_iff]
    exact (hsweep.imp fun request write h => h.1.symm).flip.imp fun write request h => h.symm
  have hnodup : ((sweep (Keyed.sort TimedTurn.total requests)
      (Keyed.sort TimedTurn.total transports) {}).map Prod.fst).Nodup := by
    rw [hfst, (hperm.map _).nodup_iff, hindex]
    exact nodup_range
  refine ⟨by simp [matched], fun request hrequest => ?_⟩
  have hlt : request.index < requests.length := by
    have hmem : request.index ∈ List.range requests.length :=
      hindex ▸ mem_map_of_mem hrequest
    simpa using hmem
  obtain ⟨write, hwrite, hpos, best, hbest, hspec⟩ :=
    Native.exists_of_forall₂ hsweep (hperm.mem_iff.mpr hrequest)
  refine ⟨best, ?_, hspec.congr fun t => ?_⟩
  · have hresult := written_of_mem (List.replicate requests.length none) hnodup hwrite
      (by simpa [hpos] using hlt)
    rw [hpos, hbest] at hresult
    exact hresult
  · have htransports : (Keyed.sort TimedTurn.total transports).Perm transports :=
      perm_insertionSort _ _
    simp [htransports.mem_iff]

/-! ## the items as they are read -/

theorem rank_of_isfinite {x : PyFloat} (h : x.isfinite) :
    x.rank = ((rational x : WithTop ℚ) : WithBot (WithTop ℚ)) := by
  cases x with
  | nan => contradiction
  | inf => contradiction
  | negZero => rfl
  | finite q => rfl

theorem lt_iff_rational {x y : PyFloat} (hx : x.isfinite) (hy : y.isfinite) :
    x < y ↔ rational x < rational y := by
  rw [PyFloat.lt_def, rank_of_isfinite hx, rank_of_isfinite hy]
  simp [PyFloat.isNum_of_isfinite hx, PyFloat.isNum_of_isfinite hy]

theorem le_iff_rational {x y : PyFloat} (hx : x.isfinite) (hy : y.isfinite) :
    x ≤ y ↔ rational x ≤ rational y := by
  rw [PyFloat.le_def, rank_of_isfinite hx, rank_of_isfinite hy]
  simp [PyFloat.isNum_of_isfinite hx, PyFloat.isNum_of_isfinite hy]

/-- What `timed_turns` keeps of an item. -/
structure Read (item : (PyNum × Json) × Nat) (t : TimedTurn) : Prop where
  index : t.index = item.2
  finite : item.1.1.value.isfinite = true
  time : t.time = rational item.1.1.value
  turn : item.1.2.truthy = false ∧ t.turn = [] ∨ item.1.2 = .str t.turn ∧ t.turn ≠ []

theorem extractTime_some {ts : PyNum} {x : PyFloat} (h : extractTime ts = some x) :
    ts.value.isfinite = true ∧ rational x = rational ts.value := by
  cases ts with
  | int n =>
    simp only [extractTime] at h
    split at h
    · split_ifs at h with heq
      have hx := (Bool.and_eq_true_iff.mp heq).2
      have hrank := (Bool.and_eq_true_iff.mp heq).1
      rw [Option.some.inj h] at hx hrank
      have hn : (PyNum.int n).value.isfinite = true := rfl
      simp only [PyFloat.eq, Bool.and_eq_true, decide_eq_true_eq] at hrank
      have hvalue := hrank.2
      rw [rank_of_isfinite hn, rank_of_isfinite hx] at hvalue
      exact ⟨hn, (WithTop.coe_injective (WithBot.coe_injective hvalue)).symm⟩
    · contradiction
  | float y =>
    simp only [extractTime] at h
    split_ifs at h with hy
    rw [← Option.some.inj h]
    exact ⟨hy, rfl⟩

theorem Read.of_timedTurn {item : (PyNum × Json) × Nat} {t : TimedTurn}
    (h : timedTurn item = .ok (some t)) : Read item t := by
  unfold timedTurn at h
  cases htime : extractTime item.1.1 with
  | none => simp [htime] at h
  | some x =>
    obtain ⟨hfinite, hvalue⟩ := extractTime_some htime
    simp only [htime] at h
    split_ifs at h with htruthy
    · simp only [Except.ok.injEq, Option.some.injEq] at h
      rw [← h]
      exact ⟨rfl, hfinite, hvalue, .inl ⟨htruthy, rfl⟩⟩
    · split at h
      · rename_i text htext
        by_cases hencodable : Native.Encodable text
        · simp only [Native.extractText_of hencodable, Except.ok.injEq, Option.some.injEq] at h
          rw [← h]
          refine ⟨rfl, hfinite, hvalue, .inr ⟨htext, ?_⟩⟩
          rintro rfl
          simp [htext, Json.truthy] at htruthy
        · simp [Native.extractText_of_not hencodable] at h
      · simp at h

/-! ## `transport_details` -/

def Latest (items : List (Transport × Nat)) : Option (Transport × Nat) → Prop
  | none => items = []
  | some best => best ∈ items ∧ ∀ item ∈ items,
      rational item.1.ts.value < rational best.1.ts.value ∨
        rational item.1.ts.value = rational best.1.ts.value ∧ best.2 ≤ item.2

theorem latest_spec {items : List (Transport × Nat)} (hindex : items.Pairwise fun a b => a.2 < b.2)
    (hfinite : ∀ item ∈ items, item.1.ts.value.isfinite = true) : Latest items (latest items) := by
  induction items using List.reverseRecOn with
  | nil => rfl
  | append_singleton items item ih =>
    have hbefore := ih (hindex.sublist (sublist_append_left _ _))
      fun a ha => hfinite a (by simp [ha])
    have hlast : ∀ a ∈ items, a.2 < item.2 := by
      intro a ha
      exact (pairwise_append.mp hindex).2.2 a ha item (by simp)
    have hstep : latest (items ++ [item]) =
        match latest items with
        | none => some item
        | some best => if best.1.ts.value < item.1.ts.value then some item else some best := by
      rw [latest, foldl_append]
      rfl
    rw [hstep]
    cases hbest : latest items with
    | none =>
      rw [hbest] at hbefore
      have hnil : items = [] := hbefore
      exact ⟨by simp, fun a ha => .inr (by simp_all)⟩
    | some best =>
      rw [hbest] at hbefore
      obtain ⟨hmem, hmax⟩ := hbefore
      have hlt := lt_iff_rational (hfinite best (by simp [hmem])) (hfinite item (by simp))
      dsimp only
      split_ifs with hcmp
      · have hcmp := hlt.mp hcmp
        refine ⟨by simp, fun a ha => ?_⟩
        rcases mem_append.mp ha with ha | ha
        · rcases hmax a ha with h | h
          · exact .inl (h.trans hcmp)
          · exact .inl (h.1 ▸ hcmp)
        · rw [mem_singleton.mp ha]
          exact .inr ⟨rfl, le_rfl⟩
      · have hcmp := mt hlt.mpr hcmp
        refine ⟨by simp [hmem], fun a ha => ?_⟩
        rcases mem_append.mp ha with ha | ha
        · exact hmax a ha
        · rw [mem_singleton.mp ha]
          rcases lt_or_eq_of_le (not_lt.mp hcmp) with h | h
          · exact .inl h
          · exact .inr ⟨h, (hlast best hmem).le⟩

theorem pairwise_zipIdx {α : Type} (xs : List α) : xs.zipIdx.Pairwise fun a b => a.2 < b.2 := by
  have hmap : (xs.zipIdx.map Prod.snd).Pairwise (· < ·) := by
    rw [zipIdx_map_snd]
    simpa [range'_eq_map_range] using pairwise_lt_range
  exact pairwise_map.mp hmap

theorem pairwise_qualifying (request : Request) (transports : List Transport) :
    (transports.zipIdx.filter fun item => Qualifies request item.1).Pairwise fun a b => a.2 < b.2 :=
  (pairwise_zipIdx transports).filter _

section Attribution

variable {transports : List Transport} {ts : List TimedTurn} {request : Request} {r : TimedTurn}

theorem Read.transport_turn {transport : Transport} {i : Nat} {t : TimedTurn}
    (h : Read (transport.item, i) t) : t.turn = transport.turn := by
  rcases h.turn with ⟨hfalsy, hempty⟩ | ⟨htext, -⟩
  · have hnil : transport.turn = [] := by simpa [Transport.item, Json.truthy] using hfalsy
    rw [hempty, hnil]
  · simpa [Transport.item] using htext.symm

theorem qualifies_iff {i j : Nat} {transport : Transport} {t : TimedTurn}
    (hr : Read (request.item, i) r) (ht : Read (transport.item, j) t) :
    Qualifies request transport ↔ t.time ≤ r.time ∧ SameTurn r t := by
  have hle := le_iff_rational ht.finite hr.finite
  rw [← ht.time, ← hr.time] at hle
  have hturn := ht.transport_turn
  unfold Qualifies SameTurn
  refine and_congr hle ?_
  rcases hr.turn with ⟨hfalsy, hempty⟩ | ⟨htext, hne⟩
  · have hfalsy : request.turn.truthy = false := hfalsy
    simp [hfalsy, hempty]
  · have htext : request.turn = .str r.turn := htext
    have htruthy : request.turn.truthy = true := by simp [htext, Json.truthy, hne]
    have hsame : request.turn = .str transport.turn ↔ transport.turn = r.turn := by
      rw [htext, Json.str.injEq]
      exact eq_comm
    simp [htruthy, hne, hturn, hsame]

theorem transportDetails_best
    (hts : List.Forall₂ Read (transports.map Transport.item).zipIdx ts) {i : Nat}
    (hr : Read (request.item, i) r) : ∃ best, transportDetails transports request = best.map (·.2) ∧
      Best ts (fun t => t.time ≤ r.time ∧ SameTurn r t) best := by
  rw [zipIdx_map, List.forall₂_map_left_iff] at hts
  have hread : ∀ item ∈ transports.zipIdx, ∃ t ∈ ts, Read (item.1.item, item.2) t := by
    intro item hitem
    obtain ⟨t, ht, hread⟩ := Native.exists_of_forall₂ hts hitem
    exact ⟨t, ht, hread⟩
  have hitem : ∀ t ∈ ts, ∃ item ∈ transports.zipIdx, Read (item.1.item, item.2) t := by
    intro t ht
    obtain ⟨item, hitem, hread⟩ := Native.exists_of_forall₂ hts.flip ht
    exact ⟨item, hitem, hread⟩
  have hlatest := latest_spec (pairwise_qualifying request transports) (by
    intro item hmem
    obtain ⟨t, -, ht⟩ := hread item (mem_of_mem_filter hmem)
    exact ht.finite)
  refine ⟨(latest (transports.zipIdx.filter fun item => Qualifies request item.1)).map
    fun item => (rational item.1.ts.value, item.2),
    by simp [transportDetails, Function.comp_def], ?_⟩
  cases hbest : latest (transports.zipIdx.filter fun item => Qualifies request item.1) with
  | none =>
    rw [hbest] at hlatest
    have hnil := filter_eq_nil_iff.mp hlatest
    intro t ht hqualifies
    obtain ⟨item, hmem, hitem⟩ := hitem t ht
    exact hnil item hmem (by simpa using (qualifies_iff hr hitem).mpr hqualifies)
  | some best =>
    rw [hbest] at hlatest
    obtain ⟨hmem, hmax⟩ := hlatest
    obtain ⟨hmem, hqualifies⟩ := List.mem_filter.mp hmem
    obtain ⟨t, ht, hbestRead⟩ := hread best hmem
    refine ⟨⟨t, ht, (qualifies_iff hr hbestRead).mp (by simpa using hqualifies), hbestRead.time,
      hbestRead.index⟩, fun u hu hu' => ?_⟩
    obtain ⟨item, hitemMem, hitemRead⟩ := hitem u hu
    rw [hitemRead.time, hitemRead.index]
    refine hmax item (List.mem_filter.mpr ⟨hitemMem, ?_⟩)
    simpa using (qualifies_iff hr hitemRead).mpr hu'

theorem matched_eq {requests : List Request} {rs : List TimedTurn}
    (hrs : List.Forall₂ Read (requests.map Request.item).zipIdx rs)
    (hts : List.Forall₂ Read (transports.map Transport.item).zipIdx ts) :
    matched rs ts = requests.map (transportDetails transports) := by
  have hlength : rs.length = requests.length := by simpa using hrs.length_eq.symm
  have hindex : rs.map TimedTurn.index = List.range rs.length := by
    have hsnd : (requests.map Request.item).zipIdx.map Prod.snd = rs.map TimedTurn.index := by
      rw [← List.forall₂_eq_eq_eq, List.forall₂_map_left_iff, List.forall₂_map_right_iff]
      exact hrs.imp fun item t h => h.index.symm
    rw [← hsnd, zipIdx_map_snd, hlength, length_map, range_eq_range']
  obtain ⟨hmatched, hbest⟩ := matched_best ts hindex
  refine ext_getElem? fun i => ?_
  cases hrequest : requests[i]? with
  | none =>
    have hle := List.getElem?_eq_none_iff.mp hrequest
    rw [List.getElem?_map, hrequest, List.getElem?_eq_none (by omega)]
    rfl
  | some request =>
    have hzip : (request.item, i) ∈ (requests.map Request.item).zipIdx := by
      rw [mem_zipIdx_iff_getElem?]
      simp [hrequest]
    obtain ⟨r, hr, hread⟩ := Native.exists_of_forall₂ hrs hzip
    obtain ⟨best, hfound, hspec⟩ := hbest r hr
    obtain ⟨best', hfound', hspec'⟩ := transportDetails_best hts hread
    rw [hread.index] at hfound
    rw [hfound, List.getElem?_map, hrequest, Option.map_some, hfound', hspec.unique hspec']

end Attribution

/-! ## what the extension does not read -/

/-- The time is a finite double and the turn is empty or a text of Rust. -/
def Supported (item : PyNum × Json) : Prop :=
  (extractTime item.1).isSome = true ∧
    (item.2.truthy = false ∨ ∃ text, item.2 = .str text ∧ Native.Encodable text)

/-- The time is a finite double, and the turn is a text with half of a surrogate pair. -/
def Unencodable (item : PyNum × Json) : Prop :=
  (extractTime item.1).isSome = true ∧ ∃ text, item.2 = .str text ∧ ¬Native.Encodable text

theorem supported_iff (item : (PyNum × Json) × Nat) :
    Supported item.1 ↔ ∃ t, timedTurn item = .ok (some t) := by
  unfold Supported timedTurn
  cases extractTime item.1.1 with
  | none => simp
  | some ts =>
    cases hturn : item.1.2.truthy with
    | false => simp
    | true =>
      cases item.1.2 with
      | str text =>
        by_cases h : Native.Encodable text
        · simp [Native.extractText_of h, h]
        · simp [Native.extractText_of_not h, h]
      | _ => simp

theorem unencodable_iff (item : (PyNum × Json) × Nat) :
    Unencodable item.1 ↔ ∃ e, timedTurn item = .error e := by
  unfold Unencodable timedTurn
  cases extractTime item.1.1 with
  | none => simp
  | some ts =>
    cases hturn : item.1.2.truthy with
    | false =>
      have hnot : ¬∃ text, item.1.2 = .str text ∧ ¬Native.Encodable text := by
        rintro ⟨text, htext, h⟩
        have hnil : text = [] := by simpa [htext, Json.truthy] using hturn
        exact h (hnil ▸ Native.encodable_nil)
      simp [hnot]
    | true =>
      cases item.1.2 with
      | str text =>
        by_cases h : Native.Encodable text
        · simp [Native.extractText_of h, h]
        · simp [Native.extractText_of_not h, h]
      | _ => simp

/-- Of the requests and then the transports, the first that is not supported is a text that cannot
be encoded. -/
def Breaks (requests : List Request) (transports : List Transport) : Prop :=
  Native.Breaks Supported Unencodable
    (requests.map Request.item ++ transports.map Transport.item)

theorem breaks_iff {requests : List Request} {transports : List Transport} :
    Breaks requests transports ↔ ∃ e, transportMatches requests transports = .error e := by
  have herror : ∀ items, Native.Breaks Supported Unencodable items ↔
      ∃ e, timedTurns items = .error e := fun items =>
    (Native.breaks_zipIdx items 0).symm.trans
      (Native.takeAll_error supported_iff unencodable_iff).symm
  have hsome : ∀ items, (∀ item ∈ items, Supported item) ↔
      ∃ ts, timedTurns items = .ok (some ts) := by
    intro items
    refine Iff.trans ?_ (@Native.takeAll_some _ _ timedTurn _).symm
    constructor
    · intro h item hitem
      exact (supported_iff item).mp (h item.1 (fst_mem_of_mem_zipIdx hitem))
    · intro h item hitem
      obtain ⟨i, hi, rfl⟩ := List.getElem_of_mem hitem
      exact (supported_iff (items[i], i)).mpr
        (h _ (mem_zipIdx_iff_getElem?.mpr (List.getElem?_eq_getElem hi)))
  rw [Breaks, Native.breaks_append, herror, hsome, herror]
  unfold transportMatches
  cases timedTurns (requests.map Request.item) with
  | error e => simp
  | ok rs =>
    cases rs with
    | none => simp
    | some rs =>
      cases timedTurns (transports.map Transport.item) with
      | error e => simp
      | ok ts => cases ts <;> simp

theorem transportMatches_some {requests : List Request} {transports : List Transport}
    {indices : List (Option Nat)} (h : transportMatches requests transports = .ok (some indices)) :
    indices = requests.map (transportDetails transports) := by
  unfold transportMatches at h
  split at h
  · contradiction
  · simp at h
  · rename_i rs hrs
    split at h
    · contradiction
    · simp at h
    · rename_i ts hts
      simp only [Except.ok.injEq, Option.some.injEq] at h
      rw [← h]
      exact matched_eq ((Native.forall_of_takeAll hrs).imp fun _ _ => Read.of_timedTurn)
        ((Native.forall_of_takeAll hts).imp fun _ _ => Read.of_timedTurn)

/-! ## agreement -/

/-- The extension attributes each request as `transport_details` does, or leaves them to it. -/
def Agrees (requests : List Request) (transports : List Transport) : Prop :=
  transportMatches requests transports = .ok none ∨
    transportMatches requests transports = .ok (some (requests.map (transportDetails transports)))

theorem transportDetails_spec (transports : List Transport) (request : Request)
    (hfinite : ∀ t ∈ transports, t.ts.value.isfinite = true) :
    (transportDetails transports request = none ↔ ∀ t ∈ transports, ¬Qualifies request t) ∧
    ∀ i, transportDetails transports request = some i → ∃ t, transports[i]? = some t ∧
      Qualifies request t ∧ ∀ j u, transports[j]? = some u → Qualifies request u →
        u.ts.value < t.ts.value ∨ u.ts.value ≤ t.ts.value ∧ i ≤ j := by
  have hzip : ∀ item ∈ transports.zipIdx, item.1.ts.value.isfinite = true := fun item hitem =>
    hfinite item.1 (fst_mem_of_mem_zipIdx hitem)
  have hlatest := latest_spec (pairwise_qualifying request transports)
    fun item hitem => hzip item (mem_of_mem_filter hitem)
  have hmem : ∀ j u, transports[j]? = some u → (u, j) ∈ transports.zipIdx := fun j u hu =>
    mem_zipIdx_iff_getElem?.mpr hu
  unfold transportDetails
  cases hbest : latest (transports.zipIdx.filter fun item => Qualifies request item.1) with
  | none =>
    rw [hbest] at hlatest
    have hnil := filter_eq_nil_iff.mp hlatest
    refine ⟨⟨fun _ t ht hqualifies => ?_, fun _ => rfl⟩, by simp⟩
    obtain ⟨j, hj, rfl⟩ := List.getElem_of_mem ht
    exact hnil _ (hmem j _ (List.getElem?_eq_getElem hj)) (by simpa using hqualifies)
  | some best =>
    rw [hbest] at hlatest
    obtain ⟨hkept, hmax⟩ := hlatest
    obtain ⟨hat, hqualifies⟩ := List.mem_filter.mp hkept
    have hqualifies : Qualifies request best.1 := by simpa using hqualifies
    refine ⟨⟨by simp, fun h => absurd hqualifies (h _ (fst_mem_of_mem_zipIdx hat))⟩, ?_⟩
    intro i hi
    have hi : best.2 = i := by simpa using hi
    subst hi
    refine ⟨best.1, mem_zipIdx_iff_getElem?.mp hat, hqualifies, fun j u hu hu' => ?_⟩
    have hfin := hzip _ (hmem j u hu)
    rw [lt_iff_rational hfin (hzip best hat), le_iff_rational hfin (hzip best hat)]
    exact (hmax (u, j) (List.mem_filter.mpr ⟨hmem j u hu, by simpa using hu'⟩)).imp_right
      fun h => ⟨h.1.le, h.2⟩

/-- The extension and `transport_details` agree unless the first item that the extension does not
support has a turn that it cannot encode; what is supported is matched by the extension itself. -/
theorem transport_attribution (requests : List Request) (transports : List Transport) :
    (Agrees requests transports ↔ ¬Breaks requests transports) ∧
    (transports ≠ [] → (transportDetailsMany requests transports =
        .ok (requests.map (transportDetails transports)) ↔ ¬Breaks requests transports)) ∧
    ((∀ item ∈ requests.map Request.item ++ transports.map Transport.item, Supported item) →
      transportMatches requests transports =
        .ok (some (requests.map (transportDetails transports)))) ∧
    ∀ request, (∀ t ∈ transports, t.ts.value.isfinite = true) →
      (transportDetails transports request = none ↔ ∀ t ∈ transports, ¬Qualifies request t) ∧
      ∀ i, transportDetails transports request = some i → ∃ t, transports[i]? = some t ∧
        Qualifies request t ∧ ∀ j u, transports[j]? = some u → Qualifies request u →
          u.ts.value < t.ts.value ∨ u.ts.value ≤ t.ts.value ∧ i ≤ j := by
  refine ⟨?_, fun hne => ?_, fun hsupported => ?_,
    fun request => transportDetails_spec transports request⟩
  · rw [breaks_iff, Agrees]
    cases hmatches : transportMatches requests transports with
    | error e => simp
    | ok indices =>
      cases indices with
      | none => simp
      | some indices => simp [transportMatches_some hmatches]
  · rw [breaks_iff, transportDetailsMany, if_neg hne]
    cases hmatches : transportMatches requests transports with
    | error e => simp
    | ok indices =>
      cases indices with
      | none => simp
      | some indices => simp [transportMatches_some hmatches]
  · have hread : ∀ items, (∀ item ∈ items, Supported item) →
        ∃ ts, timedTurns items = .ok (some ts) := fun items h =>
      Native.takeAll_some.mpr fun item hitem =>
        (supported_iff item).mp (h item.1 (fst_mem_of_mem_zipIdx hitem))
    obtain ⟨rs, hrs⟩ := hread (requests.map Request.item) fun item hitem =>
      hsupported item (mem_append_left _ hitem)
    obtain ⟨ts, hts⟩ := hread (transports.map Transport.item) fun item hitem =>
      hsupported item (mem_append_right _ hitem)
    have hmatches : transportMatches requests transports = .ok (some (matched rs ts)) := by
      simp [transportMatches, hrs, hts]
    rw [hmatches, transportMatches_some hmatches]

/-- A turn that is half of a surrogate pair, as JSON may escape it, raises. -/
theorem attribution_raises : ¬∀ requests transports, Agrees requests transports := by
  intro h
  have hraises : transportMatches [⟨.float 2, .str [0xD800]⟩] [⟨.float 1, []⟩] =
      .error .valueError := by decide +kernel
  rcases h [⟨.float 2, .str [0xD800]⟩] [⟨.float 1, []⟩] with hnone | hsome
  · simp [hraises] at hnone
  · simp [hraises] at hsome

end Codexon.TransportMatch
