import Codexon.PackedRows.Reading

/-!
# Codexon.PackedRows.History

The times of a history: what is before a time, from it on, and in a period.
-/

namespace Codexon.PackedRows

open List

variable {ρ τ δ : Type} [LinearOrder τ] {enc : Encoding ρ δ} {reader : Reader ρ τ}
variable {p : Packed τ} {bs : List (List ρ)} {rows : List ρ} {t : τ}

/-- A history of these blocks. -/
structure History (enc : Encoding ρ δ) (reader : Reader ρ τ) (p : Packed τ) (bs : List (List ρ)) :
    Prop extends Holds enc reader p bs where
  timestamped : p.timestamped
  sorted : Sorted reader bs.flatten
  times : Timed reader p.times bs.flatten

/-! ## blocks by time -/

section Blocks

variable {timeEnds : List τ} (hends : timeEnds.map some = bs.map (lastTime reader))
  (hsorted : Sorted reader bs.flatten)
include hends hsorted

omit [LinearOrder τ] hsorted in
theorem getElem?_timeEnds {k : Nat} {b : List ρ} (hb : bs[k]? = some b) :
    ∃ last ∈ b.getLast?, timeEnds[k]? = some (reader.time last) := by
  have := congrArg (·[k]?) hends
  simp only [List.getElem?_map, hb, Option.map_some, lastTime] at this
  cases hlast : b.getLast? with
  | none => simp [hlast] at this
  | some last =>
    rw [hlast, Option.map_some] at this
    obtain ⟨t, ht, heq⟩ := Option.map_eq_some_iff.mp this
    exact ⟨last, rfl, by rw [ht, Option.some.inj heq]⟩

omit hends in
theorem le_last {b : List ρ} (hb : b ∈ bs) {last row : ρ} (hlast : last ∈ b.getLast?)
    (hrow : row ∈ b) : reader.time row ≤ reader.time last := by
  have hblock : Sorted reader b := hsorted.sublist (sublist_flatten_of_mem hb)
  obtain ⟨before, rfl⟩ := getLast?_eq_some_iff.mp hlast
  rcases mem_append.mp hrow with hrow | hrow
  · exact (pairwise_append.mp hblock).2.2 row hrow last (by simp)
  · rw [mem_singleton] at hrow
    exact hrow ▸ le_rfl

theorem lt_of_mem_take {row : ρ} (hrow : row ∈ (bs.take (bisectLeft timeEnds t)).flatten) :
    reader.time row < t := by
  obtain ⟨b, hb, hrow⟩ := mem_flatten.mp hrow
  obtain ⟨k, hk, rfl⟩ := mem_take_iff_getElem.mp hb
  have hget := List.getElem?_eq_getElem (l := bs) (i := k) (by omega)
  obtain ⟨last, hlast, hend⟩ := getElem?_timeEnds hends hget
  exact (le_last hsorted (List.getElem_mem _) hlast hrow).trans_lt
    (lt_of_lt_bisectLeft (by omega) hend)

theorem le_of_mem_drop {k : Nat} {e : τ} (hend : timeEnds[k]? = some e) {row : ρ}
    (hrow : row ∈ (bs.drop (k + 1)).flatten) : e ≤ reader.time row := by
  have hk : k < bs.length := by
    have hlength : timeEnds.length = bs.length := by simpa using congrArg List.length hends
    exact hlength ▸ (List.getElem?_eq_some_iff.mp hend).1
  have hget := List.getElem?_eq_getElem hk
  obtain ⟨last, hlast, hend'⟩ := getElem?_timeEnds hends hget
  rw [hend, Option.some.injEq] at hend'
  have hsplit : bs = bs.take k ++ bs[k] :: bs.drop (k + 1) := by simp
  have hordered := hsorted
  rw [Sorted, hsplit, flatten_append, flatten_cons, pairwise_append, pairwise_append] at hordered
  rw [hend']
  exact hordered.2.1.2.2 last (mem_of_getLast? hlast) row hrow

theorem filter_lt (t : τ) : bs.flatten.filter (fun row => reader.time row < t) =
      (bs.take (bisectLeft timeEnds t)).flatten ++
        (Blocks.get bs (bisectLeft timeEnds t)).filter fun row => reader.time row < t := by
  have hbefore : ((bs.take (bisectLeft timeEnds t)).flatten.filter fun row => reader.time row < t) =
      (bs.take (bisectLeft timeEnds t)).flatten :=
    filter_eq_self.mpr fun row hrow => by
      simpa using lt_of_mem_take hends hsorted hrow
  conv_lhs => rw [← take_append_drop (bisectLeft timeEnds t) bs, flatten_append,
    filter_append, hbefore]
  congr 1
  cases hget : bs[bisectLeft timeEnds t]? with
  | none =>
    rw [drop_of_length_le (List.getElem?_eq_none_iff.mp hget), Blocks.get, hget]
    rfl
  | some b =>
    obtain ⟨hk, rfl⟩ := List.getElem?_eq_some_iff.mp hget
    obtain ⟨last, hlast, hend⟩ := getElem?_timeEnds hends hget
    have hafter : ((bs.drop (bisectLeft timeEnds t + 1)).flatten.filter
        fun row => reader.time row < t) = [] :=
      filter_eq_nil_iff.mpr fun row hrow => by
        simpa using (le_of_bisectLeft hend).trans (le_of_mem_drop hends hsorted hend hrow)
    rw [drop_eq_getElem_cons hk, flatten_cons, filter_append, hafter,
      List.append_nil, Blocks.get_eq hget]

end Blocks

namespace History

/-- **`iter_from`.** -/
theorem iterFrom_eq (h : History enc reader p bs) (henc : enc.Faithful) (t : τ) :
    p.iterFrom enc reader t = bs.flatten.filter fun row => t ≤ reader.time row := by
  have hbefore : ((bs.take (bisectLeft p.timeEnds t)).flatten.filter
      fun row => t ≤ reader.time row) = [] :=
    filter_eq_nil_iff.mpr fun row hrow => by
      simpa using lt_of_mem_take (h.timeEnds h.timestamped) h.sorted hrow
  conv_rhs => rw [← take_append_drop (bisectLeft p.timeEnds t) bs, flatten_append,
    filter_append, hbefore, nil_append]
  rw [Packed.iterFrom, h.blocks, ← map_drop, flatMap_map]
  simp only [henc.decode_encode, flatMap_def, filter_flatten]

theorem length_timeEnds (h : History enc reader p bs) : p.timeEnds.length = bs.length := by
  simpa using congrArg List.length (h.timeEnds h.timestamped)

/-- **`range_blocks`**: a part of the rows, with all of the period. -/
theorem rangeBlocks_holds (h : History enc reader p bs) (start stop : τ) :
    ∃ cs, Holds enc reader (p.rangeBlocks start stop) cs ∧ cs.flatten <:+: bs.flatten ∧
      cs.flatten.filter (fun row => start ≤ reader.time row ∧ reader.time row ≤ stop) =
        bs.flatten.filter fun row => start ≤ reader.time row ∧ reader.time row ≤ stop := by
  have hends := h.timeEnds h.timestamped
  generalize hfirst : bisectLeft p.timeEnds start = first
  generalize hlast : min p.blocks.length (bisectRight p.timeEnds stop + 1) = last
  have hle : first ≤ bs.length := by
    rw [← hfirst, ← h.length_timeEnds]
    exact bisectLeft_le _ _
  have hcut : (((Blocks.ends bs).take last).drop first).map (· - Blocks.base bs first) =
      Blocks.ends ((bs.take last).drop first) := by
    rw [Blocks.ends_drop, Blocks.ends_take]
    rcases le_total first last with hordered | hordered
    · rw [Blocks.base_take hordered]
    · rw [drop_of_length_le (by rw [length_take]; omega)]
      rfl
  have hrest : (bs.drop (max first last)).flatten.filter
      (fun row => start ≤ reader.time row ∧ reader.time row ≤ stop) = [] := by
    refine filter_eq_nil_iff.mpr fun row hrow => ?_
    have hlength : p.blocks.length = bs.length := by simp [h.blocks]
    cases hend : p.timeEnds[bisectRight p.timeEnds stop]? with
    | none =>
      -- every block was taken
      rw [List.getElem?_eq_none_iff, h.length_timeEnds] at hend
      rw [drop_of_length_le (by omega)] at hrow
      simp at hrow
    | some e =>
      have hlt := (List.getElem?_eq_some_iff.mp hend).1
      rw [h.length_timeEnds] at hlt
      have hrow : row ∈ (bs.drop (bisectRight p.timeEnds stop + 1)).flatten := by
        have hmax : max first last = bisectRight p.timeEnds stop + 1 +
            (max first last - (bisectRight p.timeEnds stop + 1)) := by omega
        rw [hmax, ← drop_drop] at hrow
        obtain ⟨b, hb, hrow⟩ := mem_flatten.mp hrow
        exact mem_flatten.mpr ⟨b, mem_of_mem_drop hb, hrow⟩
      have := (lt_of_bisectRight hend).trans_le (le_of_mem_drop hends h.sorted hend hrow)
      simp [this]
  refine ⟨(bs.take last).drop first, ⟨⟨?_, ?_, fun _ => ?_⟩, ?_⟩, ?_, ?_⟩
  · simp only [Packed.rangeBlocks, hfirst, hlast]
    rw [h.blocks, map_drop, map_take]
  · simp only [Packed.rangeBlocks, hfirst, hlast, h.ends, h.base_eq hle, hcut]
  · simp [Packed.rangeBlocks, hfirst, hlast, hends, map_take, map_drop]
  · simp only [Packed.rangeBlocks, hfirst, hlast, h.ends, h.base_eq hle, hcut,
      Blocks.getLast?_ends]
  · rw [drop_take]
    exact ⟨(bs.take first).flatten, ((bs.drop first).drop (last - first)).flatten, by
      rw [← flatten_append, ← flatten_append, append_assoc, take_append_drop, take_append_drop]⟩
  · have hbefore : (bs.take first).flatten.filter
        (fun row => start ≤ reader.time row ∧ reader.time row ≤ stop) = [] :=
      filter_eq_nil_iff.mpr fun row hrow => by
        have := lt_of_mem_take hends h.sorted (hfirst ▸ hrow)
        simp [this]
    have hmax : max first last = first + (last - first) := by omega
    rw [hmax, ← drop_drop] at hrest
    conv_rhs => rw [← take_append_drop first bs,
      ← take_append_drop (last - first) (bs.drop first), flatten_append,
      flatten_append, filter_append, filter_append, hbefore, hrest,
      nil_append, List.append_nil]
    rw [drop_take]

/-- **`with_suffix`.** -/
theorem withSuffix (h : History enc reader p bs) (henc : enc.Faithful) (t : τ) {rows : List ρ}
    (hsorted : Sorted reader rows) (hrows : ∀ row ∈ rows, t ≤ reader.time row) :
    ∃ cs, History enc reader (p.withSuffix enc reader t rows) cs ∧
      cs.flatten = bs.flatten.filter (fun row => reader.time row < t) ++ rows := by
  have hends := h.timeEnds h.timestamped
  have hle : bisectLeft p.timeEnds t ≤ bs.length := by
    rw [← h.length_timeEnds]
    exact bisectLeft_le _ _
  have hretained : p.retained enc reader t (bisectLeft p.timeEnds t) =
      (Blocks.get bs (bisectLeft p.timeEnds t)).filter fun row => reader.time row < t := by
    rw [Packed.retained, h.blocks, List.getElem?_map, Blocks.get]
    cases bs[bisectLeft p.timeEnds t]? <;> simp [henc.decode_encode]
  have hfilter := filter_lt hends h.sorted t
  have hwhole : Sorted reader (bs.flatten.filter (fun row => reader.time row < t) ++ rows) := by
    refine pairwise_append.mpr ⟨h.sorted.filter _, hsorted, fun a ha b hb => ?_⟩
    have hlt : reader.time a < t := by simpa using (List.mem_filter.mp ha).2
    exact hlt.le.trans (hrows b hb)
  rw [Packed.withSuffix, hretained]
  generalize bisectLeft p.timeEnds t = block at hle hfilter ⊢
  generalize (Blocks.get bs block).filter (fun row => reader.time row < t) = retained at hfilter ⊢
  have htail : Sorted reader (retained ++ rows) := by
    rw [hfilter, append_assoc] at hwhole
    exact (pairwise_append.mp hwhole).2.1
  obtain ⟨cs, hcs, hholds, htimestamped, htimed⟩ := exists_holds enc reader true (retained ++ rows)
    fun _ => htail
  have htimed := htimed rfl
  have hflatten : (bs.take block ++ cs).flatten =
      bs.flatten.filter (fun row => reader.time row < t) ++ rows := by
    rw [flatten_append, hcs, hfilter, append_assoc]
  refine ⟨bs.take block ++ cs, ⟨⟨⟨?_, ?_, fun _ => ?_⟩, ?_⟩, rfl, hflatten ▸ hwhole, ?_⟩, hflatten⟩
  · simp [hholds.blocks, h.blocks, packedHistory]
  · rw [Blocks.ends_append, Blocks.ends_take, Blocks.base_length, ← Blocks.base, h.base_eq hle]
    simp [packedHistory, hholds.ends, h.ends]
  · simp [packedHistory, map_take, hends, hholds.timeEnds htimestamped]
  · rw [flatten_append, length_append, ← Blocks.base, h.base_eq hle]
    simp [packedHistory, hholds.count]
  · have hbefore := take_bisectLeft (x := t) (h.times.increasing.imp le_of_lt)
    have hafter := drop_bisectLeft (x := t) (htimed.increasing.imp le_of_lt)
    simp only [packedHistory, hbefore, hafter, hflatten]
    refine ⟨?_, fun t' => ?_⟩
    · refine pairwise_append.mpr ⟨h.times.increasing.filter _, htimed.increasing.filter _,
        fun a ha b hb => ?_⟩
      have ha := (List.mem_filter.mp ha).2
      have hb := (List.mem_filter.mp hb).2
      simp only [decide_eq_true_eq] at ha hb
      exact ha.trans_le hb
    · have hmem := h.times.mem t'
      have hmem' := htimed.mem t'
      have hretained : ∀ row ∈ retained, reader.time row < t := fun row hrow => by
        have : row ∈ bs.flatten.filter fun row => reader.time row < t := by simp [hfilter, hrow]
        simpa using (List.mem_filter.mp this).2
      simp only [mem_append, List.mem_filter, hmem, hmem', decide_eq_true_eq]
      grind

end History

end Codexon.PackedRows
