import Codexon.PackedRows

/-!
# Codexon.PackedRows.Reading

Positions and ranges of packed rows are those of the list that the blocks make, whatever the
cache holds of them.
-/

namespace Codexon

namespace PackedRows

variable {ρ τ δ : Type} {enc : Encoding ρ δ} {reader : Reader ρ τ}

/-- What the code relies on: what was pickled, compressed or made JSON can be read again, a
pickle ends where it says, a compressed payload is no JSON text, and digests do not collide. -/
structure Encoding.Faithful (enc : Encoding ρ δ) : Prop where
  loads_dumps : ∀ rows, enc.loads (enc.dumps rows) = rows
  decompress_compress : ∀ block, enc.decompress (enc.compress block) = block
  dumpsPair_append : ∀ {a b : Nat × Nat} {x y : Bytes},
    enc.dumpsPair a ++ x = enc.dumpsPair b ++ y → a = b ∧ x = y
  jsonDumps_injective : Function.Injective enc.jsonDumps
  compress_ne_jsonDumps : ∀ block rows, enc.compress block ≠ enc.jsonDumps rows
  sha256_injective : Function.Injective enc.sha256

def lastTime (reader : Reader ρ τ) (b : List ρ) : Option τ := b.getLast?.map reader.time

/-- What is packed are these blocks. -/
structure Stores (enc : Encoding ρ δ) (reader : Reader ρ τ) (p : Packed τ) (bs : List (List ρ)) :
    Prop where
  blocks : p.blocks = bs.map enc.encode
  ends : p.ends = Blocks.ends bs
  timeEnds : p.timestamped → p.timeEnds.map some = bs.map (lastTime reader)

/-- The packed rows are those of these blocks. -/
structure Holds (enc : Encoding ρ δ) (reader : Reader ρ τ) (p : Packed τ) (bs : List (List ρ)) :
    Prop extends Stores enc reader p bs where
  count : p.count = bs.flatten.length

def Cached (bs : List (List ρ)) (cache : Cache ρ) : Prop :=
  ∀ entry ∈ cache, bs[entry.1]? = some entry.2

theorem Encoding.Faithful.decode_encode (henc : enc.Faithful) (rows : List ρ) :
    enc.decode (enc.encode rows) = rows := by
  rw [Encoding.decode, Encoding.encode, henc.decompress_compress, henc.loads_dumps]

theorem Encoding.Faithful.dumpsPair_ne_nil (henc : enc.Faithful) (a : Nat × Nat) :
    enc.dumpsPair a ≠ [] := by
  intro ha
  -- an empty pickle would be one of any pair
  have hother (b : Nat × Nat) : a = b := by
    have h : enc.dumpsPair a ++ enc.dumpsPair b = enc.dumpsPair b ++ [] := by simp [ha]
    exact (henc.dumpsPair_append h).1
  simpa using (hother (0, 0)).symm.trans (hother (0, 1))

variable {p : Packed τ} {bs : List (List ρ)}

namespace Holds

theorem base_eq (h : Holds enc reader p bs) {k : Nat} (hk : k ≤ bs.length) :
    p.base k = Blocks.base bs k := by
  cases k with
  | zero => simp [Packed.base]
  | succ k => simp [Packed.base, h.ends, Blocks.getElem?_ends hk]

theorem block (h : Holds enc reader p bs) (henc : enc.Faithful) {k : Nat} {b : List ρ}
    (hb : bs[k]? = some b) : Py.Yields (Cached bs) (p.block enc k) (.ok b) := by
  intro cache hcache
  have hentries (rows : List ρ) (hrows : rows = b) : Cached bs
      ((cache.filter (fun entry => entry.1 ≠ k) ++ [(k, rows)]).drop
        ((cache.filter (fun entry => entry.1 ≠ k) ++ [(k, rows)]).length - 2)) := by
    intro entry hentry
    rcases List.mem_append.mp (List.mem_of_mem_drop hentry) with hentry | hentry
    · exact hcache entry (List.mem_of_mem_filter hentry)
    · rw [List.mem_singleton] at hentry
      rw [hentry, hb, hrows]
  cases hfind : cache.find? (fun entry => entry.1 = k) with
  | some entry =>
    have hkey : entry.1 = k := by simpa using List.find?_some hfind
    have hrows : entry.2 = b := by
      have := hcache entry (List.mem_of_find?_eq_some hfind)
      rw [hkey, hb, Option.some.injEq] at this
      exact this.symm
    subst hrows
    refine ⟨_, hentries _ rfl, ?_⟩
    simp only [Packed.block, bind, EStateM.bind, Py.get_run, hfind, pure, EStateM.pure, Py.set_run]
  | none =>
    have hpayload : p.blocks[k]? = some (enc.encode b) := by simp [h.blocks, hb]
    refine ⟨_, hentries _ rfl, ?_⟩
    simp only [Packed.block, bind, EStateM.bind, Py.get_run, hfind, item, hpayload, Py.ofExcept,
      Functor.map, EStateM.map, pure, EStateM.pure, Py.set_run, henc.decode_encode]

end Holds

/-! ## plain lists -/

/-- `rows[index]`. -/
def listItem (rows : List ρ) (index : Int) : Except PyError ρ :=
  let index := if index < 0 then index + rows.length else index
  if 0 ≤ index then item rows index.toNat else .error .indexError

/-- `rows[start:stop:step]`. -/
def listSlice (rows : List ρ) (s : Slice) : Except PyError (List ρ) := do
  let (start, stop, step) ← s.indices rows.length
  return (range start stop step).filterMap fun i => rows[i.toNat]?

theorem mem_range {start stop step i : Int} (hi : i ∈ range start stop step) :
    (0 < step → start ≤ i ∧ i < stop) ∧ (step < 0 → stop < i ∧ i ≤ start) := by
  rw [range, List.mem_map] at hi
  obtain ⟨j, hj, rfl⟩ := hi
  rw [List.mem_range] at hj
  constructor
  · intro hstep
    rw [if_pos hstep] at hj
    have hquotient := Int.ediv_mul_le (stop - start + step - 1) hstep.ne'
    have hlt : (j : Int) + 1 ≤ (stop - start + step - 1) / step := by omega
    constructor <;> nlinarith
  · intro hstep
    rw [if_neg (by omega)] at hj
    have hquotient := Int.ediv_mul_le (start - stop - step - 1) (b := -step) (by omega)
    have hlt : (j : Int) + 1 ≤ (start - stop - step - 1) / -step := by omega
    constructor <;> nlinarith

theorem indices_ok {s : Slice} {length : Nat} {start stop step : Int}
    (h : s.indices length = .ok (start, stop, step)) :
    step ≠ 0 ∧ (0 < step → 0 ≤ start ∧ stop ≤ length) ∧
      (step < 0 → -1 ≤ stop ∧ start ≤ length - 1) := by
  rw [Slice.indices] at h
  split at h
  · simp at h
  next hstep =>
    simp only [Except.ok.injEq, Prod.mk.injEq] at h
    obtain ⟨hstart, hstop, rfl⟩ := h
    refine ⟨hstep, fun hpos => ?_, fun hneg => ?_⟩
    · rw [← hstart, ← hstop]
      cases s.start <;> cases s.stop <;> simp <;> grind
    · rw [← hstart, ← hstop]
      cases s.start <;> cases s.stop <;> simp <;> grind

theorem valid_of_indices {s : Slice} {length : Nat} {start stop step i : Int}
    (h : s.indices length = .ok (start, stop, step)) (hi : i ∈ range start stop step) :
    0 ≤ i ∧ i < length := by
  obtain ⟨hstep, hpos, hneg⟩ := indices_ok h
  obtain ⟨hforward, hbackward⟩ := mem_range hi
  rcases lt_or_gt_of_ne hstep with hlt | hgt
  · have := hneg hlt
    have := hbackward hlt
    omega
  · have := hpos hgt
    have := hforward hgt
    omega

theorem filterMap_range_one (rows : List ρ) {start stop : Int} (hstart : 0 ≤ start) :
    ((range start stop 1).filterMap fun i => rows[i.toNat]?) =
      (rows.take stop.toNat).drop start.toNat := by
  have hlength : ((stop - start + 1 - 1) / 1).toNat = stop.toNat - start.toNat := by omega
  rw [range, if_pos (by omega), hlength, List.filterMap_map, List.drop_take]
  generalize stop.toNat - start.toNat = count
  induction count with
  | zero => simp
  | succ count ih =>
    have hindex : (start + (count : Int)).toNat = start.toNat + count := by omega
    rw [List.range_succ, List.filterMap_append, ih, List.take_add_one, List.getElem?_drop]
    cases hitem : rows[start.toNat + count]? <;> simp [hindex, hitem]

namespace Holds

/-! ## reads -/

theorem getItem (h : Holds enc reader p bs) (henc : enc.Faithful) (index : Int) :
    Py.Yields (Cached bs) (p.getItem enc index) (listItem bs.flatten index) := by
  rw [Packed.getItem, listItem, h.count]
  generalize (if index < 0 then index + (bs.flatten.length : Int) else index) = i
  by_cases hi : 0 ≤ i ∧ i < bs.flatten.length
  · have hlt : i.toNat < bs.flatten.length := by omega
    obtain ⟨b, hb, -, -, hitem⟩ := Blocks.exists_block hlt
    have hle : bisectRight (Blocks.ends bs) i.toNat ≤ bs.length := by
      simpa using bisectRight_le (Blocks.ends bs) i.toNat
    rw [if_pos hi, if_pos hi.1, h.ends, item, hitem]
    simp only [h.base_eq hle]
    exact (h.block henc hb).bind (Py.Yields.ofExcept _)
  · rw [if_neg hi]
    split
    next hnonneg =>
      rw [item, List.getElem?_eq_none (by omega)]
      exact .throw _
    next => exact .throw _

theorem getSlice (h : Holds enc reader p bs) (henc : enc.Faithful) (s : Slice) :
    Py.Yields (Cached bs) (p.getSlice enc s) (listSlice bs.flatten s) := by
  rw [Packed.getSlice, listSlice, h.count]
  cases hindices : s.indices bs.flatten.length with
  | error e => exact .bind_error (.throw e)
  | ok indices =>
    obtain ⟨start, stop, step⟩ := indices
    refine (Py.Yields.pure _).bind ?_
    obtain ⟨-, hpos, -⟩ := indices_ok hindices
    by_cases hstep : step = 1
    · subst hstep
      obtain ⟨hstart, hstop⟩ := hpos (by omega)
      simp only [ne_eq, not_true_eq_false, if_false, pure, Except.pure, bind, Except.bind,
        filterMap_range_one _ hstart]
      split
      next hle =>
        rw [List.drop_eq_nil_of_le (by simp only [List.length_take]; omega)]
        exact .pure []
      next hlt =>
        have hordered : start.toNat < stop.toNat := by omega
        have hlength : stop.toNat ≤ bs.flatten.length := by omega
        obtain ⟨hlast, hparts⟩ := Blocks.flatMap_portion_range hordered hlength
        rw [← hparts, h.ends, List.flatMap_def]
        refine (Py.Yields.mapM fun k hk => ?_).bind (.pure _)
        have hk : k < bs.length := by
          have := List.mem_range'_1.mp hk
          omega
        rw [h.base_eq hk.le]
        exact (h.block henc (Blocks.getElem?_eq_get hk)).bind (.pure _)
    · simp only [ne_eq, hstep, not_false_iff, if_true]
      refine Py.Yields.mapM_some fun i hi => ?_
      obtain ⟨hnonneg, hlt⟩ := valid_of_indices hindices hi
      have hitem := List.getElem?_eq_getElem (l := bs.flatten) (i := i.toNat) (by omega)
      refine ⟨_, hitem, ?_⟩
      have hlist : listItem bs.flatten i = .ok bs.flatten[i.toNat] := by
        simp only [listItem, not_lt.mpr hnonneg, hnonneg, if_true, if_false, item, hitem]
      exact hlist ▸ h.getItem henc i

end Holds

end PackedRows

/-!
## packing

What `__init__`, `range_blocks` and `with_suffix` pack.
-/

namespace PackedRows

variable {ρ τ δ : Type} [LinearOrder τ] {enc : Encoding ρ δ} {reader : Reader ρ τ}
variable {p : Packed τ} {bs : List (List ρ)} {rows batch : List ρ}

/-! ## packing -/

omit [LinearOrder τ] in
theorem stores_addBlock (h : Stores enc reader p bs) (hbatch : batch ≠ []) :
    Stores enc reader (p.addBlock enc reader batch) (bs ++ [batch]) where
  blocks := by simp [Packed.addBlock, h.blocks]
  ends := by
    have hone : Blocks.ends [batch] = [batch.length] := by simp [Blocks.ends, Blocks.base]
    rw [Packed.addBlock, Blocks.ends_append, hone, h.ends, Blocks.getLast?_ends,
      ← Blocks.base_length]
    rfl
  timeEnds htimestamped := by
    have htimestamped : p.timestamped := htimestamped
    have hlast := h.timeEnds htimestamped
    simp [Packed.addBlock, htimestamped, hlast, lastTime, List.getLast?_eq_some_getLast hbatch]

omit [LinearOrder τ] in
theorem stores_pack (h : Stores enc reader p bs) (hbatch : batch ≠ []) :
    ∃ cs, cs.flatten = batch ∧ Stores enc reader (p.pack enc reader batch) (bs ++ cs) ∧
      (p.pack enc reader batch).count = p.count ∧ (p.pack enc reader batch).times = p.times ∧
      (p.pack enc reader batch).timestamped = p.timestamped := by
  induction hlength : batch.length using Nat.strong_induction_on generalizing p bs batch with
  | _ n ih =>
    subst hlength
    rw [Packed.pack]
    split
    next hbig =>
      have hmiddle : 0 < batch.length / 2 ∧ batch.length / 2 < batch.length := by omega
      have hleft : batch.take (batch.length / 2) ≠ [] := by
        rw [← List.length_pos_iff, List.length_take]
        omega
      have hright : batch.drop (batch.length / 2) ≠ [] := by
        rw [← List.length_pos_iff, List.length_drop]
        omega
      obtain ⟨cs, hcs, hstores, hcount, htimes, htimestamped⟩ :=
        ih _ (by rw [List.length_take]; omega) h hleft rfl
      obtain ⟨ds, hds, hstores', hcount', htimes', htimestamped'⟩ :=
        ih _ (by rw [List.length_drop]; omega) hstores hright rfl
      refine ⟨cs ++ ds, ?_, ?_, hcount'.trans hcount, htimes'.trans htimes,
        htimestamped'.trans htimestamped⟩
      · rw [List.flatten_append, hcs, hds, List.take_append_drop]
      · rw [← List.append_assoc]
        exact hstores'
    next => exact ⟨[batch], by simp, stores_addBlock h hbatch, rfl, rfl, rfl⟩

/-! ## times -/

/-- These are the distinct times of the rows, in order. -/
structure Timed (reader : Reader ρ τ) (times : List τ) (rows : List ρ) : Prop where
  increasing : times.Pairwise (· < ·)
  mem : ∀ t, t ∈ times ↔ ∃ row ∈ rows, reader.time row = t

def Sorted (reader : Reader ρ τ) (rows : List ρ) : Prop :=
  rows.Pairwise fun a b => reader.time a ≤ reader.time b

theorem timed_append {times : List τ} (h : Timed reader times rows) {row : ρ}
    (hsorted : ∀ r ∈ rows, reader.time r ≤ reader.time row) :
    Timed reader (if times.getLast? ≠ some (reader.time row) then times ++ [reader.time row]
      else times) (rows ++ [row]) := by
  split
  next hlast =>
    refine ⟨?_, fun t => by simp [h.mem, or_and_right, exists_or, eq_comm]⟩
    rw [List.pairwise_append]
    refine ⟨h.increasing, by simp, fun t ht t' ht' => ?_⟩
    rw [List.mem_singleton] at ht'
    subst ht'
    obtain ⟨r, hr, hrt⟩ := (h.mem t).mp ht
    refine lt_of_le_of_ne (hrt ▸ hsorted r hr) fun heq => hlast ?_
    -- the time of the row would be the last one already
    obtain ⟨before, last, rfl⟩ := (List.eq_nil_or_concat' times).resolve_left
      (List.ne_nil_of_mem ht)
    obtain ⟨r', hr', hrt'⟩ := (h.mem last).mp (by simp)
    have hle := hsorted r' hr'
    have hincreasing := h.increasing
    rw [List.pairwise_append] at hincreasing
    rcases List.mem_append.mp ht with ht | ht
    · have := hincreasing.2.2 t ht last (by simp)
      grind
    · grind
  next hlast =>
    rw [not_not] at hlast
    refine ⟨h.increasing, fun t => ?_⟩
    have hrow := (h.mem _).mp (List.mem_of_getLast? hlast)
    rw [h.mem]
    grind

/-! ## `__init__` -/

/-- The loop after some rows. -/
structure Filled (enc : Encoding ρ δ) (reader : Reader ρ τ) (s : Filling ρ τ) (rows : List ρ) :
    Prop where
  stores : ∃ bs, Stores enc reader s.packed bs ∧ bs.flatten ++ s.batch = rows
  count : s.packed.count = rows.length
  times : s.packed.timestamped → Timed reader s.packed.times rows

theorem filled_flush {s : Filling ρ τ} (h : Filled enc reader s rows) (size : Nat) :
    Filled enc reader (s.flush enc reader size) rows ∧
      (s.flush enc reader size).packed.timestamped = s.packed.timestamped := by
  rw [Filling.flush]
  split
  next hfull =>
    obtain ⟨bs, hstores, hrows⟩ := h.stores
    obtain ⟨cs, hcs, hpacked, hcount, htimes, htimestamped⟩ := stores_pack hstores hfull.1
    refine ⟨⟨⟨bs ++ cs, hpacked, by simp [hcs, ← hrows]⟩, hcount.trans h.count, fun ht => ?_⟩,
      htimestamped⟩
    rw [htimes]
    exact h.times (htimestamped ▸ ht)
  next => exact ⟨h, rfl⟩

theorem filled_add {s : Filling ρ τ} (h : Filled enc reader s rows) (row : ρ)
    (hsorted : s.packed.timestamped → ∀ r ∈ rows, reader.time r ≤ reader.time row) :
    Filled enc reader (s.add enc reader row) (rows ++ [row]) ∧
      (s.add enc reader row).packed.timestamped = s.packed.timestamped := by
  obtain ⟨hflush, htimestamped⟩ := filled_flush h (rowSize reader row)
  rw [← htimestamped] at hsorted ⊢
  rw [Filling.add]
  generalize s.flush enc reader (rowSize reader row) = s' at hflush hsorted ⊢
  obtain ⟨bs, hstores, hrows⟩ := hflush.stores
  refine ⟨⟨⟨bs, ⟨hstores.blocks, hstores.ends, hstores.timeEnds⟩, ?_⟩, ?_, fun ht => ?_⟩, rfl⟩
  · rw [← hrows, List.append_assoc]
  · rw [List.length_append, List.length_singleton, ← hflush.count]
  · have ht : s'.packed.timestamped := ht
    simpa [ht] using timed_append (hflush.times ht) (hsorted ht)

/-- **Packed rows.** -/
theorem exists_holds (enc : Encoding ρ δ) (reader : Reader ρ τ) (timestamped : Bool)
    (rows : List ρ) (hsorted : timestamped → Sorted reader rows) :
    ∃ bs, bs.flatten = rows ∧ Holds enc reader (packedRows enc reader timestamped rows) bs ∧
      (packedRows enc reader timestamped rows).timestamped = timestamped ∧
      (timestamped → Timed reader (packedRows enc reader timestamped rows).times rows) := by
  have hfilled : Filled enc reader (rows.foldl (Filling.add enc reader)
      { packed := { timestamped } }) rows ∧
      (rows.foldl (Filling.add enc reader) { packed := { timestamped } }).packed.timestamped =
        timestamped := by
    induction rows using List.reverseRecOn with
    | nil =>
      refine ⟨⟨⟨[], ⟨rfl, rfl, fun _ => rfl⟩, rfl⟩, rfl, fun _ => ⟨List.Pairwise.nil, ?_⟩⟩, rfl⟩
      simp
    | append_singleton rows row ih =>
      have hsorted' (ht : timestamped) := List.pairwise_append.mp (hsorted ht)
      obtain ⟨hfilled, htimestamped⟩ := ih fun ht => (hsorted' ht).1
      rw [List.foldl_append, List.foldl_cons, List.foldl_nil]
      obtain ⟨hadd, hadd'⟩ := filled_add hfilled row fun ht r hr =>
        (hsorted' (htimestamped ▸ ht)).2.2 r hr row (by simp)
      exact ⟨hadd, hadd'.trans htimestamped⟩
  rw [packedRows]
  generalize rows.foldl (Filling.add enc reader) { packed := { timestamped } } = s at hfilled ⊢
  obtain ⟨hfilled, htimestamped⟩ := hfilled
  obtain ⟨bs, hstores, hrows⟩ := hfilled.stores
  split
  next hempty =>
    rw [hempty, List.append_nil] at hrows
    refine ⟨bs, hrows, ⟨hstores, ?_⟩, htimestamped, fun ht => hfilled.times (htimestamped ▸ ht)⟩
    rw [hfilled.count, hrows]
  next hbatch =>
    obtain ⟨cs, hcs, hpacked, hcount, htimes, htimestamped'⟩ := stores_pack hstores hbatch
    refine ⟨bs ++ cs, by rw [List.flatten_append, hcs, hrows], ⟨hpacked, ?_⟩,
      htimestamped'.trans htimestamped, fun ht => ?_⟩
    · rw [hcount, hfilled.count, List.flatten_append, hcs, hrows]
    · rw [htimes]
      exact hfilled.times (htimestamped ▸ ht)

end PackedRows

end Codexon
