import Codexon.PackedRows.Reading

/-!
# Codexon.PackedRows.Signature

The bytes that `signature` digests name the rows of the range, however they are cut.
-/

namespace Codexon.PackedRows

variable {ρ τ δ : Type} {enc : Encoding ρ δ} {reader : Reader ρ τ}
variable {p : Packed τ} {bs : List (List ρ)}

/-! ## framed payloads -/

theorem length_littleEndian (length n : Nat) : (littleEndian length n).length = length := by
  induction length generalizing n with
  | zero => rfl
  | succ length ih => simp [littleEndian, ih]

theorem littleEndian_inj {length m n : Nat} (hm : m < 256 ^ length) (hn : n < 256 ^ length)
    (h : littleEndian length m = littleEndian length n) : m = n := by
  induction length generalizing m n with
  | zero => omega
  | succ length ih =>
    simp only [littleEndian, List.cons.injEq] at h
    have hdigit : m % 256 = n % 256 := by simpa [Fin.ofNat, Fin.ext_iff] using h.1
    rw [pow_succ] at hm hn
    have := ih (by omega) (by omega) h.2
    omega

def framed (payload : Bytes) : Except PyError Bytes := do
  return (← toBytes 8 payload.length) ++ payload

theorem framed_ok {payload frame : Bytes} (h : framed payload = .ok frame) :
    payload.length < 256 ^ 8 ∧ frame = littleEndian 8 payload.length ++ payload := by
  rw [framed, toBytes] at h
  split at h
  next hlt => exact ⟨hlt, (Except.ok.inj h).symm⟩
  next => simp [bind, Except.bind] at h

theorem framed_inj {payloads payloads' frames frames' : List Bytes}
    (h : payloads.mapM framed = .ok frames) (h' : payloads'.mapM framed = .ok frames')
    (heq : frames.flatten = frames'.flatten) : payloads = payloads' := by
  induction payloads generalizing payloads' frames frames' with
  | nil =>
    obtain rfl : [] = frames := Except.ok.inj h
    cases payloads' with
    | nil => rfl
    | cons payload payloads' =>
      rw [List.mapM_cons] at h'
      obtain ⟨frame, hframe, h'⟩ := ok_of_bind h'
      obtain ⟨rest, -, h'⟩ := ok_of_bind h'
      obtain rfl : frame :: rest = frames' := Except.ok.inj h'
      rw [(framed_ok hframe).2] at heq
      simp [littleEndian] at heq
  | cons payload payloads ih =>
    rw [List.mapM_cons] at h
    obtain ⟨frame, hframe, h⟩ := ok_of_bind h
    obtain ⟨rest, hrest, h⟩ := ok_of_bind h
    obtain rfl : frame :: rest = frames := Except.ok.inj h
    obtain ⟨hlt, rfl⟩ := framed_ok hframe
    cases payloads' with
    | nil =>
      obtain rfl : [] = frames' := Except.ok.inj h'
      simp [littleEndian] at heq
    | cons payload' payloads' =>
      rw [List.mapM_cons] at h'
      obtain ⟨frame', hframe', h'⟩ := ok_of_bind h'
      obtain ⟨rest', hrest', h'⟩ := ok_of_bind h'
      obtain rfl : frame' :: rest' = frames' := Except.ok.inj h'
      obtain ⟨hlt', rfl⟩ := framed_ok hframe'
      simp only [List.flatten_cons, List.append_assoc] at heq
      obtain ⟨hlengths, heq⟩ := List.append_inj heq (by simp [length_littleEndian])
      obtain ⟨hpayload, heq⟩ := List.append_inj heq (littleEndian_inj hlt hlt' hlengths)
      rw [hpayload, ih hrest hrest' heq]

/-! ## payloads -/

/-- What a range has of block `k`. -/
def part (bs : List (List ρ)) (start stop k : Nat) : List ρ :=
  Blocks.portion start stop (Blocks.base bs k) (Blocks.get bs k)

/-- What `signature` digests of block `k`. -/
def payloadOf (enc : Encoding ρ δ) (bs : List (List ρ)) (start stop k : Nat) : Bytes :=
  if start ≤ Blocks.base bs k ∧ Blocks.base bs (k + 1) ≤ stop then enc.encode (Blocks.get bs k)
  else enc.jsonDumps (part bs start stop k)

theorem part_eq_of_payload (henc : enc.Faithful) {cs : List (List ρ)}
    {start stop start' stop' : Nat} {j k : Nat} (hj : j < bs.length) (hk : k < cs.length)
    (h : payloadOf enc bs start stop j = payloadOf enc cs start' stop' k) :
    part bs start stop j = part cs start' stop' k := by
  -- a whole block is its own part
  have hwhole {ds : List (List ρ)} {start stop k : Nat} (hk : k < ds.length)
      (h : start ≤ Blocks.base ds k ∧ Blocks.base ds (k + 1) ≤ stop) :
      part ds start stop k = Blocks.get ds k := by
    rw [Blocks.base_succ (Blocks.getElem?_eq_get hk)] at h
    rw [part, Blocks.portion, List.take_of_length_le (by omega), Nat.sub_eq_zero_of_le h.1,
      List.drop_zero]
  simp only [payloadOf] at h
  split at h <;> split at h
  next hwholeJ hwholeK =>
    have := congrArg enc.decode h
    rwa [henc.decode_encode, henc.decode_encode, ← hwhole hj hwholeJ, ← hwhole hk hwholeK] at this
  next => exact absurd h (henc.compress_ne_jsonDumps _ _)
  next => exact absurd h.symm (henc.compress_ne_jsonDumps _ _)
  next => exact henc.jsonDumps_injective h

def indexes (bs : List (List ρ)) (start stop : Nat) : List Nat :=
  List.range' (bisectRight (Blocks.ends bs) start)
    (bisectLeft (Blocks.ends bs) stop + 1 - bisectRight (Blocks.ends bs) start)

def signatureOf (enc : Encoding ρ δ) (bs : List (List ρ)) (start stop : Nat) :
    Except PyError δ :=
  if start < stop then do
    let frames ← (indexes bs start stop).mapM fun k =>
      if k < bs.length then framed (payloadOf enc bs start stop k) else .error .indexError
    return enc.sha256 (enc.dumpsPair (start - Blocks.base bs
      (bisectRight (Blocks.ends bs) start), stop - start) ++ frames.flatten)
  else .ok (enc.sha256 [])

namespace Holds

theorem block_none (h : Holds enc reader p bs) {k : Nat} (hk : bs.length ≤ k) :
    Py.Yields (Cached bs) (p.block enc k) (.error .indexError) := by
  intro cache hcache
  have hfind : cache.find? (fun entry => entry.1 = k) = none := by
    refine List.find?_eq_none.mpr fun entry hentry => ?_
    have := (List.getElem?_eq_some_iff.mp (hcache entry hentry)).1
    simp only [decide_eq_true_eq]
    omega
  have hpayload : p.blocks[k]? = none := by simp [h.blocks, hk]
  refine ⟨cache, hcache, ?_⟩
  simp only [Packed.block, bind, EStateM.bind, Py.get_run, hfind, item, hpayload, Py.ofExcept,
    Functor.map, EStateM.map]
  rfl

theorem payload (h : Holds enc reader p bs) (henc : enc.Faithful) (start stop k : Nat) :
    Py.Yields (Cached bs) (p.payload enc start stop k)
      (if k < bs.length then .ok (payloadOf enc bs start stop k) else .error .indexError) := by
  rw [Packed.payload]
  by_cases hk : k < bs.length
  · have hget := Blocks.getElem?_eq_get hk
    have hend : item p.ends k = .ok (Blocks.base bs (k + 1)) := by
      rw [item, h.ends, Blocks.getElem?_ends hk]
    have hblock : item p.blocks k = .ok (enc.encode (Blocks.get bs k)) := by
      simp [item, h.blocks, hget]
    simp only [hk, if_true, h.base_eq hk.le, hend, hblock, payloadOf]
    by_cases hstart : start ≤ Blocks.base bs k
    · simp only [hstart, if_true, true_and]
      refine ((Py.Yields.ofExcept _).map _).bind ?_
      by_cases hstop : Blocks.base bs (k + 1) ≤ stop
      · simp only [hstop, decide_true, if_true]
        exact .ofExcept _
      · simp only [hstop, decide_false, Bool.false_eq_true, if_false]
        exact (h.block henc hget).bind (.pure _)
    · simp only [hstart, if_false, false_and]
      exact (Py.Yields.pure false).bind ((h.block henc hget).bind (.pure _))
  · have hend : item p.ends k = .error .indexError := by
      rw [item, h.ends, List.getElem?_eq_none (by simpa using hk)]
    simp only [hk, if_false, hend]
    split
    next => exact .bind_error ((Py.Yields.throw _).map _)
    next => exact (Py.Yields.pure false).bind (.bind_error (h.block_none (not_lt.mp hk)))

theorem signature (h : Holds enc reader p bs) (henc : enc.Faithful) (start : Nat)
    (stop : Option Nat) : Py.Yields (Cached bs) (p.signature enc start stop)
      (signatureOf enc bs start (stop.getD bs.flatten.length)) := by
  rw [Packed.signature, h.count, signatureOf]
  generalize stop.getD bs.flatten.length = stop
  simp only
  split
  next hlt =>
    have hfirst : bisectRight (Blocks.ends bs) start ≤ bs.length := by
      simpa using bisectRight_le (Blocks.ends bs) start
    have hframes : Py.Yields (Cached bs) ((indexes bs start stop).mapM fun block => do
        let payload ← p.payload enc start stop block
        return (← Py.ofExcept (toBytes 8 payload.length)) ++ payload)
        ((indexes bs start stop).mapM fun k =>
          if k < bs.length then framed (payloadOf enc bs start stop k)
          else .error .indexError) := by
      refine Py.Yields.mapM_except fun k _ => ?_
      have hpayload := h.payload henc start stop k
      by_cases hk : k < bs.length
      · simp only [hk, if_true] at hpayload ⊢
        refine hpayload.bind ?_
        rw [framed]
        cases toBytes 8 (payloadOf enc bs start stop k).length with
        | error e => exact .bind_error (.throw e)
        | ok bytes => exact (Py.Yields.pure bytes).bind (.pure _)
      · simp only [hk, if_false] at hpayload ⊢
        exact .bind_error hpayload
    rw [h.ends, h.base_eq hfirst]
    cases hmapM : (indexes bs start stop).mapM fun k =>
        if k < bs.length then framed (payloadOf enc bs start stop k)
        else .error .indexError with
    | error e => exact .bind_error (hmapM ▸ hframes)
    | ok frames => exact (hmapM ▸ hframes).bind (.pure _)
  next => exact .pure _

end Holds

/-! ## equal signatures -/

theorem mapM_guarded {α β : Type} {q : α → Prop} [DecidablePred q] {g : α → Except PyError β}
    {xs : List α} {ys : List β} {e : PyError}
    (h : (xs.mapM fun x => if q x then g x else .error e) = .ok ys) :
    (∀ x ∈ xs, q x) ∧ xs.mapM g = .ok ys := by
  induction xs generalizing ys with
  | nil => exact ⟨by simp, h⟩
  | cons x xs ih =>
    rw [List.mapM_cons] at h
    obtain ⟨y, hy, h⟩ := ok_of_bind h
    obtain ⟨ys', hys, h⟩ := ok_of_bind h
    obtain ⟨hall, hrest⟩ := ih hys
    split at hy
    next hx =>
      refine ⟨by simpa [hx] using hall, ?_⟩
      rw [List.mapM_cons, hy, hrest]
      exact h
    next => simp at hy

theorem map_congr_of_map {α α' β γ : Type} {f : α → β} {f' : α' → β} {g : α → γ} {g' : α' → γ}
    {xs : List α} {ys : List α'} (h : xs.map f = ys.map f')
    (hfg : ∀ x ∈ xs, ∀ y ∈ ys, f x = f' y → g x = g' y) : xs.map g = ys.map g' := by
  induction xs generalizing ys with
  | nil => simpa using h
  | cons x xs ih =>
    cases ys with
    | nil => simp at h
    | cons y ys =>
      simp only [List.map_cons, List.cons.injEq] at h ⊢
      exact ⟨hfg x (by simp) y (by simp) h.1,
        ih h.2 fun a ha b hb => hfg a (by simp [ha]) b (by simp [hb])⟩

theorem signatureOf_ok {start stop : Nat} {d : δ} (hlt : start < stop)
    (h : signatureOf enc bs start stop = .ok d) : (∀ k ∈ indexes bs start stop, k < bs.length) ∧
      ((indexes bs start stop).map (part bs start stop)).flatten =
        (bs.flatten.take stop).drop start ∧
      ∃ pair frames, ((indexes bs start stop).map (payloadOf enc bs start stop)).mapM framed =
        .ok frames ∧ d = enc.sha256 (enc.dumpsPair pair ++ frames.flatten) := by
  rw [signatureOf, if_pos hlt] at h
  obtain ⟨frames, hframes, h⟩ := ok_of_bind h
  obtain ⟨hall, hframes⟩ := mapM_guarded hframes
  have hlast : bisectLeft (Blocks.ends bs) stop < bs.length := by
    refine hall _ (List.mem_range'_1.mpr ?_)
    have := bisectRight_le_bisectLeft (Blocks.ends bs) hlt
    omega
  have hstop : stop ≤ bs.flatten.length := by
    have hreach := le_of_bisectLeft (x := stop) (Blocks.getElem?_ends hlast)
    rw [← Blocks.base_length]
    exact hreach.trans (Blocks.base_mono bs hlast)
  refine ⟨hall, ?_, _, frames, ?_, (Except.ok.inj h).symm⟩
  · rw [← List.flatMap_def]
    exact (Blocks.flatMap_portion_range hlt hstop).2
  · rw [List.mapM_map]
    exact hframes

/-- **Equal signatures are of equal rows.** -/
theorem rows_eq_of_signatureOf (henc : enc.Faithful) {cs : List (List ρ)}
    {start stop start' stop' : Nat} {d : δ} (h : signatureOf enc bs start stop = .ok d)
    (h' : signatureOf enc cs start' stop' = .ok d) :
    (bs.flatten.take stop).drop start = (cs.flatten.take stop').drop start' := by
  have hempty {ds : List (List ρ)} {start stop : Nat} (hle : ¬ start < stop) :
      (ds.flatten.take stop).drop start = [] :=
    List.drop_eq_nil_of_le (by rw [List.length_take]; omega)
  by_cases hlt : start < stop <;> by_cases hlt' : start' < stop'
  · obtain ⟨hall, hrows, pair, frames, hframes, hd⟩ := signatureOf_ok hlt h
    obtain ⟨hall', hrows', pair', frames', hframes', hd'⟩ := signatureOf_ok hlt' h'
    obtain ⟨-, hflatten⟩ := henc.dumpsPair_append (henc.sha256_injective (hd ▸ hd'))
    rw [← hrows, ← hrows']
    refine congrArg List.flatten (map_congr_of_map (framed_inj hframes hframes' hflatten) ?_)
    exact fun j hj k hk => part_eq_of_payload henc (hall j hj) (hall' k hk)
  · obtain ⟨-, -, pair, frames, -, hd⟩ := signatureOf_ok hlt h
    rw [signatureOf, if_neg hlt', Except.ok.injEq, hd] at h'
    have := henc.sha256_injective h'
    simp [henc.dumpsPair_ne_nil] at this
  · obtain ⟨-, -, pair, frames, -, hd⟩ := signatureOf_ok hlt' h'
    rw [signatureOf, if_neg hlt, Except.ok.injEq, hd] at h
    have := henc.sha256_injective h
    simp [henc.dumpsPair_ne_nil] at this
  · rw [hempty hlt, hempty hlt']

end Codexon.PackedRows
