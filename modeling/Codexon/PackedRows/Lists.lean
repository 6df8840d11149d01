import Codexon.PackedRows.History
import Codexon.PackedRows.Signature

/-!
# Codexon.PackedRows.Lists

Packed rows behave as the list of their rows, after any suffixes and any reads.
-/

namespace Codexon.PackedRows

variable {ρ τ δ : Type} [LinearOrder τ] {enc : Encoding ρ δ} {reader : Reader ρ τ}
variable {p : Packed τ} {bs : List (List ρ)} {rows : List ρ}

/-! ## reads of an object, one after the other -/

/-- A read through the cache. -/
inductive Read where
  | item (index : Int)
  | slice (s : Slice)
  | signature (start : Nat) (stop : Option Nat)

/-- What a read returns or raises. -/
inductive Output (ρ δ : Type) where
  | item (result : Except PyError ρ)
  | slice (result : Except PyError (List ρ))
  | signature (result : Except PyError δ)
deriving DecidableEq

/-- How a method ends, and the state it leaves. -/
def outcome {σ α : Type} (m : Py σ α) (s : σ) : Except PyError α × σ :=
  match m s with
  | .ok a s' => (.ok a, s')
  | .error e s' => (.error e, s')

variable (enc) in
def Packed.read (p : Packed τ) (cache : Cache ρ) : Read → Output ρ δ × Cache ρ
  | .item index => let r := outcome (p.getItem enc index) cache; (.item r.1, r.2)
  | .slice s => let r := outcome (p.getSlice enc s) cache; (.slice r.1, r.2)
  | .signature start stop =>
    let r := outcome (p.signature enc start stop) cache; (.signature r.1, r.2)

variable (enc) in
def Packed.reads (p : Packed τ) (cache : Cache ρ) : List Read → List (Output ρ δ)
  | [] => []
  | r :: rs => (p.read enc cache r).1 :: p.reads (p.read enc cache r).2 rs

variable (enc) in
def Packed.firstSignature (p : Packed τ) (start : Nat) (stop : Option Nat) : Except PyError δ :=
  (outcome (p.signature enc start stop) []).1

variable (enc) in
def answer (p : Packed τ) (rows : List ρ) : Read → Output ρ δ
  | .item index => .item (listItem rows index)
  | .slice s => .slice (listSlice rows s)
  | .signature start stop => .signature (p.firstSignature enc start stop)

/-- The packed rows behave as a list. -/
structure AsList (enc : Encoding ρ δ) (p : Packed τ) (rows : List ρ) : Prop where
  len : p.len = rows.length
  iter : p.iter enc = rows
  reads : ∀ rs, p.reads enc [] rs = rs.map (answer enc p rows)

theorem outcome_of_yields {σ α : Type} {I : σ → Prop} {m : Py σ α} {r : Except PyError α} {s : σ}
    (h : Py.Yields I m r) (hs : I s) : (outcome m s).1 = r ∧ I (outcome m s).2 := by
  obtain ⟨s', hs', heq⟩ := h s hs
  cases r with
  | ok a => simp only [outcome, heq, hs', and_self]
  | error e => simp only [outcome, heq, hs', and_self]

section

omit [LinearOrder τ]

theorem cached_nil : Cached bs [] := by simp [Cached]

theorem Holds.firstSignature_eq (h : Holds enc reader p bs) (henc : enc.Faithful) (start : Nat)
    (stop : Option Nat) : p.firstSignature enc start stop =
      signatureOf enc bs start (stop.getD bs.flatten.length) :=
  (outcome_of_yields (h.signature henc start stop) cached_nil).1

theorem Holds.read (h : Holds enc reader p bs) (henc : enc.Faithful) {cache : Cache ρ}
    (hcache : Cached bs cache) (r : Read) :
    (p.read enc cache r).1 = answer enc p bs.flatten r ∧ Cached bs (p.read enc cache r).2 := by
  cases r with
  | item index =>
    obtain ⟨hresult, hleft⟩ := outcome_of_yields (h.getItem henc index) hcache
    exact ⟨by rw [Packed.read, hresult, answer], hleft⟩
  | slice s =>
    obtain ⟨hresult, hleft⟩ := outcome_of_yields (h.getSlice henc s) hcache
    exact ⟨by rw [Packed.read, hresult, answer], hleft⟩
  | signature start stop =>
    obtain ⟨hresult, hleft⟩ := outcome_of_yields (h.signature henc start stop) hcache
    exact ⟨by rw [Packed.read, hresult, answer, h.firstSignature_eq henc], hleft⟩

/-- **Any reads.** -/
theorem Holds.reads (h : Holds enc reader p bs) (henc : enc.Faithful) {cache : Cache ρ}
    (hcache : Cached bs cache) (rs : List Read) :
    p.reads enc cache rs = rs.map (answer enc p bs.flatten) := by
  induction rs generalizing cache with
  | nil => rfl
  | cons r rs ih =>
    obtain ⟨hread, hleft⟩ := h.read henc hcache r
    rw [Packed.reads, hread, ih hleft, List.map_cons]

theorem Holds.asList (h : Holds enc reader p bs) (henc : enc.Faithful) :
    AsList enc p bs.flatten where
  len := h.count
  iter := by
    simp [Packed.iter, h.blocks, List.flatMap_def, Function.comp_def, henc.decode_encode]
  reads := h.reads henc cached_nil

end

/-! ## histories -/

/-- A history that began with some rows and had its end replaced any number of times. -/
inductive BuiltHistory (enc : Encoding ρ δ) (reader : Reader ρ τ) : Packed τ → List ρ → Prop where
  | init (rows : List ρ) (hsorted : Sorted reader rows) :
      BuiltHistory enc reader (packedHistory enc reader rows) rows
  | suffix {p : Packed τ} {rows : List ρ} (h : BuiltHistory enc reader p rows) (t : τ)
      (added : List ρ) (hsorted : Sorted reader added)
      (hafter : ∀ row ∈ added, t ≤ reader.time row) :
      BuiltHistory enc reader (p.withSuffix enc reader t added)
        (rows.filter (fun row => reader.time row < t) ++ added)

/-- Packed rows, or a history. -/
inductive Built (enc : Encoding ρ δ) (reader : Reader ρ τ) : Packed τ → List ρ → Prop where
  | rows (rows : List ρ) : Built enc reader (packedRows enc reader false rows) rows
  | history {p : Packed τ} {rows : List ρ} (h : BuiltHistory enc reader p rows) :
      Built enc reader p rows

theorem BuiltHistory.exists_history (henc : enc.Faithful) (h : BuiltHistory enc reader p rows) :
    ∃ bs, bs.flatten = rows ∧ History enc reader p bs := by
  induction h with
  | init rows hsorted =>
    obtain ⟨bs, rfl, hholds, htimestamped, htimed⟩ :=
      exists_holds enc reader true rows fun _ => hsorted
    exact ⟨bs, rfl, ⟨hholds, htimestamped, hsorted, htimed rfl⟩⟩
  | suffix h t added hsorted hafter ih =>
    obtain ⟨bs, rfl, hhistory⟩ := ih
    obtain ⟨cs, hcs, hflatten⟩ := hhistory.withSuffix henc t hsorted hafter
    exact ⟨cs, hflatten, hcs⟩

theorem Built.exists_holds (henc : enc.Faithful) (h : Built enc reader p rows) :
    ∃ bs, bs.flatten = rows ∧ Holds enc reader p bs := by
  cases h with
  | rows rows =>
    obtain ⟨bs, hbs, hholds, -⟩ :=
      PackedRows.exists_holds enc reader false rows fun h => nomatch h
    exact ⟨bs, hbs, hholds⟩
  | history h =>
    obtain ⟨bs, hbs, hhistory⟩ := h.exists_history henc
    exact ⟨bs, hbs, hhistory.toHolds⟩

/-- What the times of a history give. -/
structure AsHistory (enc : Encoding ρ δ) (reader : Reader ρ τ) (p : Packed τ) (rows : List ρ) :
    Prop where
  iterFrom : ∀ t, p.iterFrom enc reader t = rows.filter fun row => t ≤ reader.time row
  rangeBlocks : ∀ start stop, ∃ part, AsList enc (p.rangeBlocks start stop) part ∧
    part <:+: rows ∧
    part.filter (fun row => start ≤ reader.time row ∧ reader.time row ≤ stop) =
      rows.filter fun row => start ≤ reader.time row ∧ reader.time row ≤ stop
  times : Timed reader p.times rows

theorem History.asHistory (h : History enc reader p bs) (henc : enc.Faithful) :
    AsHistory enc reader p bs.flatten where
  iterFrom := h.iterFrom_eq henc
  rangeBlocks start stop := by
    obtain ⟨cs, hholds, hinfix, hfilter⟩ := h.rangeBlocks_holds start stop
    exact ⟨cs.flatten, hholds.asList henc, hinfix, hfilter⟩
  times := h.times

/-- **Packed rows behave as a plain list**, and equal signatures are of equal ranges. -/
theorem packed_asList (henc : enc.Faithful) :
    (∀ p rows, Built enc reader p rows → AsList enc p rows) ∧
    (∀ p rows, BuiltHistory enc reader p rows → AsHistory enc reader p rows) ∧
    ∀ p rows q others, Built enc reader p rows → Built enc reader q others →
      ∀ start stop start' stop' d, p.firstSignature enc start stop = .ok d →
        q.firstSignature enc start' stop' = .ok d → (rows.take (stop.getD rows.length)).drop start =
          (others.take (stop'.getD others.length)).drop start' := by
  refine ⟨fun p rows h => ?_, fun p rows h => ?_, fun p rows q others hp hq start stop start' stop'
    d hd hd' => ?_⟩
  · obtain ⟨bs, rfl, hholds⟩ := h.exists_holds henc
    exact hholds.asList henc
  · obtain ⟨bs, rfl, hhistory⟩ := h.exists_history henc
    exact hhistory.asHistory henc
  · obtain ⟨bs, rfl, hbs⟩ := hp.exists_holds henc
    obtain ⟨cs, rfl, hcs⟩ := hq.exists_holds henc
    rw [hbs.firstSignature_eq henc] at hd
    rw [hcs.firstSignature_eq henc] at hd'
    exact rows_eq_of_signatureOf henc hd hd'

/-! ## an encoding -/

def plainRow (row : Bool) : Byte := if row then 1 else 0

/-- Rows of time 0 or 1, each a byte; a digest is what was digested. -/
def plainEncoding : Encoding Bool Bytes where
  dumps := List.map plainRow
  loads := List.map (· = 1)
  compress block := 120 :: block
  decompress := List.tail
  dumpsPair pair := List.replicate pair.1 75 ++ 46 :: (List.replicate pair.2 75 ++ [46])
  jsonDumps rows := 91 :: rows.map plainRow
  sha256 := id

def plainReader : Reader Bool Nat := ⟨Bool.toNat, fun _ => []⟩

theorem replicate_append_inj {a b : Nat} {x y : Bytes}
    (h : List.replicate a 75 ++ 46 :: x = List.replicate b 75 ++ 46 :: y) : a = b ∧ x = y := by
  induction a generalizing b with
  | zero => cases b <;> simp_all [List.replicate_succ]
  | succ a ih =>
    cases b with
    | zero => simp [List.replicate_succ] at h
    | succ b =>
      simp only [List.replicate_succ, List.cons_append, List.cons.injEq, true_and] at h
      obtain ⟨rfl, hxy⟩ := ih h
      exact ⟨rfl, hxy⟩

theorem plainEncoding_faithful : plainEncoding.Faithful where
  loads_dumps rows := by
    have hrow (row : Bool) : (plainRow row = 1) = (row = true) := by cases row <;> decide
    simp [plainEncoding, Function.comp_def, hrow]
  decompress_compress _ := rfl
  dumpsPair_append {a b x y} h := by
    simp only [plainEncoding, List.append_assoc, List.cons_append, List.nil_append] at h
    obtain ⟨hfirst, h⟩ := replicate_append_inj h
    obtain ⟨hsecond, h⟩ := replicate_append_inj h
    exact ⟨Prod.ext hfirst hsecond, h⟩
  jsonDumps_injective a b h := by
    have hrow : Function.Injective plainRow := fun a b => by cases a <;> cases b <;> decide
    exact hrow.list_map (List.cons.inj h).2
  compress_ne_jsonDumps _ _ h := absurd (List.cons.inj h).1 (by decide)
  sha256_injective := Function.injective_id

/-- A history of two rows, and what it is after another row at time 1. -/
theorem packed_asList_plain :
    AsList plainEncoding (packedHistory plainEncoding plainReader [false, true]) [false, true] ∧
    AsHistory plainEncoding plainReader
      ((packedHistory plainEncoding plainReader [false, true]).withSuffix plainEncoding
        plainReader 1 [true, true]) [false, true, true] := by
  have hinit : BuiltHistory plainEncoding plainReader _ [false, true] :=
    .init _ (by simp [Sorted, plainReader])
  have hsuffix := hinit.suffix 1 [true, true] (by simp [Sorted, plainReader])
    (by simp [plainReader])
  exact ⟨(packed_asList plainEncoding_faithful).1 _ _ (.history hinit),
    (packed_asList plainEncoding_faithful).2.1 _ _ hsuffix⟩

end Codexon.PackedRows
