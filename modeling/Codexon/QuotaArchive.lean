import Codexon.Dict
import Codexon.Json

/-!
# Codexon.QuotaArchive

`encode` and `decode` of `cachemonitor/quota_archive.py`, the packets of closed quota
periods: tuples travel as objects with the one member `$tuple`, and an object hook puts
them back from the inside out.  What comes back is `Exact`, so a packet is its value
again for those values alone.
-/

namespace Codexon.QuotaArchive

/-- A key of a dictionary; `other` is one that JSON cannot write. -/
inductive Key where
  | str (s : PyStr)
  | int (n : Int)
  | float (x : PyFloat)
  | bool (b : Bool)
  | none
  | other
deriving DecidableEq

inductive Value where
  | none
  | bool (b : Bool)
  | int (n : Int)
  | float (x : PyFloat)
  | str (s : PyStr)
  | list (items : List Value)
  | tuple (items : List Value)
  | dict (members : List (Key × Value))
  | other

def marker : PyStr := py "$tuple"

/-! ## writing -/

/-- A key as `JSONEncoder` writes it. -/
def Key.text : Key → Option PyStr
  | .str s => some s
  | .int n => if (Json.natRepr n.natAbs).length ≤ 4300 then some (Json.intRepr n) else Option.none
  | .float x => Json.floatRepr x
  | .bool b => some (py (if b then "true" else "false"))
  | .none => some (py "null")
  | .other => Option.none

mutual
/-- `_json_value`, with the keys as they are written. -/
def jsonValue : Value → Option Json
  | .none => some .null
  | .bool b => some (.bool b)
  | .int n => some (.int n)
  | .float x => some (.float x)
  | .str s => some (.str s)
  | .list items => (jsonItems items).map .arr
  | .tuple items => (jsonItems items).map fun items => .obj [(marker, .arr items)]
  | .dict members =>
    if .str marker ∈ members.map Prod.fst then Option.none else (jsonMembers members).map .obj
  | .other => Option.none

def jsonItems : List Value → Option (List Json)
  | [] => some []
  | item :: items => do return (← jsonValue item) :: (← jsonItems items)

def jsonMembers : List (Key × Value) → Option (List (PyStr × Json))
  | [] => some []
  | (key, value) :: members => do
    return (← key.text, ← jsonValue value) :: (← jsonMembers members)
end

def MAX_PACKET_BYTES : Nat := 8 * 1024 * 1024

def MAX_DECODED_BYTES : Nat := 32 * 1024 * 1024

def MAX_ROWS : Nat := 65536

mutual
/-- `_weight` under `depth` open containers, without the bound of the sum. -/
def weight (depth : Nat) : Value → Option Nat
  | .list items | .tuple items =>
    if items.length > MAX_ROWS ∨ depth + 1 > 64 then Option.none
    else (weightItems (depth + 1) items).map (64 + 8 * items.length + ·)
  | .dict members =>
    if members.length > MAX_ROWS ∨ depth + 1 > 64 then Option.none
    else (weightMembers (depth + 1) members).map (64 + 32 * members.length + ·)
  | .str s => some (s.length * 4 + 64)
  | _ => some 32

def weightItems (depth : Nat) : List Value → Option Nat
  | [] => some 0
  | item :: items => do return (← weight depth item) + (← weightItems depth items)

def weightMembers (depth : Nat) : List (Key × Value) → Option Nat
  | [] => some 0
  | (_, value) :: members => do return (← weight depth value) + (← weightMembers depth members)
end

/-- `json` and `zlib`.  `loads` is the document of a text, before its escapes are put
together and its objects become dictionaries; `decompress` takes a limit and gives the
bytes, whether the stream has ended, and the bytes after it. -/
structure Encoding where
  dumps : Json → Option Bytes
  loads : Bytes → Option Json
  compress : Bytes → Bytes
  decompress : Bytes → Nat → Option (Bytes × Bool × Bytes)

structure Encoding.Faithful (enc : Encoding) : Prop where
  loads_dumps {document raw} : enc.dumps document = some raw → enc.loads raw = some document
  decompress_compress {raw limit} : raw.length < limit →
    enc.decompress (enc.compress raw) limit = some (raw, true, [])

variable (enc : Encoding)

/-- `encode`; `none` where it raises. -/
def encode (value : Value) : Option Bytes := do
  guard ((← weight 1 value) ≤ MAX_DECODED_BYTES)
  let raw ← enc.dumps (← jsonValue value)
  guard (raw.length ≤ MAX_DECODED_BYTES)
  guard ((enc.compress raw).length ≤ MAX_PACKET_BYTES)
  return enc.compress raw

/-! ## reading -/

def high (c : CodePoint) : Bool := 0xd800 ≤ c.val && c.val ≤ 0xdbff

def low (c : CodePoint) : Bool := 0xdc00 ≤ c.val && c.val ≤ 0xdfff

/-- The escapes of two halves that follow each other are one character. -/
def join : PyStr → PyStr
  | a :: b :: s =>
    if high a ∧ low b then
      Fin.ofNat 0x110000 (0x10000 + (a.val - 0xd800) * 0x400 + (b.val - 0xdc00)) :: join s
    else a :: join (b :: s)
  | s => s

def Key.value : Key → Value
  | .str s => .str s
  | .int n => .int n
  | .float x => .float x
  | .bool b => .bool b
  | .none => .none
  | .other => .other

def Value.toTuple : Value → Option Value
  | .list items | .tuple items => some (.tuple items)
  | .str s => some (.tuple (s.map fun c => .str [c]))
  | .dict members => some (.tuple (members.map (·.1.value)))
  | _ => Option.none

def object_ (value : Dict PyStr Value) : Option Value :=
  match value.entries with
  | [(key, item)] => if key = marker then item.toTuple else some (.dict [(.str key, item)])
  | entries => some (.dict (entries.map fun e => (.str e.1, e.2)))

mutual
/-- A document with its escapes, `object_hook` and all. -/
def hooked : Json → Option Value
  | .null => some .none
  | .bool b => some (.bool b)
  | .int n => some (.int n)
  | .float x => some (.float x)
  | .str s => some (.str (join s))
  | .arr items => (hookedItems items).map .list
  | .obj members => do object_ (({} : Dict PyStr Value).update (← hookedMembers members))

def hookedItems : List Json → Option (List Value)
  | [] => some []
  | item :: items => do return (← hooked item) :: (← hookedItems items)

def hookedMembers : List (PyStr × Json) → Option (List (PyStr × Value))
  | [] => some []
  | (key, value) :: members => do
    return (join key, ← hooked value) :: (← hookedMembers members)
end

def decode (payload : Bytes) : Option Value := do
  guard (payload.length ≤ MAX_PACKET_BYTES)
  let (raw, eof, unused) ← enc.decompress payload (MAX_DECODED_BYTES + 1)
  guard (raw.length ≤ MAX_DECODED_BYTES ∧ eof = true ∧ unused = [])
  hooked (← enc.loads raw)

/-! ## what comes back -/

def Whole (s : PyStr) : Prop := s.IsChain fun a b => ¬(high a ∧ low b)

mutual
/-- Every text is whole, and every key is a text, once in its dictionary. -/
def Value.Exact : Value → Prop
  | .str s => Whole s
  | .list items | .tuple items => ExactItems items
  | .dict members => (members.map Prod.fst).Nodup ∧ ExactMembers members
  | .other => False
  | _ => True

def ExactItems : List Value → Prop
  | [] => True
  | item :: items => item.Exact ∧ ExactItems items

def ExactMembers : List (Key × Value) → Prop
  | [] => True
  | (key, value) :: members => (∃ s, key = .str s ∧ Whole s) ∧ value.Exact ∧ ExactMembers members
end

theorem exactItems_iff {items : List Value} : ExactItems items ↔ ∀ item ∈ items, item.Exact := by
  induction items with
  | nil => simp [ExactItems]
  | cons item items ih => simp [ExactItems, ih]

theorem exactMembers_iff {members : List (Key × Value)} :
    ExactMembers members ↔ ∀ m ∈ members, (∃ s, m.1 = .str s ∧ Whole s) ∧ m.2.Exact := by
  induction members with
  | nil => simp [ExactMembers]
  | cons m members ih => simp [ExactMembers, ih, and_assoc]

theorem head_join (a : CodePoint) (s : PyStr) :
    ∃ c t, join (a :: s) = c :: t ∧ (c = a ∨ low c = false) := by
  cases s with
  | nil => exact ⟨a, [], by simp [join], .inl rfl⟩
  | cons b s =>
    by_cases h : high a ∧ low b
    · refine ⟨_, _, by rw [join, if_pos h], .inr ?_⟩
      simp only [high, low, Bool.and_eq_true, decide_eq_true_eq] at h
      simp only [low, Fin.ofNat, Bool.and_eq_false_iff, decide_eq_false_iff_not]
      omega
    · exact ⟨a, _, by rw [join, if_neg h], .inl rfl⟩

theorem whole_cons {a : CodePoint} {s : PyStr} (ha : high a = false) (hs : Whole s) :
    Whole (a :: s) := by
  cases s with
  | nil => exact List.IsChain.singleton a
  | cons b s => exact List.isChain_cons_cons.mpr ⟨by simp [ha], hs⟩

theorem whole_join (s : PyStr) : Whole (join s) := by
  induction s using join.induct with
  | case1 a b s h ih =>
    rw [join, if_pos h]
    simp only [high, low, Bool.and_eq_true, decide_eq_true_eq] at h
    refine whole_cons ?_ ih
    simp only [high, Fin.ofNat, Bool.and_eq_false_iff, decide_eq_false_iff_not]
    omega
  | case2 a b s h ih =>
    rw [join, if_neg h]
    obtain ⟨c, t, hjoin, hc⟩ := head_join b s
    rw [hjoin] at ih ⊢
    refine List.isChain_cons_cons.mpr ⟨?_, ih⟩
    rcases hc with rfl | hc
    · exact h
    · simp [hc]
  | case3 s h =>
    match s, h with
    | [], _ | [_], _ => simp [join, Whole]
    | a :: b :: s, h => exact (h a b s rfl).elim

theorem join_of_whole {s : PyStr} (h : Whole s) : join s = s := by
  induction s using join.induct with
  | case1 a b s hab ih => exact absurd hab (List.isChain_cons_cons.mp h).1
  | case2 a b s hab ih => rw [join, if_neg hab, ih (List.isChain_cons_cons.mp h).2]
  | case3 s hs =>
    match s, hs with
    | [], _ | [_], _ => rfl
    | a :: b :: s, hs => exact (hs a b s rfl).elim

theorem value_exact {key : Key} (h : ∃ s, key = .str s ∧ Whole s) : key.value.Exact := by
  obtain ⟨s, rfl, hs⟩ := h
  exact hs

theorem toTuple_exact {value tuple : Value} (hvalue : value.Exact)
    (h : value.toTuple = some tuple) : tuple.Exact := by
  cases value with
  | list items | tuple items =>
    obtain rfl : .tuple items = tuple := by simpa [Value.toTuple] using h
    exact hvalue
  | str s =>
    obtain rfl := Option.some.inj h
    refine exactItems_iff.mpr fun item hitem => ?_
    obtain ⟨c, _, rfl⟩ := List.mem_map.mp hitem
    exact List.IsChain.singleton c
  | dict members =>
    obtain rfl := Option.some.inj h
    refine exactItems_iff.mpr fun item hitem => ?_
    obtain ⟨m, hm, rfl⟩ := List.mem_map.mp hitem
    exact value_exact (exactMembers_iff.mp hvalue.2 m hm).1
  | _ => simp [Value.toTuple] at h

theorem object_exact {d : Dict PyStr Value} {value : Value}
    (hd : ∀ e ∈ d.entries, Whole e.1 ∧ e.2.Exact) (h : object_ d = some value) : value.Exact := by
  have hdict : (Value.dict (d.entries.map fun e => (.str e.1, e.2))).Exact := by
    refine ⟨?_, exactMembers_iff.mpr fun m hm => ?_⟩
    · have hkeys := d.nodup.map (f := Key.str) fun a b => Key.str.inj
      simpa [List.map_map, Function.comp_def] using hkeys
    · obtain ⟨e, he, rfl⟩ := List.mem_map.mp hm
      exact ⟨⟨e.1, rfl, (hd e he).1⟩, (hd e he).2⟩
  unfold object_ at h
  split at h
  · next key item hentries =>
    split at h
    · exact toTuple_exact (hd (key, item) (by simp [hentries])).2 h
    · obtain rfl := Option.some.inj h
      simpa [hentries] using hdict
  · obtain rfl := Option.some.inj h
    exact hdict

mutual
theorem hooked_exact : ∀ (document : Json) {value}, hooked document = some value → value.Exact
  | .null, _, h | .bool _, _, h | .int _, _, h | .float _, _, h => by
    obtain rfl := Option.some.inj h
    trivial
  | .str s, _, h => by
    obtain rfl := Option.some.inj h
    exact whole_join s
  | .arr items, _, h => by
    obtain ⟨values, hvalues, rfl⟩ := Option.map_eq_some_iff.mp h
    exact exactItems_iff.mpr (hookedItems_exact items hvalues)
  | .obj members, _, h => by
    obtain ⟨pairs, hpairs, hobject⟩ := Option.bind_eq_some_iff.mp h
    refine object_exact (fun e he => ?_) hobject
    exact hookedMembers_exact members hpairs e ((Dict.mem_update he).resolve_left (by simp))

theorem hookedItems_exact : ∀ (items : List Json) {values},
    hookedItems items = some values → ∀ value ∈ values, value.Exact
  | [], _, h => by
    obtain rfl := Option.some.inj h
    simp
  | item :: items, _, h => by
    simp only [hookedItems, Option.bind_eq_bind, Option.bind_eq_some_iff, Option.pure_def,
      Option.some.injEq] at h
    obtain ⟨value, hvalue, values, hvalues, rfl⟩ := h
    exact List.forall_mem_cons.mpr ⟨hooked_exact item hvalue, hookedItems_exact items hvalues⟩

theorem hookedMembers_exact : ∀ (members : List (PyStr × Json)) {pairs},
    hookedMembers members = some pairs → ∀ p ∈ pairs, Whole p.1 ∧ p.2.Exact
  | [], _, h => by
    obtain rfl := Option.some.inj h
    simp
  | (key, item) :: members, _, h => by
    simp only [hookedMembers, Option.bind_eq_bind, Option.bind_eq_some_iff, Option.pure_def,
      Option.some.injEq] at h
    obtain ⟨value, hvalue, pairs, hpairs, rfl⟩ := h
    exact List.forall_mem_cons.mpr
      ⟨⟨whole_join key, hooked_exact item hvalue⟩, hookedMembers_exact members hpairs⟩
end

mutual
theorem hooked_jsonValue : ∀ (value : Value) {document}, value.Exact →
    jsonValue value = some document → hooked document = some value
  | .none, _, _, h | .bool _, _, _, h | .int _, _, _, h | .float _, _, _, h => by
    obtain rfl := Option.some.inj h
    rfl
  | .str s, _, hs, h => by
    obtain rfl := Option.some.inj h
    rw [hooked, join_of_whole hs]
  | .list items, _, hitems, h => by
    obtain ⟨documents, hdocuments, rfl⟩ := Option.map_eq_some_iff.mp h
    rw [hooked, hooked_jsonItems items hitems hdocuments]
    rfl
  | .tuple items, _, hitems, h => by
    obtain ⟨documents, hdocuments, rfl⟩ := Option.map_eq_some_iff.mp h
    have hback := hooked_jsonItems items hitems hdocuments
    simp [hooked, hookedMembers, hback, Dict.update, Dict.set, object_, Value.toTuple]
    decide
  | .dict members, _, hmembers, h => by
    simp only [jsonValue] at h
    split at h
    · contradiction
    · next hmarker =>
      obtain ⟨pairs, hpairs, rfl⟩ := Option.map_eq_some_iff.mp h
      obtain ⟨texts, hback, rfl⟩ := hooked_jsonMembers members hmembers.2 hpairs
      have hkeys : (texts.map Prod.fst).Nodup := by
        refine List.Nodup.of_map Key.str ?_
        simpa [List.map_map, Function.comp_def] using hmembers.1
      have hentries : (({} : Dict PyStr Value).update texts).entries = texts := by
        simpa using Dict.entries_update {} (by simpa using hkeys)
      rw [hooked, hback]
      simp only [Option.bind_eq_bind, Option.bind_some, object_, hentries]
      split
      · next key item => rw [if_neg (by simpa [eq_comm] using hmarker)]; rfl
      · rfl
  | .other, _, hother, _ => hother.elim

theorem hooked_jsonItems : ∀ (items : List Value) {documents}, ExactItems items →
    jsonItems items = some documents → hookedItems documents = some items
  | [], _, _, h => by
    obtain rfl := Option.some.inj h
    rfl
  | item :: items, _, hitems, h => by
    simp only [jsonItems, Option.bind_eq_bind, Option.bind_eq_some_iff, Option.pure_def,
      Option.some.injEq] at h
    obtain ⟨document, hdocument, documents, hdocuments, rfl⟩ := h
    simp [hookedItems, hooked_jsonValue item hitems.1 hdocument,
      hooked_jsonItems items hitems.2 hdocuments]

theorem hooked_jsonMembers : ∀ (members : List (Key × Value)) {pairs}, ExactMembers members →
    jsonMembers members = some pairs → ∃ texts, hookedMembers pairs = some texts ∧
      members = texts.map fun e => (.str e.1, e.2)
  | [], _, _, h => by
    obtain rfl := Option.some.inj h
    exact ⟨[], rfl, rfl⟩
  | (key, value) :: members, _, hmembers, h => by
    obtain ⟨⟨s, rfl, hs⟩, hvalue, hmembers⟩ := hmembers
    simp only [jsonMembers, Key.text, Option.bind_eq_bind, Option.bind_eq_some_iff,
      Option.pure_def, Option.some.injEq] at h
    obtain ⟨_, rfl, document, hdocument, pairs, hpairs, rfl⟩ := h
    obtain ⟨texts, hback, rfl⟩ := hooked_jsonMembers members hmembers hpairs
    exact ⟨(s, value) :: texts,
      by simp [hookedMembers, hback, join_of_whole hs, hooked_jsonValue value hvalue hdocument], rfl⟩
end

variable {enc}

end Codexon.QuotaArchive
