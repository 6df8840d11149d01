import Codexon.Metadata
import Mathlib.Data.List.Infix

/-!
# Codexon.Metadata.Selection

Both selections keep, for each field, the last admissible scalar at its dotted position.
-/

namespace Codexon

open List

namespace Metadata

/-! ## positions -/

mutual
/-- Every value of a document with its dotted position, in the order of the text. -/
def positions (path : List PyStr) : Doc → List (PyStr × Doc)
  | .array elements =>
    (join path, .array elements) :: positionsElements (path ++ [py "item"]) elements
  | .object members => (join path, .object members) :: positionsMembers path members
  | value => [(join path, value)]

def positionsElements (path : List PyStr) : List Doc → List (PyStr × Doc)
  | [] => []
  | element :: rest => positions path element ++ positionsElements path rest

def positionsMembers (path : List PyStr) : List (PyStr × Doc) → List (PyStr × Doc)
  | [] => []
  | (key, value) :: rest => positions (path ++ [key]) value ++ positionsMembers path rest
end

/-- A string of at most 256 characters, or a boolean but for efforts. -/
def admissible (name : PyStr) : Doc → Option Scalar
  | .string value => if value.length ≤ 256 then some (.text value) else none
  | .boolean value => if isEffort name then none else some (.boolean value)
  | _ => none

def lastAdmissible (doc : Doc) (field : PyStr) : Option Scalar :=
  ((positions [] doc).filterMap fun p =>
    if p.1 = field then admissible field p.2 else none).getLast?

def pick (p : PyStr × Doc) : Option (PyStr × Scalar) :=
  if p.1 ∈ fields then (admissible p.1 p.2).map fun value => (p.1, value) else none

def selected (doc : Doc) : List (PyStr × Scalar) := (positions [] doc).filterMap pick

theorem pick_field {p : PyStr × Doc} {e : PyStr × Scalar} (h : pick p = some e) :
    e.1 ∈ fields ∧ e.1 = p.1 := by
  unfold pick at h
  by_cases hp : p.1 ∈ fields
  · rw [if_pos hp] at h
    obtain ⟨value, -, rfl⟩ := Option.map_eq_some_iff.mp h
    exact ⟨hp, rfl⟩
  · simp [hp] at h

theorem pick_of_not_mem {p : PyStr × Doc} (h : p.1 ∉ fields) : pick p = none := by
  simp [pick, h]

theorem mem_fields_of_selected {doc : Doc} {name : PyStr}
    (h : name ∈ (selected doc).map Prod.fst) : name ∈ fields := by
  obtain ⟨e, he, rfl⟩ := List.mem_map.mp h
  obtain ⟨p, -, hp⟩ := mem_filterMap.mp he
  exact (pick_field hp).1

theorem last_filterMap {doc : Doc} {field : PyStr} (h : field ∈ fields) :
    Nested.last (selected doc) field = lastAdmissible doc field := by
  unfold selected lastAdmissible
  induction positions [] doc using List.reverseRecOn with
  | nil => rfl
  | append_singleton ps p ih =>
    rw [filterMap_append, filterMap_append]
    by_cases hp : p.1 = field
    · have hmem : p.1 ∈ fields := hp ▸ h
      cases hadm : admissible field p.2 with
      | none => simp [pick, hp, h, hadm, ih]
      | some value => simp [pick, hp, h, hadm]
    · cases hpick : pick p with
      | none => simp [hpick, hp, ih]
      | some e =>
        have hne : e.1 ≠ field := fun heq => hp ((pick_field hpick).2 ▸ heq)
        simp [hpick, hp, hne, ih]

/-! ## dotted names -/

/-- What stands before the key of a member. -/
def dotted (path : List PyStr) : PyStr := if path = [] then [] else join path ++ "."

theorem join_append (path : List PyStr) (key : PyStr) :
    join (path ++ [key]) = dotted path ++ key := by
  induction path with
  | nil => simp [join, dotted, List.intercalate]
  | cons a rest ih =>
    have hcons (b : PyStr) (l : List PyStr) :
        join (a :: b :: l) = a ++ py "." ++ join (b :: l) := by
      simp [join, List.intercalate]
    cases rest with
    | nil => simp [dotted, join, List.intercalate]
    | cons b l =>
      rw [cons_append, cons_append, hcons, ← cons_append, ih]
      simp [dotted, hcons]

theorem dotted_append (path : List PyStr) (key : PyStr) :
    dotted (path ++ [key]) = join (path ++ [key]) ++ "." := by
  simp [dotted]

mutual
theorem positions_inside (path : List PyStr) : (v : Doc) →
    ∃ inside, positions path v = (join path, v) :: inside ∧
      ∀ p ∈ inside, ∃ rest, p.1 = dotted path ++ rest
  | .null => ⟨[], by simp [positions]⟩
  | .boolean _ => ⟨[], by simp [positions]⟩
  | .number _ => ⟨[], by simp [positions]⟩
  | .string _ => ⟨[], by simp [positions]⟩
  | .array elements => by
    refine ⟨_, by rw [positions], fun p hp => ?_⟩
    obtain ⟨rest, hrest⟩ := positionsElements_inside (path ++ [py "item"]) elements p hp
    exact ⟨py "item" ++ rest, by rw [hrest, join_append, append_assoc]⟩
  | .object members => by
    refine ⟨_, by rw [positions], fun p hp => ?_⟩
    exact positionsMembers_inside path members p hp

theorem positionsElements_inside (path : List PyStr) : (vs : List Doc) →
    ∀ p ∈ positionsElements path vs, ∃ rest, p.1 = join path ++ rest
  | [] => by simp [positionsElements]
  | v :: vs => by
    intro p hp
    rw [positionsElements, mem_append] at hp
    obtain hp | hp := hp
    · obtain ⟨inside, heq, hinside⟩ := positions_inside path v
      rw [heq, mem_cons] at hp
      obtain rfl | hp := hp
      · exact ⟨[], by simp⟩
      · obtain ⟨rest, hrest⟩ := hinside p hp
        by_cases hpath : path = []
        · exact ⟨rest, by simpa [hpath, dotted, join, List.intercalate] using hrest⟩
        · exact ⟨py "." ++ rest, by simpa [dotted, hpath] using hrest⟩
    · exact positionsElements_inside path vs p hp

theorem positionsMembers_inside (path : List PyStr) : (ms : List (PyStr × Doc)) →
    ∀ p ∈ positionsMembers path ms, ∃ rest, p.1 = dotted path ++ rest
  | [] => by simp [positionsMembers]
  | (key, v) :: ms => by
    intro p hp
    rw [positionsMembers, mem_append] at hp
    obtain hp | hp := hp
    · obtain ⟨inside, heq, hinside⟩ := positions_inside (path ++ [key]) v
      rw [heq, mem_cons] at hp
      obtain rfl | hp := hp
      · exact ⟨key, join_append path key⟩
      · obtain ⟨rest, hrest⟩ := hinside p hp
        exact ⟨key ++ (py "." ++ rest), by rw [hrest, dotted_append, join_append]; simp⟩
    · exact positionsMembers_inside path ms p hp
end

/-! ## the names of the fields -/

theorem nested_eq {name inner : PyStr} (h : nested name = some inner) :
    inner = name ++ "." ∧ name ∉ fields := by
  unfold nested at h
  by_cases h1 : name = "response"
  · rw [if_pos h1] at h
    obtain rfl := Option.some.inj h
    rw [h1]
    exact ⟨by decide, by decide +kernel⟩
  rw [if_neg h1] at h
  by_cases h2 : name = "reasoning"
  · rw [if_pos h2] at h
    obtain rfl := Option.some.inj h
    rw [h2]
    exact ⟨by decide, by decide +kernel⟩
  rw [if_neg h2] at h
  by_cases h3 : name = "response.reasoning"
  · rw [if_pos h3] at h
    obtain rfl := Option.some.inj h
    rw [h3]
    exact ⟨by decide, by decide +kernel⟩
  · simp [h3] at h

theorem under_not_field {name rest : PyStr} (h : nested name = none) :
    name ++ py "." ++ rest ∉ fields := by
  intro hmem
  have hcheck : ∀ g ∈ fields, ∀ p ∈ g.inits, p ++ py "." ∈ g.inits → (nested p).isSome := by
    decide +kernel
  have hsome := hcheck _ hmem name ((mem_inits _ _).mpr ⟨py "." ++ rest, by simp⟩)
    ((mem_inits _ _).mpr ⟨rest, rfl⟩)
  simp [h] at hsome

theorem item_not_field {base rest : PyStr} : base ++ py "item" ++ rest ∉ fields := by
  intro hmem
  have hcheck : ∀ g ∈ fields, ¬ py "item" <:+: g := by decide +kernel
  exact hcheck _ hmem ⟨base, rest, rfl⟩

/-! ## the streaming side -/

def pickEvent (e : Event) : Option (PyStr × Scalar) :=
  if e.pre ∈ fields then
    match e.event with
    | .string value => if value.length ≤ 256 then some (e.pre, .text value) else none
    | .boolean value => if isEffort e.pre then none else some (e.pre, .boolean value)
    | _ => none
  else none

theorem pickEvent_eq_none {e : Event} (hs : ∀ s, e.event ≠ .string s)
    (hb : ∀ b, e.event ≠ .boolean b) : pickEvent e = none := by
  unfold pickEvent
  split
  · split <;> simp_all
  · rfl

theorem pick_eq_none {p : PyStr × Doc} (hs : ∀ s, p.2 ≠ .string s) (hb : ∀ b, p.2 ≠ .boolean b) :
    pick p = none := by
  unfold pick admissible
  split
  · split <;> simp_all
  · rfl

mutual
theorem events_pick (path : List PyStr) : (v : Doc) →
    (events path v).filterMap pickEvent = (positions path v).filterMap pick
  | .null => by simp [events, positions, pickEvent, pick, admissible]
  | .boolean b => by
    by_cases h : join path ∈ fields
    · by_cases he : isEffort (join path) <;>
        simp [events, positions, pickEvent, pick, admissible, h, he]
    · simp [events, positions, pickEvent, pick, h]
  | .number _ => by simp [events, positions, pickEvent, pick, admissible]
  | .string s => by
    by_cases h : join path ∈ fields
    · by_cases hs : s.length ≤ 256 <;>
        simp [events, positions, pickEvent, pick, admissible, h, hs]
    · simp [events, positions, pickEvent, pick, h]
  | .array elements => by
    have hstart : pickEvent ⟨join path, .startArray⟩ = none :=
      pickEvent_eq_none (by simp) (by simp)
    have hend : pickEvent ⟨join path, .endArray⟩ = none := pickEvent_eq_none (by simp) (by simp)
    have hself : pick (join path, .array elements) = none := pick_eq_none (by simp) (by simp)
    rw [events, positions, filterMap_append, filterMap_cons_none hstart,
      filterMap_cons_none hself, filterMap_cons_none hend, filterMap_nil,
      List.append_nil, eventsElements_pick]
  | .object members => by
    have hstart : pickEvent ⟨join path, .startMap⟩ = none := pickEvent_eq_none (by simp) (by simp)
    have hend : pickEvent ⟨join path, .endMap⟩ = none := pickEvent_eq_none (by simp) (by simp)
    have hself : pick (join path, .object members) = none := pick_eq_none (by simp) (by simp)
    rw [events, positions, filterMap_append, filterMap_cons_none hstart,
      filterMap_cons_none hself, filterMap_cons_none hend, filterMap_nil,
      List.append_nil, eventsMembers_pick]

theorem eventsElements_pick (path : List PyStr) : (vs : List Doc) →
    (eventsElements path vs).filterMap pickEvent = (positionsElements path vs).filterMap pick
  | [] => by simp [eventsElements, positionsElements]
  | v :: vs => by
    rw [eventsElements, positionsElements, filterMap_append, filterMap_append,
      events_pick path v, eventsElements_pick path vs]

theorem eventsMembers_pick (path : List PyStr) : (ms : List (PyStr × Doc)) →
    (eventsMembers path ms).filterMap pickEvent = (positionsMembers path ms).filterMap pick
  | [] => by simp [eventsMembers, positionsMembers]
  | (key, v) :: ms => by
    have hkey : pickEvent ⟨join path, .mapKey key⟩ = none := pickEvent_eq_none (by simp) (by simp)
    rw [eventsMembers, positionsMembers, filterMap_append, filterMap_append,
      filterMap_cons_none hkey, events_pick, eventsMembers_pick]
end

theorem collectEvent_eq (items : Items) (e : Event) : collectEvent items e =
    match pickEvent e with
    | some p => Nested.insert items (split p.1) p.2
    | none => some items := by
  unfold collectEvent pickEvent
  by_cases h : e.pre ∈ fields
  · rw [if_pos h, if_pos h]
    cases e.event with
    | string s =>
      by_cases hs : 256 < s.length
      · simp [hs, not_le.mpr hs]
      · simp [hs, not_lt.mp hs]
    | boolean b => by_cases he : isEffort e.pre <;> simp [he]
    | _ => rfl
  · rw [if_neg h, if_neg h]

theorem collect_eq (items : Items) (es : List Event) : collect items es =
    Nested.inserts items ((es.filterMap pickEvent).map fun p => (split p.1, p.2)) := by
  induction es generalizing items with
  | nil => rfl
  | cons e es ih =>
    have hstep : collect items (e :: es) =
        (collectEvent items e).bind fun items => collect items es := rfl
    rw [hstep, collectEvent_eq]
    cases hpick : pickEvent e with
    | none => simp [hpick, ih]
    | some p =>
      rw [filterMap_cons_some hpick, map_cons]
      change _ = (Nested.insert items (split p.1) p.2).bind _
      congr 1
      funext items
      exact ih items

theorem collect_append (items : Items) (es es' : List Event) :
    collect items (es ++ es') = (collect items es).bind fun items => collect items es' :=
  foldlM_append

/-! ## the native side -/

def keep (kept : Fields) (ps : List (PyStr × Scalar)) : Fields :=
  ps.foldl (fun kept p => kept.set p.1 p.2) kept

theorem keep_append (kept : Fields) (ps qs : List (PyStr × Scalar)) :
    keep kept (ps ++ qs) = keep (keep kept ps) qs := foldl_append

theorem pick_inside {path : List PyStr} {inside : List (PyStr × Doc)}
    (hpath : path ≠ []) (hname : nested (join path) = none)
    (hinside : ∀ p ∈ inside, ∃ rest, p.1 = dotted path ++ rest) : inside.filterMap pick = [] := by
  rw [filterMap_eq_nil_iff]
  intro p hp
  obtain ⟨rest, hrest⟩ := hinside p hp
  refine pick_of_not_mem ?_
  rw [hrest, dotted, if_neg hpath]
  exact under_not_field hname

theorem picked_of_flat {path : List PyStr} (v : Doc) (hpath : path ≠ [])
    (hname : nested (join path) = none) :
    (positions path v).filterMap pick = (pick (join path, v)).toList := by
  obtain ⟨inside, heq, hinside⟩ := positions_inside path v
  rw [heq, filterMap_cons, pick_inside hpath hname hinside]
  cases pick (join path, v) <;> rfl

theorem selectedScalar_eq {name : PyStr} (kept : Fields) (v : Doc) (h : name ∈ fields) :
    selectedScalar name kept v = keep kept (pick (name, v)).toList := by
  cases v with
  | string s =>
    by_cases hs : s.length ≤ 256 <;> simp [selectedScalar, keep, pick, admissible, h, hs]
  | boolean b =>
    by_cases he : isEffort name <;> simp [selectedScalar, keep, pick, admissible, h, he]
  | _ => simp [selectedScalar, keep, pick, admissible]

theorem picked_elements (path : List PyStr) (vs : List Doc) :
    (positionsElements (path ++ [py "item"]) vs).filterMap pick = [] := by
  rw [filterMap_eq_nil_iff]
  intro p hp
  obtain ⟨rest, hrest⟩ := positionsElements_inside _ vs p hp
  refine pick_of_not_mem ?_
  rw [hrest, join_append]
  exact item_not_field

mutual
theorem selection_eq (path : List PyStr) (kept : Fields) (h : join path ∉ fields) : (v : Doc) →
    selection (dotted path) kept v = keep kept ((positions path v).filterMap pick)
  | .null => by simp [selection, positions, pick, h, keep]
  | .boolean _ => by simp [selection, positions, pick, h, keep]
  | .number _ => by simp [selection, positions, pick, h, keep]
  | .string _ => by simp [selection, positions, pick, h, keep]
  | .array elements => by
    rw [selection, positions, filterMap_cons_none (pick_of_not_mem h), picked_elements]
    rfl
    simp
  | .object members => by
    rw [selection, positions, filterMap_cons_none (pick_of_not_mem h)]
    exact visitMap_eq path kept members

theorem visitMap_eq (path : List PyStr) (kept : Fields) : (ms : List (PyStr × Doc)) →
    visitMap (dotted path) kept ms = keep kept ((positionsMembers path ms).filterMap pick)
  | [] => by simp [visitMap, positionsMembers, keep]
  | (key, v) :: ms => by
    rw [visitMap, positionsMembers, filterMap_append, keep_append, ← join_append]
    cases hname : nested (join (path ++ [key])) with
    | some inner =>
      obtain ⟨rfl, hnot⟩ := nested_eq hname
      simp only
      rw [← dotted_append, selection_eq _ _ hnot, visitMap_eq]
    | none =>
      simp only
      rw [picked_of_flat v (by simp) hname, visitMap_eq, visitMap_eq]
      by_cases hmem : join (path ++ [key]) ∈ fields
      · rw [if_pos hmem, selectedScalar_eq kept v hmem]
      · rw [if_neg hmem, pick_of_not_mem hmem]
        rfl
end

/-! ## the dictionaries -/

def IsPath (path : List PyStr) : Prop := ∃ f ∈ fields, path = split f

theorem apart_fields : Nested.Apart IsPath where
  ne_nil := by
    rintro _ ⟨f, hf, rfl⟩
    have hcheck : ∀ f ∈ fields, split f ≠ [] := by decide +kernel
    exact hcheck f hf
  prefix_eq := by
    rintro _ _ ⟨f, hf, rfl⟩ ⟨g, hg, rfl⟩ hpre
    have hcheck : ∀ f ∈ fields, ∀ g ∈ fields, split f <+: split g → split f = split g := by
      decide +kernel
    exact hcheck f hf g hg hpre

theorem split_inj {f g : PyStr} (hf : f ∈ fields) (hg : g ∈ fields) (h : split f = split g) :
    f = g := by
  have hcheck : ∀ f ∈ fields, ∀ g ∈ fields, split f = split g → f = g := by decide +kernel
  exact hcheck f hf g hg h

def paths (ps : List (PyStr × Scalar)) : List (List PyStr × Scalar) :=
  ps.map fun p => (split p.1, p.2)

theorem isPath_of_paths {ps : List (PyStr × Scalar)} (h : ∀ f ∈ ps.map Prod.fst, f ∈ fields) :
    ∀ q ∈ (paths ps).map Prod.fst, IsPath q := by
  intro q hq
  simp only [paths, List.map_map, List.mem_map, Function.comp_apply] at hq
  obtain ⟨p, hp, rfl⟩ := hq
  exact ⟨p.1, h p.1 (List.mem_map.mpr ⟨p, hp, rfl⟩), rfl⟩

theorem last_paths {ps : List (PyStr × Scalar)} (h : ∀ f ∈ ps.map Prod.fst, f ∈ fields) {f : PyStr}
    (hf : f ∈ fields) : Nested.last (paths ps) (split f) = Nested.last ps f :=
  Nested.last_map fun g hg heq => split_inj (h g hg) hf heq

theorem last_paths_of_not {ps : List (PyStr × Scalar)} (h : ∀ f ∈ ps.map Prod.fst, f ∈ fields)
    {q : List PyStr} (hq : ¬ IsPath q) : Nested.last (paths ps) q = none := by
  rw [Nested.last_eq_none]
  exact fun hmem => hq (isPath_of_paths h q hmem)

theorem get?_keep (ps : List (PyStr × Scalar)) (f : PyStr) :
    (keep {} ps).get? f = Nested.last ps f := by
  induction ps using List.reverseRecOn with
  | nil => rfl
  | append_singleton ps p ih =>
    rw [keep_append, Nested.last_append_singleton, ← ih]
    change ((keep {} ps).set p.1 p.2).get? f = _
    rw [Dict.get?_set]
    simp only [eq_comm]

theorem last_sorted (ps : List (PyStr × Scalar)) (f : PyStr) :
    Nested.last (sorted (keep {} ps)) f = Nested.last ps f := by
  have hperm : (sorted (keep {} ps)).Perm (keep {} ps).entries := perm_insertionSort _ _
  have hnodup : ((sorted (keep {} ps)).map Prod.fst).Nodup :=
    (hperm.map Prod.fst).nodup_iff.mpr (keep {} ps).nodup
  rw [← get?_keep ps]
  ext v
  rw [Nested.last_of_nodup hnodup, hperm.mem_iff, Dict.get?_eq_some]

def Selects (doc : Doc) (items : Items) : Prop :=
  ∀ path, Nested.look items path = Nested.under (paths (selected doc)) path

theorem collect_selects (doc : Doc) : ∃ items, collect [] (events [] doc) = some items ∧
    Selects doc items := by
  rw [collect_eq, events_pick]
  exact Nested.look_inserts apart_fields (isPath_of_paths fun f => mem_fields_of_selected)

theorem output_selects (doc : Doc) : ∃ items, output (selection [] {} doc) = some items ∧
    Selects doc items := by
  have hselection : selection [] {} doc = keep {} (selected doc) :=
    selection_eq [] {} (by decide +kernel) doc
  have hmem : ∀ f ∈ (sorted (keep {} (selected doc))).map Prod.fst, f ∈ fields := by
    intro f hf
    have hlast : Nested.last (sorted (keep {} (selected doc))) f ≠ none := by
      rw [ne_eq, Nested.last_eq_none, not_not]
      exact hf
    rw [last_sorted, ne_eq, Nested.last_eq_none, not_not] at hlast
    exact mem_fields_of_selected hlast
  obtain ⟨items, hitems, hlook⟩ := Nested.look_inserts apart_fields (isPath_of_paths hmem)
  refine ⟨items, by rw [hselection]; exact hitems, fun path => ?_⟩
  rw [hlook]
  refine Nested.under_congr (fun q => ?_) path
  by_cases hq : IsPath q
  · obtain ⟨f, hf, rfl⟩ := hq
    rw [last_paths hmem hf, last_paths (fun f => mem_fields_of_selected) hf, last_sorted]
  · rw [last_paths_of_not hmem hq, last_paths_of_not (fun f => mem_fields_of_selected) hq]

theorem Selects.same {doc : Doc} {xs ys : Items} (hx : Selects doc xs) (hy : Selects doc ys) :
    Nested.Same (.dict xs) (.dict ys) :=
  Nested.same_of_look xs ys fun path => (hx path).trans (hy path).symm

theorem Selects.leaf {doc : Doc} {items : Items} (h : Selects doc items) (path : List PyStr)
    (v : Scalar) : Nested.look items path = some (some v) ↔
      ∃ f ∈ fields, split f = path ∧ lastAdmissible doc f = some v := by
  rw [h path, Nested.under_eq_leaf]
  constructor
  · intro hlast
    by_cases hpath : IsPath path
    · obtain ⟨f, hf, rfl⟩ := hpath
      rw [last_paths (fun f => mem_fields_of_selected) hf, last_filterMap hf] at hlast
      exact ⟨f, hf, rfl, hlast⟩
    · rw [last_paths_of_not (fun f => mem_fields_of_selected) hpath] at hlast
      simp at hlast
  · rintro ⟨f, hf, rfl, hlast⟩
    rw [last_paths (fun f => mem_fields_of_selected) hf, last_filterMap hf, hlast]

end Metadata

end Codexon
