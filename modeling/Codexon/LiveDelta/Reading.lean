import Codexon.LiveDelta.Revisions

/-!
# Codexon.LiveDelta.Reading

What a client makes of a response.  A digest tells a body, so a session's row is
right whenever it is accepted (`sessionRow_eq`); an entry that is left out has
its row from before.
-/

namespace Codexon.Delta

open List Dict

open Channel (Codec Key ScopeError)

variable {β : Type} {codec : Codec β}

/-! ## dictionaries filled from rows -/

section

variable {ν : Type} (held : Item β → ν)

def fillRows (items : List (Item β)) (d : Dict Key ν) : Dict Key ν :=
  items.foldl (fun d x => d.set x.key (held x)) d

variable {d : Dict Key ν}

variable {items : List (Item β)}

theorem entries_fillRows
    (hnodup : (items.map (·.key)).Nodup) (hnew : ∀ x ∈ items, x.key ∉ d.entries.map Prod.fst) :
    (fillRows held items d).entries = d.entries ++ items.map fun x => (x.key, held x) := by
  unfold fillRows
  induction items generalizing d with
  | nil => simp
  | cons x items ih =>
    rw [map_cons, nodup_cons] at hnodup
    have hset := entries_set_of_not_mem (v := held x) (hnew x mem_cons_self)
    rw [foldl_cons, ih hnodup.2, hset, append_assoc]
    · rfl
    · intro y hy hmem
      rw [hset, map_append, mem_append] at hmem
      rcases hmem with hmem | hmem
      · exact hnew y (mem_cons_of_mem _ hy) hmem
      · have hkey : y.key = x.key := by simpa using hmem
        exact hnodup.1 (List.mem_map.mpr ⟨y, hy, hkey⟩)

theorem get?_fillRows (hnodup : (items.map (·.key)).Nodup) (d : Dict Key ν)
    (key : Key) :
    (fillRows held items d).get? key =
      match items.find? (·.key = key) with
      | some x => some (held x)
      | none => d.get? key := by
  have hfold := get?_foldl_set (fun x : Item β => x.key) (fun x => some (held x)) hnodup d key
  refine hfold.trans ?_
  cases items.find? (·.key = key) with
  | none => rfl
  | some x => rfl

variable (q : ν → Bool)

def kindKeys (d : Dict Key ν) : List Key := (d.entries.filter fun e => q e.2).map Prod.fst

theorem kindKeys_set {k : Key} {v old : ν} (hold : d.get? k = some old)
    (hq : q v = q old) : kindKeys q (d.set k v) = kindKeys q d := by
  have hmem := get?_eq_some.mp hold
  have hkey : k ∈ d.entries.map Prod.fst := List.mem_map.mpr ⟨_, hmem, rfl⟩
  have hkind (e : Key × ν) (he : e ∈ d.entries) (hk : e.1 = k) : q e.2 = q v := by
    have hsame : d.get? k = some e.2 := get?_eq_some.mpr (hk ▸ he)
    rw [hq, Option.some.inj (hsame.symm.trans hold)]
  unfold kindKeys
  rw [Dict.set, dif_pos hkey]
  dsimp only
  generalize d.entries = entries at hkind
  clear hmem hkey hold
  induction entries with
  | nil => rfl
  | cons e entries ih =>
    have hrest := ih fun e he => hkind e (mem_cons_of_mem _ he)
    rw [map_cons]
    by_cases hk : e.1 = k
    · have hkinds := hkind e mem_cons_self hk
      rw [if_pos hk, filter_cons, filter_cons, hkinds]
      split <;> simp only [map_cons, hrest, hk]
    · rw [if_neg hk, filter_cons, filter_cons]
      split <;> simp only [map_cons, hrest]

theorem kindKeys_fillRows (hq : ∀ x, q (held x) = true)
    (hold : ∀ x ∈ items, ∃ old, d.get? x.key = some old ∧ q old = true) :
    kindKeys q (fillRows held items d) = kindKeys q d := by
  unfold fillRows
  induction items generalizing d with
  | nil => rfl
  | cons x items ih =>
    obtain ⟨old, hx, hkind⟩ := hold x mem_cons_self
    rw [foldl_cons, ih, kindKeys_set q hx ((hq x).trans hkind.symm)]
    intro y hy
    rw [get?_set]
    split
    · exact ⟨_, rfl, hq x⟩
    · exact hold y (mem_cons_of_mem _ hy)

theorem eq_of_keys {xs ys : List (Key × ν)} (hkeys : xs.map Prod.fst = ys.map Prod.fst)
    (hnodup : (xs.map Prod.fst).Nodup) (hsub : ∀ y ∈ ys, y ∈ xs) : xs = ys := by
  refine ext_getElem? fun i => ?_
  have hkey : xs[i]?.map Prod.fst = ys[i]?.map Prod.fst := by
    rw [← List.getElem?_map, hkeys, List.getElem?_map]
  cases hy : ys[i]? with
  | none =>
    rw [hy] at hkey
    exact Option.map_eq_none_iff.mp hkey
  | some y =>
    rw [hy] at hkey
    obtain ⟨x, hx, hsame⟩ := Option.map_eq_some_iff.mp hkey
    rw [hx, inj_on_of_nodup_map hnodup (mem_of_getElem? hx) (hsub y (mem_of_getElem? hy)) hsame]

/-- **Changed rows set over the rows before**: where the keys are the same and the
others stay, the rows are all as they should be. -/
theorem entries_delta (changed : Item β → Bool)
    (hq : ∀ x, q (held x) = true) (hnodup : (items.map (·.key)).Nodup)
    (hkeys : kindKeys q d = items.map (·.key))
    (hsame : ∀ x ∈ items, changed x = false → d.get? x.key = some (held x)) :
    ((fillRows held (items.filter changed) d).entries.filter fun e => q e.2) =
      items.map fun x => (x.key, held x) := by
  have hsubset : ((items.filter changed).map (·.key)).Nodup :=
    hnodup.sublist (filter_sublist.map _)
  have hfilled : kindKeys q (fillRows held (items.filter changed) d) = items.map (·.key) := by
    rw [kindKeys_fillRows held q hq, hkeys]
    intro x hx
    have hmem : x.key ∈ kindKeys q d := hkeys ▸ List.mem_map.mpr ⟨x, mem_of_mem_filter hx, rfl⟩
    obtain ⟨e, he, hkey⟩ := List.mem_map.mp hmem
    obtain ⟨hentry, hkind⟩ := List.mem_filter.mp he
    exact ⟨e.2, get?_eq_some.mpr (hkey ▸ hentry), hkind⟩
  have hmapped : (items.map fun x => (x.key, held x)).map Prod.fst = items.map (·.key) := by
    rw [List.map_map]
    rfl
  refine eq_of_keys (hfilled.trans hmapped.symm) ?_ fun y hy => ?_
  · exact (fillRows held (items.filter changed) d).nodup.sublist (filter_sublist.map _)
  · obtain ⟨x, hx, rfl⟩ := List.mem_map.mp hy
    refine List.mem_filter.mpr ⟨get?_eq_some.mp ?_, hq x⟩
    rw [get?_fillRows held hsubset]
    split
    · next z hz =>
      have hkey : z.key = x.key := by simpa using find?_some hz
      have hzmem := mem_of_mem_filter (mem_of_find?_eq_some hz)
      rw [inj_on_of_nodup_map hnodup hzmem hx hkey]
    · next hnone =>
      refine hsame x hx ?_
      by_contra hchanged
      rw [List.find?_eq_none] at hnone
      exact hnone x (List.mem_filter.mpr ⟨hx, by simpa using hchanged⟩) (decide_eq_true rfl)

end

/-! ## the rows of a response -/

section

variable {ν : Type} {row : Option ν → Sent → Except ScopeError ν} {previous : Dict Key ν}
  {sent : Item β → Sent}

theorem rows_eq (held : Item β → ν) (hkey : ∀ x, (sent x).key = x.key) {items : List (Item β)}
    {current d : Dict Key ν}
    (hrow : ∀ x ∈ items, ∀ v, row (previous.get? x.key) (sent x) = .ok v → v = held x)
    (h : Client.rows row previous (items.map sent) current = .ok d) :
    d = fillRows held items current := by
  induction items generalizing current with
  | nil =>
    cases h
    rfl
  | cons x items ih =>
    rw [map_cons, Client.rows, hkey] at h
    split at h
    · next v hv =>
      obtain rfl := hrow x mem_cons_self v hv
      exact ih (fun y hy => hrow y (mem_cons_of_mem _ hy)) h
    · cases h

theorem rows_ok (hkey : ∀ x, (sent x).key = x.key) {items : List (Item β)} {current : Dict Key ν}
    (hrow : ∀ x ∈ items, ∃ v, row (previous.get? x.key) (sent x) = .ok v) :
    ∃ d, Client.rows row previous (items.map sent) current = .ok d := by
  induction items generalizing current with
  | nil => exact ⟨current, rfl⟩
  | cons x items ih =>
    obtain ⟨v, hv⟩ := hrow x mem_cons_self
    rw [map_cons, Client.rows, hkey, hv]
    exact ih fun y hy => hrow y (mem_cons_of_mem _ hy)

end

def heldOf (codec : Codec β) (x : Item β) : Held β :=
  ⟨some x.revision, x.body, digestOf codec x.body, x.state, false⟩

def Honors (codec : Codec β) (d : Dict Key (Held β)) : Prop :=
  ∀ e ∈ d.entries, e.2.digest = digestOf codec e.2.body

def sentOf (codec : Codec β) (since : Option Nat) (proves : Key → Bytes → Bool) (x : Item β) : Sent where
  key := x.key
  revision := x.revision
  digest := digestOf codec x.body
  state := x.state
  payload :=
    if newer since x.revision && !proves x.key (digestOf codec x.body) then some (codec.encode x.body)
    else none

theorem manifest_eq (codec : Codec β) (full : Bool) (since : Option Nat) (changed : Item β → Nat)
    (proves : Key → Bytes → Bool) (items : List (Item β)) :
    manifest codec full since changed proves items =
      (items.filter fun x => full || newer since (changed x)).map (sentOf codec since proves) := rfl

section

variable {c : Client β}

theorem Honors.cachedBody (h : Honors codec c.sessions) {key : Key} {digest : Bytes} {body : β}
    (hbody : c.cachedBody codec key digest = some body) : digestOf codec body = digest := by
  unfold Client.cachedBody at hbody
  split at hbody
  · next old hold =>
    cases hbody
    obtain ⟨hget, hdigest⟩ := Option.filter_eq_some_iff.mp hold
    rw [← h _ (get?_eq_some.mp hget)]
    simpa using hdigest
  · obtain ⟨-, hdigest⟩ := Option.filter_eq_some_iff.mp hbody
    simpa using hdigest

theorem Honors.decodeBody (h : Honors codec c.sessions) (key : Key) (body : β) :
    c.decodeBody codec key (codec.encode body) (digestOf codec body) = .ok body := by
  unfold Client.decodeBody
  rw [if_neg (by simp [digestOf])]
  cases hcached : c.cachedBody codec key (digestOf codec body) with
  | none => rw [Option.getD_none, codec.decode_encode]
  | some b => rw [Option.getD_some, digestOf_injective codec (h.cachedBody hcached)]

variable {since : Option Nat} {proves : Key → Bytes → Bool} {protocol : Protocol}

/-- **A session's row** is right if it is accepted. -/
theorem sessionRow_eq (h : Honors codec c.sessions) {old : Option (Held β)}
    (hold : ∀ o, old = some o → o.digest = digestOf codec o.body) (x : Item β) {v : Held β}
    (hv : c.sessionRow codec protocol old (sentOf codec since proves x) = .ok v) :
    v = heldOf codec x := by
  unfold Client.sessionRow at hv
  split at hv
  · next payload hpayload =>
    unfold sentOf at hpayload
    dsimp only at hpayload
    split at hpayload
    · cases hpayload
      have hdecoded := h.decodeBody x.key x.body
      dsimp only [sentOf] at hv
      rw [hdecoded] at hv
      cases hv
      rfl
    · cases hpayload
  · split at hv
    · next o ho =>
      obtain ⟨hsome, -⟩ := Option.filter_eq_some_iff.mp ho
      split at hv
      · next hdigest =>
        cases hv
        have hbody : x.body = o.body :=
          digestOf_injective codec (hdigest.trans (hold o hsome))
        rw [← hbody]
        rfl
      · cases hv
    · split at hv
      · split at hv
        · next body hcached =>
          cases hv
          have hbody := digestOf_injective codec (h.cachedBody hcached)
          rw [hbody]
          rfl
        · cases hv
      · cases hv

theorem sessionRow_ok (h : Honors codec c.sessions) {old : Option (Held β)} (x : Item β)
    (hproves : proves x.key (digestOf codec x.body) = false)
    (hold : newer since x.revision = false →
      ∃ o, old = some o ∧ o.revision = some x.revision ∧ o.digest = digestOf codec x.body) :
    ∃ v, c.sessionRow codec protocol old (sentOf codec since proves x) = .ok v := by
  unfold Client.sessionRow
  cases hnewer : newer since x.revision with
  | true =>
    have hpayload : (sentOf codec since proves x).payload = some (codec.encode x.body) := by
      rw [sentOf, hnewer, hproves]
      rfl
    rw [hpayload]
    have hdecoded := h.decodeBody x.key x.body
    dsimp only [sentOf]
    rw [hdecoded]
    exact ⟨_, rfl⟩
  | false =>
    obtain ⟨o, rfl, hrevision, hdigest⟩ := hold hnewer
    have hpayload : (sentOf codec since proves x).payload = none := by
      rw [sentOf, hnewer]
      rfl
    rw [hpayload]
    dsimp only [sentOf]
    simp only [Option.filter_some, hrevision, decide_true, if_true]
    exact ⟨_, if_pos hdigest.symm⟩

def activityOf (x : Item β) : Nat × β := (x.revision, x.body)

theorem activityRow_eq (codec : Codec β) {since : Option Nat} {old : Option (Nat × β)} (x : Item β)
    (hold : newer since x.revision = false → old = some (activityOf x)) :
    Client.activityRow codec old (sentOf codec since (fun _ _ => false) x) = .ok (activityOf x) := by
  unfold Client.activityRow
  cases hnewer : newer since x.revision with
  | true =>
    have hpayload : (sentOf codec since (fun _ _ => false) x).payload =
        some (codec.encode x.body) := by
      rw [sentOf, hnewer]
      rfl
    rw [hpayload]
    dsimp only [sentOf]
    rw [codec.decode_encode]
    rfl
  | false =>
    have hpayload : (sentOf codec since (fun _ _ => false) x).payload = none := by
      rw [sentOf, hnewer]
      rfl
    rw [hpayload, hold hnewer]
    exact if_pos rfl

end

/-- The rows of a manifest, over those from before unless it is full. -/
theorem manifest_read {ν : Type} (q : ν → Bool) {row : Option ν → Sent → Except ScopeError ν}
    (held : Item β → ν) (hq : ∀ x, q (held x) = true) {full : Bool} {since : Option Nat}
    {changed : Item β → Nat} {proves : Key → Bytes → Bool} {items : List (Item β)}
    {old d : Dict Key ν}
    (hnodup : (items.map (·.key)).Nodup)
    (hrow : ∀ x ∈ items, ∀ v, row (old.get? x.key) (sentOf codec since proves x) = .ok v → v = held x)
    (hkeep : full = false → kindKeys q old = items.map (·.key) ∧
      ∀ x ∈ items, newer since (changed x) = false → old.get? x.key = some (held x))
    (h : Client.rows row old (manifest codec full since changed proves items)
      (if full then {} else old) = .ok d) :
    d = fillRows held (items.filter fun x => full || newer since (changed x)) (if full then {} else old) ∧
      (d.entries.filter fun e => q e.2) = items.map fun x => (x.key, held x) := by
  rw [manifest_eq] at h
  have hd := rows_eq held (fun x => rfl)
    (fun x hx => hrow x (mem_of_mem_filter hx)) h
  refine ⟨hd, ?_⟩
  rw [hd]
  cases full with
  | true =>
    have hall : (items.filter fun x => true || newer since (changed x)) = items :=
      filter_eq_self.mpr fun x _ => rfl
    rw [hall, if_pos rfl, entries_fillRows held hnodup fun x _ => not_mem_nil, nil_append]
    refine filter_eq_self.mpr fun e he => ?_
    obtain ⟨x, -, rfl⟩ := List.mem_map.mp he
    exact hq x
  | false =>
    obtain ⟨hkeys, hsame⟩ := hkeep rfl
    simp only [Bool.false_or, Bool.false_eq_true, if_false]
    exact entries_delta held q _ hq hnodup hkeys hsame

end Codexon.Delta
