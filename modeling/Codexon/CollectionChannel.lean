import Codexon.Dict
import Codexon.Json
import Codexon.Run
import Mathlib.Data.Finset.Card

/-!
# Codexon.CollectionChannel

`cachemonitor/usage_collection.py`: how `CollectionChannel.publish` stores the
sessions of a snapshot and how `read` returns them from the database, reusing
what it has read before.

A publication is one transaction.  One that is durably equal to the current
live one writes nothing and is not an action here; the activity of a
publication and the other fields of its header are left out.  The readers do
not retain pending sessions.
-/

namespace Codexon

namespace Channel

/-- `(home, id)`. -/
abbrev Key := PyStr × PyStr

/-- How a body (a session without its volatile fields) becomes a stored payload:
compressed JSON, `publication_fingerprint` and `sha256`, of which no collision
is known. -/
structure Codec (β : Type) where
  encode : β → Bytes
  decode : Bytes → β
  fingerprint : β → Bytes
  digest : Bytes → Bytes
  decode_encode : ∀ b, decode (encode b) = b
  fingerprint_inj : Function.Injective fingerprint
  digest_inj : Function.Injective digest

def plainCodec : Codec Bytes where
  encode := id
  decode := id
  fingerprint := id
  digest := id
  decode_encode := fun _ => rfl
  fingerprint_inj := Function.injective_id
  digest_inj := Function.injective_id

/-- A session: its body and its volatile fields. -/
structure Session (β : Type) where
  key : Key
  body : β
  state : Json
deriving DecidableEq

/-- What is published. -/
structure Snapshot (β : Type) where
  sessions : List (Session β)
  distinct : (sessions.map (·.key)).Nodup
  /-- `catalog_scope` is `selected`. -/
  selected : Bool := false
  catalogComplete : Bool := true
  usageCollectionComplete : Bool := true
  /-- `index.loading`. -/
  loading : Bool := false

def Snapshot.complete {β : Type} (snapshot : Snapshot β) : Bool :=
  !snapshot.selected && snapshot.catalogComplete && snapshot.usageCollectionComplete &&
    !snapshot.loading

/-- An entry of `session_manifest`. -/
structure Entry where
  key : Key
  revision : Nat
  bodyDigest : Bytes
  state : Json
deriving DecidableEq

/-- The row of `snapshot`. -/
structure Publication where
  epoch : PyStr
  sequence : Nat
  manifest : List Entry
deriving DecidableEq

/-- The tables `sessions` (revision and payload) and `snapshot`. -/
structure Db where
  sessions : Dict Key (Nat × Bytes) := {}
  snapshot : Option Publication := none
deriving DecidableEq

/-- What the channel remembers of a published body. -/
structure Row where
  revision : Nat
  fingerprint : Bytes
  bodyDigest : Bytes
deriving DecidableEq

/-- The publishing `CollectionChannel`. -/
structure Publisher where
  published : Dict Key Row := {}
  publishEpoch : Option PyStr := none
  retained : Finset Key := ∅

def keys {ν : Type} (d : Dict Key ν) : Finset Key := (d.entries.map Prod.fst).toFinset

/-- The rows of the owners in `removed` are deleted. -/
def delete {ν : Type} (d : Dict Key ν) (removed : Finset Key) : Dict Key ν :=
  ⟨d.entries.filter (·.1 ∉ removed), d.nodup.sublist (List.filter_sublist.map _)⟩

namespace Publisher

variable {β : Type} (codec : Codec β) (p : Publisher) (db : Db) (epoch : PyStr) (sequence : Nat)

def previous : Dict Key Row := if p.publishEpoch = some epoch then p.published else {}

/-- The row a session is published under, and whether its body is written. -/
def assign (s : Session β) : Row × Bool :=
  match (p.previous epoch).get? s.key with
  | some old =>
    if codec.fingerprint s.body = old.fingerprint then (old, false)
    else
      (⟨max sequence (old.revision + 1), codec.fingerprint s.body,
        codec.digest (codec.encode s.body)⟩, true)
  | none =>
    let row : Row := ⟨sequence, codec.fingerprint s.body, codec.digest (codec.encode s.body)⟩
    match db.sessions.get? s.key with
    | some (saved, payload) =>
      if payload = codec.encode s.body then ({ row with revision := saved }, false) else (row, true)
    | none => (row, true)

/-- `current` after the sessions seen so far. -/
def current (sessions : List (Session β)) : Dict Key Row :=
  sessions.foldl (fun d s => d.set s.key (p.assign codec db epoch sequence s).1) {}

def entry (s : Session β) : Entry :=
  let row := (p.assign codec db epoch sequence s).1
  ⟨s.key, row.revision, row.bodyDigest, s.state⟩

/-- `INSERT OR REPLACE INTO sessions`, for each of `writes`. -/
def write (rows : Dict Key (Nat × Bytes)) (sessions : List (Session β)) : Dict Key (Nat × Bytes) :=
  sessions.foldl (fun rows s =>
    match p.assign codec db epoch sequence s with
    | (row, true) => rows.set s.key (row.revision, codec.encode s.body)
    | (_, false) => rows) rows

/-- `retained` before the publication. -/
def kept : Finset Key := if p.publishEpoch = some epoch then p.retained else keys db.sessions

/-- `publish`, where the producer has removed the owners of `knownRemoved`. -/
def publish (snapshot : Snapshot β) (knownRemoved : Finset Key) : Publisher × Db :=
  let current := p.current codec db epoch sequence snapshot.sessions
  let absent := keys (p.previous epoch) \ keys current
  let proven := knownRemoved \ keys current
  let retained := p.kept db epoch
  let (retained, removed) :=
    if snapshot.complete then (∅, absent ∪ proven ∪ (retained \ keys current))
    else (((retained ∪ absent) \ keys current) \ proven, proven)
  ({ published := current, publishEpoch := some epoch, retained },
    { sessions := delete (p.write codec db epoch sequence db.sessions snapshot.sessions) removed
      snapshot := some
        ⟨epoch, sequence, snapshot.sessions.map (p.entry codec db epoch sequence)⟩ })

end Publisher

/-! ## reading -/

/-- `CollectionScopeError`. -/
structure ScopeError where
deriving DecidableEq

/-- What a reader keeps of a body. -/
structure Cached (β : Type) where
  revision : Nat
  body : β
  digest : Bytes
deriving DecidableEq

/-- A reading `CollectionChannel`. -/
structure Reader (β : Type) where
  identity : Option (PyStr × Nat) := none
  cached : List Entry := []
  sessionCache : Dict Key (Cached β) := {}

namespace Reader

variable {β : Type} (codec : Codec β) (r : Reader β)

def decodeBody (key : Key) (payload digest : Bytes) : Except ScopeError β :=
  if codec.digest payload ≠ digest then .error {}
  else
    match r.sessionCache.get? key with
    | some old => if old.digest = digest then .ok old.body else .ok (codec.decode payload)
    | none => .ok (codec.decode payload)

def durableSession (db : Db) (previous : Dict Key (Cached β)) (e : Entry) :
    Except ScopeError (Cached β) :=
  let stored := match db.sessions.get? e.key with
    | some (revision, payload) =>
      if revision = e.revision then
        (r.decodeBody codec e.key payload e.bodyDigest).map fun body => ⟨e.revision, body, e.bodyDigest⟩
      else .error {}
    | none => .error {}
  match previous.get? e.key with
  | some old => if old.revision = e.revision then .ok old else stored
  | none => stored

def durableSessions (db : Db) (previous : Dict Key (Cached β)) :
    List Entry → Dict Key (Cached β) → Except ScopeError (Dict Key (Cached β) × List (Session β))
  | [], current => .ok (current, [])
  | e :: es, current =>
    match r.durableSession codec db previous e with
    | .error error => .error error
    | .ok body =>
      match durableSessions db previous es (current.set e.key body) with
      | .error error => .error error
      | .ok (current, sessions) => .ok (current, ⟨e.key, body.body, e.state⟩ :: sessions)

/-- `read`, of the database. -/
def read (db : Db) : Except ScopeError (Option (List (Session β)) × Reader β) :=
  match db.snapshot with
  | none => .ok (none, r)
  | some publication =>
    let identity := (publication.epoch, publication.sequence)
    let manifest := if r.identity = some identity then r.cached else publication.manifest
    let previous :=
      if r.identity.map (·.1) = some publication.epoch then r.sessionCache else {}
    match r.durableSessions codec db previous manifest {} with
    | .error error => .error error
    | .ok (current, sessions) =>
      .ok (some sessions, { identity := some identity, cached := manifest, sessionCache := current })

end Reader

/-! ## runs -/

/-- An owner was published in an epoch under a revision with a body. -/
structure Carried (β : Type) where
  epoch : PyStr
  key : Key
  revision : Nat
  body : β

/-- The database, the publisher and the readers; besides, the epochs used, what
was carried in them and the sessions of the last publication. -/
structure World (β ι : Type) where
  db : Db := {}
  publisher : Publisher := {}
  readers : ι → Reader β := fun _ => {}
  epochs : List PyStr := []
  carried : List (Carried β) := []
  last : Option (List (Session β)) := none

inductive Action (β ι : Type) where
  | restart
  | publish (snapshot : Snapshot β) (epoch : PyStr) (sequence : Nat) (knownRemoved : Finset Key)
  | read (reader : ι)

namespace World

variable {β ι : Type} [DecidableEq ι] (codec : Codec β)

def step (w : World β ι) : Action β ι → World β ι
  | .restart => { w with publisher := {} }
  | .publish snapshot epoch sequence knownRemoved =>
    let (publisher, db) := w.publisher.publish codec w.db epoch sequence snapshot knownRemoved
    { w with
      publisher, db
      epochs := epoch :: w.epochs
      carried := snapshot.sessions.map (fun s =>
        ⟨epoch, s.key, (w.publisher.assign codec w.db epoch sequence s).1.revision, s.body⟩) ++
          w.carried
      last := some snapshot.sessions }
  | .read i =>
    match (w.readers i).read codec w.db with
    | .ok (_, r) => { w with readers := fun j => if j = i then r else w.readers j }
    | .error _ => w

end World

end Channel

/-!
## rows

What one publication does to the stored rows: the row of each published owner
holds its body under the revision the manifest names, and no other row is
written.
-/

namespace Channel

/-! ## keys and deleted rows -/

theorem mem_keys {ν : Type} {d : Dict Key ν} {key : Key} :
    key ∈ keys d ↔ (d.get? key).isSome = true := by
  rw [keys, List.mem_toFinset, Option.isSome_iff_exists]
  constructor
  · intro h
    obtain ⟨e, he, rfl⟩ := List.mem_map.mp h
    exact ⟨e.2, Dict.get?_eq_some.mpr he⟩
  · rintro ⟨v, hv⟩
    exact List.mem_map.mpr ⟨_, Dict.get?_eq_some.mp hv, rfl⟩

theorem get?_delete {ν : Type} (d : Dict Key ν) (removed : Finset Key) (key : Key) :
    (delete d removed).get? key = if key ∈ removed then none else d.get? key := by
  refine Dict.ext_get? fun v => ?_
  simp only [delete, List.mem_filter, decide_eq_true_eq]
  split
  · next h => simp [h]
  · next h => simp [h, Dict.get?_eq_some]

namespace Publisher

variable {β : Type} (codec : Codec β) (p : Publisher) (db : Db) (epoch : PyStr) (sequence : Nat)

/-- `published` tells the stored rows. -/
def Tells (p : Publisher) (db : Db) : Prop :=
  ∀ key row, p.published.get? key = some row → ∃ b, row.fingerprint = codec.fingerprint b ∧
    row.bodyDigest = codec.digest (codec.encode b) ∧
    db.sessions.get? key = some (row.revision, codec.encode b)

variable {codec p db epoch sequence}

theorem Tells.previous (h : p.Tells codec db) {key : Key} {row : Row}
    (hrow : (p.previous epoch).get? key = some row) :
    ∃ b, row.fingerprint = codec.fingerprint b ∧ row.bodyDigest = codec.digest (codec.encode b) ∧
      db.sessions.get? key = some (row.revision, codec.encode b) := by
  unfold Publisher.previous at hrow
  split at hrow
  · exact h key row hrow
  · simp [Dict.get?] at hrow

/-- How a session gets its row: its body is the stored one and keeps its
revision, or it is written, above the stored revision where the owner is known
and at the sequence where it is not. -/
theorem assign_cases (h : p.Tells codec db) (epoch : PyStr) (sequence : Nat) (s : Session β) :
    ((p.assign codec db epoch sequence s).2 = false ∧ db.sessions.get? s.key =
        some ((p.assign codec db epoch sequence s).1.revision, codec.encode s.body)) ∨
      ((p.assign codec db epoch sequence s).2 = true ∧
        ((∃ revision payload, db.sessions.get? s.key = some (revision, payload) ∧
            revision < (p.assign codec db epoch sequence s).1.revision) ∨
          ((p.previous epoch).get? s.key = none ∧
            (db.sessions.get? s.key).map (·.2) ≠ some (codec.encode s.body) ∧
            (p.assign codec db epoch sequence s).1.revision = sequence))) := by
  unfold assign
  cases hold : (p.previous epoch).get? s.key with
  | some old =>
    obtain ⟨b, hfingerprint, -, hstored⟩ := h.previous hold
    dsimp only
    by_cases hsame : codec.fingerprint s.body = old.fingerprint
    · obtain rfl := codec.fingerprint_inj (hsame.trans hfingerprint)
      rw [if_pos hsame]
      exact Or.inl ⟨rfl, hstored⟩
    · rw [if_neg hsame]
      exact Or.inr ⟨rfl, Or.inl ⟨_, _, hstored, (Nat.lt_succ_self _).trans_le (le_max_right _ _)⟩⟩
  | none =>
    dsimp only
    cases hstored : db.sessions.get? s.key with
    | none => exact Or.inr ⟨rfl, Or.inr ⟨rfl, by simp, rfl⟩⟩
    | some stored =>
      obtain ⟨saved, payload⟩ := stored
      dsimp only
      by_cases hsame : payload = codec.encode s.body
      · rw [if_pos hsame, hsame]
        exact Or.inl ⟨rfl, rfl⟩
      · rw [if_neg hsame]
        exact Or.inr ⟨rfl, Or.inr ⟨rfl, by simpa using hsame, rfl⟩⟩

theorem assign_digest (h : p.Tells codec db) (epoch : PyStr) (sequence : Nat) (s : Session β) :
    (p.assign codec db epoch sequence s).1.fingerprint = codec.fingerprint s.body ∧
      (p.assign codec db epoch sequence s).1.bodyDigest = codec.digest (codec.encode s.body) := by
  unfold assign
  cases hold : (p.previous epoch).get? s.key with
  | some old =>
    obtain ⟨b, hfingerprint, hdigest, -⟩ := h.previous hold
    dsimp only
    by_cases hsame : codec.fingerprint s.body = old.fingerprint
    · obtain rfl := codec.fingerprint_inj (hsame.trans hfingerprint)
      rw [if_pos hsame]
      exact ⟨hfingerprint, hdigest⟩
    · rw [if_neg hsame]
      exact ⟨rfl, rfl⟩
  | none =>
    dsimp only
    split
    · split <;> exact ⟨rfl, rfl⟩
    · exact ⟨rfl, rfl⟩

theorem find?_key {sessions : List (Session β)} (hdistinct : (sessions.map (·.key)).Nodup)
    {s : Session β} (hs : s ∈ sessions) : sessions.find? (·.key = s.key) = some s :=
  Dict.find?_key (fun s : Session β => s.key) hdistinct hs

theorem get?_current {sessions : List (Session β)} (hdistinct : (sessions.map (·.key)).Nodup)
    (key : Key) : (p.current codec db epoch sequence sessions).get? key =
      (sessions.find? (·.key = key)).map fun s => (p.assign codec db epoch sequence s).1 := by
  have hfold := Dict.get?_foldl_set (fun s : Session β => s.key)
    (fun s => some (p.assign codec db epoch sequence s).1) hdistinct {} key
  refine hfold.trans ?_
  cases sessions.find? (·.key = key) with
  | none => rfl
  | some s => rfl

theorem get?_write (h : p.Tells codec db) {sessions : List (Session β)}
    (hdistinct : (sessions.map (·.key)).Nodup) (key : Key) :
    (p.write codec db epoch sequence db.sessions sessions).get? key =
      match sessions.find? (·.key = key) with
      | some s => some ((p.assign codec db epoch sequence s).1.revision, codec.encode s.body)
      | none => db.sessions.get? key := by
  have hfold := Dict.get?_foldl_set (fun s : Session β => s.key)
    (fun s => if (p.assign codec db epoch sequence s).2 then
      some ((p.assign codec db epoch sequence s).1.revision, codec.encode s.body) else none)
    hdistinct db.sessions key
  have hwrite : p.write codec db epoch sequence db.sessions sessions =
      sessions.foldl (fun d s => (if (p.assign codec db epoch sequence s).2 then
        some ((p.assign codec db epoch sequence s).1.revision, codec.encode s.body)
        else none).elim d (d.set s.key)) db.sessions := by
    unfold write
    congr 1
    funext rows s
    rcases p.assign codec db epoch sequence s with ⟨row, _ | _⟩ <;> rfl
  rw [hwrite, hfold]
  cases hs : sessions.find? (·.key = key) with
  | none => rfl
  | some s =>
    obtain rfl : s.key = key := by simpa using List.find?_some hs
    rcases assign_cases h epoch sequence s with ⟨hkept, hstored⟩ | ⟨hwritten, -⟩
    · simp [hkept, hstored]
    · simp [hwritten]

theorem get?_publish (h : p.Tells codec db) (snapshot : Snapshot β) (knownRemoved : Finset Key)
    (key : Key) : (∀ s ∈ snapshot.sessions, s.key = key →
      (p.publish codec db epoch sequence snapshot knownRemoved).2.sessions.get? key =
        some ((p.assign codec db epoch sequence s).1.revision, codec.encode s.body)) ∧
    ((∀ s ∈ snapshot.sessions, s.key ≠ key) →
      (p.publish codec db epoch sequence snapshot knownRemoved).2.sessions.get? key = none ∨
        (p.publish codec db epoch sequence snapshot knownRemoved).2.sessions.get? key =
          db.sessions.get? key) := by
  have hwrite := @get?_write β codec p db epoch sequence h snapshot.sessions snapshot.distinct key
  have hcurrent (s : Session β) (hs : s ∈ snapshot.sessions) :
      s.key ∈ keys (p.current codec db epoch sequence snapshot.sessions) := by
    rw [mem_keys, get?_current snapshot.distinct, find?_key snapshot.distinct hs]
    rfl
  unfold publish
  dsimp only
  rw [get?_delete, hwrite]
  generalize hremoved : (if snapshot.complete = true then _ else _ : Finset Key × Finset Key) = sets
  constructor
  · rintro s hs rfl
    have hnot : s.key ∉ sets.2 := by
      rw [← hremoved]
      split <;> simp [hcurrent s hs]
    rw [if_neg hnot, find?_key snapshot.distinct hs]
  · intro hother
    have hnone : snapshot.sessions.find? (·.key = key) = none := by
      rw [List.find?_eq_none]
      intro s hs
      simpa using hother s hs
    rw [hnone]
    split
    · exact Or.inl rfl
    · exact Or.inr rfl

end Publisher

end Channel

end Codexon
