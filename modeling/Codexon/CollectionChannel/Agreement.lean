import Codexon.CollectionChannel

/-!
# Codexon.CollectionChannel.Agreement

Cached readers see the last publication as long as no revision is given twice:
an owner the channel does not know in an epoch gets the sequence as its
revision, and one it knew before may have carried that number already, inherited
from an older epoch.  `Fresh` names the publications where it did not.

The stored row of an owner then has the largest revision it carried in the
current epoch, so a new one tells its body from every earlier one (`Inv`).
-/

namespace Codexon.Channel

open List

variable {β ι : Type} {codec : Codec β}

/-! ## reading -/

def Names (codec : Codec β) (db : Db) (e : Entry) (s : Session β) : Prop :=
  e.key = s.key ∧ e.state = s.state ∧ e.bodyDigest = codec.digest (codec.encode s.body) ∧
    db.sessions.get? e.key = some (e.revision, codec.encode s.body)

def Knows (carried : List (Carried β)) (epoch : PyStr) (key : Key) (revision : Nat) (body : β) : Prop :=
  ⟨epoch, key, revision, body⟩ ∈ carried

def Caches (codec : Codec β) (carried : List (Carried β)) (epoch : PyStr)
    (cache : Dict Key (Cached β)) : Prop :=
  ∀ key c, cache.get? key = some c →
    Knows carried epoch key c.revision c.body ∧ c.digest = codec.digest (codec.encode c.body)

/-- No revision of an owner stands for two bodies in one epoch. -/
def Unique (carried : List (Carried β)) : Prop :=
  ∀ epoch key revision body body', Knows carried epoch key revision body →
    Knows carried epoch key revision body' → body = body'

section

variable {db : Db} {r : Reader β} {previous : Dict Key (Cached β)}

theorem decodeBody_eq {s : Session β} {key : Key} (hdigests : ∀ key c,
    r.sessionCache.get? key = some c → c.digest = codec.digest (codec.encode c.body)) :
    r.decodeBody codec key (codec.encode s.body) (codec.digest (codec.encode s.body)) =
      .ok s.body := by
  unfold Reader.decodeBody
  rw [if_neg (by simp)]
  split
  · next old hold =>
    split
    · next hdigest =>
      rw [hdigests key old hold] at hdigest
      have hbody := congrArg codec.decode (codec.digest_inj hdigest)
      rw [codec.decode_encode, codec.decode_encode] at hbody
      rw [hbody]
    · rw [codec.decode_encode]
  · rw [codec.decode_encode]

theorem durableSession_eq {e : Entry} {s : Session β} (hnames : Names codec db e s)
    (hprevious : ∀ c, previous.get? e.key = some c → c.revision = e.revision →
      c.body = s.body ∧ c.digest = e.bodyDigest)
    (hdigests : ∀ key c, r.sessionCache.get? key = some c →
      c.digest = codec.digest (codec.encode c.body)) :
    r.durableSession codec db previous e = .ok ⟨e.revision, s.body, e.bodyDigest⟩ := by
  obtain ⟨-, -, hdigest, hstored⟩ := hnames
  unfold Reader.durableSession
  dsimp only
  rw [hstored]
  dsimp only
  rw [if_pos rfl, hdigest, decodeBody_eq hdigests]
  split
  · next old hold =>
    split
    · next hrevision =>
      obtain ⟨hbody, hsame⟩ := hprevious old hold hrevision
      have hrow : old = ⟨e.revision, s.body, codec.digest (codec.encode s.body)⟩ := by
        rw [← hdigest, ← hsame, ← hbody, ← hrevision]
      exact congrArg Except.ok hrow
    · rfl
  · rfl

theorem durableSessions_eq {manifest : List Entry} {sessions : List (Session β)}
    (hnames : List.Forall₂ (Names codec db) manifest sessions)
    (hprevious : ∀ e s, e ∈ manifest → Names codec db e s → ∀ c, previous.get? e.key = some c →
      c.revision = e.revision → c.body = s.body ∧ c.digest = e.bodyDigest)
    (hdigests : ∀ key c, r.sessionCache.get? key = some c →
      c.digest = codec.digest (codec.encode c.body)) (current : Dict Key (Cached β)) :
    ∃ cache, r.durableSessions codec db previous manifest current = .ok (cache, sessions) ∧
      ∀ key c, cache.get? key = some c → current.get? key = some c ∨
        ∃ e s, e ∈ manifest ∧ Names codec db e s ∧ key = e.key ∧
          c = ⟨e.revision, s.body, e.bodyDigest⟩ := by
  induction hnames generalizing current with
  | nil => exact ⟨current, rfl, fun key c hc => Or.inl hc⟩
  | @cons e s manifest sessions he _ ih =>
    obtain ⟨cache, hread, hcache⟩ := ih
      (fun e' s' he' => hprevious e' s' (mem_cons_of_mem _ he'))
      (current.set e.key ⟨e.revision, s.body, e.bodyDigest⟩)
    have hfirst := durableSession_eq he (hprevious e s mem_cons_self he) hdigests
    refine ⟨cache, ?_, fun key c hc => ?_⟩
    · unfold Reader.durableSessions
      rw [hfirst]
      dsimp only
      rw [hread]
      dsimp only
      rw [he.1, he.2.1]
    · rcases hcache key c hc with hset | ⟨e', s', he', hrest⟩
      · rw [Dict.get?_set] at hset
        split at hset
        · next hkey => exact Or.inr ⟨e, s, mem_cons_self, he, hkey, (Option.some.inj hset).symm⟩
        · exact Or.inl hset
      · exact Or.inr ⟨e', s', mem_cons_of_mem _ he', hrest⟩

end

/-! ## publications -/

def World.Ordered (w : World β ι) (epoch : PyStr) (sequence : Nat) : Prop :=
  match w.db.snapshot with
  | some p => if p.epoch = epoch then p.sequence < sequence else epoch ∉ w.epochs
  | none => epoch ∉ w.epochs

/-- Where the channel does not know an owner in the epoch and its body is not the
stored one, the sequence is above every revision it carried in the epoch. -/
def World.Fresh (codec : Codec β) (w : World β ι) (snapshot : Snapshot β) (epoch : PyStr)
    (sequence : Nat) : Prop :=
  ∀ s ∈ snapshot.sessions, (w.publisher.previous epoch).get? s.key = none →
    (w.db.sessions.get? s.key).map (·.2) ≠ some (codec.encode s.body) →
      ∀ c ∈ w.carried, c.epoch = epoch → c.key = s.key → c.revision < sequence

instance World.decidableOrdered (w : World β ι) (epoch : PyStr) (sequence : Nat) :
    Decidable (w.Ordered epoch sequence) := by
  unfold World.Ordered
  split <;> infer_instance

instance World.decidableFresh [DecidableEq β] (w : World β ι) (snapshot : Snapshot β)
    (epoch : PyStr) (sequence : Nat) : Decidable (w.Fresh codec snapshot epoch sequence) :=
  inferInstanceAs (Decidable (∀ s ∈ snapshot.sessions, _ → _ → ∀ c ∈ w.carried, _ → _ → _))

/-- What is asked of the steps of a run. -/
def World.Allowed (codec : Codec β) (w : World β ι) : Action β ι → Prop
  | .publish snapshot epoch sequence _ =>
    w.Ordered epoch sequence ∧ w.Fresh codec snapshot epoch sequence
  | _ => True

instance World.decidableAllowed [DecidableEq β] (w : World β ι) :
    DecidablePred (w.Allowed codec) := fun action => by
  cases action <;> unfold World.Allowed <;> infer_instance

/-- What a reader knows. -/
structure Reader.Knowing (codec : Codec β) (w : World β ι) (r : Reader β) : Prop where
  digests : ∀ key c, r.sessionCache.get? key = some c →
    c.digest = codec.digest (codec.encode c.body)
  epoch : ∀ epoch sequence, r.identity = some (epoch, sequence) →
    epoch ∈ w.epochs ∧ Caches codec w.carried epoch r.sessionCache
  current : ∀ epoch sequence, r.identity = some (epoch, sequence) → ∀ p,
    w.db.snapshot = some p → p.epoch = epoch →
      sequence ≤ p.sequence ∧ (sequence = p.sequence → r.cached = p.manifest)

/-- What holds of every state. -/
structure World.Inv (codec : Codec β) (w : World β ι) : Prop where
  tells : w.publisher.Tells codec w.db
  epochs : ∀ c ∈ w.carried, c.epoch ∈ w.epochs
  stored : ∀ p, w.db.snapshot = some p → ∀ c ∈ w.carried, c.epoch = p.epoch →
    ∀ revision payload, w.db.sessions.get? c.key = some (revision, payload) →
      c.revision ≤ revision ∧ (c.revision = revision → payload = codec.encode c.body)
  unique : Unique w.carried
  manifest : ∀ p, w.db.snapshot = some p → p.epoch ∈ w.epochs ∧ ∃ sessions,
    w.last = some sessions ∧ List.Forall₂ (Names codec w.db) p.manifest sessions ∧
      ∀ e s, e ∈ p.manifest → Names codec w.db e s → Knows w.carried p.epoch e.key e.revision s.body
  empty : w.db.snapshot = none → w.last = none
  readers : ∀ i, (w.readers i).Knowing codec w

section

variable {w : World β ι}

theorem World.Inv.read (h : w.Inv codec) (i : ι) :
    ∃ r, (w.readers i).read codec w.db = .ok (w.last, r) ∧ r.Knowing codec w := by
  obtain ⟨hdigests, hepoch, hcurrent⟩ := h.readers i
  unfold Reader.read
  split
  · next hnone => exact ⟨_, by rw [h.empty hnone], h.readers i⟩
  · next p hp =>
    obtain ⟨hused, sessions, hlast, hnames, hknows⟩ := h.manifest p hp
    have hmanifest : (if (w.readers i).identity = some (p.epoch, p.sequence) then (w.readers i).cached
        else p.manifest) = p.manifest := by
      split
      · next hidentity => exact (hcurrent _ _ hidentity p hp rfl).2 rfl
      · rfl
    dsimp only
    rw [hmanifest]
    generalize hprev : (if (w.readers i).identity.map (·.1) = some p.epoch then
      (w.readers i).sessionCache else {}) = previous
    have hprevious (e : Entry) (s : Session β) (he : e ∈ p.manifest) (hs : Names codec w.db e s)
        (c : Cached β) (hc : previous.get? e.key = some c) (hrevision : c.revision = e.revision) :
        c.body = s.body ∧ c.digest = e.bodyDigest := by
      rw [← hprev] at hc
      split at hc
      · next hidentity =>
        obtain ⟨⟨epoch, sequence⟩, hsome, rfl⟩ := Option.map_eq_some_iff.mp hidentity
        obtain ⟨hcarried, hdigest⟩ := (hepoch _ _ hsome).2 e.key c hc
        rw [hrevision] at hcarried
        have hbody := h.unique _ _ _ _ _ hcarried (hknows e s he hs)
        rw [hdigest, hbody, hs.2.2.1]
        exact ⟨rfl, rfl⟩
      · simp [Dict.get?] at hc
    obtain ⟨cache, hread, hcache⟩ := durableSessions_eq hnames hprevious hdigests {}
    rw [hread, hlast]
    have hcaches : Caches codec w.carried p.epoch cache := by
      intro key c hc
      rcases hcache key c hc with hnone | ⟨e, s, he, hs, rfl, rfl⟩
      · simp [Dict.get?] at hnone
      · exact ⟨hknows e s he hs, hs.2.2.1⟩
    refine ⟨_, rfl, fun key c hc => (hcaches key c hc).2, fun epoch sequence hidentity => ?_,
      fun epoch sequence hidentity q hq _ => ?_⟩
    · cases hidentity
      exact ⟨hused, hcaches⟩
    · cases hidentity
      obtain rfl : p = q := Option.some.inj (hp.symm.trans hq)
      exact ⟨le_rfl, fun _ => rfl⟩

/-! ## one publication -/

theorem World.Ordered.epoch {epoch : PyStr} {sequence : Nat} (h : w.Ordered epoch sequence)
    (hused : epoch ∈ w.epochs) : ∃ p, w.db.snapshot = some p ∧ p.epoch = epoch ∧
      p.sequence < sequence := by
  unfold World.Ordered at h
  split at h
  · next p hp =>
    split at h
    · next hepoch => exact ⟨p, hp, hepoch, h⟩
    · exact absurd hused h
  · exact absurd hused h

variable {snapshot : Snapshot β} {epoch : PyStr} {sequence : Nat}

theorem World.Inv.above (h : w.Inv codec) (hordered : w.Ordered epoch sequence)
    (hfresh : w.Fresh codec snapshot epoch sequence) {s : Session β} (hs : s ∈ snapshot.sessions)
    {c : Carried β} (hc : c ∈ w.carried) (hepoch : c.epoch = epoch) (hkey : c.key = s.key) :
    c.revision ≤ (w.publisher.assign codec w.db epoch sequence s).1.revision ∧
      (c.revision = (w.publisher.assign codec w.db epoch sequence s).1.revision →
        codec.encode s.body = codec.encode c.body) := by
  obtain ⟨p, hp, hpepoch, -⟩ := hordered.epoch (hepoch ▸ h.epochs c hc)
  have hstored (revision : Nat) (payload : Bytes)
      (hrow : w.db.sessions.get? s.key = some (revision, payload)) :=
    h.stored p hp c hc (hepoch.trans hpepoch.symm) revision payload (hkey ▸ hrow)
  rcases Publisher.assign_cases h.tells epoch sequence s with
    ⟨-, hkept⟩ | ⟨-, ⟨revision, payload, hrow, hlt⟩ | ⟨hunknown, hother, hrevision⟩⟩
  · exact hstored _ _ hkept
  · have hle := (hstored revision payload hrow).1
    exact ⟨(hle.trans_lt hlt).le, fun heq => absurd heq (hle.trans_lt hlt).ne⟩
  · have hlt := hfresh s hs hunknown hother c hc hepoch hkey
    rw [hrevision]
    exact ⟨hlt.le, fun heq => absurd heq hlt.ne⟩

def Publisher.carries (codec : Codec β) (p : Publisher) (db : Db) (epoch : PyStr) (sequence : Nat)
    (sessions : List (Session β)) : List (Carried β) :=
  sessions.map fun s =>
    ⟨epoch, s.key, (p.assign codec db epoch sequence s).1.revision, s.body⟩

theorem World.Inv.unique_publish (h : w.Inv codec) (hordered : w.Ordered epoch sequence)
    (hfresh : w.Fresh codec snapshot epoch sequence) :
    Unique (w.publisher.carries codec w.db epoch sequence snapshot.sessions ++ w.carried) := by
  have hnew {epoch' : PyStr} {key : Key} {revision : Nat} {body : β}
      (hmem : ⟨epoch', key, revision, body⟩ ∈
        w.publisher.carries codec w.db epoch sequence snapshot.sessions) :
      epoch' = epoch ∧ ∃ s ∈ snapshot.sessions, s.key = key ∧ s.body = body ∧
        (w.publisher.assign codec w.db epoch sequence s).1.revision = revision := by
    obtain ⟨s, hs, heq⟩ := List.mem_map.mp hmem
    cases heq
    exact ⟨rfl, s, hs, rfl, rfl, rfl⟩
  have hcross {key : Key} {revision : Nat} {body body' : β} {epoch' : PyStr}
      (hmem : ⟨epoch', key, revision, body⟩ ∈
        w.publisher.carries codec w.db epoch sequence snapshot.sessions)
      (hmem' : ⟨epoch', key, revision, body'⟩ ∈ w.carried) : body = body' := by
    obtain ⟨hepoch, s, hs, hkey, rfl, hrevision⟩ := hnew hmem
    have hsame := (h.above hordered hfresh hs hmem' hepoch hkey.symm).2 hrevision.symm
    have hbody := congrArg codec.decode hsame
    rwa [codec.decode_encode, codec.decode_encode] at hbody
  intro epoch' key revision body body' hbody hbody'
  rcases mem_append.mp hbody with hleft | hleft <;>
    rcases mem_append.mp hbody' with hright | hright
  · obtain ⟨-, s, hs, hkey, rfl, -⟩ := hnew hleft
    obtain ⟨-, t, ht, hkey', rfl, -⟩ := hnew hright
    have hfind := Publisher.find?_key snapshot.distinct hs
    have hfind' := Publisher.find?_key snapshot.distinct ht
    rw [hkey] at hfind
    rw [hkey'] at hfind'
    rw [hfind] at hfind'
    rw [Option.some.inj hfind']
  · exact hcross hleft hright
  · exact (hcross hright hleft).symm
  · exact h.unique _ _ _ _ _ hleft hright

theorem World.Inv.tells_publish (h : w.Inv codec) (knownRemoved : Finset Key) :
    (w.publisher.publish codec w.db epoch sequence snapshot knownRemoved).1.Tells codec
      (w.publisher.publish codec w.db epoch sequence snapshot knownRemoved).2 := by
  intro key row hrow
  have hcurrent : (w.publisher.current codec w.db epoch sequence snapshot.sessions).get? key =
      some row := hrow
  rw [Publisher.get?_current snapshot.distinct] at hcurrent
  obtain ⟨s, hs, rfl⟩ := Option.map_eq_some_iff.mp hcurrent
  have hkey : s.key = key := by simpa using find?_some hs
  obtain ⟨hfingerprint, hdigest⟩ := Publisher.assign_digest h.tells epoch sequence s
  exact ⟨s.body, hfingerprint, hdigest,
    (Publisher.get?_publish h.tells snapshot knownRemoved key).1 s (mem_of_find?_eq_some hs)
    hkey⟩

variable [DecidableEq ι]

theorem World.Inv.publish (h : w.Inv codec) (hordered : w.Ordered epoch sequence)
    (hfresh : w.Fresh codec snapshot epoch sequence) (knownRemoved : Finset Key) :
    (w.step codec (.publish snapshot epoch sequence knownRemoved)).Inv codec := by
  have hrows := @Publisher.get?_publish β codec w.publisher w.db epoch sequence h.tells snapshot
    knownRemoved
  have htells := @World.Inv.tells_publish β ι codec w snapshot epoch sequence h knownRemoved
  have hsnapshot : (w.publisher.publish codec w.db epoch sequence snapshot knownRemoved).2.snapshot =
      some ⟨epoch, sequence, snapshot.sessions.map (w.publisher.entry codec w.db epoch sequence)⟩ := rfl
  have hunique := h.unique_publish hordered hfresh
  simp only [World.step]
  generalize w.publisher.publish codec w.db epoch sequence snapshot knownRemoved = t
    at hrows htells hsnapshot ⊢
  obtain ⟨publisher, db⟩ := t
  dsimp only at hrows htells hsnapshot ⊢
  refine
    { tells := htells
      epochs := fun c hc => ?_
      stored := fun p hp c hc hepoch revision payload hget => ?_
      unique := hunique
      manifest := fun p hp => ?_
      empty := fun hnone => ?_
      readers := fun i => ?_ }
  · rcases mem_append.mp hc with hc | hc
    · obtain ⟨s, -, rfl⟩ := List.mem_map.mp hc
      exact mem_cons_self
    · exact mem_cons_of_mem _ (h.epochs c hc)
  · obtain rfl : p = _ := Option.some.inj (hp.symm.trans hsnapshot)
    have hepoch : c.epoch = epoch := hepoch
    have hsame (s : Session β) (hs : s ∈ snapshot.sessions) (hkey : s.key = c.key) :
        (w.publisher.assign codec w.db epoch sequence s).1.revision = revision ∧
          codec.encode s.body = payload := by
      have hrow := (hrows c.key).1 s hs hkey
      rw [hget] at hrow
      cases hrow
      exact ⟨rfl, rfl⟩
    rcases mem_append.mp hc with hc | hc
    · obtain ⟨s, hs, rfl⟩ := List.mem_map.mp hc
      obtain ⟨hrevision, hpayload⟩ := hsame s hs rfl
      exact ⟨hrevision.le, fun _ => hpayload.symm⟩
    · by_cases hpublished : ∃ s ∈ snapshot.sessions, s.key = c.key
      · obtain ⟨s, hs, hkey⟩ := hpublished
        obtain ⟨hrevision, hpayload⟩ := hsame s hs hkey
        rw [← hrevision, ← hpayload]
        exact h.above hordered hfresh hs hc hepoch hkey.symm
      · have hother : ∀ s ∈ snapshot.sessions, s.key ≠ c.key := fun s hs hkey =>
          hpublished ⟨s, hs, hkey⟩
        obtain ⟨q, hq, hqepoch, -⟩ := hordered.epoch (hepoch ▸ h.epochs c hc)
        rcases (hrows c.key).2 hother with hgone | hkept
        · rw [hgone] at hget
          cases hget
        · rw [hkept] at hget
          exact h.stored q hq c hc (hepoch.trans hqepoch.symm) revision payload hget
  · obtain rfl : p = _ := Option.some.inj (hp.symm.trans hsnapshot)
    refine ⟨mem_cons_self, snapshot.sessions, rfl, ?_, fun e s he hs => ?_⟩
    · refine List.forall₂_map_left_iff.mpr (List.forall₂_same.mpr fun s hs => ⟨rfl, rfl, ?_, ?_⟩)
      · exact (Publisher.assign_digest h.tells epoch sequence s).2
      · exact (hrows s.key).1 s hs rfl
    · obtain ⟨t, ht, rfl⟩ := List.mem_map.mp he
      have hrow := ((hrows t.key).1 t ht rfl).symm.trans hs.2.2.2
      have hbody := congrArg codec.decode (Prod.mk.inj (Option.some.inj hrow)).2
      rw [codec.decode_encode, codec.decode_encode] at hbody
      exact mem_append_left _ (List.mem_map.mpr ⟨t, ht, by rw [hbody]; rfl⟩)
  · rw [hsnapshot] at hnone
    cases hnone
  · obtain ⟨hdigests, hepochs, hcurrent⟩ := h.readers i
    refine ⟨hdigests, fun epoch' n hidentity => ?_, fun epoch' n hidentity p hp hpepoch => ?_⟩
    · obtain ⟨hused, hcaches⟩ := hepochs epoch' n hidentity
      exact ⟨mem_cons_of_mem _ hused, fun key c hc =>
        ⟨mem_append_right _ (hcaches key c hc).1, (hcaches key c hc).2⟩⟩
    · obtain rfl : p = _ := Option.some.inj (hp.symm.trans hsnapshot)
      obtain rfl : epoch = epoch' := hpepoch
      obtain ⟨q, hq, hqepoch, hlt⟩ := hordered.epoch (hepochs _ _ hidentity).1
      have hle := (hcurrent _ _ hidentity q hq hqepoch).1
      exact ⟨(hle.trans_lt hlt).le, fun heq => absurd heq (hle.trans_lt hlt).ne⟩

/-! ## runs -/

theorem World.Inv.step (h : w.Inv codec) {action : Action β ι} (hallowed : w.Allowed codec action) :
    (w.step codec action).Inv codec := by
  cases action with
  | restart =>
    exact ⟨fun key row hrow => by simp [World.step, Dict.get?] at hrow, h.epochs, h.stored, h.unique, h.manifest,
      h.empty, fun i => ⟨(h.readers i).digests, (h.readers i).epoch, (h.readers i).current⟩⟩
  | publish snapshot epoch sequence knownRemoved =>
    exact h.publish hallowed.1 hallowed.2 knownRemoved
  | read i =>
    obtain ⟨r, hread, hknowing⟩ := h.read i
    simp only [World.step, hread]
    refine ⟨h.tells, h.epochs, h.stored, h.unique, h.manifest, h.empty, fun j => ?_⟩
    dsimp only
    split
    · exact ⟨hknowing.digests, hknowing.epoch, hknowing.current⟩
    · exact ⟨(h.readers j).digests, (h.readers j).epoch, (h.readers j).current⟩

omit [DecidableEq ι] in
theorem World.inv_empty : World.Inv codec ({} : World β ι) where
  tells := fun key row hrow => by simp [Dict.get?] at hrow
  epochs := nofun
  stored := nofun
  unique := nofun
  manifest := nofun
  empty := fun _ => rfl
  readers := fun _ => ⟨fun key c hc => by simp [Dict.get?] at hc, nofun, nofun⟩

/-- Publication and reading agree: every manifest entry names its stored row, no
owner carries one revision with two bodies in an epoch, every reader reads the
sessions of the last publication, and whatever is published next deletes the row
of an absent owner only, which the complete catalog or the producer proves gone. -/
structure World.Agree (codec : Codec β) (w : World β ι) : Prop where
  manifest : ∀ p, w.db.snapshot = some p → ∀ e ∈ p.manifest,
    ∃ payload, w.db.sessions.get? e.key = some (e.revision, payload)
  unique : Unique w.carried
  reads : ∀ i, ∃ r, (w.readers i).read codec w.db = .ok (w.last, r)
  deleted : ∀ (snapshot : Snapshot β) epoch sequence knownRemoved key,
    (w.db.sessions.get? key).isSome = true →
      (w.publisher.publish codec w.db epoch sequence snapshot knownRemoved).2.sessions.get? key =
        none →
        (snapshot.complete = true ∨ key ∈ knownRemoved) ∧ ∀ s ∈ snapshot.sessions, s.key ≠ key

end

/-! ## an owner that returns -/

def oneSession (body : Bytes) : Snapshot Bytes where
  sessions := [⟨(py "home", py "owner"), body, .null⟩]
  distinct := nodup_singleton _

def noSession : Snapshot Bytes where
  sessions := []
  distinct := nodup_nil
  catalogComplete := false

/-- An owner keeps its revision in a new epoch, where it leaves a partial
catalog and returns with another body. -/
def returned (sequence : Nat) : World Bytes Unit :=
  run (World.step plainCodec) {}
    [.publish (oneSession [1]) (py "first") 3 ∅, .restart,
      .publish (oneSession [1]) (py "second") 1 ∅, .read (),
      .publish noSession (py "second") 2 ∅,
      .publish (oneSession [2]) (py "second") sequence ∅]

end Codexon.Channel
