import Codexon.LiveDelta.Reading

/-!
# Codexon.LiveDelta.Agreement

A client that has accepted a publication holds its rows, so the next response
leaves out nothing it lacks: after every read it holds the sessions and the
activities that were published, but for the sessions it retains as pending.
-/

namespace Codexon.Delta

open List Dict

open Channel (Codec Key ScopeError plainCodec)

variable {β : Type} {codec : Codec β}

/-! ## a read -/

variable {d : Dict Key (Held β)}

theorem honors_iff : Honors codec d ↔
    ∀ key held, d.get? key = some held → held.digest = digestOf codec held.body :=
  ⟨fun h key held hget => h (key, held) (get?_eq_some.mp hget),
    fun h e he => h e.1 e.2 (get?_eq_some.mpr he)⟩

theorem Honors.set (h : Honors codec d) (key : Key) {held : Held β}
    (hheld : held.digest = digestOf codec held.body) : Honors codec (d.set key held) := by
  rw [honors_iff] at h ⊢
  intro key' held' hget
  rw [get?_set] at hget
  split at hget
  · cases hget
    exact hheld
  · exact h key' held' hget

theorem Honors.fillRows (h : Honors codec d) (items : List (Item β)) :
    Honors codec (fillRows (heldOf codec) items d) := by
  unfold Delta.fillRows
  induction items generalizing d with
  | nil => exact h
  | cons x items ih => exact ih (h.set x.key rfl)

def confirmed (d : Dict Key (Held β)) : List (Key × Held β) := d.entries.filter fun e => !e.2.pending

variable {c : Client β}

theorem confirmed_retain (codec : Codec β) (c : Client β) (homes : List PyStr) (loading : Bool)
    (d : Dict Key (Held β)) : confirmed (c.retain codec homes loading d) = confirmed d := by
  unfold Client.retain
  split
  · rfl
  · split
    · unfold confirmed
      rw [filter_filter]
      simp only [Bool.and_self]
    · generalize c.candidates = candidates
      induction candidates generalizing d with
      | nil => rfl
      | cons e candidates ih =>
        rw [foldl_cons, ih]
        split
        · next hnew =>
          have habsent : e.1 ∉ d.entries.map Prod.fst := by
            intro hmem
            obtain ⟨old, hold, hkey⟩ := List.mem_map.mp hmem
            have hsome : d.get? e.1 = some old.2 := get?_eq_some.mpr (hkey ▸ hold)
            rw [hsome] at hnew
            cases hnew.1
          unfold confirmed
          rw [entries_set_of_not_mem habsent, filter_append]
          simp
        · rfl

theorem Honors.retain (h : Honors codec d) (homes : List PyStr)
    (loading : Bool) : Honors codec (c.retain codec homes loading d) := by
  unfold Client.retain
  split
  · exact h
  · split
    · exact fun e he => h e (mem_of_mem_filter he)
    · generalize c.candidates = candidates
      induction candidates generalizing d with
      | nil => exact h
      | cons e candidates ih =>
        rw [foldl_cons]
        split
        · exact ih (h.set e.1 rfl)
        · exact ih h

/-- A client retains no session. -/
def Settled (d : Dict Key (Held β)) : Prop := ∀ e ∈ d.entries, e.2.pending = false

theorem Settled.fillRows (h : Settled d) (items : List (Item β)) :
    Settled (fillRows (heldOf codec) items d) := by
  unfold Delta.fillRows
  induction items generalizing d with
  | nil => exact h
  | cons x items ih =>
    refine ih fun e he => ?_
    have hget := get?_eq_some.mpr he
    rw [get?_set] at hget
    split at hget
    · rw [← Option.some.inj hget]
      rfl
    · exact h e (get?_eq_some.mp hget)

theorem Settled.retain {homes : List PyStr} {loading : Bool}
    (h : c.retainPending = false → Settled d) (hquiet : c.retainPending = false ∨ loading = false) :
    Settled (c.retain codec homes loading d) := by
  unfold Client.retain
  cases hretain : c.retainPending with
  | false => exact h hretain
  | true =>
    rw [if_neg (by simp)]
    rcases hquiet with hfalse | rfl
    · exact absurd (hretain.symm.trans hfalse) (by simp)
    · rw [if_pos (by simp)]
      exact fun e he => by simpa using of_mem_filter he

/-- A client holds the rows of a publication. -/
structure Client.Holds (codec : Codec β) (c : Client β) (l : Live β) : Prop where
  sessions : confirmed c.sessions = l.sessions.map fun x => (x.key, heldOf codec x)
  activities : c.activities.entries = l.activities.map fun x => (x.key, activityOf x)

theorem Client.Holds.session {l : Live β} (h : c.Holds codec l) {x : Item β} (hx : x ∈ l.sessions) :
    c.sessions.get? x.key = some (heldOf codec x) := by
  have hmem : (x.key, heldOf codec x) ∈ confirmed c.sessions := by
    rw [h.sessions]
    exact List.mem_map.mpr ⟨x, hx, rfl⟩
  exact get?_eq_some.mpr (mem_of_mem_filter hmem)

theorem Client.Holds.activity {l : Live β} (h : c.Holds codec l) {x : Item β}
    (hx : x ∈ l.activities) : c.activities.get? x.key = some (activityOf x) := by
  refine get?_eq_some.mpr ?_
  rw [h.activities]
  exact List.mem_map.mpr ⟨x, hx, rfl⟩

/-- What a client accepted last in the epoch of a publication, it holds. -/
def Client.Based (codec : Codec β) (c : Client β) (l : Live β) : Prop :=
  ∀ known, c.publication = some known → known.1 = l.identity.1 →
    ∃ l₀ : Live β, l₀.identity = known ∧ c.Holds codec l₀ ∧ l₀.Follows l

section

variable {l : Live β}

theorem Client.Based.since (h : c.Based codec l) {n : Nat} (hn : since l c.publication = some n) :
    c.publication.map (·.1) = some l.identity.1 ∧
      ∃ l₀ : Live β, l₀.identity.2 = n ∧ c.Holds codec l₀ ∧ l₀.Follows l := by
  unfold Delta.since at hn
  split at hn
  · next known hknown =>
    split at hn
    · next hsame =>
      cases hn
      obtain ⟨l₀, rfl, hholds, hfollows⟩ := h known hknown hsame.1
      refine ⟨?_, l₀, rfl, hholds, hfollows⟩
      rw [hknown, Option.map_some, hsame.1]
    · cases hn
  · cases hn

theorem newer_false {since : Option Nat} {revision : Nat} (h : newer since revision = false) :
    ∃ n, since = some n ∧ revision ≤ n := by
  unfold newer at h
  cases since with
  | none => cases h
  | some n => exact ⟨n, rfl, by simpa using h⟩

variable {a : Asked}

theorem full_cases (hfull : (request codec l a).full = false) :
    a.protocol ≠ .three ∧ ∃ n, since l a.known = some n ∧ l.membershipRevision ≤ n := by
  unfold request at hfull
  simp only [Bool.or_eq_false_iff, decide_eq_false_iff_not] at hfull
  exact ⟨hfull.1, newer_false hfull.2⟩

variable {protocol : Protocol} {recovered : Dict Key Bytes} {exclusions : List Key}

theorem activities_some {entries : List Sent} (h : (request codec l a).activities = some entries) :
    entries = manifest codec (request codec l a).full (Delta.since l a.known) (·.revision)
      (fun _ _ => false) l.activities := by
  unfold request at h
  dsimp only at h
  split at h
  · cases h
    rfl
  · cases h

theorem activities_none (h : (request codec l a).activities = none) :
    l.activitiesPresent = false := by
  unfold request at h
  simpa using h

theorem start_eq {ν : Type} (a : Asked) (old : Dict Key ν) :
    (if a.protocol ≠ .three ∧ (request codec l a).full = false then old else {}) =
      if (request codec l a).full then {} else old := by
  cases hfull : (request codec l a).full with
  | true => simp
  | false => rw [if_pos ⟨(full_cases hfull).1, rfl⟩, if_neg (by simp)]

/-- The rows from before, in the same epoch. -/
def Client.old {ν : Type} (c : Client β) (l : Live β) (d : Dict Key ν) : Dict Key ν :=
  if c.publication.map (·.1) = some l.identity.1 then d else {}

theorem Client.old_honors (hdigests : Honors codec c.sessions) (l : Live β) :
    Honors codec (c.old l c.sessions) := by
  unfold Client.old
  split
  · exact hdigests
  · exact fun e he => absurd he not_mem_nil

theorem Client.Based.keeps_sessions (h : c.Based codec l) (hknown : a.known = c.publication)
    (hfull : (request codec l a).full = false) :
    kindKeys (fun held : Held β => !held.pending) (c.old l c.sessions) = l.sessions.map (·.key) ∧
      ∀ x ∈ l.sessions, newer (Delta.since l a.known) x.stateRevision = false →
        (c.old l c.sessions).get? x.key = some (heldOf codec x) := by
  obtain ⟨-, n, hn, hmembership⟩ := full_cases hfull
  obtain ⟨hsame, l₀, hsequence, hholds, hfollows⟩ := h.since (hknown ▸ hn)
  have hold : c.old l c.sessions = c.sessions := if_pos hsame
  obtain ⟨-, hkeys, -⟩ := hfollows.membership (hsequence ▸ hmembership)
  rw [hold]
  refine ⟨?_, fun x hx hnewer => ?_⟩
  · have hconfirmed := congrArg (List.map Prod.fst) hholds.sessions
    rw [List.map_map] at hconfirmed
    exact hconfirmed.trans hkeys
  · obtain ⟨m, hm, hle⟩ := newer_false hnewer
    obtain rfl : n = m := Option.some.inj (hn.symm.trans hm)
    obtain ⟨y, hy, hkey, hrevision, -, hbody, hstate⟩ := hfollows.state x hx (hsequence ▸ hle)
    rw [← hkey, hholds.session hy, heldOf, heldOf, hrevision, hbody, hstate]

theorem Client.Based.keeps_body (h : c.Based codec l) {x : Item β} (hx : x ∈ l.sessions)
    (hnewer : newer (Delta.since l c.publication) x.revision = false) :
    ∃ o, (c.old l c.sessions).get? x.key = some o ∧ o.revision = some x.revision ∧
      o.digest = digestOf codec x.body := by
  obtain ⟨n, hn, hle⟩ := newer_false hnewer
  obtain ⟨hsame, l₀, hsequence, hholds, hfollows⟩ := h.since hn
  have hold : c.old l c.sessions = c.sessions := if_pos hsame
  obtain ⟨y, hy, hkey, hrevision, hbody⟩ := hfollows.body x hx (hsequence ▸ hle)
  rw [hold, ← hkey, hholds.session hy]
  exact ⟨_, rfl, congrArg some hrevision, congrArg (digestOf codec) hbody⟩

theorem Client.Based.keeps_activity (h : c.Based codec l) {x : Item β} (hx : x ∈ l.activities)
    (hnewer : newer (Delta.since l c.publication) x.revision = false) :
    (c.old l c.activities).get? x.key = some (activityOf x) := by
  obtain ⟨n, hn, hle⟩ := newer_false hnewer
  obtain ⟨hsame, l₀, hsequence, hholds, hfollows⟩ := h.since hn
  have hold : c.old l c.activities = c.activities := if_pos hsame
  obtain ⟨y, hy, hkey, hrevision, hbody⟩ := hfollows.activity x hx (hsequence ▸ hle)
  rw [hold, ← hkey, hholds.activity hy, activityOf, activityOf, hrevision, hbody]

theorem Client.Based.keeps_activities (h : c.Based codec l)
    (hknown : a.known = c.publication) (hfull : (request codec l a).full = false) :
    kindKeys (fun _ : Nat × β => true) (c.old l c.activities) = l.activities.map (·.key) ∧
      ∀ x ∈ l.activities, newer (Delta.since l a.known) x.revision = false →
        (c.old l c.activities).get? x.key = some (activityOf x) := by
  obtain ⟨-, n, hn, hmembership⟩ := full_cases hfull
  obtain ⟨hsame, l₀, hsequence, hholds, hfollows⟩ := h.since (hknown ▸ hn)
  have hold : c.old l c.activities = c.activities := if_pos hsame
  obtain ⟨-, -, hkeys, -⟩ := hfollows.membership (hsequence ▸ hmembership)
  refine ⟨?_, fun x hx hnewer => h.keeps_activity hx (hknown ▸ hnewer)⟩
  rw [hold, kindKeys, filter_eq_self.mpr fun _ _ => rfl, hholds.activities, List.map_map]
  exact hkeys

theorem sessions_read (hdigests : Honors codec c.sessions) (hbased : c.Based codec l) (hl : l.Sound)
    (hknown : a.known = c.publication) {d : Dict Key (Held β)}
    (h : Client.rows (c.sessionRow codec a.protocol) (c.old l c.sessions) (request codec l a).sessions
      (if (request codec l a).full then {} else c.old l c.sessions) = .ok d) :
    confirmed d = l.sessions.map (fun x => (x.key, heldOf codec x)) ∧ Honors codec d ∧
      (Settled c.sessions → Settled d) := by
  have hold := Client.old_honors hdigests l
  obtain ⟨hfilled, hconfirmed⟩ := manifest_read (fun held : Held β => !held.pending)
    (heldOf codec) (fun _ => rfl) hl.sessions
    (fun x _ v hv => sessionRow_eq hdigests (fun o ho => honors_iff.mp hold x.key o ho) x hv)
    (hbased.keeps_sessions hknown) h
  refine ⟨hconfirmed, ?_, fun hsettled => ?_⟩
  · rw [hfilled]
    refine Honors.fillRows ?_ _
    split
    · exact fun e he => absurd he not_mem_nil
    · exact hold
  · rw [hfilled]
    refine Settled.fillRows ?_ _
    split
    · exact fun e he => absurd he not_mem_nil
    · unfold Client.old
      split
      · exact hsettled
      · exact fun e he => absurd he not_mem_nil

theorem activities_read (hbased : c.Based codec l) (hl : l.Sound)
    (hknown : a.known = c.publication) {d : Dict Key (Nat × β)}
    (h : Client.rows (Client.activityRow codec) (c.old l c.activities)
      (manifest codec (request codec l a).full (Delta.since l a.known) (·.revision) (fun _ _ => false)
        l.activities)
      (if (request codec l a).full then {} else c.old l c.activities) = .ok d) :
    d.entries = l.activities.map fun x => (x.key, activityOf x) := by
  have hrow (x : Item β) (hx : x ∈ l.activities) (v : Nat × β)
      (hv : Client.activityRow codec ((c.old l c.activities).get? x.key)
        (sentOf codec (Delta.since l a.known) (fun _ _ => false) x) = .ok v) : v = activityOf x := by
    have hright := activityRow_eq codec x fun hnewer => hbased.keeps_activity hx (hknown ▸ hnewer)
    exact Except.ok.inj (hv.symm.trans hright)
  obtain ⟨-, hall⟩ := manifest_read (fun _ : Nat × β => true) activityOf (fun _ => rfl) hl.activities
    hrow (hbased.keeps_activities hknown) h
  rwa [filter_eq_self.mpr fun _ _ => rfl] at hall

theorem read_spec (hdigests : Honors codec c.sessions) (hbased : c.Based codec l) (hl : l.Sound)
    {c' : Client β}
    (h : c.readLive codec (request codec l ⟨protocol, c.publication, recovered, exclusions⟩) = .ok c')
    : c'.publication = some l.identity ∧ c'.Holds codec l ∧ Honors codec c'.sessions ∧
      c'.retainPending = c.retainPending ∧ ((c.retainPending = false → Settled c.sessions) →
        c.retainPending = false ∨ l.loading = false → Settled c'.sessions) := by
  generalize ha : (⟨protocol, c.publication, recovered, exclusions⟩ : Asked) = a at h
  have hknown : a.known = c.publication := ha ▸ rfl
  have hprotocol : (request codec l a).protocol = a.protocol := rfl
  unfold Client.readLive at h
  dsimp only at h
  split at h
  · cases h
  · rw [hprotocol, start_eq, start_eq] at h
    split at h
    · cases h
    · next sessions hsessions =>
      obtain ⟨hconfirmed, hhonors, hkept⟩ := sessions_read hdigests hbased hl hknown hsessions
      have hsettled (h : c.retainPending = false → Settled c.sessions)
          (hquiet : c.retainPending = false ∨ l.loading = false) :
          Settled (c.retain codec l.homes l.loading sessions) :=
        Settled.retain (fun hfalse => hkept (h hfalse)) hquiet
      have hretained := (confirmed_retain codec c l.homes l.loading sessions).trans
        hconfirmed
      split at h
      · next hnone =>
        cases h
        exact ⟨rfl, ⟨hretained, by rw [hl.absent (activities_none hnone)]; rfl⟩, hhonors.retain _ _, rfl, hsettled⟩
      · next entries hentries =>
        split at h
        · cases h
        · next activities hactivities =>
          cases h
          rw [activities_some hentries] at hactivities
          have hall := activities_read hbased hl hknown hactivities
          exact ⟨rfl, ⟨hretained, hall⟩, hhonors.retain _ _, rfl, hsettled⟩

theorem read_ok (hdigests : Honors codec c.sessions) (hbased : c.Based codec l)
    (hproof : protocol ≠ .five ∨ recovered = {}) : ∃ c',
    c.readLive codec (request codec l ⟨protocol, c.publication, recovered, exclusions⟩) = .ok c' := by
  generalize ha : (⟨protocol, c.publication, recovered, exclusions⟩ : Asked) = a
  have hknown : a.known = c.publication := ha ▸ rfl
  have hproves (key : Key) (digest : Bytes) : a.proves key digest = false := by
    rw [← ha]
    unfold Asked.proves
    rcases hproof with hprotocol | rfl
    · simp [hprotocol]
    · simp [Dict.get?]
  have hprotocol : (request codec l a).protocol = a.protocol := rfl
  unfold Client.readLive
  dsimp only
  split
  · next hbad =>
    obtain ⟨⟨-, hfull⟩, hother⟩ := hbad
    obtain ⟨-, n, hn, -⟩ := full_cases hfull
    exact absurd (hbased.since (hknown ▸ hn)).1 hother
  · rw [hprotocol, start_eq, start_eq]
    have hall : ∃ sessions, Client.rows (c.sessionRow codec a.protocol) (c.old l c.sessions)
        (request codec l a).sessions (if (request codec l a).full then {} else c.old l c.sessions) =
          .ok sessions :=
      rows_ok (fun x => rfl)
        fun x hx => sessionRow_ok hdigests x (hproves _ _) fun hnewer =>
          hbased.keeps_body (mem_of_mem_filter hx) (hknown ▸ hnewer)
    have hactivity : ∃ activities, Client.rows (Client.activityRow codec) (c.old l c.activities)
        (manifest codec (request codec l a).full (Delta.since l a.known) (·.revision)
          (fun _ _ => false) l.activities)
        (if (request codec l a).full then {} else c.old l c.activities) = .ok activities :=
      rows_ok (fun x => rfl) fun x hx => ⟨_, activityRow_eq codec x fun hnewer =>
        hbased.keeps_activity (mem_of_mem_filter hx) (hknown ▸ hnewer)⟩
    obtain ⟨sessions, hsessions⟩ := hall
    obtain ⟨activities, hactivities⟩ := hactivity
    split
    · next error herror => exact absurd (hsessions.symm.trans herror) (by simp)
    · split
      · exact ⟨_, rfl⟩
      · next entries hentries =>
        rw [activities_some hentries]
        split
        · next error herror => exact absurd (hactivities.symm.trans herror) (by simp)
        · exact ⟨_, rfl⟩

end

/-! ## runs -/

section

variable {ι : Type}

def World.Ordered (w : World β ι) (identity : Identity) : Prop :=
  match w.current with
  | some l => if l.identity.1 = identity.1 then l.identity.2 < identity.2 else identity.1 ∉ w.epochs
  | none => identity.1 ∉ w.epochs

/-- What is asked of the steps of a run. -/
def World.Allowed (w : World β ι) : Action β ι → Prop
  | .publish snapshot identity =>
    w.Ordered identity ∧ snapshot.Honest (Live.inEpoch w.current identity.1)
  | _ => True

/-- What holds of a client. -/
structure Client.Inv (codec : Codec β) (c : Client β) (w : World β ι) : Prop where
  honors : Honors codec c.sessions
  settled : c.retainPending = false → Settled c.sessions
  holds : ∀ identity, c.publication = some identity → identity.1 ∈ w.epochs ∧
    ∃ (l₀ : Live β) (s : Snapshot β), l₀.identity = identity ∧ (identity, s) ∈ w.published ∧
      l₀.Shows s ∧ c.Holds codec l₀ ∧ (s.loading = false → Settled c.sessions) ∧
      ∀ l, w.current = some l → l.identity.1 = identity.1 → l₀.Follows l

/-- What holds of every state. -/
structure World.Inv (codec : Codec β) (w : World β ι) : Prop where
  current : ∀ l, w.current = some l → l.Sound ∧ l.identity.1 ∈ w.epochs ∧
    ∃ s, (l.identity, s) ∈ w.published ∧ l.Shows s
  published : ∀ p ∈ w.published, p.1.1 ∈ w.epochs ∧
    ∀ l, w.current = some l → l.identity.1 = p.1.1 → p.1.2 ≤ l.identity.2
  unique : ∀ identity s t, (identity, s) ∈ w.published → (identity, t) ∈ w.published → s = t
  clients : ∀ i, (w.clients i).Inv codec w

variable {w : World β ι}

theorem World.Ordered.epoch {identity : Identity} (h : w.Ordered identity)
    (hused : identity.1 ∈ w.epochs) :
    ∃ l, w.current = some l ∧ l.identity.1 = identity.1 ∧ l.identity.2 < identity.2 := by
  unfold World.Ordered at h
  split at h
  · next l hl =>
    split at h
    · next hepoch => exact ⟨l, hl, hepoch, h⟩
    · exact absurd hused h
  · exact absurd hused h

theorem Client.Inv.based {c : Client β} (h : c.Inv codec w) {l : Live β} (hl : w.current = some l) :
    c.Based codec l := by
  intro known hknown hepoch
  obtain ⟨-, l₀, s, hidentity, -, -, hheld, -, hfollows⟩ := h.holds known hknown
  exact ⟨l₀, hidentity, hheld, hfollows l hl hepoch.symm⟩

theorem World.Inv.read (h : w.Inv codec) (i : ι) {l : Live β} (hl : w.current = some l)
    {protocol : Protocol} {recovered : Dict Key Bytes} {exclusions : List Key} {c : Client β}
    (hread : w.read codec i l protocol recovered exclusions = .ok c) :
    c.publication = some l.identity ∧ c.Inv codec w := by
  obtain ⟨hsound, hused, s, hs, hshows⟩ := h.current l hl
  have hclient := h.clients i
  obtain ⟨hpublication, hheld, hhonors, hretain, hsettled⟩ :=
    read_spec hclient.honors (hclient.based hl) hsound hread
  refine ⟨hpublication, hhonors, fun hfalse => ?_, fun identity hidentity => ?_⟩
  · exact hsettled hclient.settled (Or.inl (hretain ▸ hfalse))
  · obtain rfl : l.identity = identity := Option.some.inj (hpublication.symm.trans hidentity)
    refine ⟨hused, l, s, rfl, hs, hshows, hheld, fun hloading => ?_, fun l' hl' _ => ?_⟩
    · exact hsettled hclient.settled (Or.inr (hshows.loading.trans hloading))
    · obtain rfl : l = l' := Option.some.inj (hl.symm.trans hl')
      exact Live.Follows.refl l

def World.init (homes : ι → List PyStr) (retainPending : ι → Bool) : World β ι where
  clients := fun i => { homes := homes i, retainPending := retainPending i }

theorem World.inv_init (homes : ι → List PyStr) (retainPending : ι → Bool) :
    (World.init homes retainPending : World β ι).Inv codec := by
  refine ⟨fun l hl => ?_, fun p hp => ?_, fun _ _ _ hs => ?_, fun i => ⟨?_, fun _ => ?_, fun _ h => ?_⟩⟩
  · cases hl
  · exact absurd hp not_mem_nil
  · exact absurd hs not_mem_nil
  · exact fun e he => absurd he not_mem_nil
  · exact fun e he => absurd he not_mem_nil
  · cases h

variable [DecidableEq ι]

theorem World.Inv.publish (h : w.Inv codec) {snapshot : Snapshot β} {identity : Identity}
    (hallowed : w.Allowed (.publish snapshot identity)) :
    (w.step codec (.publish snapshot identity)).Inv codec := by
  obtain ⟨hordered, hhonest⟩ := hallowed
  have hlater (l : Live β) (hl : w.current = some l) :
      l.Sound ∧ (l.identity.1 = identity.1 → l.identity.2 < identity.2) := by
    obtain ⟨hsound, hused, -⟩ := h.current l hl
    refine ⟨hsound, fun hepoch => ?_⟩
    obtain ⟨l', hl', -, hlt⟩ := hordered.epoch (hepoch ▸ hused)
    obtain rfl : l = l' := Option.some.inj (hl.symm.trans hl')
    exact hlt
  obtain ⟨hsound, hshows, hfollows⟩ := prepare_spec codec hlater hhonest
  have hidentity : (prepare codec w.current snapshot identity).identity = identity := rfl
  unfold World.step
  dsimp only
  generalize prepare codec w.current snapshot identity = l at *
  have hold {p : Identity × Snapshot β} (hp : p ∈ w.published) (hepoch : p.1.1 = identity.1) :
      p.1.2 < identity.2 := by
    obtain ⟨hused, hbefore⟩ := h.published p hp
    obtain ⟨l', hl', hsame, hlt⟩ := hordered.epoch (hepoch ▸ hused)
    exact (hbefore l' hl' (hsame.trans hepoch.symm)).trans_lt hlt
  refine ⟨fun l' hl' => ?_, fun p hp => ?_, fun id s t hs ht => ?_, fun i => ?_⟩
  · cases hl'
    exact ⟨hsound, hidentity ▸ mem_cons_self, snapshot, hidentity ▸ mem_cons_self, hshows⟩
  · rcases mem_cons.mp hp with rfl | hp
    · refine ⟨mem_cons_self, ?_⟩
      rintro l' hl' -
      cases hl'
      rw [hidentity]
    · refine ⟨mem_cons_of_mem _ (h.published p hp).1, fun l' hl' hepoch => ?_⟩
      cases hl'
      rw [hidentity] at hepoch ⊢
      exact (hold hp hepoch.symm).le
  · rcases mem_cons.mp hs with hs | hs <;> rcases mem_cons.mp ht with ht | ht
    · rw [(Prod.mk.inj hs).2, (Prod.mk.inj ht).2]
    · exact absurd (hold ht (by rw [(Prod.mk.inj hs).1])) (by rw [(Prod.mk.inj hs).1]; exact lt_irrefl _)
    · exact absurd (hold hs (by rw [(Prod.mk.inj ht).1])) (by rw [(Prod.mk.inj ht).1]; exact lt_irrefl _)
    · exact h.unique id s t hs ht
  · obtain ⟨hhonors, hsettled, hholds⟩ := h.clients i
    refine ⟨hhonors, hsettled, fun known hknown => ?_⟩
    obtain ⟨hused, l₀, s, hl₀, hs, hshown, hheld, hquiet, hfollow⟩ := hholds known hknown
    refine ⟨mem_cons_of_mem _ hused, l₀, s, hl₀, mem_cons_of_mem _ hs, hshown, hheld, hquiet,
      fun l' hl' hepoch => ?_⟩
    cases hl'
    rw [hidentity] at hepoch
    obtain ⟨l₁, hl₁, hsame, -⟩ := hordered.epoch (hepoch ▸ hused)
    exact (hfollow l₁ hl₁ (hsame.trans hepoch)).trans (hfollows l₁ hl₁ hsame)

theorem World.Inv.setClient (h : w.Inv codec) (i : ι) {c : Client β} (hc : c.Inv codec w) :
    (w.setClient i c).Inv codec := by
  refine ⟨h.current, h.published, h.unique, fun j => ?_⟩
  unfold World.setClient
  dsimp only
  split
  · exact ⟨hc.honors, hc.settled, hc.holds⟩
  · exact ⟨(h.clients j).honors, (h.clients j).settled, (h.clients j).holds⟩

theorem World.Inv.step (w : World β ι) (action : Action β ι) (h : w.Inv codec)
    (hallowed : w.Allowed action) : (w.step codec action).Inv codec := by
  cases action with
  | restart =>
    refine ⟨fun l hl => ?_, fun p hp => ⟨(h.published p hp).1, fun l hl => ?_⟩, h.unique, fun i => ?_⟩
    · cases hl
    · cases hl
    · obtain ⟨hhonors, hsettled, hholds⟩ := h.clients i
      refine ⟨hhonors, hsettled, fun identity hidentity => ?_⟩
      obtain ⟨hused, l₀, s, hl₀, hs, hshown, hheld, hquiet, -⟩ := hholds identity hidentity
      refine ⟨hused, l₀, s, hl₀, hs, hshown, hheld, hquiet, fun l hl => ?_⟩
      cases hl
  | publish snapshot identity => exact h.publish hallowed
  | read i protocol recovered exclusions =>
    unfold World.step
    dsimp only
    split
    · next l hl =>
      split
      · next c hread => exact h.setClient i (h.read i hl hread).2
      · exact h
    · exact h
  | store i stored =>
    obtain ⟨hhonors, hsettled, hholds⟩ := h.clients i
    refine h.setClient i ⟨hhonors, hsettled, fun identity hidentity => ?_⟩
    obtain ⟨hused, l₀, s, hl₀, hs, hshown, ⟨hsessions, hactivities⟩, hrest⟩ :=
      hholds identity hidentity
    exact ⟨hused, l₀, s, hl₀, hs, hshown, ⟨hsessions, hactivities⟩, hrest⟩

theorem shown_eq {c : Client β} {l : Live β} {s : Snapshot β} (hheld : c.Holds codec l)
    (hshows : l.Shows s) : c.shown = s.sessions.map (fun r => (r.key, r.body, r.state)) ∧
      c.activities.entries.map (fun e => (e.1, e.2.2)) =
        (s.activities.getD []).map fun r => (r.key, r.body) := by
  constructor
  · have hconfirmed := congrArg (List.map fun e : Key × Held β => (e.1, e.2.body, e.2.state))
      hheld.sessions
    rw [List.map_map] at hconfirmed
    exact hconfirmed.trans hshows.sessions
  · rw [hheld.activities, List.map_map]
    exact hshows.activities

/-- **Live reads**: in every run, a client with a publication holds the sessions of
that one, in order, with their states, and its activities; besides, it holds only
sessions retained as pending, and none unless the publication was loading.  A read
that is accepted leaves the client with the current publication, and a read that
counts on no checkpoint is accepted. -/
theorem live_reads {homes : ι → List PyStr} {retainPending : ι → Bool} {actions : List (Action β ι)}
    (hallowed : Along (World.step codec) World.Allowed (World.init homes retainPending) actions) :
    (∀ i identity,
      ((run (World.step codec) (World.init homes retainPending) actions).clients i).publication =
        some identity → ∃ s, (identity, s) ∈
          (run (World.step codec) (World.init homes retainPending) actions).published ∧
        (∀ t, (identity, t) ∈
          (run (World.step codec) (World.init homes retainPending) actions).published → t = s) ∧
        ((run (World.step codec) (World.init homes retainPending) actions).clients i).shown =
          s.sessions.map (fun r => (r.key, r.body, r.state)) ∧ (s.loading = false → ∀ e ∈
          ((run (World.step codec) (World.init homes retainPending) actions).clients i).sessions.entries,
            e.2.pending = false) ∧
        ((run (World.step codec) (World.init homes retainPending) actions).clients
            i).activities.entries.map (fun e => (e.1, e.2.2)) =
          (s.activities.getD []).map fun r => (r.key, r.body)) ∧
    ∀ i l protocol recovered exclusions,
      (run (World.step codec) (World.init homes retainPending) actions).current = some l →
      (∀ c, (run (World.step codec) (World.init homes retainPending) actions).read codec i l protocol
        recovered exclusions = .ok c → c.publication = some l.identity) ∧
      (protocol ≠ .five ∨ recovered = {} → ∃ c,
        (run (World.step codec) (World.init homes retainPending) actions).read codec i l protocol
          recovered exclusions = .ok c) := by
  have hinv : (run (World.step codec) (World.init homes retainPending) actions).Inv codec :=
    run_inv_along World.Inv.step (World.inv_init homes retainPending) hallowed
  generalize run (World.step codec) (World.init homes retainPending) actions = w at hinv
  refine ⟨fun i identity hidentity => ?_, fun i l protocol recovered exclusions hl => ⟨?_, ?_⟩⟩
  · obtain ⟨-, l₀, s, -, hs, hshows, hheld, hquiet, -⟩ := (hinv.clients i).holds identity hidentity
    obtain ⟨hsessions, hactivities⟩ := shown_eq hheld hshows
    exact ⟨s, hs, fun t ht => hinv.unique identity t s ht hs, hsessions, hquiet, hactivities⟩
  · exact fun c hread => (hinv.read i hl hread).1
  · exact fun hproof => read_ok (hinv.clients i).honors ((hinv.clients i).based hl) hproof

end

/-! ## one run -/

theorem Snapshot.honest_of_uncertified {s : Snapshot β}
    (hsessions : ∀ r ∈ s.sessions, r.certified = false)
    (hactivities : ∀ r ∈ s.activities.getD [], r.certified = false)
    (hcertified : s.activitiesCertified = false) (previous : Option (Live β)) : s.Honest previous
    := by
  refine ⟨fun r hr h => ?_, fun r hr h => ?_, fun h => ?_⟩
  · exact absurd (h.symm.trans (hsessions r hr)) (by simp)
  · exact absurd (h.symm.trans (hactivities r hr)) (by simp)
  · exact absurd (h.symm.trans hcertified) (by simp)

def twoSessions (body : Bytes) (state : Json) : Snapshot Bytes where
  sessions := [{ key := (py "h", py "a"), body := [1] }, { key := (py "h", py "b"), body, state }]
  distinct := by
    change [(py "h", py "a"), (py "h", py "b")].Nodup
    decide
  activitiesDistinct := by decide

/-- A client reads the first publication and the third, which changed a state and
then a body. -/
def deltaRun : List (Action Bytes Unit) :=
  [.publish (twoSessions [2] .null) (py "e", 1), .read () .five {} [],
    .publish (twoSessions [2] (.int 7)) (py "e", 2),
    .publish (twoSessions [3] (.int 7)) (py "e", 3), .read () .five {} []]

theorem live_read_third :
    ((run (World.step plainCodec) (World.init (fun _ => []) fun _ => false) deltaRun).clients ()).shown
    =
      [((py "h", py "a"), [1], .null), ((py "h", py "b"), [3], .int 7)] := by
  have hhonest (body : Bytes) (state : Json) (previous : Option (Live Bytes)) :
      (twoSessions body state).Honest previous :=
    Snapshot.honest_of_uncertified (by simp [twoSessions]) (by simp [twoSessions]) rfl previous
  have hallowed : Along (World.step plainCodec) World.Allowed
      (World.init (fun _ => []) fun _ => false) deltaRun :=
    ⟨⟨not_mem_nil, hhonest _ _ _⟩, trivial, ⟨Nat.lt_add_one 1, hhonest _ _ _⟩,
      ⟨Nat.lt_add_one 2, hhonest _ _ _⟩, trivial, trivial⟩
  have hpublication : ((run (World.step plainCodec) (World.init (fun _ => []) fun _ => false)
      deltaRun).clients ()).publication = some (py "e", 3) := by
    decide +kernel
  obtain ⟨s, -, hunique, hshown, -⟩ := (live_reads hallowed).1 () _ hpublication
  obtain rfl : twoSessions [3] (.int 7) = s := hunique _ mem_cons_self
  exact hshown

end Codexon.Delta
