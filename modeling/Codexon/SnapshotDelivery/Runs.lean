import Codexon.SnapshotDelivery.Publishing

/-!
# Codexon.SnapshotDelivery.Runs

A publisher, the messages on their way and the receiver.  Messages arrive in order, or
again after they arrived; a new publisher starts a new epoch, and may leave the rest of
the queue unsent.  A receiver stands 64 retired epochs, so that there are at most 65.
-/

namespace Codexon.SnapshotDelivery

open List

variable {ε κ ν β : Type} [DecidableEq κ] [LinearOrder ν] [DecidableEq β] [DecidableEq ε]

/-- The messages on their way come with the content that the last page of each shows. -/
structure System (ε κ ν β : Type) where
  publisher : Publisher ε κ ν β
  last : Content κ ν β := {}
  receiver : Receiver ε κ ν β := {}
  shown : Content κ ν β := {}
  queue : List (Message ε κ ν β × Option (Content κ ν β)) := []
  delivered : List (Message ε κ ν β) := []
  epochs : List ε

inductive Event (ε κ ν β : Type) [DecidableEq κ] where
  | publish (p : Publication κ ν β) (cut : Option (List Nat))
  | heartbeat (revision callRevision : Nat) (token : Option β) (cut : Option (List Nat))
  | restart (epoch : ε) (keep : Nat)
  | deliver
  | redeliver (index : Nat)

def initial (epoch : ε) : System ε κ ν β := { publisher := { epoch := epoch }, epochs := [epoch] }

/-- A message, whole or cut, goes into the queue; the publisher counts its pages. -/
def send (s : System ε κ ν β) (m : Message ε κ ν β) (P : Publisher ε κ ν β)
    (now : Content κ ν β) (cut : Option (List Nat)) : System ε κ ν β :=
  { s with
    publisher := { P with sequence := s.publisher.sequence + (packets m cut).length }
    last := now
    queue := s.queue ++ tagged now (packets m cut) }

def step (s : System ε κ ν β) : Event ε κ ν β → System ε κ ν β
  | .publish p cut =>
    send s (publish s.publisher p).1 (publish s.publisher p).2
      (published s.publisher p s.last) cut
  | .heartbeat revision callRevision token cut =>
    match heartbeat s.publisher revision callRevision token with
    | none => s
    | some (m, P) => send s m P s.last cut
  | .restart epoch keep =>
    if epoch ∈ s.epochs ∨ 65 ≤ s.epochs.length then s
    else { s with
      publisher := { epoch := epoch }, last := {}, queue := s.queue.take keep
      epochs := epoch :: s.epochs }
  | .deliver =>
    match s.queue with
    | [] => s
    | (m, now) :: queue => { s with
        receiver := (s.receiver.receive m).2, shown := now.getD s.shown, queue := queue
        delivered := m :: s.delivered }
  | .redeliver index =>
    match s.delivered[index]? with
    | none => s
    | some m => { s with receiver := (s.receiver.receive m).2 }

/-! ## queues -/

section

omit [LinearOrder ν]

variable {r : Receiver ε κ ν β}

variable {r' : Receiver ε κ ν β}

theorem feeds_append {r'' : Receiver ε κ ν β}
    {queue queue' : List (Message ε κ ν β × Option (Content κ ν β))} (h : Feeds r queue r')
    (h' : Feeds r' queue' r'') : Feeds r (queue ++ queue') r'' := by
  induction queue generalizing r with
  | nil =>
    obtain rfl : r' = r := h
    exact h'
  | cons e queue ih => exact ⟨h.1, ih h.2⟩

theorem feeds_take
    {queue : List (Message ε κ ν β × Option (Content κ ν β))} (n : Nat) (h : Feeds r queue r') :
    ∃ r'', Feeds r (queue.take n) r'' := by
  induction n generalizing r queue with
  | zero => exact ⟨r, rfl⟩
  | succ n ih =>
    cases queue with
    | nil => exact ⟨r, rfl⟩
    | cons e queue =>
      obtain ⟨r'', hr''⟩ := ih h.2
      exact ⟨r'', h.1, hr''⟩

/-! ## epochs of the receiver -/

omit [DecidableEq κ] [DecidableEq β] in
theorem restart_fields (r : Receiver ε κ ν β) (m : Message ε κ ν β) :
    (r.restart m).epoch = some m.epoch ∧ (r.restart m).sequence = 0 ∧
      ∀ e, e ∈ (r.restart m).retired ↔ e ∈ r.retired ∨ r.epoch = some e ∧ e ≠ m.epoch := by
  refine ⟨rfl, rfl, fun e => ?_⟩
  unfold Receiver.restart
  cases hepoch : r.epoch with
  | none => simp
  | some before =>
    by_cases hsame : before = m.epoch <;> simp [hsame] <;> grind

omit [DecidableEq ε] in
theorem page_fields (r : Receiver ε κ ν β) (m : Message ε κ ν β) :
    (r.page m).2.epoch = r.epoch ∧ (r.page m).2.retired = r.retired ∧
      (r.page m).2.sequence = r.sequence := by
  simp only [Receiver.page]
  split
  · exact ⟨rfl, rfl, rfl⟩
  · split <;> exact ⟨rfl, rfl, rfl⟩

omit [DecidableEq β] [DecidableEq ε] in
theorem whole_fields (r : Receiver ε κ ν β) (m : Message ε κ ν β) :
    (r.whole m).2.epoch = r.epoch ∧ (r.whole m).2.retired = r.retired ∧
      (r.whole m).2.sequence = r.sequence := by
  simp only [Receiver.whole]
  split <;> exact ⟨rfl, rfl, rfl⟩

theorem advance_fields (r : Receiver ε κ ν β) (m : Message ε κ ν β) :
    (r.advance m).2.epoch = r.epoch ∧ (r.advance m).2.retired = r.retired ∧
      ((r.advance m).2 = r ∨ r.sequence < m.sequence ∧ (r.advance m).2.sequence = m.sequence) := by
  have hpage := page_fields { r with sequence := m.sequence } m
  have hwhole := whole_fields { r with sequence := m.sequence } m
  simp only [Receiver.advance]
  grind

theorem receive_epochs (r : Receiver ε κ ν β) (m : Message ε κ ν β) :
    (r.receive m).2.epoch = r.epoch ∧ (r.receive m).2.retired = r.retired ∨
      (r.receive m).2.epoch = some m.epoch ∧
        (r.receive m).2.retired = (r.restart m).retired ∧ m.epoch ∉ r.retired := by
  have hadvance := advance_fields r m
  have hrestart := advance_fields (r.restart m) m
  have hfields := restart_fields r m
  simp only [Receiver.receive]
  grind

variable {m : Message ε κ ν β}

theorem receive_sequence (hepoch : r.epoch = some m.epoch)
    (hsequence : (r.receive m).2.sequence = m.sequence) : r.sequence ≤ m.sequence := by
  have hadvance := advance_fields r m
  simp only [Receiver.receive] at hsequence
  grind

/-- The epochs of a receiver are known, and its own is not retired. -/
structure Known (epochs : List ε) (r : Receiver ε κ ν β) : Prop where
  nodup : r.retired.Nodup
  retired : ∀ e ∈ r.retired, e ∈ epochs
  epoch : ∀ e, r.epoch = some e → e ∈ epochs ∧ e ∉ r.retired

variable {epochs : List ε}

omit [DecidableEq κ] [DecidableEq β] in
theorem known_restart (hknown : Known epochs r) : (r.restart m).retired.Nodup :=
    by
  unfold Receiver.restart
  cases hepoch : r.epoch with
  | none => exact hknown.nodup
  | some before =>
    simp only
    split
    · exact hknown.nodup
    · rw [insert_of_not_mem (hknown.epoch before hepoch).2]
      exact nodup_cons.mpr ⟨(hknown.epoch before hepoch).2, hknown.nodup⟩

theorem known_receive (hknown : Known epochs r) (hm : m.epoch ∈ epochs) : Known
    epochs (r.receive m).2 := by
  obtain ⟨-, -, hfields⟩ := restart_fields r m
  rcases receive_epochs r m with ⟨hepoch, hretired⟩ | ⟨hepoch, hretired, hnew⟩
  · constructor
    · rw [hretired]
      exact hknown.nodup
    · rw [hretired]
      exact hknown.retired
    · rw [hepoch, hretired]
      exact hknown.epoch
  · constructor
    · rw [hretired]
      exact known_restart hknown
    · intro e he
      rw [hretired, hfields] at he
      rcases he with he | ⟨he, -⟩
      · exact hknown.retired e he
      · exact (hknown.epoch e he).1
    · intro e he
      rw [hepoch, Option.some.injEq] at he
      subst he
      refine ⟨hm, ?_⟩
      rw [hretired, hfields]
      simpa using hnew

theorem known_feeds
    {queue : List (Message ε κ ν β × Option (Content κ ν β))} (hknown : Known epochs r)
    (hqueue : ∀ e ∈ queue, e.1.epoch ∈ epochs) (h : Feeds r queue r') : Known epochs r' := by
  induction queue generalizing r with
  | nil =>
    obtain rfl : r' = r := h
    exact hknown
  | cons e queue ih =>
    exact ih (known_receive hknown (hqueue e mem_cons_self))
      (fun e he => hqueue e (mem_cons_of_mem _ he)) h.2

def Past (r : Receiver ε κ ν β) (m : Message ε κ ν β) : Prop :=
  m.epoch ∈ r.retired ∨ r.epoch = some m.epoch ∧ m.sequence ≤ r.sequence

/-- **An old message changes nothing.** -/
theorem receive_of_past (hknown : Known epochs r) (h : Past r m) : r.receive m = (.ignored, r) := by
  have hepoch := hknown.epoch m.epoch
  unfold Past at h
  simp only [Receiver.receive, Receiver.advance]
  grind

theorem past_receive {old : Message ε κ ν β} (hepoch : (r.receive m).2.epoch = some m.epoch)
    (hsequence : (r.receive m).2.sequence = m.sequence) (h : Past r old) :
    Past (r.receive m).2 old := by
  obtain ⟨-, -, hfields⟩ := restart_fields r m
  have hlater := receive_sequence (r := r) (m := m)
  unfold Past at h ⊢
  rcases receive_epochs r m with ⟨hepoch', hretired⟩ | ⟨-, hretired, -⟩
  · rw [hretired, hsequence, hepoch']
    grind
  · rw [hretired, hsequence, hepoch, hfields]
    grind

/-! ## the system -/

/-- Where the queue leaves the receiver: at the publisher, or before its first message. -/
structure Ends (r : Receiver ε κ ν β) (s : System ε κ ν β) : Prop where
  fresh : s.publisher.sequence = 0 → s.publisher.epoch ∉ r.retired ∧
    r.epoch ≠ some s.publisher.epoch ∧ (r.epoch.isSome → r.retired.length < 64)
  tied : s.publisher.sequence ≠ 0 → r.epoch = some s.publisher.epoch ∧
    r.sequence = s.publisher.sequence ∧ r.pending = none ∧ Shows r s.last

structure Kept (s : System ε κ ν β) : Prop where
  shows : Shows s.receiver s.shown
  past : ∀ m ∈ s.delivered, Past s.receiver m
  feeds : ∃ r', Feeds s.receiver s.queue r' ∧ Ends r' s
  last : s.last.sessions = s.publisher.sessions ∧ s.last.overlays = s.publisher.overlays
  empty : s.publisher.sequence = 0 → s.publisher.sessions = {} ∧ s.publisher.overlays = {}
  keys : ∀ key, (s.publisher.sessions.get? key).isSome = (s.publisher.overlays.get? key).isSome
  known : Known s.epochs s.receiver
  queued : ∀ e ∈ s.queue, e.1.epoch ∈ s.epochs
  own : s.publisher.epoch ∈ s.epochs

theorem kept_initial (epoch : ε) : Kept (initial epoch : System ε κ ν β) where
  shows := ⟨fun _ => rfl, fun _ => rfl, rfl, rfl⟩
  past := by simp [initial]
  feeds := ⟨{}, rfl, ⟨fun _ => ⟨by simp, by simp, by simp⟩, fun h => absurd rfl h⟩⟩
  last := ⟨rfl, rfl⟩
  empty := fun _ => ⟨rfl, rfl⟩
  keys := fun _ => rfl
  known := ⟨nodup_nil, by simp [initial], by simp [initial]⟩
  queued := by simp [initial]
  own := by simp [initial]

omit [DecidableEq κ] [DecidableEq β] [DecidableEq ε] in
theorem epoch_of_mem_tagged {now : Content κ ν β} {ms : List (Message ε κ ν β)}
    {e : Message ε κ ν β × Option (Content κ ν β)} (h : e ∈ tagged now ms) : e.1 ∈ ms := by
  induction ms with
  | nil => simp [tagged] at h
  | cons m ms ih =>
    cases ms with
    | nil => simp_all [tagged]
    | cons m' ms =>
      rw [tagged, mem_cons] at h
      rcases h with rfl | h
      · exact mem_cons_self
      · exact mem_cons_of_mem _ (ih h)
      · simp

omit [DecidableEq κ] [DecidableEq β] [DecidableEq ε] in
theorem epoch_of_mem_packets {p : Message ε κ ν β} {cut : Option (List Nat)}
    (h : p ∈ packets m cut) : p.epoch = m.epoch := by
  have hpages : ∀ (number : Nat) (first : Bool) (cs : List (List (Part κ ν β))),
      p ∈ pagesFrom m number first cs → p.epoch = m.epoch := by
    intro number first cs
    induction cs generalizing number first with
    | nil => simp [pagesFrom]
    | cons c cs ih =>
      cases cs with
      | nil =>
        intro h
        rw [pagesFrom, mem_singleton] at h
        rw [h, (packet_carries m number first false c).epoch]
        rfl
      | cons c' cs =>
        intro h
        rw [pagesFrom, mem_cons] at h
        rcases h with h | h
        · rw [h, (packet_carries m number first true c).epoch]
          rfl
        · exact ih _ _ h
        · simp
  cases cut with
  | none => rw [mem_singleton.mp h]
  | some sizes => exact hpages _ _ _ h

omit [DecidableEq κ] [DecidableEq β] [DecidableEq ε] in
theorem length_packets (m : Message ε κ ν β) (cut : Option (List Nat)) :
    (packets m cut).length ≠ 0 := by
  cases cut with
  | none => simp [packets]
  | some sizes =>
    obtain ⟨chunk, rest, hchunks, -⟩ := chunks_flatten sizes (parts m)
    rw [packets, hchunks]
    cases rest <;> simp [pagesFrom]

variable {s : System ε κ ν β}

/-- **A message is sent.** -/
theorem kept_send {P : Publisher ε κ ν β}
    {now : Content κ ν β} {cut : Option (List Nat)} (hs : Kept s)
    (hepoch : m.epoch = s.publisher.epoch) (hsequence : m.sequence = s.publisher.sequence + 1)
    (hreset : m.reset = decide (m.sequence = 1))
    (hmessage : ∀ base : Content κ ν β, (∀ key, base.sessions.get? key = s.last.sessions.get? key) →
      (∀ key, base.overlays.get? key = s.last.overlays.get? key) →
      (s.publisher.sequence ≠ 0 → base.models = s.last.models ∧ base.choices = s.last.choices) →
      Says m base now) (hP : P.epoch = s.publisher.epoch)
    (hnow : now.sessions = P.sessions ∧ now.overlays = P.overlays)
    (hkeys : ∀ key, (P.sessions.get? key).isSome = (P.overlays.get? key).isSome) :
    Kept (send s m P now cut) := by
  obtain ⟨r, hfeeds, hends⟩ := hs.feeds
  have hexpects : Expects r m := by
    constructor
    · intro h
      have hrunning : s.publisher.sequence ≠ 0 := by
        rw [hreset] at h
        simp only [decide_eq_false_iff_not] at h
        omega
      obtain ⟨hepoch', hsequence', hpending, -⟩ := hends.tied hrunning
      exact ⟨hepoch ▸ hepoch', by omega, hpending⟩
    · intro h
      have hfirst : s.publisher.sequence = 0 := by
        rw [hreset] at h
        simp only [decide_eq_true_eq] at h
        omega
      obtain ⟨hretired, hepoch', hroom⟩ := hends.fresh hfirst
      exact ⟨by omega, hepoch ▸ hretired, hepoch ▸ hepoch', hroom⟩
  have hbase : Says m (r.base m) now := by
    by_cases hfirst : s.publisher.sequence = 0
    · have hone : m.reset = true := by simp [hreset, hsequence, hfirst]
      obtain ⟨hsessions, hoverlays⟩ := hs.empty hfirst
      refine hmessage _ (fun key => ?_) (fun key => ?_) fun h => absurd hfirst h
      · rw [hs.last.1, hsessions]
        simp [Receiver.base, hone]
      · rw [hs.last.2, hoverlays]
        simp [Receiver.base, hone]
    · have hlater : m.reset = false := by
        rw [hreset]
        simp only [decide_eq_false_iff_not]
        omega
      obtain ⟨-, -, -, hshows⟩ := hends.tied hfirst
      refine hmessage _ (fun key => ?_) (fun key => ?_) fun _ => ⟨hshows.models, hshows.choices⟩
      · simpa [Receiver.base, hlater] using hshows.sessions key
      · simpa [Receiver.base, hlater] using hshows.overlays key
  obtain ⟨r', hfeeds', hepoch', hsequence', hpending', hshows'⟩ := feeds_packets cut hexpects hbase
  have hcount := length_packets m cut
  exact {
    shows := hs.shows
    past := hs.past
    feeds := ⟨r', feeds_append hfeeds hfeeds',
      ⟨fun h => absurd h (by simp only [send]; omega), fun _ =>
        ⟨by simpa [send, hP, hepoch] using hepoch', by simp only [send]; omega, hpending',
          hshows'⟩⟩⟩
    last := hnow
    empty := fun h => absurd h (by simp only [send]; omega)
    keys := hkeys
    known := hs.known
    queued := by
      intro e he
      rcases mem_append.mp he with he | he
      · exact hs.queued e he
      · rw [epoch_of_mem_packets (epoch_of_mem_tagged he), hepoch]
        exact hs.own
    own := by
      simp only [send, hP]
      exact hs.own }

end

variable {m : Message ε κ ν β} {r r' : Receiver ε κ ν β} {s : System ε κ ν β} {epochs : List ε}

theorem kept_restart (hs : Kept s) (epoch : ε) (keep : Nat) :
    Kept (step s (.restart epoch keep)) := by
  simp only [step]
  split
  · exact hs
  · next hroom =>
    obtain ⟨hnew, hcount⟩ := not_or.mp hroom
    obtain ⟨r, hfeeds, -⟩ := hs.feeds
    obtain ⟨r', hfeeds'⟩ := feeds_take keep hfeeds
    have hqueued : ∀ e ∈ s.queue.take keep, e.1.epoch ∈ s.epochs := fun e he =>
      hs.queued e (mem_of_mem_take he)
    have hknown := known_feeds hs.known hqueued hfeeds'
    have hlength : r'.epoch.isSome → r'.retired.length < 64 := by
      intro h
      obtain ⟨e, he⟩ := Option.isSome_iff_exists.mp h
      obtain ⟨hmem, hretired⟩ := hknown.epoch e he
      have hsub : (e :: r'.retired).length ≤ s.epochs.length :=
        (subperm_of_subset (nodup_cons.mpr ⟨hretired, hknown.nodup⟩)
          (cons_subset.mpr ⟨hmem, hknown.retired⟩)).length_le
      rw [length_cons] at hsub
      omega
    exact {
      shows := hs.shows
      past := hs.past
      feeds := ⟨r', hfeeds', ⟨fun _ => ⟨fun h => hnew (hknown.retired _ h),
        fun h => hnew (hknown.epoch _ h).1, hlength⟩, fun h => absurd rfl h⟩⟩
      last := ⟨rfl, rfl⟩
      empty := fun _ => ⟨rfl, rfl⟩
      keys := fun _ => rfl
      known := ⟨hs.known.nodup, fun e he => mem_cons_of_mem _ (hs.known.retired e he),
        fun e he => ⟨mem_cons_of_mem _ (hs.known.epoch e he).1, (hs.known.epoch e he).2⟩⟩
      queued := fun e he => mem_cons_of_mem _ (hqueued e he)
      own := mem_cons_self }

theorem kept_deliver (hs : Kept s) : Kept (step s .deliver) := by
  simp only [step]
  split
  · exact hs
  · next m now queue hqueue =>
    obtain ⟨r', hfeeds, hends⟩ := hs.feeds
    rw [hqueue] at hfeeds
    obtain ⟨haccepts, hfeeds⟩ := hfeeds
    have hm : m.epoch ∈ s.epochs := hs.queued (m, now) (hqueue ▸ mem_cons_self)
    exact {
      shows := by
        cases hnow : now with
        | none => exact shows_of_same (haccepts.unfinished hnow) hs.shows
        | some content => exact haccepts.finished content hnow
      past := by
        intro old hold
        rcases mem_cons.mp hold with rfl | hold
        · exact .inr ⟨haccepts.epoch, haccepts.sequence.ge⟩
        · exact past_receive haccepts.epoch haccepts.sequence (hs.past old hold)
      feeds := ⟨r', hfeeds, hends.fresh, hends.tied⟩
      last := hs.last
      empty := hs.empty
      keys := hs.keys
      known := known_receive hs.known hm
      queued := fun e he => hs.queued e (hqueue ▸ mem_cons_of_mem _ he)
      own := hs.own }

theorem kept_step (hs : Kept s) (event : Event ε κ ν β) : Kept (step s event) := by
  cases event with
  | publish p cut =>
    refine kept_send hs rfl rfl rfl (fun base hsessions hoverlays hrest => ?_) rfl ⟨rfl, rfl⟩
      (isSome_publish s.publisher p)
    rw [hs.last.1] at hsessions
    rw [hs.last.2] at hoverlays
    exact says_publish p hsessions hoverlays hs.keys hrest
  | heartbeat revision callRevision token cut =>
    simp only [step]
    cases hbeat : heartbeat s.publisher revision callRevision token with
    | none => exact hs
    | some answer =>
      obtain ⟨m, P⟩ := answer
      have hmessage := @says_heartbeat ε κ ν β _ s.publisher P m revision callRevision token hbeat
      unfold heartbeat at hbeat
      split at hbeat
      · contradiction
      · next hrunning =>
        have hpositive : s.publisher.sequence ≠ 0 := (not_or.mp hrunning).1
        obtain ⟨rfl, rfl⟩ := Prod.mk.inj (Option.some.inj hbeat)
        exact kept_send hs rfl rfl (by simpa using hpositive)
          (fun base hsessions hoverlays hrest => hmessage hsessions hoverlays (hrest hpositive))
          rfl hs.last hs.keys
  | restart epoch keep => exact kept_restart hs epoch keep
  | deliver => exact kept_deliver hs
  | redeliver index =>
    simp only [step]
    cases hold : s.delivered[index]? with
    | none => exact hs
    | some m =>
      have hpast := hs.past m (mem_of_getElem? hold)
      simp only
      rw [receive_of_past hs.known hpast]
      exact hs

theorem kept_run (epoch : ε) (events : List (Event ε κ ν β)) :
    Kept (run step (initial epoch) events) :=
  run_inv (I := Kept) (fun _ event hs => kept_step hs event) (kept_initial epoch) events

omit [LinearOrder ν] in
theorem receive_of_skipped (hreset : m.reset = false) :
    (r.epoch = some m.epoch → r.sequence + 1 < m.sequence → r.receive m = (.raises, r)) ∧
      (r.epoch ≠ some m.epoch → r.receive m = (.ignored, r)) := by
  constructor
  · intro hepoch hskipped
    simp only [Receiver.receive, Receiver.advance, hreset]
    grind
  · intro hepoch
    simp [Receiver.receive, Receiver.advance, hreset, hepoch]

/-- **Deltas reconstruct the publication**, over at most 65 epochs: after a complete message
the receiver shows what the publisher held when it sent the message, and before that what
it showed; messages that come again change nothing; and a message that is not the next one
raises, or is ignored where its epoch has not begun, before anything changes. -/
theorem deltas_reconstruct (epoch : ε) (events : List (Event ε κ ν β)) :
    Shows (run step (initial epoch) events).receiver (run step (initial epoch) events).shown ∧
    (∀ m now queue, (run step (initial epoch) events).queue = (m, now) :: queue →
      ((run step (initial epoch) events).receiver.receive m).1 ≠ .raises ∧
      (now = none → Same (run step (initial epoch) events).receiver
        ((run step (initial epoch) events).receiver.receive m).2) ∧
      ∀ content ∈ now, Shows ((run step (initial epoch) events).receiver.receive m).2 content) ∧
    ((run step (initial epoch) events).queue = [] →
      (run step (initial epoch) events).publisher.sequence ≠ 0 →
      Shows (run step (initial epoch) events).receiver
        { sessions := (run step (initial epoch) events).publisher.sessions
          overlays := (run step (initial epoch) events).publisher.overlays
          models := (run step (initial epoch) events).last.models
          choices := (run step (initial epoch) events).last.choices }) ∧
    (∀ m ∈ (run step (initial epoch) events).delivered,
      (run step (initial epoch) events).receiver.receive m =
        (.ignored, (run step (initial epoch) events).receiver)) ∧
    ∀ m : Message ε κ ν β, m.reset = false →
      ((run step (initial epoch) events).receiver.epoch = some m.epoch →
        (run step (initial epoch) events).receiver.sequence + 1 < m.sequence →
        (run step (initial epoch) events).receiver.receive m =
          (.raises, (run step (initial epoch) events).receiver)) ∧
      ((run step (initial epoch) events).receiver.epoch ≠ some m.epoch →
        (run step (initial epoch) events).receiver.receive m =
          (.ignored, (run step (initial epoch) events).receiver)) := by
  have hkept := kept_run (κ := κ) (ν := ν) (β := β) epoch events
  obtain ⟨r, hfeeds, hends⟩ := hkept.feeds
  refine ⟨hkept.shows, fun m now queue hqueue => ?_, fun hqueue hsent => ?_,
    fun m hm => receive_of_past hkept.known (hkept.past m hm), fun m => receive_of_skipped⟩
  · rw [hqueue] at hfeeds
    have haccepts := hfeeds.1
    refine ⟨?_, haccepts.unfinished, haccepts.finished⟩
    rcases haccepts.reply with h | ⟨delivered, h⟩ <;> simp [h]
  · rw [hqueue] at hfeeds
    obtain rfl : r = _ := hfeeds
    obtain ⟨-, -, -, hshows⟩ := hends.tied hsent
    rw [← hkept.last.1, ← hkept.last.2]
    exact hshows

def quiet : Publication Nat Nat Nat where
  sources := []
  engine := {}
  revision := 0
  callRevision := 0
  token := none
  observed := {}
  projects := {}
  homes := []
  kinds := []
  listed := by simp

/-- After 65 epochs the first message of another one raises; and where the first message
of an epoch is skipped, the second is ignored and does not raise. -/
theorem epochs_run_out :
    (Receiver.receive (((List.range 65).map fun epoch => (publish { epoch := epoch } quiet).1).foldl
        (fun (r : Receiver Nat Nat Nat Nat) m => (r.receive m).2) {})
      (publish { epoch := 65 } quiet).1).1 = .raises ∧
    (Receiver.receive ({} : Receiver Nat Nat Nat Nat)
      (publish (publish { epoch := 0 } quiet).2 quiet).1).1 = .ignored := by
  decide +kernel

end Codexon.SnapshotDelivery
