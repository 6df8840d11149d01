import Codexon.SnapshotDelivery.Pages

/-!
# Codexon.SnapshotDelivery.Following

A message, whole or in pages, takes a receiver from what it shows to what the message
says, and until its last page the receiver shows what it showed before.
-/

namespace Codexon.SnapshotDelivery

open List

variable {ε κ ν β : Type} [DecidableEq κ]

/-! ## what is shown -/

/-- What a publisher sent, and what a receiver holds of it. -/
structure Content (κ ν β : Type) where
  sessions : Dict κ (Row β) := {}
  overlays : Dict κ (Summary β) := {}
  models : List ν := []
  choices : Choices β := {}

structure Shows (r : Receiver ε κ ν β) (c : Content κ ν β) : Prop where
  sessions : ∀ key, r.sessions.get? key = c.sessions.get? key
  overlays : ∀ key, r.overlays.get? key = c.overlays.get? key
  models : r.models = c.models
  choices : r.filterChoices = c.choices

/-- What `r` shows is the same. -/
structure Same (r r' : Receiver ε κ ν β) : Prop where
  sessions : r'.sessions = r.sessions
  overlays : r'.overlays = r.overlays
  models : r'.models = r.models
  choices : r'.filterChoices = r.filterChoices

variable {r : Receiver ε κ ν β}

theorem shows_of_same {r' : Receiver ε κ ν β} {c : Content κ ν β} (h : Same r r')
    (hr : Shows r c) : Shows r' c :=
  ⟨by rw [h.sessions]; exact hr.sessions, by rw [h.overlays]; exact hr.overlays,
    h.models.trans hr.models, h.choices.trans hr.choices⟩

/-! ## changes of a dictionary -/

section amend

variable {α : Type}

def found (rows : List (κ × α)) (key : κ) : Option α := (rows.find? (·.1 = key)).map (·.2)

theorem found_append (rows rows' : List (κ × α)) (key : κ) :
    found (rows ++ rows') key = (found rows key).or (found rows' key) := by
  simp only [found, find?_append]
  cases rows.find? (·.1 = key) <;> rfl

variable {rows : List (κ × α)}

theorem found_eq_none {key : κ} : found rows key = none ↔ key ∉ rows.map Prod.fst := by
  simp only [found, Option.map_eq_none_iff, List.find?_eq_none, List.mem_map, decide_eq_true_eq]
  grind

theorem get?_erases (d : Dict κ α) (removed : List κ) (key : κ) :
    (removed.foldl Dict.erase d).get? key = if key ∈ removed then none else d.get? key := by
  induction removed generalizing d with
  | nil => simp
  | cons gone removed ih =>
    rw [foldl_cons, ih, Dict.get?_erase]
    grind

theorem get?_update (d : Dict κ α) (hrows : (rows.map Prod.fst).Nodup)
    (key : κ) : (d.update rows).get? key = (found rows key).or (d.get? key) := by
  have hset := Dict.get?_foldl_set Prod.fst (fun e : κ × α => some e.2) hrows d key
  have hsame : (d.update rows).get? key =
      (rows.foldl (fun d x => (some x.2).elim d (d.set x.1)) d).get? key := rfl
  rw [hsame, hset, found]
  cases rows.find? (·.1 = key) <;> rfl

/-- The value of a key after owners are gone and rows are entered. -/
def amended (removed : List κ) (rows : List (κ × α)) (before : Option α) (key : κ) : Option α :=
  (found rows key).or (if key ∈ removed then none else before)

theorem get?_amend (d : Dict κ α) (removed : List κ) (hrows : (rows.map Prod.fst).Nodup) (key : κ) :
    (amend d removed rows).get? key = amended removed rows (d.get? key) key := by
  rw [amend, get?_update _ hrows, get?_erases, amended]

theorem amended_append {removed removed' : List κ} {rows' : List (κ × α)}
    (hrows : ((rows ++ rows').map Prod.fst).Nodup)
    (hapart : ∀ key ∈ removed ++ removed', key ∉ (rows ++ rows').map Prod.fst)
    (before : Option α) (key : κ) : amended removed' rows' (amended removed rows before key) key =
      amended (removed ++ removed') (rows ++ rows') before key := by
  have hone : key ∈ rows.map Prod.fst → key ∉ rows'.map Prod.fst := by
    rw [map_append, nodup_append] at hrows
    grind
  have hgone : key ∈ removed' → key ∉ rows.map Prod.fst := fun h hmem =>
    hapart key (mem_append_right _ h) (by
      rw [map_append]
      exact mem_append_left _ hmem)
  simp only [amended, found_append]
  have hrow : found rows key = none ↔ _ := found_eq_none
  have hrow' : found rows' key = none ↔ _ := found_eq_none
  cases hfound : found rows key <;> cases hfound' : found rows' key <;> grind

end amend

/-! ## pages in the pending copy -/

/-- What pages with the parts `done` make of `base`. -/
structure Fills (base : Content κ ν β) (token : Option β) (done : List (Part κ ν β))
    (pending : Pending κ ν β) : Prop where
  sessions : ∀ key, pending.sessions.get? key = amended (done.filterMap Part.removed?)
    (done.filterMap Part.session?) (base.sessions.get? key) key
  overlays : ∀ key, pending.overlays.get? key = amended (done.filterMap Part.removed?)
    (done.filterMap Part.overlay?) (base.overlays.get? key) key
  models : pending.models = (modelsOf done).getD base.models
  modelsStarted : pending.modelsStarted = (modelsOf done).isSome
  choices : pending.filterChoices = (choicesOf done).getD base.choices
  choicesStarted : pending.choicesStarted = (choicesOf done).isSome
  token : pending.token = none ∨ pending.token = token

/-- Rows with one key each, and none for an owner that is gone. -/
structure Tidy (ps : List (Part κ ν β)) : Prop where
  sessions : ((ps.filterMap Part.session?).map Prod.fst).Nodup
  overlays : ((ps.filterMap Part.overlay?).map Prod.fst).Nodup
  apart : ∀ key ∈ ps.filterMap Part.removed?, key ∉ (ps.filterMap Part.session?).map Prod.fst ∧
    key ∉ (ps.filterMap Part.overlay?).map Prod.fst

omit [DecidableEq κ] in
theorem tidy_of_append {ps qs : List (Part κ ν β)} (h : Tidy (ps ++ qs)) : Tidy ps := by
  obtain ⟨hsessions, hoverlays, hapart⟩ := h
  simp only [filterMap_append, map_append] at hsessions hoverlays hapart
  exact ⟨(nodup_append.mp hsessions).1, (nodup_append.mp hoverlays).1, fun key h =>
    ⟨fun hmem => (hapart key (mem_append_left _ h)).1 (mem_append_left _ hmem),
      fun hmem => (hapart key (mem_append_left _ h)).2 (mem_append_left _ hmem)⟩⟩

variable {done : List (Part κ ν β)}

theorem fills_add {base : Content κ ν β} {token : Option β} {chunk : List (Part κ ν β)}
    {pending : Pending κ ν β} {blank page : Message ε κ ν β}
    (hfills : Fills base token done pending) (hpage : Carries blank page chunk)
    (hblank : blank.sessions = [] ∧ blank.overlaySessions = [] ∧
      blank.removed = [] ∧ blank.models = none ∧ blank.filterChoices = none ∧ blank.token = token)
    (htidy : Tidy (done ++ chunk)) : Fills base token (done ++ chunk) (pending.add page) := by
  obtain ⟨hsessions, hoverlays, hremoved, hmodels, hchoices, htoken⟩ := hblank
  have hpageSessions : page.sessions = chunk.filterMap Part.session? := by
    rw [hpage.sessions, hsessions, nil_append]
  have hpageOverlays : page.overlaySessions = chunk.filterMap Part.overlay? := by
    rw [hpage.overlays, hoverlays, nil_append]
  have hpageRemoved : page.removed = chunk.filterMap Part.removed? := by
    rw [hpage.removed, hremoved, nil_append]
  have hpageModels : page.models = modelsOf chunk := by rw [hpage.models, hmodels]; simp
  have hpageChoices : page.filterChoices = choicesOf chunk := by
    rw [hpage.choices, hchoices]
    simp
  obtain ⟨htidySessions, htidyOverlays, htidyApart⟩ := htidy
  simp only [filterMap_append, map_append] at htidySessions htidyOverlays htidyApart
  constructor
  case sessions =>
    intro key
    rw [filterMap_append, filterMap_append, ← amended_append
      (by simpa using htidySessions)
      (by simpa using fun key h => (htidyApart key (by simpa using h)).1),
      ← hfills.sessions key]
    simp only [Pending.add, hpageSessions, hpageRemoved]
    exact get?_amend _ _ (nodup_append.mp htidySessions).2.1 key
  case overlays =>
    intro key
    rw [filterMap_append, filterMap_append, ← amended_append
      (by simpa using htidyOverlays)
      (by simpa using fun key h => (htidyApart key (by simpa using h)).2),
      ← hfills.overlays key]
    simp only [Pending.add, hpageOverlays, hpageRemoved]
    exact get?_amend _ _ (nodup_append.mp htidyOverlays).2.1 key
  case models =>
    have hmodels := hfills.models
    have hstarted := hfills.modelsStarted
    rw [modelsOf_append]
    simp only [Pending.add, hpageModels]
    cases hdone : modelsOf done <;> cases hchunk : modelsOf chunk <;> simp_all
  case modelsStarted =>
    rw [modelsOf_append]
    simp only [Pending.add, hpageModels, hfills.modelsStarted]
    cases modelsOf done <;> cases modelsOf chunk <;> rfl
  case choices =>
    have hchoices := hfills.choices
    have hstarted := hfills.choicesStarted
    rw [choicesOf_append]
    simp only [Pending.add, hpageChoices]
    cases hdone : choicesOf done <;> cases hchunk : choicesOf chunk <;>
      simp_all [extend, Dict.merges_entries]
  case choicesStarted =>
    rw [choicesOf_append]
    simp only [Pending.add, hpageChoices, hfills.choicesStarted]
    cases choicesOf done <;> cases choicesOf chunk <;> rfl
  case token =>
    have htoken' : page.token = token := hpage.token.trans htoken
    simp only [Pending.add, htoken']
    cases token <;> rcases hfills.token with h | h <;> simp [h]

/-! ## a message at its receiver -/

/-- What a message says, from `base` on. -/
structure Says (m : Message ε κ ν β) (base now : Content κ ν β) : Prop where
  sessions : ∀ key, amended m.removed m.sessions (base.sessions.get? key) key =
    now.sessions.get? key
  overlays : ∀ key, amended m.removed m.overlaySessions (base.overlays.get? key) key =
    now.overlays.get? key
  models : m.models.getD base.models = now.models
  choices : m.filterChoices.getD base.choices = now.choices
  tidy : Tidy (parts m)
  full : m.full
  plain : m.paged = false ∧ m.more = false

/-- What a message changes at a receiver: nothing is left where it resets. -/
def Receiver.base (r : Receiver ε κ ν β) (m : Message ε κ ν β) : Content κ ν β :=
  { sessions := if m.reset then {} else r.sessions
    overlays := if m.reset then {} else r.overlays
    models := r.models
    choices := r.filterChoices }

variable {m : Message ε κ ν β} {now : Content κ ν β}

theorem shows_of_fills {base : Content κ ν β} {pending : Pending κ ν β}
    (hmessage : Says m base now)
    (hfills : Fills base m.token (parts m) pending) :
    Shows { r with
      sessions := pending.sessions, overlays := pending.overlays, models := pending.models
      filterChoices := pending.filterChoices, pending := none } now := by
  obtain ⟨hsessions, hoverlays, hremoved, hmodels, hchoices⟩ := parts_say m hmessage.full
  constructor
  · intro key
    rw [← hmessage.sessions key, ← hsessions, ← hremoved]
    exact hfills.sessions key
  · intro key
    rw [← hmessage.overlays key, ← hoverlays, ← hremoved]
    exact hfills.overlays key
  · rw [← hmessage.models, ← hmodels]
    exact hfills.models
  · rw [← hmessage.choices, ← hchoices]
    exact hfills.choices

variable [DecidableEq β] [DecidableEq ε]

/-- The receiver waits for this message. -/
structure Expects (r : Receiver ε κ ν β) (m : Message ε κ ν β) : Prop where
  next : m.reset = false →
    r.epoch = some m.epoch ∧ m.sequence = r.sequence + 1 ∧ r.pending = none
  first : m.reset = true → m.sequence = 1 ∧ m.epoch ∉ r.retired ∧ r.epoch ≠ some m.epoch ∧
    (r.epoch.isSome → r.retired.length < 64)

def Receiver.entered (r : Receiver ε κ ν β) (m : Message ε κ ν β) : Receiver ε κ ν β :=
  { (if m.reset then r.restart m else r) with sequence := m.sequence }

theorem receive_of_expects (h : Expects r m) :
    r.receive m = (if m.paged then (r.entered m).page m else (r.entered m).whole m) ∧
      (r.entered m).epoch = some m.epoch ∧ (r.entered m).pending = none := by
  cases hreset : m.reset with
  | false =>
    obtain ⟨hepoch, hsequence, hpending⟩ := h.next hreset
    simp [Receiver.receive, Receiver.advance, Receiver.entered, hreset, hepoch, hsequence, hpending]
  | true =>
    obtain ⟨hsequence, hretired, hepoch, hroom⟩ := h.first hreset
    have hlimit : ¬(r.epoch.isSome = true ∧ r.epoch ≠ some m.epoch ∧ 64 ≤ r.retired.length) := by
      grind
    simp only [Receiver.receive, hreset, hretired, hepoch, hlimit, Receiver.entered]
    simp [Receiver.advance, Receiver.restart, hsequence]

theorem receive_whole (h : Expects r m) (hmessage : Says m (r.base m) now) :
    (∃ delivered, (r.receive m).1 = .value delivered) ∧ Shows (r.receive m).2 now ∧
      (r.receive m).2.epoch = some m.epoch ∧ (r.receive m).2.sequence = m.sequence ∧
      (r.receive m).2.pending = none := by
  obtain ⟨hreceive, hepoch, hpending⟩ := receive_of_expects h
  obtain ⟨hplain, -⟩ := hmessage.plain
  have hrows : (m.sessions.map Prod.fst).Nodup ∧ (m.overlaySessions.map Prod.fst).Nodup := by
    obtain ⟨hsessions, hoverlays, -⟩ := parts_say m hmessage.full
    rw [← hsessions, ← hoverlays]
    exact ⟨hmessage.tidy.sessions, hmessage.tidy.overlays⟩
  have hbase : (r.entered m).sessions = (r.base m).sessions ∧
      (r.entered m).overlays = (r.base m).overlays ∧ (r.entered m).models = (r.base m).models ∧
      (r.entered m).filterChoices = (r.base m).choices := by
    cases hreset : m.reset <;>
      simp [Receiver.entered, Receiver.base, Receiver.restart, hreset, hplain]
  rw [hreceive, hplain, if_neg (by simp), Receiver.whole, hpending, if_neg (by simp)]
  refine ⟨⟨_, rfl⟩, ⟨fun key => ?_, fun key => ?_, ?_, ?_⟩, hepoch, rfl, rfl⟩
  · rw [← hmessage.sessions key, ← hbase.1]
    exact get?_amend _ _ hrows.1 key
  · rw [← hmessage.overlays key, ← hbase.2.1]
    exact get?_amend _ _ hrows.2 key
  · rw [← hmessage.models, ← hbase.2.2.1]
  · rw [← hmessage.choices, ← hbase.2.2.2]

/-! ## pages at the receiver -/

/-- The receiver reads the page `number`, where the pages before it had the parts `done`. -/
def Entering (r : Receiver ε κ ν β) (m : Message ε κ ν β) (number : Nat) (first : Bool)
    (base : Content κ ν β) (done : List (Part κ ν β)) : Prop :=
  ∀ p : Message ε κ ν β, p.paged = true → p.epoch = m.epoch → p.sequence = number →
    p.reset = (first && m.reset) → p.token = m.token →
    ∃ r₁, r.receive p = r₁.page p ∧ r₁.epoch = some m.epoch ∧ r₁.sequence = number ∧ Same r r₁ ∧
      Fills base m.token done (r₁.pending.getD (r₁.start p))

theorem entering_first (h : Expects r m) : Entering r m m.sequence true (r.base m) [] := by
  intro p hpaged hepoch hsequence hreset htoken
  rw [Bool.true_and] at hreset
  have hp : Expects r p := by
    constructor
    · intro h'
      rw [hepoch, hsequence]
      exact h.next (hreset ▸ h')
    · intro h'
      rw [hepoch, hsequence]
      exact h.first (hreset ▸ h')
  obtain ⟨hreceive, hentered, hpending⟩ := receive_of_expects hp
  rw [hpaged, if_pos rfl] at hreceive
  have hsame : Same r (r.entered p) := by
    cases hr : p.reset <;> constructor <;> simp [Receiver.entered, Receiver.restart, hr, hpaged]
  refine ⟨r.entered p, hreceive, hepoch ▸ hentered, hsequence, hsame, ?_⟩
  rw [hpending, Option.getD_none]
  constructor
  · intro key
    simp only [Receiver.start, Receiver.base, hreset, hsame.sessions]
    rfl
  · intro key
    simp only [Receiver.start, Receiver.base, hreset, hsame.overlays]
    rfl
  · exact hsame.models
  · rfl
  · exact hsame.choices
  · rfl
  · exact .inl rfl

theorem entering_next {number : Nat} {base : Content κ ν β} {pending : Pending κ ν β}
    (hepoch : r.epoch = some m.epoch) (hsequence : r.sequence + 1 = number)
    (hpending : r.pending = some pending) (hfills : Fills base m.token done pending) :
    Entering r m number false base done := by
  intro p hpaged hepoch' hsequence' hreset _
  rw [Bool.false_and] at hreset
  refine ⟨{ r with sequence := number }, ?_, hepoch, rfl, ⟨rfl, rfl, rfl, rfl⟩, ?_⟩
  · simp [Receiver.receive, Receiver.advance, hreset, hepoch, hepoch', hsequence', ← hsequence,
      hpaged]
  · rw [hpending]
    exact hfills

omit [DecidableEq ε] in
theorem page_of_fills {p : Message ε κ ν β} {token : Option β}
    {base : Content κ ν β} (htoken : p.token = token)
    (hfills : Fills base token done (r.pending.getD (r.start p))) :
    ((r.page p).1 = .ignored ∨ ∃ delivered, (r.page p).1 = .value delivered) ∧
      (p.more = true → (r.page p).2 =
        { r with pending := some ((r.pending.getD (r.start p)).add p) }) ∧
      (p.more = false → (r.page p).2 =
        { r with
          sessions := ((r.pending.getD (r.start p)).add p).sessions
          overlays := ((r.pending.getD (r.start p)).add p).overlays
          models := ((r.pending.getD (r.start p)).add p).models
          filterChoices := ((r.pending.getD (r.start p)).add p).filterChoices
          pending := none }) := by
  have hagree : ¬((r.pending.getD (r.start p)).token.isSome = true ∧ p.token.isSome = true ∧
      p.token ≠ (r.pending.getD (r.start p)).token) := by
    rcases hfills.token with h | h <;> simp [h, htoken]
  unfold Receiver.page
  rw [if_neg hagree]
  cases hmore : p.more <;> simp

def tagged (now : Content κ ν β) :
    List (Message ε κ ν β) → List (Message ε κ ν β × Option (Content κ ν β))
  | [] => []
  | [m] => [(m, some now)]
  | m :: ms => (m, none) :: tagged now ms

/-- A message that is taken in its order: it is read, and shows its content, or nothing new. -/
structure Accepts (r : Receiver ε κ ν β) (m : Message ε κ ν β) (now : Option (Content κ ν β)) :
    Prop where
  reply : (r.receive m).1 = .ignored ∨ ∃ delivered, (r.receive m).1 = .value delivered
  epoch : (r.receive m).2.epoch = some m.epoch
  sequence : (r.receive m).2.sequence = m.sequence
  unfinished : now = none → Same r (r.receive m).2
  finished : ∀ content ∈ now, Shows (r.receive m).2 content

/-- The messages of a queue are accepted one after the other, and lead to `r'`. -/
def Feeds (r : Receiver ε κ ν β) :
    List (Message ε κ ν β × Option (Content κ ν β)) → Receiver ε κ ν β → Prop
  | [], r' => r' = r
  | (m, now) :: queue, r' => Accepts r m now ∧ Feeds (r.receive m).2 queue r'

def blank (m : Message ε κ ν β) (number : Nat) (first more : Bool) : Message ε κ ν β :=
  { paged := true, epoch := m.epoch, sequence := number, reset := first && m.reset, more := more
    token := m.token }

omit [DecidableEq κ] [DecidableEq β] [DecidableEq ε] in
theorem packet_carries (m : Message ε κ ν β) (number : Nat) (first more : Bool)
    (chunk : List (Part κ ν β)) :
    Carries (blank m number first more) (packet m number first more chunk) chunk :=
  carries_append _ chunk

theorem accepts_page {number : Nat} {first : Bool}
    {base : Content κ ν β} {chunk : List (Part κ ν β)}
    (hin : Entering r m number first base done) (htidy : Tidy (done ++ chunk)) :
    Accepts r (packet m number first true chunk) none ∧
      Entering (r.receive (packet m number first true chunk)).2 m (number + 1) false base
        (done ++ chunk) := by
  have hpacket := packet_carries m number first true chunk
  obtain ⟨r₁, hreceive, hepoch, hsequence, hsame, hfills⟩ := hin _ hpacket.paged hpacket.epoch
    hpacket.sequence hpacket.reset hpacket.token
  obtain ⟨hreply, hmore, -⟩ := page_of_fills hpacket.token hfills
  have hnext := hmore hpacket.more
  have hadded := fills_add hfills hpacket ⟨rfl, rfl, rfl, rfl, rfl, rfl⟩ htidy
  rw [← hreceive] at hreply hnext
  constructor
  · constructor
    · exact hreply
    · rw [hnext, hpacket.epoch]
      exact hepoch
    · rw [hnext, hpacket.sequence]
      exact hsequence
    · intro _
      rw [hnext]
      exact ⟨hsame.sessions, hsame.overlays, hsame.models, hsame.choices⟩
    · simp
  · rw [hnext]
    exact entering_next hepoch (congrArg (· + 1) hsequence) rfl hadded

theorem accepts_last {number : Nat} {first : Bool}
    {base : Content κ ν β} {chunk : List (Part κ ν β)}
    (hin : Entering r m number first base done) (hparts : done ++ chunk = parts m)
    (hmessage : Says m base now) : Accepts r (packet m number first false chunk) (some now) ∧
      (r.receive (packet m number first false chunk)).2.pending = none := by
  have hpacket := packet_carries m number first false chunk
  obtain ⟨r₁, hreceive, hepoch, hsequence, hsame, hfills⟩ := hin _ hpacket.paged hpacket.epoch
    hpacket.sequence hpacket.reset hpacket.token
  obtain ⟨hreply, -, hmore⟩ := page_of_fills hpacket.token hfills
  have hnext := hmore hpacket.more
  have hadded := fills_add hfills hpacket ⟨rfl, rfl, rfl, rfl, rfl, rfl⟩ (hparts ▸ hmessage.tidy)
  rw [hparts] at hadded
  rw [← hreceive] at hreply hnext
  refine ⟨⟨hreply, ?_, ?_, by simp, ?_⟩, by rw [hnext]⟩
  · rw [hnext, hpacket.epoch]
    exact hepoch
  · rw [hnext, hpacket.sequence]
    exact hsequence
  · intro content hcontent
    obtain rfl := Option.mem_some.mp hcontent
    rw [hnext]
    exact shows_of_fills hmessage hadded

/-- **Pages**: the pages of a message lead to what the message says. -/
theorem feeds_pages {number : Nat} {first : Bool} {base : Content κ ν β} (chunk : List (Part κ ν β))
    (chunks : List (List (Part κ ν β))) (hin : Entering r m number first base done)
    (hparts : done ++ (chunk :: chunks).flatten = parts m) (hmessage : Says m base now) :
    ∃ r', Feeds r (tagged now (pagesFrom m number first (chunk :: chunks))) r' ∧
      r'.epoch = some m.epoch ∧ r'.sequence = number + chunks.length ∧ r'.pending = none ∧
      Shows r' now := by
  induction chunks generalizing r number first done chunk with
  | nil =>
    obtain ⟨haccepts, hpending⟩ := accepts_last hin (by simpa using hparts) hmessage
    have hpacket := packet_carries m number first false chunk
    refine ⟨_, ⟨haccepts, rfl⟩, ?_, ?_, hpending, haccepts.finished now rfl⟩
    · rw [haccepts.epoch, hpacket.epoch]
      rfl
    · rw [haccepts.sequence, hpacket.sequence]
      rfl
  | cons chunk' chunks ih =>
    have htidy : Tidy (done ++ chunk) := by
      have hall : Tidy ((done ++ chunk) ++ (chunk' :: chunks).flatten) := by
        rw [append_assoc, ← flatten_cons, hparts]
        exact hmessage.tidy
      exact tidy_of_append hall
    obtain ⟨haccepts, hnext⟩ := accepts_page hin htidy
    obtain ⟨r', hfeeds, hepoch, hsequence, hpending, hshows⟩ := ih chunk' hnext
      (by rw [append_assoc, ← flatten_cons, hparts])
    refine ⟨r', ?_, hepoch, ?_, hpending, hshows⟩
    · obtain ⟨page, pages, hpages⟩ : ∃ page pages,
          pagesFrom m (number + 1) false (chunk' :: chunks) = page :: pages := by
        cases chunks <;> exact ⟨_, _, rfl⟩
      have hmore : pagesFrom m number first (chunk :: chunk' :: chunks) =
          packet m number first true chunk :: page :: pages := congrArg _ hpages
      rw [hpages] at hfeeds
      rw [hmore]
      exact ⟨haccepts, hfeeds⟩
    · rw [hsequence, length_cons]
      omega

omit [DecidableEq κ] [DecidableEq β] [DecidableEq ε] in
theorem chunks_flatten {α : Type} (sizes : List Nat) (xs : List α) :
    ∃ chunk rest, chunks sizes xs = chunk :: rest ∧ (chunk :: rest).flatten = xs := by
  induction sizes generalizing xs with
  | nil => exact ⟨xs, [], rfl, by simp⟩
  | cons size sizes ih =>
    obtain ⟨chunk, rest, hchunks, hflatten⟩ := ih (xs.drop size)
    refine ⟨xs.take size, chunk :: rest, by rw [chunks, hchunks], ?_⟩
    rw [flatten_cons, hflatten, take_append_drop]

/-- **A message at the receiver that waits for it**, whole or in pages. -/
theorem feeds_packets
    (cut : Option (List Nat)) (h : Expects r m) (hmessage : Says m (r.base m) now) :
    ∃ r', Feeds r (tagged now (packets m cut)) r' ∧ r'.epoch = some m.epoch ∧
      r'.sequence + 1 = m.sequence + (packets m cut).length ∧ r'.pending = none ∧ Shows r' now := by
  cases cut with
  | none =>
    obtain ⟨hreply, hshows, hepoch, hsequence, hpending⟩ := receive_whole h hmessage
    refine ⟨_, ⟨⟨.inr hreply, hepoch, hsequence, by simp, ?_⟩, rfl⟩, hepoch,
      congrArg (· + 1) hsequence, hpending, hshows⟩
    simpa using hshows
  | some sizes =>
    obtain ⟨chunk, rest, hchunks, hflatten⟩ := chunks_flatten sizes (parts m)
    obtain ⟨r', hfeeds, hepoch, hsequence, hpending, hshows⟩ :=
      feeds_pages chunk rest (entering_first h) (by simpa using hflatten) hmessage
    have hlength : (pagesFrom m m.sequence true (chunk :: rest)).length = rest.length + 1 := by
      have hall : ∀ (number : Nat) (first : Bool) (chunk : List (Part κ ν β))
          (rest : List (List (Part κ ν β))),
          (pagesFrom m number first (chunk :: rest)).length = rest.length + 1 := by
        intro number first chunk rest
        induction rest generalizing number first chunk with
        | nil => rfl
        | cons chunk' rest ih => simp [pagesFrom, ih]
      exact hall _ _ _ _
    refine ⟨r', ?_, hepoch, ?_, hpending, hshows⟩
    · rw [packets, hchunks]
      exact hfeeds
    · rw [packets, hchunks, hlength]
      omega

end Codexon.SnapshotDelivery
