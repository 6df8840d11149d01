import Codexon.SnapshotDelivery

/-!
# Codexon.SnapshotDelivery.Pages

The pages of a message carry the message: whatever the cut, what the parts of the
chunks say one after the other is what the message says.
-/

namespace Codexon.SnapshotDelivery

open List Dict

variable {ε κ ν β : Type}

/-! ## merging choices -/

theorem merges_assoc {α γ : Type} [DecidableEq α] {op : γ → γ → γ}
    (hop : ∀ a b c, op (op a b) c = op a (op b c)) (a b c : Dict α γ) :
    Dict.merges op (Dict.merges op a b.entries) c.entries =
      Dict.merges op a (Dict.merges op b c.entries).entries :=
  (merges_merges op hop a b c.entries).symm

theorem choice_merge_assoc (a b c : Choice β) : (a.merge b).merge c = a.merge (b.merge c) := by
  have hpaths := @merges_assoc String (List β) _ (· ++ ·) (by simp)
  have htable := @merges_assoc String β _ (fun _ v => v) (by simp)
  cases a <;> cases b <;> cases c <;> simp [Choice.merge, Choice.rank, hpaths, htable]

/-- The choices of a later page after those of an earlier one. -/
def extend (a b : Choices β) : Choices β := Dict.merges Choice.merge a b.entries

theorem extend_assoc (a b c : Choices β) : extend (extend a b) c = extend a (extend b c) :=
  merges_assoc choice_merge_assoc a b c

theorem extend_empty (a : Choices β) : extend {} a = a := merges_entries _ a

/-- What two pieces of the same list say after one another. -/
abbrev after {α : Type} (op : α → α → α) : Option α → Option α → Option α := Option.merge op

theorem after_assoc {α : Type} {op : α → α → α} (hop : ∀ a b c, op (op a b) c = op a (op b c))
    (a b c : Option α) : after op (after op a b) c = after op a (after op b c) := by
  cases a <;> cases b <;> cases c <;> simp [after, hop]

/-! ## what parts say -/

def Part.session? : Part κ ν β → Option (κ × Row β)
  | .session row => some row
  | _ => none

def Part.overlay? : Part κ ν β → Option (κ × Summary β)
  | .overlay row => some row
  | _ => none

def Part.removed? : Part κ ν β → Option κ
  | .removed owner => some owner
  | _ => none

def Part.models? : Part κ ν β → Option (List ν)
  | .noModels => some []
  | .model name => some [name]
  | _ => none

def Part.choices? : Part κ ν β → Option (Choices β)
  | .choice name piece => some (Dict.set {} name piece)
  | _ => none

/-- The models that parts say, or `none` where they say nothing of models. -/
def modelsOf (ps : List (Part κ ν β)) : Option (List ν) :=
  ps.foldl (fun said p => after (· ++ ·) said p.models?) none

def choicesOf (ps : List (Part κ ν β)) : Option (Choices β) :=
  ps.foldl (fun said p => after extend said p.choices?) none

theorem foldl_after {α γ : Type} {op : γ → γ → γ}
    (hop : ∀ a b c, op (op a b) c = op a (op b c)) (f : α → Option γ) (said : Option γ)
    (ps : List α) : ps.foldl (fun said p => after op said (f p)) said =
      after op said (ps.foldl (fun said p => after op said (f p)) none) := by
  induction ps generalizing said with
  | nil => cases said <;> rfl
  | cons p ps ih =>
    rw [foldl_cons, foldl_cons, ih, ih (after op none (f p)), ← after_assoc hop]
    cases said <;> cases f p <;> rfl

theorem modelsOf_append (ps qs : List (Part κ ν β)) :
    modelsOf (ps ++ qs) = after (· ++ ·) (modelsOf ps) (modelsOf qs) := by
  rw [modelsOf, foldl_append]
  exact foldl_after (by simp) Part.models? _ qs

theorem choicesOf_append (ps qs : List (Part κ ν β)) :
    choicesOf (ps ++ qs) = after extend (choicesOf ps) (choicesOf qs) := by
  rw [choicesOf, foldl_append]
  exact foldl_after extend_assoc Part.choices? _ qs

theorem modelsOf_cons (p : Part κ ν β) (ps : List (Part κ ν β)) :
    modelsOf (p :: ps) = after (· ++ ·) p.models? (modelsOf ps) := by
  simpa [modelsOf] using modelsOf_append [p] ps

theorem choicesOf_cons (p : Part κ ν β) (ps : List (Part κ ν β)) :
    choicesOf (p :: ps) = after extend p.choices? (choicesOf ps) := by
  simpa [choicesOf] using choicesOf_append [p] ps

/-! ## packets -/

/-- What a packet carries of the parts that are appended to it. -/
structure Carries (before m : Message ε κ ν β) (ps : List (Part κ ν β)) : Prop where
  paged : m.paged = before.paged
  epoch : m.epoch = before.epoch
  sequence : m.sequence = before.sequence
  reset : m.reset = before.reset
  more : m.more = before.more
  token : m.token = before.token
  sessions : m.sessions = before.sessions ++ ps.filterMap Part.session?
  overlays : m.overlaySessions = before.overlaySessions ++ ps.filterMap Part.overlay?
  removed : m.removed = before.removed ++ ps.filterMap Part.removed?
  models : m.models = after (· ++ ·) before.models (modelsOf ps)
  choices : m.filterChoices = after extend before.filterChoices (choicesOf ps)

theorem carries_one (m : Message ε κ ν β) (p : Part κ ν β) : Carries m (append m p) [p] := by
  have hmodels : ∀ names, after (· ++ ·) m.models (some names) =
      some (m.models.getD [] ++ names) := fun names => by cases m.models <;> rfl
  have hchoices : ∀ name piece, after extend m.filterChoices (some (Dict.set {} name piece)) =
      some (Dict.merge Choice.merge (m.filterChoices.getD {}) (name, piece)) := fun name piece => by
    cases m.filterChoices <;> rfl
  cases p <;> constructor <;>
    simp [append, Part.session?, Part.overlay?, Part.removed?, Part.models?, Part.choices?,
      modelsOf, choicesOf, hmodels, hchoices]

theorem carries_trans {a b c : Message ε κ ν β} {ps qs : List (Part κ ν β)} (hab : Carries a b ps)
    (hbc : Carries b c qs) : Carries a c (ps ++ qs) where
  paged := hbc.paged.trans hab.paged
  epoch := hbc.epoch.trans hab.epoch
  sequence := hbc.sequence.trans hab.sequence
  reset := hbc.reset.trans hab.reset
  more := hbc.more.trans hab.more
  token := hbc.token.trans hab.token
  sessions := by rw [hbc.sessions, hab.sessions, filterMap_append, append_assoc]
  overlays := by rw [hbc.overlays, hab.overlays, filterMap_append, append_assoc]
  removed := by rw [hbc.removed, hab.removed, filterMap_append, append_assoc]
  models := by rw [hbc.models, hab.models, modelsOf_append, after_assoc (by simp)]
  choices := by rw [hbc.choices, hab.choices, choicesOf_append, after_assoc extend_assoc]

theorem carries_append (m : Message ε κ ν β) (ps : List (Part κ ν β)) :
    Carries m (ps.foldl append m) ps := by
  induction ps generalizing m with
  | nil => constructor <;> simp [modelsOf, choicesOf]
  | cons p ps ih => exact carries_trans (carries_one m p) (ih (append m p))

/-! ## the parts of a message -/

theorem merges_pathPieces (d : Dict String (List β)) (e : String × List β) :
    Dict.merges (· ++ ·) d (pathPieces e) = Dict.merge (· ++ ·) d e := by
  obtain ⟨project, paths⟩ := e
  cases paths with
  | nil => rfl
  | cons path paths =>
    have hgo : ∀ (xs ys : List β) (d : Dict String (List β)),
        Dict.merges (· ++ ·) (Dict.merge (· ++ ·) d (project, xs))
            (ys.map fun path => (project, [path])) =
          Dict.merge (· ++ ·) d (project, xs ++ ys) := by
      intro xs ys d
      induction ys generalizing xs with
      | nil => simp
      | cons y ys ih =>
        rw [map_cons, merges_cons, merge_merge _ (by simp), ih]
        simp
    exact hgo [path] paths d

theorem merges_flatMap_pathPieces (d : Dict String (List β)) (es : List (String × List β)) :
    Dict.merges (· ++ ·) d (es.flatMap pathPieces) = Dict.merges (· ++ ·) d es := by
  induction es generalizing d with
  | nil => rfl
  | cons e es ih => rw [flatMap_cons, merges_append, ih, merges_pathPieces]; rfl

theorem foldl_items (xs ys : List β) :
    (ys.map fun y => Choice.items [y]).foldl Choice.merge (.items xs) = .items (xs ++ ys) := by
  induction ys generalizing xs with
  | nil => simp
  | cons y ys ih => simp [Choice.merge, ih]

theorem foldl_table (a : Dict String β) (es : List (String × β)) :
    (es.map fun e => Choice.table (Dict.set {} e.1 e.2)).foldl Choice.merge (.table a) =
      .table (Dict.merges (fun _ v => v) a es) := by
  induction es generalizing a with
  | nil => rfl
  | cons e es ih =>
    rw [map_cons, foldl_cons, merges_cons, ← ih]
    rfl

theorem foldl_paths (a : Dict String (List β)) (es : List (String × List β)) :
    (es.map fun e => Choice.paths (Dict.set {} e.1 e.2)).foldl Choice.merge (.paths a) =
      .paths (Dict.merges (· ++ ·) a es) := by
  induction es generalizing a with
  | nil => rfl
  | cons e es ih =>
    rw [map_cons, foldl_cons, merges_cons, ← ih]
    rfl

theorem pieces_fold (choice : Choice β) :
    ∃ c cs, pieces choice = c :: cs ∧ cs.foldl Choice.merge c = choice := by
  cases choice with
  | items xs =>
    cases xs with
    | nil => exact ⟨_, _, rfl, rfl⟩
    | cons x xs => exact ⟨_, _, rfl, foldl_items [x] xs⟩
  | value v => exact ⟨_, _, rfl, rfl⟩
  | table entries =>
    cases hentries : entries.entries with
    | nil =>
      have hempty : entries = {} := ext_entries hentries
      exact ⟨.table {}, [], by simp [pieces, hentries], by rw [hempty]; rfl⟩
    | cons e es =>
      refine ⟨_, _, by simp [pieces, hentries]; exact ⟨rfl, rfl⟩, ?_⟩
      have hall := merges_entries (fun _ v : β => v) entries
      rw [hentries] at hall
      exact (foldl_table _ es).trans (congrArg Choice.table hall)
  | paths projects =>
    cases hentries : projects.entries with
    | nil =>
      have hempty : projects = {} := ext_entries hentries
      exact ⟨.paths {}, [], by simp [pieces, hentries], by rw [hempty]; rfl⟩
    | cons e es =>
      have hall := merges_entries (fun xs ys : List β => xs ++ ys) projects
      rw [← merges_flatMap_pathPieces, hentries] at hall
      cases hpieces : (e :: es).flatMap pathPieces with
      | nil =>
        obtain ⟨project, paths⟩ := e
        cases paths <;> simp [pathPieces] at hpieces
      | cons q qs =>
        rw [hpieces] at hall
        refine ⟨_, _, by simp [pieces, hentries, hpieces]; exact ⟨rfl, rfl⟩, ?_⟩
        exact (foldl_paths _ qs).trans (congrArg Choice.paths hall)

theorem merges_pieces (d : Choices β) (name : String) (choice : Choice β) :
    Dict.merges Choice.merge d ((pieces choice).map fun piece => (name, piece)) =
      Dict.merge Choice.merge d (name, choice) := by
  obtain ⟨c, cs, hpieces, hchoice⟩ := pieces_fold choice
  have hgo : ∀ (c : Choice β) (cs : List (Choice β)),
      Dict.merges Choice.merge (Dict.merge Choice.merge d (name, c))
          (cs.map fun piece => (name, piece)) =
        Dict.merge Choice.merge d (name, cs.foldl Choice.merge c) := by
    intro c cs
    induction cs generalizing c with
    | nil => rfl
    | cons c' cs ih =>
      rw [foldl_cons, ← ih, map_cons, merges_cons, merge_merge Choice.merge choice_merge_assoc]
  rw [hpieces, ← hchoice]
  exact hgo c cs

theorem modelsOf_eq_none {ps : List (Part κ ν β)} (h : ∀ p ∈ ps, p.models? = none) :
    modelsOf ps = none := by
  induction ps with
  | nil => rfl
  | cons p ps ih =>
    rw [modelsOf_cons, h p mem_cons_self, ih fun q hq => h q (mem_cons_of_mem p hq)]
    rfl

theorem choicesOf_eq_none {ps : List (Part κ ν β)} (h : ∀ p ∈ ps, p.choices? = none) :
    choicesOf ps = none := by
  induction ps with
  | nil => rfl
  | cons p ps ih =>
    rw [choicesOf_cons, h p mem_cons_self, ih fun q hq => h q (mem_cons_of_mem p hq)]
    rfl

theorem modelsOf_map_model (names : List ν) (name : ν) :
    modelsOf ((name :: names).map (Part.model (κ := κ) (β := β))) = some (name :: names) := by
  induction names generalizing name with
  | nil => rfl
  | cons name' names ih =>
    rw [map_cons, modelsOf_cons, ih]
    rfl

theorem choicesOf_pieces (es : List (String × Choice β)) (said : Choices β) :
    after extend (some said) (choicesOf (es.flatMap fun e =>
        (pieces e.2).map (Part.choice (κ := κ) (ν := ν) e.1))) =
      some (Dict.merges Choice.merge said es) := by
  have hone : ∀ (name : String) (ps : List (Choice β)) (said : Choices β),
      after extend (some said) (choicesOf (ps.map (Part.choice (κ := κ) (ν := ν) name))) =
        some (Dict.merges Choice.merge said (ps.map fun piece => (name, piece))) := by
    intro name ps
    induction ps with
    | nil => exact fun _ => rfl
    | cons p ps ih =>
      intro said
      rw [map_cons, choicesOf_cons, ← after_assoc extend_assoc]
      exact ih (Dict.merge Choice.merge said (name, p))
  induction es generalizing said with
  | nil => rfl
  | cons e es ih =>
    rw [flatMap_cons, choicesOf_append, ← after_assoc extend_assoc, hone, merges_pieces, ih]
    rfl

def Message.full (m : Message ε κ ν β) : Prop := m.filterChoices ≠ some {}

theorem modelParts_say (models : Option (List ν)) :
    modelsOf (modelParts (κ := κ) (β := β) models) = models ∧
      choicesOf (modelParts (κ := κ) (β := β) models) = none ∧
      ∀ p ∈ modelParts (κ := κ) (β := β) models,
        p.session? = none ∧ p.overlay? = none ∧ p.removed? = none := by
  cases models with
  | none => exact ⟨rfl, rfl, by simp [modelParts]⟩
  | some names =>
    cases names with
    | nil => exact ⟨rfl, rfl, by simp [modelParts, Part.session?, Part.overlay?, Part.removed?]⟩
    | cons name names =>
      refine ⟨modelsOf_map_model names name, ?_, ?_⟩
      · refine choicesOf_eq_none fun p hp => ?_
        obtain ⟨name, -, rfl⟩ := List.mem_map.mp hp
        rfl
      · simp [modelParts, Part.session?, Part.overlay?, Part.removed?]

theorem choiceParts_say (choices : Option (Choices β)) (hfull : choices ≠ some {}) :
    modelsOf (choiceParts (κ := κ) (ν := ν) choices) = none ∧
      choicesOf (choiceParts (κ := κ) (ν := ν) choices) = choices ∧
      ∀ p ∈ choiceParts (κ := κ) (ν := ν) choices,
        p.session? = none ∧ p.overlay? = none ∧ p.removed? = none := by
  cases choices with
  | none => exact ⟨rfl, rfl, by simp [choiceParts]⟩
  | some choices =>
    have hchoice : ∀ p ∈ choiceParts (κ := κ) (ν := ν) (some choices),
        ∃ name piece, p = .choice name piece := by
      simp only [choiceParts, mem_flatMap, List.mem_map]
      rintro p ⟨e, -, piece, -, rfl⟩
      exact ⟨_, _, rfl⟩
    refine ⟨modelsOf_eq_none fun p hp => ?_, ?_, fun p hp => ?_⟩
    · obtain ⟨name, piece, rfl⟩ := hchoice p hp
      rfl
    · obtain ⟨e, es, hentries⟩ : ∃ e es, choices.entries = e :: es := by
        cases hentries : choices.entries with
        | nil => exact absurd (congrArg some (ext_entries hentries)) hfull
        | cons e es => exact ⟨e, es, rfl⟩
      obtain ⟨c, cs, hpieces, -⟩ := pieces_fold e.2
      have hsome := choicesOf_pieces (κ := κ) (ν := ν) choices.entries {}
      rw [merges_entries] at hsome
      have hsaid : (choicesOf (choiceParts (κ := κ) (ν := ν) (some choices))).isSome := by
        rw [choiceParts, hentries, flatMap_cons, hpieces, map_cons, cons_append, choicesOf_cons]
        simp [Part.choices?]
      obtain ⟨said, hsaid⟩ := Option.isSome_iff_exists.mp hsaid
      rw [choiceParts] at hsaid ⊢
      rw [hsaid] at hsome ⊢
      simpa [extend_empty] using hsome
    · obtain ⟨name, piece, rfl⟩ := hchoice p hp
      exact ⟨rfl, rfl, rfl⟩

/-- **The parts of a message say the message.** -/
theorem parts_say (m : Message ε κ ν β) (hfull : m.full) :
    (parts m).filterMap Part.session? = m.sessions ∧
      (parts m).filterMap Part.overlay? = m.overlaySessions ∧
      (parts m).filterMap Part.removed? = m.removed ∧
      modelsOf (parts m) = m.models ∧ choicesOf (parts m) = m.filterChoices := by
  obtain ⟨hmodels, hmodels', hmodelRows⟩ := modelParts_say (κ := κ) (β := β) m.models
  obtain ⟨hchoices, hchoices', hchoiceRows⟩ :=
    choiceParts_say (κ := κ) (ν := ν) m.filterChoices hfull
  have hnone : ∀ {α : Type} (f : Part κ ν β → Option α) (ps : List (Part κ ν β)),
      (∀ p ∈ ps, f p = none) → ps.filterMap f = [] := fun f ps h => by
    simpa [filterMap_eq_nil_iff] using h
  refine ⟨?_, ?_, ?_, ?_, ?_⟩
  · rw [parts, filterMap_append, filterMap_append,
      hnone _ _ fun p hp => (hmodelRows p hp).1, hnone _ _ fun p hp => (hchoiceRows p hp).1]
    simp [filterMap_map, Function.comp_def, Part.session?]
  · rw [parts, filterMap_append, filterMap_append,
      hnone _ _ fun p hp => (hmodelRows p hp).2.1, hnone _ _ fun p hp => (hchoiceRows p hp).2.1]
    simp [filterMap_map, Function.comp_def, Part.overlay?]
  · rw [parts, filterMap_append, filterMap_append,
      hnone _ _ fun p hp => (hmodelRows p hp).2.2, hnone _ _ fun p hp => (hchoiceRows p hp).2.2]
    simp [filterMap_map, Function.comp_def, Part.removed?]
  · rw [parts, modelsOf_append, modelsOf_append, hmodels, hchoices, modelsOf_eq_none]
    · simp
    · simp only [mem_append, List.mem_map]
      rintro p ((((⟨_, -, rfl⟩ | ⟨_, -, rfl⟩) | ⟨_, -, rfl⟩) | ⟨_, -, rfl⟩) | ⟨_, -, rfl⟩) <;> rfl
  · rw [parts, choicesOf_append, choicesOf_append, hmodels', hchoices', choicesOf_eq_none]
    · simp
    · simp only [mem_append, List.mem_map]
      rintro p ((((⟨_, -, rfl⟩ | ⟨_, -, rfl⟩) | ⟨_, -, rfl⟩) | ⟨_, -, rfl⟩) | ⟨_, -, rfl⟩) <;> rfl

end Codexon.SnapshotDelivery
