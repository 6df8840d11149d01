import Codexon.TrendStream.Window

/-!
# Codexon.TrendStream.Points

Every point has the rows of its interval, whatever was discarded before.
-/

namespace Codexon.TrendStream

open List

open Trends

variable {q : Query} {rows : List Call}

/-! ## left ends -/

theorem sooner_cons (left : ℚ) (lefts : List ℚ) :
    ∃ least, sooner (left :: lefts) = least :: sooner lefts ∧ ∀ x ∈ left :: lefts, least ≤ x := by
  induction lefts generalizing left with
  | nil => exact ⟨left, rfl, by simp⟩
  | cons next lefts ih =>
    obtain ⟨least, heq, hle⟩ := ih next
    refine ⟨min left least, by rw [sooner, heq], fun x hx => ?_⟩
    rcases mem_cons.mp hx with rfl | hx
    · exact min_le_left x least
    · exact (min_le_right left least).trans (hle x hx)

/-! ## the rows of a point -/

def belongs (key : PyStr × PyStr) (metric : Trends.Metric) (c : Call) : Bool :=
  c.key = key && metric.effort.all (· = c.work)

def seen (q : Query) (rows : List Call) (key : PyStr × PyStr) (metric : Trends.Metric) (e : Event) :
    List Call :=
  rows.filter fun c => belongs key metric c && within e.left e.right (e.right = q.stop) c.ts

def pointOf (q : Query) (rows : List Call) (key : PyStr × PyStr) (metric : Trends.Metric)
    (e : Event) :
    Point :=
  point metric key e q.duration q.now
    (population ((seen q rows key metric e).map Call.cell) metric e.supportLeft e.supportRight)

/-- The scopes of a metric are those of the rows that were read of it. -/
def Selects (read : List Numbered) (key : PyStr × PyStr) (g : Group) : Prop :=
  ∀ metric, ((g.selected metric).getD []).Nodup ∧ ∀ n, n ∈ (g.selected metric).getD [] ↔
    ∃ r ∈ read, belongs key metric r.1 ∧ r.2 = n

/-- A group has its points of the events that are done, unless they have no calls. -/
structure Shows (q : Query) (rows : List Call) (done : List Event) (key : PyStr × PyStr)
    (g : Group) : Prop where
  made {metric : Trends.Metric} {e : Event} (he : e ∈ q.events)
    (hkind : e.counted = decide (metric = .count))
    {p : Point} (h : g.points.get? (metric, e.index) = some p) : p = pointOf q rows key metric e
  unmade {metric : Trends.Metric} {e : Event} (he : e ∈ done)
    (hkind : e.counted = decide (metric = .count))
    (hmetric : metric ∈ q.specs) (h : g.points.get? (metric, e.index) = none) :
    seen q rows key metric e = []

theorem not_within {e : Event} {c : Call} (h : q.admits e c = false) :
    within e.left e.right (e.right = q.stop) c.ts = false := by
  simp only [Query.admits, Bool.or_eq_false_iff] at h
  simp [within, h.1, h.2]

/-- What a reader has, once it has read some of the rows and made the points of some events. -/
structure Sound (q : Query) (rows : List Call) (done coming : List Event) (read : List Numbered)
    (rest : List Call) (s : Reader) : Prop where
  rows_eq : rows = read.map Prod.fst ++ rest
  known : ∀ r ∈ read, s.ids.get? r.1.scope = some r.2
  injective {a b : (PyStr × PyStr) × PyStr} {n : Nat} (ha : s.ids.get? a = some n)
    (hb : s.ids.get? b = some n) : a = b
  below {a : (PyStr × PyStr) × PyStr} {n : Nat} (ha : s.ids.get? a = some n) :
    n < s.ids.entries.length
  held : ∃ dropped kept, read = dropped ++ kept ∧ Holds s.blocks kept ∧
    ∀ r ∈ dropped, ∀ e ∈ coming, r.1.ts < e.left
  grouped : ∀ r ∈ read, (s.groups.get? r.1.key).isSome
  selects {key : PyStr × PyStr} {g : Group} (h : s.groups.get? key = some g) : Selects read key g
  shows {key : PyStr × PyStr} {g : Group} (h : s.groups.get? key = some g) : Shows q rows done key g
  unseen : ∀ e ∈ done, ∀ c ∈ rest, q.admits e c = false

variable {done coming : List Event} {read : List Numbered} {rest : List Call} {s : Reader}
  {key : PyStr × PyStr} {g : Group}

theorem sound_init (q : Query) (rows : List Call) :
    Sound q rows [] q.events [] rows { rows := rows } where
  rows_eq := rfl
  known := by simp
  injective ha := by simp [Dict.get?] at ha
  below ha := by simp [Dict.get?] at ha
  held := ⟨[], [], rfl, .nil, by simp⟩
  grouped := by simp
  selects h := by simp [Dict.get?] at h
  shows h := by simp [Dict.get?] at h
  unseen := by simp

/-! ## reading a row -/

theorem Selects.absent (h : Selects read key g) {metric : Trends.Metric}
    (hsel : g.selected metric = none) : ∀ r ∈ read, belongs key metric r.1 = false := by
  intro r hr
  by_contra hbelongs
  have hmem := ((h metric).2 r.2).mpr ⟨r, hr, by simpa using hbelongs, rfl⟩
  simp [hsel] at hmem

theorem Selects.new (h : ∀ r ∈ read, r.1.key ≠ key) : Selects read key {} := by
  intro metric
  have hempty : (Group.selected {} metric).getD [] = [] := by
    cases heffort : metric.effort <;> simp [Group.selected, heffort, Dict.get?]
  rw [hempty]
  refine ⟨nodup_nil, fun n => ?_⟩
  simp only [not_mem_nil, false_iff, not_exists, not_and]
  intro r hr hbelongs
  simp [belongs, h r hr] at hbelongs

theorem exists_concat {p : Numbered → Prop} {r : Numbered} :
    (∃ r' ∈ read ++ [r], p r') ↔ p r ∨ ∃ r' ∈ read, p r' := by
  simp only [mem_append, mem_singleton, or_and_right, exists_or, exists_eq_left]
  exact or_comm

theorem Selects.other (h : Selects read key g) {c : Call} (hc : c.key ≠ key) (n : Nat) :
    Selects (read ++ [(c, n)]) key g := by
  refine fun metric => ⟨(h metric).1, fun m => ((h metric).2 m).trans ?_⟩
  rw [exists_concat]
  simp [belongs, hc]

theorem selected_observe (g : Group) (c : Call) (n : Nat) (metric : Trends.Metric) :
    ((g.observe c n).selected metric).getD [] =
      if belongs c.key metric c then ((g.selected metric).getD []).insert n
      else (g.selected metric).getD [] := by
  cases heffort : metric.effort with
  | none => simp [belongs, Group.selected, Group.observe, heffort]
  | some effort =>
    simp only [belongs, Group.selected, Group.observe, heffort, Dict.get?_set]
    by_cases hwork : effort = c.work <;> simp [hwork]

theorem Selects.observe {c : Call} (h : Selects read c.key g) (n : Nat) :
    Selects (read ++ [(c, n)]) c.key (g.observe c n) := by
  intro metric
  obtain ⟨hnodup, hmem⟩ := h metric
  rw [selected_observe]
  split
  · next hbelongs =>
    refine ⟨hnodup.insert, fun m => ?_⟩
    rw [mem_insert_iff, hmem, exists_concat, eq_comm (a := m)]
    simp only [hbelongs, true_and]
  · next hbelongs =>
    refine ⟨hnodup, fun m => ?_⟩
    rw [hmem, exists_concat]
    simp [hbelongs]

theorem Sound.shows_new (h : Sound q rows done coming read rest s)
    (hnew : s.groups.get? key = none) : Shows q rows done key {} := by
  refine ⟨fun {_ _} _ _ {_} hp => (by cases hp), fun {metric e} he _ _ _ => ?_⟩
  refine filter_eq_nil_iff.mpr fun c hc => ?_
  rw [h.rows_eq, mem_append, mem_map] at hc
  rcases hc with ⟨r, hr, rfl⟩ | hc
  · have hgroup := h.grouped r hr
    have hkey : r.1.key ≠ key := by
      rintro rfl
      simp [hnew] at hgroup
    simp [belongs, hkey]
  · simp [not_within (h.unseen e he c hc)]

theorem Sound.observe {c : Call} (h : Sound q rows done coming read (c :: rest) s) :
    Sound q rows done coming (read ++ [(c, s.identify c)]) rest (s.observe c) := by
  have hget (a : (PyStr × PyStr) × PyStr) : (s.observe c).ids.get? a =
      if a = c.scope then some (s.identify c) else s.ids.get? a := Dict.get?_set ..
  have hgroups (k : PyStr × PyStr) : (s.observe c).groups.get? k =
      if k = c.key then some (((s.groups.get? c.key).getD {}).observe c (s.identify c))
      else s.groups.get? k := Dict.get?_set ..
  refine ⟨?_, ?_, ?_, ?_, ?_, ?_, ?_, ?_, ?_⟩
  · simp [h.rows_eq]
  · intro r hr
    rw [hget]
    rcases mem_append.mp hr with hr | hr
    · have hknown := h.known r hr
      split
      · next heq => rw [Reader.identify, ← heq, hknown, Option.getD_some]
      · exact hknown
    · rw [mem_singleton.mp hr, if_pos rfl]
  · intro a b n ha hb
    rw [hget] at ha hb
    -- a number that is given again is of the same scope, and a new one is above the others
    have hsame {x : (PyStr × PyStr) × PyStr} (hx : s.ids.get? x = some (s.identify c)) :
        x = c.scope := by
      cases hold : s.ids.get? c.scope with
      | some m =>
        rw [Reader.identify, hold, Option.getD_some] at hx
        exact h.injective hx hold
      | none =>
        rw [Reader.identify, hold, Option.getD_none] at hx
        exact absurd (h.below hx) (lt_irrefl _)
    split at ha <;> split at hb
    · simp [*]
    · obtain rfl := Option.some.inj ha
      rw [hsame hb]
      assumption
    · obtain rfl := Option.some.inj hb
      rw [hsame ha]
      exact Eq.symm ‹_›
    · exact h.injective ha hb
  · intro a n ha
    rw [hget] at ha
    have hlength : (s.observe c).ids.entries.length = _ := Dict.length_set s.ids c.scope (s.identify c)
    rw [hlength]
    split at ha
    · obtain rfl := Option.some.inj ha
      cases hold : s.ids.get? c.scope with
      | some m => simpa [Reader.identify, hold] using h.below hold
      | none => simp [Reader.identify, hold]
    · exact (h.below ha).trans_le (Nat.le_add_right ..)
  · obtain ⟨dropped, kept, rfl, hholds, hdropped⟩ := h.held
    exact ⟨dropped, kept ++ [(c, s.identify c)], append_assoc .., hholds.append .., hdropped⟩
  · intro r hr
    rw [hgroups]
    split
    · rfl
    · next hkey =>
      rcases mem_append.mp hr with hr | hr
      · exact h.grouped r hr
      · rw [mem_singleton.mp hr] at hkey
        exact absurd rfl hkey
  · intro key g hg
    rw [hgroups] at hg
    split at hg
    · next hkey =>
      obtain rfl := Option.some.inj hg
      subst hkey
      refine Selects.observe ?_ _
      cases hold : s.groups.get? c.key with
      | some g => exact h.selects hold
      | none =>
        refine Selects.new fun r hr heq => ?_
        have hgroup := h.grouped r hr
        simp [heq, hold] at hgroup
    · next hkey => exact (h.selects hg).other (Ne.symm hkey) _
  · intro key g hg
    rw [hgroups] at hg
    split at hg
    · next hkey =>
      obtain rfl := Option.some.inj hg
      subst hkey
      cases hold : s.groups.get? c.key with
      | some g => exact ⟨(h.shows hold).made, (h.shows hold).unmade⟩
      | none => exact ⟨(h.shows_new hold).made, (h.shows_new hold).unmade⟩
    · exact h.shows hg
  · exact fun e he c' hc' => h.unseen e he c' (mem_cons_of_mem _ hc')

theorem Sound.observe_all {taken : List Call}
    (h : Sound q rows done coming read (taken ++ rest) s) :
    ∃ read', Sound q rows done coming read' rest (taken.foldl Reader.observe s) := by
  induction taken generalizing read s with
  | nil => exact ⟨read, h⟩
  | cons c taken ih => exact ih h.observe

/-! ## an event -/

theorem not_admits_rest (e : Event) {rest : List Call} (hordered : rest.Pairwise (·.ts ≤ ·.ts)) :
    ∀ c ∈ rest.dropWhile (q.admits e), q.admits e c = false := by
  have hdrop := hordered.sublist (dropWhile_sublist (q.admits e))
  cases hrest : rest.dropWhile (q.admits e) with
  | nil => simp
  | cons first later =>
    rw [hrest, pairwise_cons] at hdrop
    have hfirst : q.admits e first = false := by
      have hnonempty : rest.dropWhile (q.admits e) ≠ [] := by simp [hrest]
      simpa [hrest] using head_dropWhile_not (q.admits e) hnonempty
    have hle : ∀ c ∈ first :: later, first.ts ≤ c.ts := by simpa using hdrop.1
    intro c hc
    have hc := hle c hc
    simp only [Query.admits, Bool.or_eq_false_iff, Bool.and_eq_false_iff, decide_eq_false_iff_not,
      not_lt] at hfirst ⊢
    grind

theorem Sound.entries_eq (h : Sound q rows done coming read rest s)
    (hordered : rows.Pairwise (·.ts ≤ ·.ts)) {e : Event} (he : e ∈ coming)
    (hrest : ∀ c ∈ rest, q.admits e c = false)
    (hg : s.groups.get? key = some g) {metric : Trends.Metric} {scopes : List Nat}
    (hsel : g.selected metric = some scopes) :
    Window.entries e.left e.right (e.right = q.stop) scopes s.blocks =
      (seen q rows key metric e).map Call.cell := by
  obtain ⟨dropped, kept, rfl, hholds, hdropped⟩ := h.held
  obtain ⟨hnodup, hmem⟩ := h.selects hg metric
  rw [hsel, Option.getD_some] at hnodup hmem
  have hrows := h.rows_eq
  rw [map_append, append_assoc] at hrows
  have hkept : ordered kept := by
    rw [hrows] at hordered
    have hmap := (pairwise_append.mp (pairwise_append.mp hordered).2.1).1
    rwa [pairwise_map] at hmap
  have hout (c : Call) (hc : within e.left e.right (e.right = q.stop) c.ts = false) :
      (belongs key metric c && within e.left e.right (e.right = q.stop) c.ts) = false := by
    simp [hc]
  have hbefore : (dropped.map Prod.fst).filter (fun c => belongs key metric c &&
      within e.left e.right (e.right = q.stop) c.ts) = [] := by
    refine filter_eq_nil_iff.mpr fun c hc => ?_
    obtain ⟨r, hr, rfl⟩ := mem_map.mp hc
    rw [hout r.1 (by simp [within, not_le.mpr (hdropped r hr e he)])]
    simp
  have hafter : rest.filter (fun c => belongs key metric c &&
      within e.left e.right (e.right = q.stop) c.ts) = [] :=
    filter_eq_nil_iff.mpr fun c hc => by simp [hout c (not_within (hrest c hc))]
  -- a number stands for one scope, and so for one group and one effort
  have hscope : ∀ r ∈ kept, (decide (r.2 ∈ scopes)) = belongs key metric r.1 := by
    intro r hr
    have hread : r ∈ dropped ++ kept := mem_append_right _ hr
    rw [Bool.eq_iff_iff, decide_eq_true_eq, hmem]
    refine ⟨?_, fun hbelongs => ⟨r, hread, hbelongs, rfl⟩⟩
    rintro ⟨r', hr', hbelongs, heq⟩
    have hsame : r'.1.scope = r.1.scope := h.injective (h.known r' hr') (heq ▸ h.known r hread)
    rw [Call.scope, Call.scope, Prod.mk.injEq] at hsame
    rwa [belongs, ← hsame.1, ← hsame.2]
  rw [hholds.entries hkept _ _ _ hnodup, seen, hrows, filter_append, filter_append, hbefore,
    hafter, nil_append, append_nil, filter_map, map_map]
  refine congrArg (List.map _) (filter_congr fun r hr => ?_)
  rw [hscope r hr]
  rfl

/-! ### the points of an event -/

/-- An interval is known by its kind and its index. -/
def eventAt (q : Query) (metric : Trends.Metric) (index : Nat) : Event :=
  if metric = .count then q.bin index else q.rolling index

theorem eq_eventAt {e : Event} (he : e ∈ q.events) {metric : Trends.Metric}
    (hkind : e.counted = decide (metric = .count)) : e = eventAt q metric e.index := by
  rw [Query.events, Keyed.mem_sort, mem_append, Query.centers, Query.bins, mem_map, mem_map] at he
  rcases he with ⟨i, -, rfl⟩ | ⟨i, -, rfl⟩
  · have hmetric : metric ≠ .count := by simpa [Query.rolling] using hkind
    simp [eventAt, hmetric, Query.rolling]
  · have hmetric : metric = .count := by simpa [Query.bin] using hkind
    simp [eventAt, hmetric, Query.bin]

theorem selected_emit (q : Query) (blocks : List Block) (e : Event) (key : PyStr × PyStr)
    (metric : Trends.Metric) : (g.emit q blocks e key metric).selected = g.selected := by
  unfold Group.emit
  split
  · rfl
  · split <;> rfl

theorem points_emit {blocks : List Block} {e : Event}
    (hentries : ∀ metric scopes, g.selected metric = some scopes →
      Window.entries e.left e.right (e.right = q.stop) scopes blocks =
        (seen q rows key metric e).map Call.cell) (metrics : List Trends.Metric) :
    let g' := metrics.foldl (Group.emit q blocks e key) g
    g'.selected = g.selected ∧ ∀ metric index, g'.points.get? (metric, index) =
      if (metric ∈ metrics ∧ e.counted = decide (metric = .count)) ∧ index = e.index ∧
          (g.selected metric).isSome then some (pointOf q rows key metric e)
      else g.points.get? (metric, index) := by
  induction metrics using List.reverseRecOn with
  | nil => exact ⟨rfl, by simp⟩
  | append_singleton metrics last ih =>
    obtain ⟨hselected, ih⟩ := ih
    rw [foldl_append, foldl_cons, foldl_nil]
    refine ⟨(selected_emit ..).trans hselected, fun metric index => ?_⟩
    generalize metrics.foldl (Group.emit q blocks e key) g = g' at hselected ih ⊢
    unfold Group.emit
    split
    · next hkind =>
      simp only [ih, mem_append, mem_singleton]
      grind
    · next hkind =>
      rw [hselected]
      cases hsel : g.selected last with
      | none =>
        simp only [ih, mem_append, mem_singleton]
        grind
      | some scopes =>
        simp only [Dict.get?_set, hentries last scopes hsel, ih, mem_append,
          mem_singleton, Prod.mk.injEq]
        grind [pointOf]

theorem Sound.emit {e : Event} (h : Sound q rows done (e :: coming) read rest s)
    (hordered : rows.Pairwise (·.ts ≤ ·.ts)) (hevent : e ∈ q.events)
    (hrest : ∀ c ∈ rest, q.admits e c = false) :
    Sound q rows (e :: done) (e :: coming) read rest (s.emit q e) := by
  have hgroup {key : PyStr × PyStr} {g' : Group} (hg : (s.emit q e).groups.get? key = some g') :
      ∃ g, s.groups.get? key = some g ∧ q.specs.foldl (Group.emit q s.blocks e key) g = g' := by
    rwa [Reader.emit, Dict.get?_mapVal, Option.map_eq_some_iff] at hg
  have hpoints {key : PyStr × PyStr} {g : Group} (hg : s.groups.get? key = some g) :=
    points_emit (g := g) (fun metric scopes hsel =>
      h.entries_eq hordered (mem_cons_self ..) hrest hg hsel) q.specs
  refine ⟨h.rows_eq, h.known, h.injective, h.below, h.held, fun r hr => ?_, fun {key g'} hg => ?_,
    fun {key g'} hg => ?_, ?_⟩
  · rw [Reader.emit, Dict.get?_mapVal, Option.isSome_map]
    exact h.grouped r hr
  · obtain ⟨g, hold, rfl⟩ := hgroup hg
    intro metric
    rw [(hpoints hold).1]
    exact h.selects hold metric
  · obtain ⟨g, hold, rfl⟩ := hgroup hg
    have hshows := h.shows hold
    refine ⟨fun {metric e'} he' hkind' {p} hp => ?_, fun {metric e'} he' hkind' hmetric hp => ?_⟩
    · rw [(hpoints hold).2] at hp
      split at hp
      · next hplace =>
        have hsame : e' = e := by
          rw [eq_eventAt he' hkind', eq_eventAt hevent hplace.1.2, hplace.2.1]
        rw [hsame]
        exact (Option.some.inj hp).symm
      · exact hshows.made he' hkind' hp
    · rw [(hpoints hold).2] at hp
      split at hp
      · cases hp
      · next hplace =>
        rcases mem_cons.mp he' with rfl | he'
        · -- without a scope, no row that was read belongs to the metric
          have hnone : g.selected metric = none := by simpa [hmetric, hkind'] using hplace
          have habsent := (h.selects hold).absent hnone
          refine filter_eq_nil_iff.mpr fun c hc => ?_
          rw [h.rows_eq, mem_append, mem_map] at hc
          rcases hc with ⟨r, hr, rfl⟩ | hc
          · simp [habsent r hr]
          · simp [not_within (hrest c hc)]
        · exact hshows.unmade he' hkind' hmetric hp
  · intro e' he' c hc
    rcases mem_cons.mp he' with rfl | he'
    · exact hrest c hc
    · exact h.unseen e' he' c hc

theorem Sound.discard {e : Event} (h : Sound q rows done (e :: coming) read rest s)
    (hordered : rows.Pairwise (·.ts ≤ ·.ts)) {before : ℚ}
    (hbefore : ∀ e ∈ coming, before ≤ e.left) :
    Sound q rows done coming read rest { s with blocks := Window.discard s.blocks before } := by
  refine ⟨h.rows_eq, h.known, h.injective, h.below, ?_, h.grouped, h.selects, h.shows, h.unseen⟩
  obtain ⟨dropped, kept, rfl, hholds, hdropped⟩ := h.held
  have hkept : ordered kept := by
    have hrows := hordered
    rw [h.rows_eq, map_append] at hrows
    have hmap := (pairwise_append.mp (pairwise_append.mp hrows).1).2.1
    rwa [pairwise_map] at hmap
  obtain ⟨gone, kept, rfl, hholds, hgone⟩ := hholds.discard hkept before
  refine ⟨dropped ++ gone, kept, (append_assoc ..).symm, hholds, fun r hr e he => ?_⟩
  rcases mem_append.mp hr with hr | hr
  · exact hdropped r hr e (mem_cons_of_mem _ he)
  · exact (hgone r hr).trans_le (hbefore e he)

theorem Sound.step {e : Event} (h : Sound q rows done (e :: coming) read s.rows s)
    (hordered : rows.Pairwise (·.ts ≤ ·.ts)) (hevent : e ∈ q.events) :
    ∃ read', Sound q rows (e :: done) (e :: coming) read' ((s.readRows q e).emit q e).rows
      ((s.readRows q e).emit q e) := by
  have hrest : s.rows.Pairwise (·.ts ≤ ·.ts) := by
    rw [h.rows_eq] at hordered
    exact (pairwise_append.mp hordered).2.1
  rw [← takeWhile_append_dropWhile (p := q.admits e) (l := s.rows)] at h
  obtain ⟨read', h'⟩ := h.observe_all
  have hread : Sound q rows done (e :: coming) read' (s.rows.dropWhile (q.admits e))
      (s.readRows q e) :=
    ⟨h'.rows_eq, h'.known, h'.injective, h'.below, h'.held, h'.grouped, h'.selects, h'.shows,
      h'.unseen⟩
  exact ⟨read', hread.emit hordered hevent (not_admits_rest e hrest)⟩

theorem Sound.loop (h : Sound q rows done coming read s.rows s)
    (hordered : rows.Pairwise (·.ts ≤ ·.ts)) (hevents : ∀ e ∈ coming, e ∈ q.events) :
    ∃ read', let s' := Reader.loop q (coming.zip (sooner (coming.map Event.left))) s
      Sound q rows (coming.reverse ++ done) [] read' s'.rows s' := by
  induction coming generalizing done read s with
  | nil => exact ⟨read, h⟩
  | cons e coming ih =>
    obtain ⟨read', hstep⟩ := h.step hordered (hevents e (mem_cons_self ..))
    obtain ⟨least, heq, -⟩ := sooner_cons e.left (coming.map Event.left)
    rw [map_cons, heq, zip_cons_cons, reverse_cons, append_assoc, singleton_append]
    cases coming with
    | nil => exact ⟨read', hstep.rows_eq, hstep.known, hstep.injective, hstep.below,
        hstep.held.imp fun _ => Exists.imp fun _ hheld => ⟨hheld.1, hheld.2.1, by simp⟩,
        hstep.grouped, hstep.selects, hstep.shows, hstep.unseen⟩
    | cons next coming =>
      obtain ⟨before, hbefore, hle⟩ := sooner_cons next.left (coming.map Event.left)
      have hall : ∀ e ∈ next :: coming, before ≤ e.left := fun e he =>
        hle e.left (mem_map_of_mem (f := Event.left) he)
      have hnext := ih (s := { (s.readRows q e).emit q e with
        blocks := Window.discard ((s.readRows q e).emit q e).blocks before })
        (hstep.discard hordered hall) fun e he => hevents e (mem_cons_of_mem _ he)
      rw [map_cons, hbefore, zip_cons_cons] at hnext ⊢
      exact hnext

/-! ## the panels -/

end Codexon.TrendStream
