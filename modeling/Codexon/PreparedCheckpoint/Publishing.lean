import Codexon.PreparedCheckpoint.Scan

/-!
# Codexon.PreparedCheckpoint.Publishing

A stage is opened, starts its checkpoints, and is published, abandoned or failed.
-/

namespace Codexon.PreparedCheckpoint

open List

open PreparedStore (PublicationState)

variable {N M δ : Type} {hashes : Hashes δ} [DecidableEq N] [LinearOrder M]
  {s s' : State N M δ} {maps : Maps N M}

/-! ## failing -/

/-- A call raises: the stage cannot be published any more. -/
theorem refines_fail (h : Refines hashes s maps) (namespaces : List N) :
    Refines hashes (fail namespaces s) { maps with
      stage := maps.stage.map fun stage => { stage with call := none } } := by
  unfold fail
  cases hstage : s.stage with
  | none =>
    have hsame : ({ s with stage := none } : State N M δ) = s := by rw [← hstage]
    have hmaps : ({ maps with stage := maps.stage.map fun stage => { stage with call := none } } :
        Maps N M) = maps := by
      obtain ⟨published, stage⟩ := maps
      cases h.idle hstage
      rfl
    rw [Option.map_none, hsame, hmaps]
    exact h
  | some stage =>
    obtain ⟨staged, hmaps, hstaged⟩ := h.stage stage hstage
    constructor
    · have hnote : Sound hashes { s with seen := s.seen, stage := some { stage with
          namespaces := namespaces ++ stage.namespaces, failed := true, running := none } } := by
        apply h.sound.note hstage
        · rfl
        · simp
        · exact h.sound.seenBelow
      exact hnote
    · exact h.published
    · exact h.heads
    · simp
    · rintro _ ⟨⟩
      refine ⟨{ staged with call := none }, by simp [hmaps], ?_⟩
      exact {
        touched := fun row hrow hbatch =>
          mem_append_right _ (hstaged.touched row hrow hbatch)
        named := fun row hrow hbatch => mem_append_right _ (hstaged.named row hrow hbatch)
        nodup := by simp
        done := by
          intro ns map hdone
          obtain ⟨hin, -, htotals, hreads⟩ := hstaged.done ns map hdone
          exact ⟨mem_append_right _ hin, by simp, htotals, hreads⟩
        undone := hstaged.undone
        finished := by simp
        totals := by
          intro totals htotals ns hns
          exact hstaged.totals totals htotals ns fun hin => hns (mem_append_right _ hin)
        running := by simp }
    · intro hnone
      cases hnone

theorem checkpointStep_writes [DecidableEq δ] {limits : Limits} {header name : M} {digest : δ}
    {chunks : Content} (hstep : checkpointStep hashes limits header name digest chunks s = some s')
    :
    s'.publications = s.publications ∧ ∀ c ∈ s'.chunks, c ∈ s.chunks ∨ s.marker = some c.batch := by
  cases hstage : s.stage with
  | none => simp [checkpointStep, hstage] at hstep
  | some stage =>
    cases hrunning : stage.running with
    | none => simp [checkpointStep, hstage, hrunning] at hstep
    | some running =>
      simp only [checkpointStep, hstage, hrunning] at hstep
      split at hstep
      · cases hstep
      · split at hstep
        · cases hstep
          exact ⟨rfl, fun c hc => .inl hc⟩
        · split at hstep
          · cases hstep
          · cases hstep
            refine ⟨rfl, fun c hc => ?_⟩
            rcases mem_append.mp hc with hold | hnew
            · exact .inl hold
            · obtain ⟨chunk, -, rfl⟩ := List.mem_map.mp hnew
              right
              simp [State.marker, hstage]

theorem refines_torn [DecidableEq δ] (hlayout : Function.Injective hashes.layout)
    (h : Refines hashes s maps) {limits : Limits} {header name : M} {digest : δ}
    {chunks : Content} {flushed : Nat}
    (hstep : torn hashes limits header name digest chunks flushed s = some s') :
    Refines hashes s' (maps.step (.torn name digest chunks flushed : Event N M δ)) := by
  obtain ⟨t, hsection, rfl⟩ := Option.map_eq_some_iff.mp hstep
  have hfail := refines_fail (refines_section hlayout h hsection) []
  have hmaps : ({ maps.step (.section_ name digest chunks : Event N M δ) with
      stage := (maps.step (.section_ name digest chunks : Event N M δ)).stage.map fun stage =>
        { stage with call := none } } : Maps N M) =
      maps.step (.torn name digest chunks flushed : Event N M δ) := by
    obtain ⟨published, stage⟩ := maps
    cases stage <;> rfl
  rw [hmaps] at hfail
  apply hfail.dropChunks
  intro row hrow hseen _ c hc _ hbatch
  obtain ⟨hpublications, hchunks⟩ := checkpointStep_writes hsection
  have hpublished : Published s row.batch := by
    rcases hseen with hpublished | hsane
    · rw [Published, ← hpublications]
      exact hpublished
    · simp only [State.sane, fail, Option.bind_map] at hsane
      cases hstage : t.stage <;> simp [hstage] at hsane
  rw [decide_eq_true_eq]
  left
  apply (hchunks c hc).resolve_right
  intro hopen
  rw [hbatch] at hopen
  exact h.sound.kept.unpublished hopen (.inl hpublished)

/-! ## opening -/

theorem refines_begin (h : Refines hashes s maps) (hbegin : begin_ s = some s') :
    Refines hashes s' (maps.step (.begin_ : Event N M δ)) := by
  unfold begin_ at hbegin
  split at hbegin
  · cases hbegin
  · rename_i hstage
    cases hbegin
    have hmarker : s.marker = none := by simp [State.marker, hstage]
    have hkept := h.sound.kept
    rw [hmarker] at hkept
    set s' : State N M δ := { s with
      publications := s.publications ++ [(s.nextBatch, .staged)]
      nextBatch := s.nextBatch + 1
      stage := some { batch := s.nextBatch } } with hs'
    have hpublished : Published s' = Published s := by
      funext batch
      simp [Published, hs']
    have hunseen : ∀ row ∈ s.sections, ∀ marker, marker = none ∨ marker = some s.nextBatch →
        (Version.Seen (Published s) marker row.batch ↔ Version.Seen (Published s) none row.batch) := by
      intro row hrow marker hmarker
      have hlt := h.sound.rowsBelow row hrow
      rcases hmarker with rfl | rfl
      · rfl
      · simp [Version.Seen, hlt.ne']
    constructor
    · constructor
      · rw [hs', map_append, nodup_append]
        refine ⟨h.sound.ids, by simp, ?_⟩
        intro batch hbatch other hother
        obtain ⟨p, hp, rfl⟩ := List.mem_map.mp hbatch
        simp only [map_cons, map_nil, mem_singleton] at hother
        rw [hother]
        exact (h.sound.below p hp).ne
      · intro p hp
        rcases mem_append.mp hp with hp | hp
        · exact Nat.lt_succ_of_lt (h.sound.below p hp)
        · rw [mem_singleton.mp hp]
          exact Nat.lt_succ_self _
      · intro p hp hstaged
        rcases mem_append.mp hp with hp | hp
        · have hopen := h.sound.staged p hp hstaged
          rw [hmarker] at hopen
          cases hopen
        · rw [mem_singleton.mp hp]
          rfl
      · rintro _ ⟨⟩
        simp [hs']
      · rw [hpublished]
        exact hkept.begin (fun other hother => h.sound.below _ hother) h.sound.tasksBelow
      · exact h.sound.rows
      · exact fun row hrow => Nat.lt_succ_of_lt (h.sound.rowsBelow row hrow)
      · exact fun task htask => Nat.lt_succ_of_lt (h.sound.tasksBelow task htask)
      · exact fun row hrow => Nat.lt_succ_of_lt (h.sound.seenBelow row hrow)
      · exact fun v hv => Nat.lt_succ_of_lt (h.sound.versionsBelow v hv)
      · rw [hpublished]
        intro row hrow value hvalue hseen htasks
        have hsane : s.sane = none := by simp [State.sane, hstage]
        apply h.sound.filled row hrow value hvalue ?_ htasks
        rw [hsane]
        exact (hunseen row hrow _ (.inr rfl)).mp hseen
    · intro ns
      rw [ReadsMap, hpublished]
      exact h.published ns
    · intro ns hns
      have hhead := h.heads ns hns
      change HeadOf s' ns (maps.published ns)
      cases hmap : maps.published ns with
      | none =>
        rw [hmap] at hhead
        exact hhead
      | some map =>
        rw [hmap] at hhead
        obtain ⟨batch, hget, hpub, htotals⟩ := hhead
        exact ⟨batch, hget, by rw [hpublished]; exact hpub, htotals⟩
    · simp
    · rintro _ ⟨⟩
      refine ⟨_, rfl, ?_⟩
      exact {
        touched := by
          intro row hrow hbatch
          exact absurd hbatch (h.sound.rowsBelow row hrow).ne
        named := by
          intro row hrow hbatch
          exact absurd hbatch (h.sound.seenBelow row hrow).ne
        nodup := by simp
        done := by simp
        undone := by
          intro ns _
          change s.versions.find? _ = none
          rw [List.find?_eq_none]
          intro v hv hsame
          rw [decide_eq_true_eq] at hsame
          exact (h.sound.versionsBelow v hv).ne hsame.2
        finished := by simp
        totals := by simp
        running := by simp }
    · intro hnone
      cases hnone

/-! ## starting a checkpoint -/

omit [LinearOrder M] in
theorem find?_eq_of_unique {α : Type} {p : α → Bool} {xs : List α} {x : α} (hx : x ∈ xs)
    (hp : p x = true) (hunique : ∀ y ∈ xs, p y = true → y = x) : xs.find? p = some x := by
  cases hfind : xs.find? p with
  | none => exact absurd hp (by simpa using List.find?_eq_none.mp hfind x hx)
  | some y => rw [hunique y (mem_of_find?_eq_some hfind) (find?_some hfind)]

theorem find?_publishedTotals (h : Refines hashes s maps) (ns : N) :
    (publishedTotals s).find? (·.1 = ns) =
      (maps.published ns).map fun map => (ns, total map, count map) := by
  have hhead := h.heads ns (by simp)
  cases hmap : maps.published ns with
  | none =>
    rw [hmap] at hhead
    rw [Option.map_none, List.find?_eq_none]
    intro entry hentry hsame
    rw [decide_eq_true_eq] at hsame
    obtain ⟨head, hhead', hentry'⟩ := mem_filterMap.mp hentry
    obtain ⟨v, -, rfl⟩ := Option.map_eq_some_iff.mp hentry'
    obtain rfl : head.1 = ns := hsame
    have hget : s.heads.get? head.1 = some head.2 := Dict.get?_eq_some.mpr hhead'
    cases hget.symm.trans hhead
  | some map =>
    rw [hmap] at hhead
    obtain ⟨batch, hget, -, v, hv, htotal, hcount⟩ := hhead
    have hhead' := Dict.get?_eq_some.mp hget
    rw [Option.map_some, ← htotal, ← hcount]
    apply find?_eq_of_unique
    · exact mem_filterMap.mpr ⟨(ns, batch), hhead', by simp [hv]⟩
    · simp
    · intro entry hentry hsame
      rw [decide_eq_true_eq] at hsame
      obtain ⟨head, hhead'', hentry'⟩ := mem_filterMap.mp hentry
      obtain ⟨v', hv', rfl⟩ := Option.map_eq_some_iff.mp hentry'
      obtain rfl : head.1 = ns := hsame
      have hget' : s.heads.get? head.1 = some head.2 := Dict.get?_eq_some.mpr hhead''
      rw [hget, Option.some.injEq] at hget'
      rw [← hget', hv, Option.some.injEq] at hv'
      rw [hv']

theorem refines_start [DecidableEq δ] {limits : Limits} {ns : N} {base : Option Token}
    {token : Token} {complete : Bool} (h : Refines hashes s maps)
    (hstart : start limits ns base token complete s = some s') :
    Refines hashes s' (maps.step (.start ns base token complete : Event N M δ)) := by
  cases hstage : s.stage with
  | none => simp [start, hstage] at hstart
  | some stage =>
    obtain ⟨staged, hmaps, hstaged⟩ := h.stage stage hstage
    have hlookup : ∀ ns' ∉ stage.namespaces,
        (stage.totals.getD (publishedTotals s)).find? (·.1 = ns') =
          (maps.published ns').map fun map => (ns', total map, count map) := by
      intro ns' hns'
      cases hcached : stage.totals with
      | none => exact find?_publishedTotals h ns'
      | some totals => exact hstaged.totals totals hcached ns' hns'
    set call : Call N M := ⟨ns, complete, (maps.published ns).getD {}, {}⟩ with hcall
    have hsums : ns ∉ stage.namespaces →
        (if complete then (0, 0) else (((stage.totals.getD (publishedTotals s)).find?
          (·.1 = ns)).map (·.2)).getD (0, 0)) = (total call.result, count call.result) := by
      intro hns
      rw [hlookup ns hns]
      cases complete with
      | true => rfl
      | false =>
        cases hmap : maps.published ns with
        | none => simp [hcall, Call.result, hmap, total, count, Dict.sumVal]
        | some map => simp [hcall, Call.result, hmap]
    simp only [start, hstage] at hstart
    generalize (if complete = true then ((0, 0) : Int × Int) else _) = sums at hstart hsums
    split at hstart
    · cases hstart
    · rename_i hnew
      rw [not_or] at hnew
      have hidle : stage.running = none := by simpa using hnew.1
      split at hstart
      · cases hstart
      · split at hstart
        · cases hstart
        · split at hstart
          · cases hstart
            rw [hsums hnew.2]
            constructor
            · have hnote : Sound hashes { s with seen := s.seen, stage := some { stage with
                  namespaces := ns :: stage.namespaces
                  totals := some (stage.totals.getD (publishedTotals s))
                  running := some {
                    namespace_ := ns, complete := complete, token := token
                    total := total call.result, count := count call.result } } } := by
                apply h.sound.note hstage
                · rfl
                · exact id
                · exact h.sound.seenBelow
              exact hnote
            · exact h.published
            · exact h.heads
            · simp
            · rintro _ ⟨⟩
              refine ⟨{ staged with call := some call }, by simp [Maps.step, hmaps, hcall], ?_⟩
              exact {
                touched := fun row hrow hbatch =>
                  mem_cons_of_mem ns (hstaged.touched row hrow hbatch)
                named := fun row hrow hbatch =>
                  mem_cons_of_mem ns (hstaged.named row hrow hbatch)
                nodup := fun hfailed => nodup_cons.mpr ⟨hnew.2, hstaged.nodup hfailed⟩
                done := by
                  intro ns' map hdone
                  obtain ⟨hin, -, htotals', hreads⟩ := hstaged.done ns' map hdone
                  refine ⟨mem_cons_of_mem ns hin, ?_, htotals', hreads⟩
                  rintro _ ⟨⟩ heq
                  obtain rfl : ns = ns' := heq
                  exact hnew.2 hin
                undone := hstaged.undone
                finished := by
                  intro hfailed ns' hin
                  rcases mem_cons.mp hin with rfl | hin
                  · exact .inr ⟨_, rfl, rfl⟩
                  · rcases hstaged.finished hfailed ns' hin with hdone | ⟨_, hrunning, -⟩
                    · exact .inl hdone
                    · cases hidle.symm.trans hrunning
                totals := by
                  rintro _ ⟨⟩ ns' hns'
                  exact hlookup ns' fun hin => hns' (mem_cons_of_mem ns hin)
                running := by
                  rintro _ ⟨⟩
                  refine ⟨mem_cons_self, call, rfl, ?_⟩
                  -- nothing of the namespace was written or named in this stage
                  have hunnamed : ∀ name, (⟨stage.batch, (ns, name)⟩ : Seen N M) ∉ s.seen :=
                    fun name hmem => hnew.2 (hstaged.named _ hmem rfl)
                  exact {
                    ns := rfl
                    complete := rfl
                    reads := by
                      intro name
                      have hread : Version.ReadsAs (Version.Seen (Published s) none) s.sections
                          (ns, name) (((maps.published ns).bind fun map => map.get? name).map
                            (Section.of hashes)) := h.published ns name
                      have hmerged : (maps.published ns).bind (fun map => map.get? name) =
                          call.merged.get? name := by
                        cases hmap : maps.published ns <;> simp [hcall, hmap, Dict.get?]
                      rw [hmerged] at hread
                      simp only [Phase.after, Option.not_mem_none, false_and]
                      apply hread.congr fun _ _ => Iff.rfl
                      intro row hrow hkey
                      have hne : row.batch ≠ stage.batch := by
                        intro hbatch
                        have hin := hstaged.touched row hrow hbatch
                        rw [hkey] at hin
                        exact hnew.2 hin
                      exact or_congr Iff.rfl (by simp [hne.symm])
                    delta := fun _ => rfl
                    listed := fun name hmem => absurd hmem (hunnamed name)
                    unlisted := fun _ _ => rfl
                    total := rfl
                    count := rfl
                    budget := by simp } }
            · intro hnone
              cases hnone
          · cases hstart

/-! ## publishing -/

omit [DecidableEq N] [LinearOrder M] in
theorem stage_prunePublication [DecidableEq M] (s : State N M δ) (batch : Nat) :
    (prunePublication s batch).stage = s.stage := by
  unfold prunePublication
  split <;> rfl

theorem moved_publishNamespace {moved : List N} (h : Moved hashes moved s maps) {stage : Stage N M}
    (hstage : s.stage = some stage) {ns : N} (hns : ns ∉ moved) :
    Moved hashes (ns :: moved) (publishNamespace stage.batch s ns) maps ∧
      (publishNamespace stage.batch s ns).stage = s.stage := by
  have hmarker : s.marker = some stage.batch := by simp [State.marker, hstage]
  have hset : Moved hashes (ns :: moved) { s with heads := s.heads.set ns stage.batch } maps := by
    constructor
    · exact { h.sound with }
    · exact h.published
    · intro ns' hns'
      rw [mem_cons, not_or] at hns'
      have hhead := h.heads ns' hns'.2
      have hget : (s.heads.set ns stage.batch).get? ns' = s.heads.get? ns' := by
        rw [Dict.get?_set, if_neg hns'.1]
      cases hmap : maps.published ns' with
      | none =>
        rw [hmap] at hhead
        exact hget.trans hhead
      | some map =>
        rw [hmap] at hhead
        obtain ⟨batch, hbatch, hrest⟩ := hhead
        exact ⟨batch, hget.trans hbatch, hrest⟩
    · intro ns' hns'
      change (s.heads.set ns stage.batch).get? ns' = s.marker
      rw [Dict.get?_set]
      split
      · exact hmarker.symm
      · rename_i hne
        exact h.moved ns' ((mem_cons.mp hns').resolve_left hne)
    · intro stage' hstage'
      obtain ⟨staged, hmaps, hstaged⟩ := h.stage stage' hstage'
      refine ⟨staged, hmaps, { hstaged with running := ?_ }⟩
      intro running hrunning
      obtain ⟨hmem, call, hcall, hruns⟩ := hstaged.running running hrunning
      exact ⟨hmem, call, hcall, { hruns with }⟩
    · exact h.idle
  unfold publishNamespace
  extract_lets t
  cases hbefore : s.heads.get? ns with
  | none => exact ⟨hset, rfl⟩
  | some before =>
    refine ⟨?_, stage_prunePublication _ _⟩
    apply moved_prunePublication
    have hpublished : Published s before := by
      have hhead := h.heads ns hns
      cases hmap : maps.published ns with
      | none =>
        rw [hmap] at hhead
        cases hbefore.symm.trans hhead
      | some map =>
        rw [hmap] at hhead
        obtain ⟨batch, hget, hpublished, -⟩ := hhead
        cases hbefore.symm.trans hget
        exact hpublished
    apply hset.dropVersions
    · intro ns' hns' _ _ _ v _ hsame _
      rw [decide_eq_true_eq]
      rintro ⟨hv, -⟩
      exact hns' (by simp [← hsame, hv])
    · intro v _ hopen
      rw [decide_eq_true_eq]
      rintro ⟨-, rfl⟩
      exact h.sound.kept.unpublished hopen (.inl hpublished)

theorem moved_publishNamespaces {stage : Stage N M} (names : List N) (hnodup : names.Nodup)
    {moved : List N} (hmoved : ∀ ns ∈ names, ns ∉ moved) (h : Moved hashes moved s maps)
    (hstage : s.stage = some stage) : ∃ moved', (∀ ns, ns ∈ moved' ↔ ns ∈ names ∨ ns ∈ moved) ∧
      Moved hashes moved' (names.foldl (publishNamespace stage.batch) s) maps ∧
      (names.foldl (publishNamespace stage.batch) s).stage = some stage := by
  induction names generalizing s moved with
  | nil => exact ⟨moved, by simp, h, hstage⟩
  | cons ns names ih =>
    rw [nodup_cons] at hnodup
    obtain ⟨hfirst, hsame⟩ := moved_publishNamespace h hstage (hmoved ns mem_cons_self)
    have hmoved' : ∀ other ∈ names, other ∉ ns :: moved := by
      intro other hother
      rw [mem_cons, not_or]
      constructor
      · rintro rfl
        exact hnodup.1 hother
      · exact hmoved other (mem_cons_of_mem ns hother)
    obtain ⟨moved', hmem, hrest, hstage'⟩ := ih hnodup.2 hmoved' hfirst (hsame.trans hstage)
    refine ⟨moved', fun other => ?_, hrest, hstage'⟩
    rw [hmem]
    simp only [mem_cons]
    tauto

/-- **Publishing**: the namespaces that the stage is done with get its maps. -/
theorem refines_publish (h : Refines hashes s maps) (hpublish : publish s = some s') :
    Refines hashes s' (maps.step (.publish : Event N M δ)) := by
  unfold publish at hpublish
  split at hpublish
  · cases hpublish
  · rename_i stage hstage
    split at hpublish
    · cases hpublish
    · rename_i hready
      rw [not_or] at hready
      have hok : stage.failed = false := by simpa using hready.1
      have hidle : stage.running = none := by simpa using hready.2
      cases hpublish
      apply moved_prunePublication
      obtain ⟨staged, hmaps, hstaged⟩ := h.stage stage hstage
      obtain ⟨moved, hmem, hmoved, hstage'⟩ := moved_publishNamespaces stage.namespaces
        (hstaged.nodup hok) (by simp) h hstage
      simp only [not_mem_nil, or_false] at hmem
      obtain ⟨staged', hmaps', hstaged'⟩ := hmoved.stage stage hstage'
      cases hmaps.symm.trans hmaps'
      generalize stage.namespaces.foldl (publishNamespace stage.batch) s = t at hmoved hstage' hstaged' ⊢
      have hmarker : t.marker = some stage.batch := by simp [State.marker, hstage']
      have hsane : t.sane = some stage.batch := by simp [State.sane, hstage', hok]
      set u : State N M δ := { t with
        publications := t.publications.map fun p =>
          if p.1 = stage.batch then (p.1, PublicationState.published) else p
        generation := t.generation + 1
        stage := none } with hu
      have hpublished : ∀ batch, Published u batch ↔
          Version.Seen (Published t) (some stage.batch) batch := by
        intro batch
        simp only [Published, hu, List.mem_map]
        constructor
        · rintro ⟨p, hp, heq⟩
          split at heq
          · rename_i hopen
            cases heq
            exact .inr (congrArg some hopen.symm)
          · rw [heq] at hp
            exact .inl hp
        · rintro (hold | hopen)
          · refine ⟨_, hold, ?_⟩
            split <;> rfl
          · cases hopen
            exact ⟨_, hmoved.sound.open_ stage hstage', by simp⟩
      have hseen : Version.Seen (Published u) none = Version.Seen (Published t) (some stage.batch) := by
        funext batch
        simp [Version.Seen, hpublished]
      have hmaps'' : maps.step (.publish : Event N M δ) =
          ⟨fun ns => (staged.done ns).or (maps.published ns), none⟩ := by
        simp [Maps.step, hmaps]
      rw [hmaps'']
      constructor
      · constructor
        · have hids : (t.publications.map fun p =>
              if p.1 = stage.batch then (p.1, PublicationState.published) else p).map Prod.fst =
              t.publications.map Prod.fst := by
            rw [List.map_map]
            apply map_congr_left
            intro p _
            simp only [Function.comp]
            split <;> rfl
          rw [hu, hids]
          exact hmoved.sound.ids
        · intro p hp
          obtain ⟨old, hold, rfl⟩ := List.mem_map.mp hp
          have hbelow := hmoved.sound.below old hold
          split <;> exact hbelow
        · intro p hp hstate
          obtain ⟨old, hold, rfl⟩ := List.mem_map.mp hp
          split at hstate
          · cases hstate
          · rename_i hother
            have hopen := hmoved.sound.staged old hold hstate
            rw [hmarker] at hopen
            exact absurd (Option.some.inj hopen).symm hother
        · intro stage'' hstage''
          cases hstage''
        · have hkept := hmoved.sound.kept
          rw [hmarker] at hkept
          exact hkept.publish hpublished
        · exact hmoved.sound.rows
        · exact hmoved.sound.rowsBelow
        · exact hmoved.sound.tasksBelow
        · exact hmoved.sound.seenBelow
        · exact hmoved.sound.versionsBelow
        · intro row hrow value hvalue hsee hexempt
          apply hmoved.sound.filled row hrow value hvalue
          · rw [hsane, ← hseen]
            exact hsee
          · intro batch htask hbatch
            exact hexempt batch htask ((hpublished batch).mpr (.inl hbatch))
      · intro ns name
        rw [hseen]
        cases hdone : staged.done ns with
        | some map =>
          obtain ⟨-, -, -, hreads⟩ := hstaged'.done ns map hdone
          simpa [hdone] using hreads name
        | none =>
          have hout : ns ∉ stage.namespaces := by
            intro hin
            rcases hstaged.finished hok ns hin with hne | ⟨_, hrunning, -⟩
            · exact hne hdone
            · cases hidle.symm.trans hrunning
          have hread := hmoved.published ns name
          simp only [hdone, Option.none_or]
          apply hread.congr fun _ _ => Iff.rfl
          intro row hrow hkey
          have hne : row.batch ≠ stage.batch := by
            intro hbatch
            have hin := hstaged'.touched row hrow hbatch
            rw [hkey] at hin
            exact hout hin
          exact or_congr Iff.rfl (by simp [hne.symm])
      · intro ns _
        cases hdone : staged.done ns with
        | some map =>
          obtain ⟨hin, -, htotals, -⟩ := hstaged'.done ns map hdone
          simp only [hdone, Option.some_or]
          refine ⟨stage.batch, ?_, (hpublished _).mpr (.inr rfl), htotals⟩
          rw [← hmarker]
          exact hmoved.moved ns ((hmem ns).mpr hin)
        | none =>
          have hout : ns ∉ stage.namespaces := by
            intro hin
            rcases hstaged.finished hok ns hin with hne | ⟨_, hrunning, -⟩
            · exact hne hdone
            · cases hidle.symm.trans hrunning
          have hhead := hmoved.heads ns fun hin => hout ((hmem ns).mp hin)
          simp only [hdone, Option.none_or]
          cases hmap : maps.published ns with
          | none =>
            rw [hmap] at hhead
            exact hhead
          | some map =>
            rw [hmap] at hhead
            obtain ⟨batch, hget, hbatch, htotals⟩ := hhead
            exact ⟨batch, hget, (hpublished batch).mpr (.inl hbatch), htotals⟩
      · simp
      · intro stage'' hstage''
        cases hstage''
      · intro _
        rfl

/-- **Abandoning**: nobody sees what the stage wrote. -/
theorem refines_reopen (h : Refines hashes s maps) :
    Refines hashes (reopen s) { maps with stage := none } := by
  have hpublished : Published (reopen s) = Published s := by
    funext batch
    simp only [Published, reopen, List.mem_map, eq_iff_iff]
    constructor
    · rintro ⟨p, hp, heq⟩
      split at heq
      · cases heq
      · rw [heq] at hp
        exact hp
    · intro hp
      exact ⟨_, hp, by simp⟩
  have hsane : (reopen s).sane = none := rfl
  constructor
  · constructor
    · have hids : (reopen s).publications.map Prod.fst = s.publications.map Prod.fst := by
        rw [reopen, List.map_map]
        apply map_congr_left
        intro p _
        simp only [Function.comp]
        split <;> rfl
      rw [hids]
      exact h.sound.ids
    · intro p hp
      obtain ⟨old, hold, rfl⟩ := List.mem_map.mp hp
      have hbelow := h.sound.below old hold
      split <;> exact hbelow
    · intro p hp hstate
      obtain ⟨old, -, rfl⟩ := List.mem_map.mp hp
      split at hstate
      · cases hstate
      · rename_i hother
        exact absurd hstate hother
    · intro stage hstage
      cases hstage
    · rw [hpublished]
      exact h.sound.kept.abandon
    · exact h.sound.rows
    · exact h.sound.rowsBelow
    · exact h.sound.tasksBelow
    · exact h.sound.seenBelow
    · exact h.sound.versionsBelow
    · rw [hpublished, hsane]
      intro row hrow value hvalue hseen
      exact h.sound.filled row hrow value hvalue (hseen.mono _)
  · intro ns
    rw [ReadsMap, hpublished]
    exact h.published ns
  · intro ns hns
    have hhead := h.heads ns hns
    change HeadOf (reopen s) ns (maps.published ns)
    cases hmap : maps.published ns with
    | none =>
      rw [hmap] at hhead
      exact hhead
    | some map =>
      rw [hmap] at hhead
      obtain ⟨batch, hget, hbatch, htotals⟩ := hhead
      exact ⟨batch, hget, by rw [hpublished]; exact hbatch, htotals⟩
  · simp
  · intro stage hstage
    cases hstage
  · intro _
    rfl

theorem refines_abort (h : Refines hashes s maps) (habort : abort s = some s') :
    Refines hashes s' { maps with stage := none } := by
  unfold abort at habort
  split at habort
  · cases habort
  · rename_i stage hstage
    cases habort
    -- only the open batch is staged
    have hsame : s.publications.map (fun p =>
        if p.1 = stage.batch ∧ p.2 = .staged then (p.1, PublicationState.abandoned) else p) =
        s.publications.map fun p => if p.2 = .staged then (p.1, .abandoned) else p := by
      apply map_congr_left
      intro p hp
      have hopen := h.sound.staged p hp
      rw [State.marker, hstage, Option.map_some, Option.some.injEq] at hopen
      grind
    rw [hsame]
    exact refines_reopen h

end Codexon.PreparedCheckpoint
