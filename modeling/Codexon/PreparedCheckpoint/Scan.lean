import Codexon.PreparedCheckpoint.Iterations
import Codexon.Keyed

/-!
# Codexon.PreparedCheckpoint.Scan

The scan of a complete checkpoint deletes what the call did not name, page by page,
and the end of a checkpoint leaves its map for the namespace.
-/

namespace Codexon.PreparedCheckpoint

open PreparedStore (insertIgnore)

variable {N M δ : Type} {hashes : Hashes δ} [DecidableEq N] [LinearOrder M] [DecidableEq δ]
  {s s' : State N M δ} {maps : Maps N M}

variable {stage : Stage N M}

theorem mem_missing (h : Sound hashes s) (hstage : s.stage = some stage)
    {ns : N} {raw : M → Option Content} (hreads : ReadsMap hashes s (some stage.batch) ns raw)
    (after : Option M) (name : M) : name ∈ missing s stage.batch ns after ↔
      raw name ≠ none ∧ (⟨stage.batch, (ns, name)⟩ : Seen N M) ∉ s.seen ∧
        ∀ cursor ∈ after, cursor < name := by
  have hvisible : Visible s (some stage.batch) = Version.Seen (Published s) (some stage.batch) :=
    visible_iff h (.inr (by simp [State.marker, hstage]))
  simp only [missing, List.mem_mergeSort, List.mem_map, List.mem_filter, decide_eq_true_eq, hvisible]
  constructor
  · rintro ⟨⟨⟨ns', name'⟩, batch, value⟩, ⟨hrow, rfl, hafter, hlive, hlatest, hnot⟩, rfl⟩
    have hvalue := (hreads name').unique (hlatest.readsAs h.kept.single)
    refine ⟨?_, hnot, hafter⟩
    intro hnone
    rw [hnone] at hvalue
    simp only [Option.map_none] at hvalue
    rw [← hvalue] at hlive
    cases hlive
  · rintro ⟨hvalue, hnot, hafter⟩
    obtain ⟨chunks, hchunks⟩ := Option.ne_none_iff_exists'.mp hvalue
    obtain ⟨row, hlatest, hkey, hlive⟩ :=
      (hreads name (Section.of hashes chunks)).mpr (by rw [hchunks]; rfl)
    refine ⟨row, ⟨hlatest.1, ?_⟩, by rw [hkey]⟩
    simp only [hkey, hlive, Option.isSome_some, true_and]
    exact ⟨hafter, hlatest, hnot⟩

/-- The tombstones of a page. -/
def withdrawn (s : State N M δ) (ns : N) (batch : Nat) (names : List M) : State N M δ :=
  { s with
    sections := names.foldl (fun rows name => Version.put rows ⟨(ns, name), batch, none⟩) s.sections
    retired := names.foldl (fun retired name => insertIgnore retired ((ns, name), batch)) s.retired }

section

omit [DecidableEq δ]

theorem withdrawn_cons (s : State N M δ) (ns : N) (batch : Nat) (name : M) (names : List M) :
    withdrawn s ns batch (name :: names) =
      withdrawn
        { s with
          sections := Version.put s.sections ⟨(ns, name), batch, none⟩
          retired := retire s (ns, name) batch } ns batch names := rfl

theorem Sound.withdrawOne (h : Sound hashes s) (hstage : s.stage = some stage)
    (key : N × M) :
    Sound hashes { s with
      sections := Version.put s.sections ⟨key, stage.batch, none⟩
      retired := retire s key stage.batch } := by
  have hwrite : Sound hashes { s with
      sections := Version.put s.sections ⟨key, stage.batch, none⟩
      chunks := s.chunks, retired := retire s key stage.batch
      seen := s.seen, stage := some stage } := by
    apply h.write hstage
    · rfl
    · exact id
    · exact (List.append_nil _).symm
    · simp
    · exact fun hvalue => absurd rfl hvalue
    · exact fun task htask => mem_retire.mp htask
    · exact fun task htask => mem_retire.mpr (.inl htask)
    · exact h.seenBelow
    · intro v hv
      cases hv
  rw [← hstage] at hwrite
  exact hwrite

theorem Sound.withdrawn (h : Sound hashes s) (hstage : s.stage = some stage)
    (ns : N) (names : List M) :
    Sound hashes (withdrawn s ns stage.batch names) ∧
    (∀ row ∈ (withdrawn s ns stage.batch names).sections, row ∈ s.sections ∨
      row.batch = stage.batch ∧ row.key.1 = ns) ∧
    (∀ key value, Version.ReadsAs (Version.Seen (Published s) none) s.sections key value →
      Version.ReadsAs (Version.Seen (Published s) none)
        (withdrawn s ns stage.batch names).sections key value) ∧
    (∀ key value, key.1 ≠ ns →
      Version.ReadsAs (Version.Seen (Published s) (some stage.batch)) s.sections key value →
      Version.ReadsAs (Version.Seen (Published s) (some stage.batch))
        (withdrawn s ns stage.batch names).sections key value) ∧
    ∀ name value,
      Version.ReadsAs (Version.Seen (Published s) (some stage.batch)) s.sections (ns, name) value →
      Version.ReadsAs (Version.Seen (Published s) (some stage.batch))
        (withdrawn s ns stage.batch names).sections (ns, name)
        (if name ∈ names then none else value) := by
  induction names generalizing s with
  | nil =>
    refine ⟨h, fun row hrow => .inl hrow, fun _ _ hreads => hreads, fun _ _ _ hreads => hreads, ?_⟩
    intro name value hreads
    simp only [List.not_mem_nil, if_false]
    exact hreads
  | cons first names ih =>
    have hopen : s.marker = some stage.batch := by simp [State.marker, hstage]
    obtain ⟨hunseen, hothers⟩ := put_others h hstage (ns, first) none
    obtain ⟨hsound', hrows', hunseen', hothers', hnames'⟩ := ih (h.withdrawOne hstage (ns, first)) hstage
    rw [withdrawn_cons]
    refine ⟨hsound', ?_, ?_, ?_, ?_⟩
    · intro row hrow
      rcases hrows' row hrow with hold | hnew
      · rcases Version.mem_put.mp hold with rfl | ⟨hold, -⟩
        · exact .inr ⟨rfl, rfl⟩
        · exact .inl hold
      · exact .inr hnew
    · exact fun key value hreads => hunseen' key value (hunseen key value hreads)
    · exact fun key value hne hreads => hothers' key value hne (hothers key value hne hreads)
    · intro name value hreads
      by_cases heq : name = first
      · have hself := h.kept.write_self hopen (ns, name) none
        rw [hopen, heq] at hself
        have hrest := hnames' name none (by rw [heq]; exact hself)
        rw [ite_self] at hrest
        rw [if_pos (by simp [heq])]
        exact hrest
      · have hother : (ns, name) ≠ (⟨(ns, first), stage.batch, none⟩ :
            Version (N × M) (Section δ)).key := by simp [heq]
        have hput := hreads.put_other hother
        have hrest := hnames' name value hput
        simp only [List.mem_cons, heq, false_or]
        exact hrest

omit [DecidableEq N] in
/-- The page is what the new cursor passes of the map, but for what was named. -/
theorem scanned_page (value : Content → Section δ) {merged : M → Option Content}
    {named : M → Prop} [DecidablePred named] {left page : List M} {after : Option M} {last : M}
    (hmem : ∀ name, name ∈ left ↔
      (if (∃ cursor ∈ after, name ≤ cursor) ∧ ¬ named name then none else merged name) ≠ none ∧
        ¬ named name ∧ ∀ cursor ∈ after, cursor < name)
    (hsorted : left.Pairwise (· ≤ ·)) {n : Nat} (hpage : page = left.take n) (hlast : last ∈ page)
    (hle : ∀ name ∈ page, name ≤ last) (hafter : ∀ cursor ∈ after, cursor < last) (name : M) :
    (if name ∈ page then none
      else (if (∃ cursor ∈ after, name ≤ cursor) ∧ ¬ named name then none
        else merged name).map value) =
      (if (∃ cursor ∈ some last, name ≤ cursor) ∧ ¬ named name then none
        else merged name).map value := by
  have hleft : ∀ x ∈ page, x ∈ left := by
    intro x hx
    rw [hpage] at hx
    exact List.mem_of_mem_take hx
  by_cases hnamed : named name
  · have hout : name ∉ page := fun hname => ((hmem name).mp (hleft name hname)).2.1 hnamed
    simp [hnamed, hout]
  · by_cases hpassed : name ≤ last
    · rw [if_pos (c := (∃ cursor ∈ some last, name ≤ cursor) ∧ ¬ named name)
        ⟨⟨last, rfl, hpassed⟩, hnamed⟩]
      split
      · rfl
      · rename_i hout
        by_cases hcursor : ∃ cursor ∈ after, name ≤ cursor
        · rw [if_pos ⟨hcursor, hnamed⟩]
        · rw [if_neg fun hboth => hcursor hboth.1]
          by_cases hmerged : merged name = none
          · rw [hmerged]
          · exfalso
            apply hout
            rw [hpage] at hlast ⊢
            apply mem_take_of_le hsorted hlast ?_ hpassed
            rw [hmem, if_neg fun hboth => hcursor hboth.1]
            exact ⟨hmerged, hnamed, fun cursor hcursor' =>
              not_le.mp fun hle' => hcursor ⟨cursor, hcursor', hle'⟩⟩
    · have hout : name ∉ page := fun hname => hpassed (hle name hname)
      have hcursor : ¬ ∃ cursor ∈ after, name ≤ cursor := by
        rintro ⟨cursor, hcursor, hle'⟩
        exact hpassed (hle'.trans (hafter cursor hcursor).le)
      rw [if_neg hout, if_neg fun hboth => hcursor hboth.1, if_neg]
      rintro ⟨⟨_, ⟨⟩, hle'⟩, -⟩
      exact hpassed hle'

end

/-- **A page of the scan.** -/
theorem refines_withdraw {limits : Limits} (h : Refines hashes s maps)
    (hstep : withdraw limits s = some s') : Refines hashes s' maps := by
  cases hstage : s.stage with
  | none => simp [withdraw, hstage] at hstep
  | some stage =>
    cases hrunning : stage.running with
    | none => simp [withdraw, hstage, hrunning] at hstep
    | some running =>
      simp only [withdraw, hstage, hrunning] at hstep
      split at hstep
      · rename_i after hcomplete hphase
        split at hstep
        · cases hstep
        · rename_i last hlast
          cases hstep
          obtain ⟨staged, merged, named, hmaps, hcall, hruns⟩ := h.call hstage hrunning
          have hreads := hruns.reads
          rw [hphase] at hreads
          have hmem := mem_missing h.sound hstage hreads after
          set page := (missing s stage.batch running.namespace_ after).take limits.writeRows
            with hpage
          have hsorted : (missing s stage.batch running.namespace_ after).Pairwise (· ≤ ·) :=
            List.pairwise_mergeSort' (· ≤ ·) _
          have hlast' : last ∈ page := List.mem_of_getLast? hlast
          have hpage' : ∀ name ∈ page, name ≤ last := fun name hname =>
            le_of_getLast? (hsorted.sublist (List.take_sublist _ _)) hlast hname
          have hafter := ((hmem last).mp (List.mem_of_mem_take hlast')).2.2
          obtain ⟨hsound, hrows, hunseen, hothers, hnames⟩ :=
            h.sound.withdrawn hstage running.namespace_ page
          have hmaps' : maps = { maps with stage := some { staged with
              call := some (running.call merged named) } } := by
            obtain ⟨published, _⟩ := maps
            cases hmaps
            rw [← hcall]
          rw [hmaps']
          apply h.advance hstage hrunning hmaps
          rotate_left
          · exact ⟨rfl, rfl, rfl, rfl⟩
          · rfl
          · exact hrows
          · exact fun row hrow => .inl hrow
          · exact hunseen
          · exact hothers
          · exact { hruns with
              reads := by
                intro name
                have hname := hnames name _ (hreads name)
                have hscanned := scanned_page (Section.of hashes) hmem hsorted hpage hlast'
                  hpage' hafter name
                exact Eq.mp (congrArg (Version.ReadsAs _ _ _) hscanned) hname
              delta := by
                intro hdelta
                rw [hcomplete] at hdelta
                cases hdelta }
          · apply hsound.note hstage
            · rfl
            · exact id
            · exact h.sound.seenBelow
      · cases hstep

/-! ## the end of a checkpoint -/

theorem Runs.result {running : Running N M} {merged named : Dict M Content}
    (hruns : Runs hashes s stage running (running.call merged named)) (hsound : Sound hashes s)
    (hstage : s.stage = some stage) {after : Option M} (hphase : running.phase = .scan after)
    (hscanned : running.complete = true → missing s stage.batch running.namespace_ after = []) :
    ReadsMap hashes s (some stage.batch) running.namespace_
      (running.call merged named).result.get? := by
  have hreads : ReadsMap hashes s (some stage.batch) running.namespace_ fun name =>
      if (∃ cursor ∈ after, name ≤ cursor) ∧
          (⟨stage.batch, (running.namespace_, name)⟩ : Seen N M) ∉ s.seen then none
      else merged.get? name := by
    have hreads := hruns.reads
    rw [hphase] at hreads
    exact hreads
  intro name
  have hread := hreads name
  suffices hsame : (if (∃ cursor ∈ after, name ≤ cursor) ∧
      (⟨stage.batch, (running.namespace_, name)⟩ : Seen N M) ∉ s.seen then none
    else merged.get? name) = (running.call merged named).result.get? name by
    rw [← hsame]
    exact hread
  cases hcomplete : running.complete with
  | false =>
    have hafter := hruns.delta hcomplete
    rw [hphase] at hafter
    have hnone : after = none := hafter
    simp [Call.result, hcomplete, hnone]
  | true =>
    have hmissing := mem_missing hsound hstage hreads after name
    simp only [hscanned hcomplete, List.not_mem_nil, false_iff] at hmissing
    simp only [Call.result, hcomplete, if_true]
    by_cases hnamed : (⟨stage.batch, (running.namespace_, name)⟩ : Seen N M) ∈ s.seen
    · rw [if_neg fun hboth => hboth.2 hnamed]
      exact hruns.listed name hnamed
    · rw [hruns.unlisted name hnamed]
      split
      · rfl
      · rename_i hcursor
        rw [if_neg hcursor] at hmissing
        by_contra hvalue
        exact hmissing ⟨hvalue, hnamed, fun cursor hcursor' => not_le.mp fun hle =>
          hcursor ⟨⟨cursor, hcursor', hle⟩, hnamed⟩⟩

omit [DecidableEq δ] [LinearOrder M] in
theorem version_append {v : CheckpointVersion N} {ns : N} {batch : Nat} :
    version { s with versions := s.versions ++ [v] } ns batch =
      (version s ns batch).or (if v.namespace_ = ns ∧ v.batch = batch then some v else none) := by
  rw [version, List.find?_append, version]
  congr 1
  by_cases hsame : v.namespace_ = ns ∧ v.batch = batch
  · simp [hsame]
  · rw [if_neg hsame, List.find?_cons_of_neg (by simpa using hsame)]
    rfl

/-- **The end of a checkpoint**: its namespace is staged with the map that it leaves. -/
theorem refines_finish {limits : Limits} (h : Refines hashes s maps)
    (hstep : finish limits s = some s') :
    Refines hashes s' (maps.step (.finish : Event N M δ)) := by
  cases hstage : s.stage with
  | none => simp [finish, hstage] at hstep
  | some stage =>
    cases hrunning : stage.running with
    | none => simp [finish, hstage, hrunning] at hstep
    | some running =>
      simp only [finish, hstage, hrunning] at hstep
      split at hstep
      · rename_i after hphase
        split at hstep
        · cases hstep
        · rename_i hscanned
          split at hstep
          · cases hstep
          · rename_i hfree
            cases hstep
            simp only [not_or, Option.not_isSome_iff_eq_none] at hfree
            obtain ⟨staged, hmaps, hstaged⟩ := h.stage stage hstage
            obtain ⟨hmem, ⟨ns, complete, merged, named⟩, hcall, hruns⟩ :=
              hstaged.running running hrunning
            obtain rfl : ns = running.namespace_ := hruns.ns
            obtain rfl : complete = running.complete := hruns.complete
            have hmarker : s.marker = some stage.batch := by simp [State.marker, hstage]
            have hresult := hruns.result h.sound hstage hphase fun hcomplete => by
              by_contra hne
              exact hscanned ⟨hcomplete, hne⟩
            have hmaps' : maps.step (.finish : Event N M δ) = ⟨maps.published, some ⟨fun ns =>
                if ns = running.namespace_ then some (running.call merged named).result
                else staged.done ns, none⟩⟩ := by
              simp [Maps.step, hmaps, hcall]
            rw [hmaps']
            have hnote : Sound hashes { s with seen := s.seen, stage := some { stage with
                totals := some ((running.namespace_, running.total, running.count) ::
                  (stage.totals.getD []).filter (·.1 ≠ running.namespace_))
                running := none } } := by
              apply h.sound.note hstage
              · rfl
              · exact id
              · exact h.sound.seenBelow
            constructor
            · exact { hnote with
                versionsBelow := by
                  intro v hv
                  rcases List.mem_append.mp hv with hold | hnew
                  · exact h.sound.versionsBelow v hold
                  · rw [List.mem_singleton.mp hnew]
                    exact h.sound.below _ (h.sound.open_ stage hstage) }
            · exact h.published
            · intro ns hns
              have hhead := h.heads ns hns
              cases hmap : maps.published ns with
              | none =>
                rw [hmap] at hhead
                exact hhead
              | some map =>
                rw [hmap] at hhead
                obtain ⟨batch, hget, hpublished, v, hv, htotals⟩ := hhead
                refine ⟨batch, hget, hpublished, v, ?_, htotals⟩
                refine version_append.trans ?_
                rw [hv]
                rfl
            · simp
            · rintro _ ⟨⟩
              refine ⟨_, rfl, ?_⟩
              exact {
                touched := hstaged.touched
                named := hstaged.named
                nodup := hstaged.nodup
                done := by
                  intro ns map hdone
                  dsimp only at hdone
                  split at hdone
                  · rename_i heq
                    cases hdone
                    rw [heq]
                    refine ⟨hmem, by simp, ⟨⟨running.namespace_, stage.batch, running.token,
                      running.total, running.count⟩, version_append.trans ?_, hruns.total,
                      hruns.count⟩, hresult⟩
                    rw [hfree.2]
                    simp
                  · obtain ⟨hin, -, ⟨v, hv, htotals⟩, hreads⟩ := hstaged.done ns map hdone
                    refine ⟨hin, by simp, ⟨v, version_append.trans ?_, htotals⟩, hreads⟩
                    rw [hv]
                    rfl
                undone := by
                  intro ns hnone
                  dsimp only at hnone
                  split at hnone
                  · cases hnone
                  · rename_i hne
                    refine version_append.trans ?_
                    rw [hstaged.undone ns hnone, if_neg]
                    · rfl
                    · exact fun hsame => hne hsame.1.symm
                finished := by
                  intro hfailed ns hns
                  left
                  dsimp only
                  split
                  · simp
                  · rename_i hne
                    rcases hstaged.finished hfailed ns hns with hdone | ⟨_, hrunning', hsame⟩
                    · exact hdone
                    · cases hrunning.symm.trans hrunning'
                      exact absurd hsame.symm hne
                totals := by
                  rintro _ ⟨⟩ ns hns
                  have hne : ns ≠ running.namespace_ := by
                    rintro rfl
                    exact hns hmem
                  obtain ⟨totals, htotals⟩ := Option.ne_none_iff_exists'.mp hruns.budget
                  rw [List.find?_cons_of_neg (by simpa using hne.symm), find?_filter_keep, htotals]
                  · exact hstaged.totals totals htotals ns hns
                  · intro entry _ hsame
                    simp only [decide_eq_true_eq] at hsame ⊢
                    rw [hsame]
                    exact hne
                running := by simp }
            · intro hnone
              cases hnone
      · cases hstep

end Codexon.PreparedCheckpoint
