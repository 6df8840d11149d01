import Codexon.QuotaPeriods.Groups
import Codexon.QuotaPeriods.Resume

/-!
# Codexon.QuotaPeriods.Reuse

The periods that are taken over from the history before are those of the new one.
-/

namespace Codexon.QuotaPeriods

open List

open PackedRows Keyed

/-! ## periods of rows -/

variable {y : Yield} {ys : List Yield} {group : Group} {state : Checkpoint}

def Yield.continues (y : Yield) : Bool := y.row.resetKind.isNone

theorem collect_some (group : Group) (state : Checkpoint) (ys : List Yield) :
    collect (some (group, state)) ys =
      ({ group with rows := group.rows ++ (ys.takeWhile Yield.continues).map Yield.row }, state) ::
        collect none (ys.dropWhile Yield.continues) := by
  induction ys generalizing group with
  | nil => simp [collect]
  | cons y ys ih =>
    rw [collect]
    by_cases hy : y.row.resetKind.isSome
    · have hcontinues : y.continues = false := by
        rw [Yield.continues, Option.isNone_eq_false_iff, hy]
      simp only [hy, if_true]
      simp [hcontinues, collect]
    · have hcontinues : y.continues = true := by
        simpa [Yield.continues] using hy
      simp only [hy, Bool.false_eq_true, if_false]
      rw [ih]
      simp [hcontinues]

theorem collect_cons (y : Yield) (ys : List Yield) :
    collect none (y :: ys) =
      ({ y.opens.1 with rows := y.row :: (ys.takeWhile Yield.continues).map Yield.row }, y.value) ::
        collect none (ys.dropWhile Yield.continues) := by
  rw [collect, Yield.opens, collect_some]
  rfl

theorem collect_append (ys : List Yield) {rest : List Yield}
    (h : ∀ y ∈ rest.head?, ys = [] ∨ y.row.resetKind.isSome) :
    collect none (ys ++ rest) = collect none ys ++ collect none rest := by
  cases rest with
  | nil => simp [collect]
  | cons y rest =>
    have hy : ys = [] ∨ y.row.resetKind.isSome := h y rfl
    clear h
    induction hn : ys.length using Nat.strong_induction_on generalizing ys with
    | _ n ih =>
      cases ys with
      | nil => simp [collect]
      | cons x ys =>
        have hreset : y.row.resetKind.isSome := by simpa using hy
        have hcontinues : y.continues = false := by
          rw [Yield.continues, Option.isNone_eq_false_iff, hreset]
        have hlength : (ys.dropWhile Yield.continues).length < n := by
          have hle : (ys.dropWhile Yield.continues).length ≤ ys.length :=
            (dropWhile_sublist _).length_le
          rw [length_cons] at hn
          omega
        have htake : (ys ++ y :: rest).takeWhile Yield.continues =
            ys.takeWhile Yield.continues := by
          rw [takeWhile_append]
          split
          next hall => simp [hcontinues, List.Sublist.eq_of_length (takeWhile_sublist _) hall]
          · rfl
        have hdrop : (ys ++ y :: rest).dropWhile Yield.continues =
            ys.dropWhile Yield.continues ++ y :: rest := by
          rw [dropWhile_append]
          split
          next hempty => simp [hcontinues, isEmpty_iff.mp hempty]
          · rfl
        rw [cons_append, collect_cons, collect_cons x ys, htake, hdrop,
          ih _ hlength _ (.inr hreset) rfl, cons_append]

/-- A period begins at row `i`. -/
def Starts (ys : List Yield) (i : Nat) (y : Yield) : Prop :=
  ys[i]? = some y ∧ (i = 0 ∨ y.row.resetKind.isSome)

theorem exists_first (y : Yield) (ys : List Yield) : ∃ own rest closed, y :: ys = own ++ rest ∧
    own ≠ [] ∧ (∀ r ∈ rest.head?, r.row.resetKind.isSome) ∧
    collect none own = [closed] ∧ closed.1.start = y.row.record.time ∧ closed.2 = y.value := by
  have hall : ∀ x ∈ ys.takeWhile Yield.continues, x.continues := fun x hx =>
    mem_takeWhile_imp hx
  have hown : collect none (y :: ys.takeWhile Yield.continues) =
      [({ y.opens.1 with rows := y.row :: (ys.takeWhile Yield.continues).map Yield.row },
        y.value)] := by
    rw [collect_cons, takeWhile_eq_self_iff.mpr hall, dropWhile_eq_nil_iff.mpr hall]
    rfl
  refine ⟨y :: ys.takeWhile Yield.continues, ys.dropWhile Yield.continues, _, ?_, by simp, ?_,
    hown, rfl, rfl⟩
  · rw [cons_append, takeWhile_append_dropWhile]
  · intro r hr
    have := head?_dropWhile_not Yield.continues ys
    rw [Option.mem_def.mp hr] at this
    simpa [Yield.continues] using this

theorem exists_starts {k : Nat} {closed : Group × Checkpoint}
    (h : (collect none ys)[k]? = some closed) :
    ∃ i y, Starts ys i y ∧ closed.1.start = y.row.record.time ∧ closed.2 = y.value ∧
      collect none (ys.take i) = (collect none ys).take k := by
  induction hn : ys.length using Nat.strong_induction_on generalizing ys k with
  | _ n ih =>
    cases ys with
    | nil => simp [collect] at h
    | cons x ys =>
      obtain ⟨own, rest, first, hsplit, hown, hrest, hfirst, hstart, hvalue⟩ :=
        exists_first x ys
      have hcollect : collect none (x :: ys) = first :: collect none rest := by
        rw [hsplit, collect_append own fun r hr => .inr (hrest r hr), hfirst]
        rfl
      rw [hcollect] at h ⊢
      cases k with
      | zero =>
        obtain rfl : first = closed := by simpa using h
        exact ⟨0, x, ⟨rfl, .inl rfl⟩, hstart, hvalue, rfl⟩
      | succ k =>
        have hlength : rest.length < n := by
          have := length_pos_of_ne_nil hown
          have hlength := congrArg List.length hsplit
          rw [length_append] at hlength
          omega
        obtain ⟨i, y, ⟨hy, hstarts⟩, hstart', hvalue', htake⟩ :=
          ih _ hlength (by simpa using h) rfl
        have hreset : y.row.resetKind.isSome := by
          rcases hstarts with rfl | hreset
          · exact hrest y (by rw [head?_eq_getElem?]; exact hy)
          · exact hreset
        refine ⟨own.length + i, y, ⟨?_, .inr hreset⟩, hstart', hvalue', ?_⟩
        · rw [hsplit, List.getElem?_append_right (by omega)]
          simpa using hy
        · have hcut : (x :: ys).take (own.length + i) = own ++ rest.take i := by
            rw [hsplit, take_append]
            simp
          have hhead : ∀ r ∈ (rest.take i).head?, own = [] ∨ r.row.resetKind.isSome := by
            intro r hr
            cases i with
            | zero => simp at hr
            | succ i => exact .inr (hrest r (by simpa [head?_take] using hr))
          rw [hcut, collect_append own hhead, hfirst, htake]
          rfl

/-! ## rows before a time -/

variable {plan : Plan} {value : Option Checkpoint} {s : State}

theorem record_mem {rs : List Record} (h : y ∈ rowsFrom plan value s rs) : y.row.record ∈ rs := by
  obtain ⟨i, hi⟩ := List.getElem?_of_mem h
  obtain ⟨_, _, before, after, hreached⟩ := exists_reached hi
  rw [hreached.split]
  simp

theorem rowsFrom_append (plan : Plan) (value : Option Checkpoint) (s : State)
    (before after : List Record) :
    ∃ zs, rowsFrom plan value s (before ++ after) = rowsFrom plan value s before ++ zs ∧
      ∀ z ∈ zs, z.row.record ∈ after := by
  induction before generalizing value s with
  | nil => exact ⟨rowsFrom plan value s after, rfl, fun z hz => record_mem hz⟩
  | cons r before ih =>
    rw [cons_append, rowsFrom, rowsFrom]
    cases s.step plan r with
    | skip s => exact ih value s
    | yield row s' =>
      simp only
      generalize (if row.resetKind.isSome then (r.time, s) else value.getD (r.time, s)) = saved
      obtain ⟨zs, hzs, hmem⟩ := ih (some saved) s'
      exact ⟨zs, by rw [hzs, cons_append], hmem⟩
    | stop => exact ⟨[], rfl, by simp⟩

theorem take_rowsFrom {rs rs' : List Record} {c : ℚ} {i : Nat}
    (hsorted : Keyed.Sorted Record.time rs) (hsorted' : Keyed.Sorted Record.time rs')
    (hbefore : select Record.time (· < c) rs = select Record.time (· < c) rs')
    (hy : (rowsFrom plan value s rs)[i]? = some y) (htime : y.row.record.time < c) :
    (rowsFrom plan value s rs').take (i + 1) = (rowsFrom plan value s rs).take (i + 1) := by
  rw [select_split hsorted c] at hy ⊢
  rw [select_split hsorted' c, ← hbefore]
  generalize select Record.time (· < c) rs = before at hy ⊢
  obtain ⟨zs, hzs, hmem⟩ := rowsFrom_append plan value s before
    (select Record.time (c ≤ ·) rs)
  obtain ⟨zs', hzs', -⟩ := rowsFrom_append plan value s before
    (select Record.time (c ≤ ·) rs')
  rw [hzs] at hy ⊢
  rw [hzs']
  have hi : i < (rowsFrom plan value s before).length := by
    by_contra hle
    rw [List.getElem?_append_right (not_lt.mp hle)] at hy
    have hz := hmem y (mem_of_getElem? hy)
    have := (List.mem_filter.mp hz).2
    simp only [decide_eq_true_eq] at this
    exact absurd htime (not_lt.mpr this)
  rw [take_append_of_le_length (by omega), take_append_of_le_length (by omega)]

/-! ## two histories -/

variable {δ : Type} {enc : Encoding Record δ} {report : Report} {source : Packed ℚ}
variable {bs bs' : List (List Record)} {names : List (Option PyStr)} {c : ℚ}

def Report.before (report : Report) (names : List (Option PyStr)) (source : Packed ℚ) : Report :=
  { report with cycleAccounts := names, history := source }

theorem candidates_before (h : History enc reader report.history bs)
    (h' : History enc reader source bs') (henc : enc.Faithful)
    (hobserved : (report.before names source).observed enc .weekly = report.observed enc .weekly)
    (hshared : select Record.time (· < c) bs'.flatten = select Record.time (· < c) bs.flatten)
    (resumeAt : Option ℚ) :
    select Record.time (· < c) ((report.before names source).candidates enc .weekly resumeAt) =
      select Record.time (· < c) (report.candidates enc .weekly resumeAt) := by
  have hnone : select Record.time (· < c)
      ((report.before names source).candidates enc .weekly none) =
      select Record.time (· < c) (report.candidates enc .weekly none) := by
    have hidentified : (report.before names source).identified enc .weekly =
        report.identified enc .weekly := by
      rw [Report.identified, Report.identified, hobserved]
      rfl
    have hrecords : select Record.time (· < c)
        ((report.before names source).records enc .weekly none) =
        select Record.time (· < c) (report.records enc .weekly none) := by
      have hiter : (report.before names source).history.iter enc = bs'.flatten := iter_eq h' henc
      simp only [Report.records, hiter, iter_eq h henc]
      rw [select_gather h.sorted, select_gather h'.sorted, hshared]
      rfl
    rw [Report.candidates, Report.candidates, select_filter, select_filter, hrecords, hidentified]
    rfl
  cases resumeAt with
  | none => exact hnone
  | some t =>
    have h'' : History enc reader (report.before names source).history bs' := h'
    have hcomm (rs : List Record) : select Record.time (· < c) (select Record.time (t ≤ ·) rs) =
        select Record.time (t ≤ ·) (select Record.time (· < c) rs) := select_filter _ _
    rw [candidates_from h'' henc, candidates_from h henc, hcomm, hcomm, hnone]

/-! ## shared blocks -/

/-- The same object is equal to itself. -/
structure SameObject.Lawful (same : SameObject) : Prop where
  block : ∀ {a b}, same.block a b → a = b
  history : ∀ {a b}, same.history a b → a = b

theorem take_common {same : SameObject} (hsame : same.Lawful) (old new : List Bytes) :
    old.take (same.common old new) = new.take (same.common old new) := by
  induction old generalizing new with
  | nil => simp [SameObject.common]
  | cons a old ih =>
    cases new with
    | nil => simp [SameObject.common]
    | cons b new =>
      by_cases hab : same.block a b
      · have hcommon : same.common (a :: old) (b :: new) = same.common old new + 1 := by
          simp [SameObject.common, hab]
        rw [hcommon, take_succ_cons, take_succ_cons, hsame.block hab, ih]
      · simp [SameObject.common, hab]

theorem take_blocks (h : History enc reader report.history bs) (h' : History enc reader source bs')
    (henc : enc.Faithful) {k : Nat} (hk : source.blocks.take k = report.history.blocks.take k) :
    bs'.take k = bs.take k := by
  rw [h.blocks, h'.blocks, ← map_take, ← map_take] at hk
  have hdecode := congrArg (List.map enc.decode) hk
  simpa [List.map_map, Function.comp_def, henc.decode_encode] using hdecode

theorem select_shared (h : History enc reader report.history bs)
    (h' : History enc reader source bs') (henc : enc.Faithful) {k : Nat}
    (hblocks : source.blocks.take (k + 1) = report.history.blocks.take (k + 1))
    (hend : source.timeEnds[k]? = some c) :
    select Record.time (· < c) bs'.flatten = select Record.time (· < c) bs.flatten := by
  have htake := take_blocks h h' henc hblocks
  have hends := h.timeEnds h.timestamped
  have hends' := h'.timeEnds h'.timestamped
  have hk : k < bs'.length := by
    rw [← h'.length_timeEnds]
    exact (List.getElem?_eq_some_iff.mp hend).1
  have hget : bs[k]? = some bs'[k] := by
    rw [← List.getElem?_take_of_lt (Nat.lt_succ_self k), ← htake,
      List.getElem?_take_of_lt (Nat.lt_succ_self k), List.getElem?_eq_getElem hk]
  have hend' : report.history.timeEnds[k]? = some c := by
    obtain ⟨last, hlast, heq⟩ := getElem?_timeEnds hends hget
    obtain ⟨last', hlast', heq'⟩ := getElem?_timeEnds hends' (List.getElem?_eq_getElem hk)
    rw [heq, ← hend, heq', Option.mem_unique hlast hlast']
  have hlater {cs : List (List Record)} (hsorted : Sorted reader cs.flatten)
      {timeEnds : List ℚ} (hends : timeEnds.map some = cs.map (lastTime reader))
      (hend : timeEnds[k]? = some c) :
      select Record.time (· < c) cs.flatten =
        select Record.time (· < c) (cs.take (k + 1)).flatten := by
    have hafter : select Record.time (· < c) (cs.drop (k + 1)).flatten = [] :=
      filter_eq_nil_iff.mpr fun r hr => by
        have hle : c ≤ r.time := le_of_mem_drop hends hsorted hend hr
        simpa using hle
    conv_lhs => rw [← take_append_drop (k + 1) cs, flatten_append, select_append, hafter,
      List.append_nil]
  rw [hlater h'.sorted hends' hend, hlater h.sorted hends hend', htake]

/-! ## entries -/

variable {pickles : Pickles δ} {same : SameObject} {cache : GroupCache δ} {old : Report}

/-- The cache of a view: that of the report of which it was made. -/
structure Keeps (enc : Encoding Record δ) (pickles : Pickles δ) (old : Report)
    (cache : GroupCache δ) : Prop where
  context : cache.context = enc.sha256 (pickles.dumpsContext (old.context enc))
  source : cache.source = old.history
  groups : ∀ groups ∈ cache.groups, groups = old.entriesFrom enc pickles old.historyResume

theorem of_reuseCount {groups : List (Entry δ)} {history : Packed ℚ}
    (hother : same.history source history = false) (h : reuseCount same source groups history ≠ 0) :
    ∃ k c entry, same.common source.blocks history.blocks = k + 1 ∧ source.timeEnds[k]? = some c ∧
      groups[reuseCount same source groups history]? = some entry ∧ entry.start < c := by
  generalize hreuse : reuseCount same source groups history = reuse at h ⊢
  simp only [reuseCount, hother, Bool.false_eq_true, if_false] at hreuse
  split at hreuse
  · omega
  next hcommon =>
    split at hreuse
    · omega
    next c hend =>
      refine ⟨same.common source.blocks history.blocks - 1, c, ?_⟩
      have hlength : reuse < groups.length := by
        rw [length_map] at hreuse
        omega
      have hlt : reuse < bisectLeft (groups.map Entry.start) c := by omega
      refine ⟨groups[reuse], by omega, hend, List.getElem?_eq_getElem hlength, ?_⟩
      exact lt_of_lt_bisectLeft hlt (by simp [hlength])

theorem rows_shared (h : History enc reader report.history bs) (h' : History enc reader source bs')
    (henc : enc.Faithful)
    (hobserved : (report.before names source).observed enc .weekly = report.observed enc .weekly)
    (hshared : select Record.time (· < c) bs'.flatten = select Record.time (· < c) bs.flatten)
    {i : Nat} {resume : Option Checkpoint}
    (hy : Starts (historyRows enc (report.before names source) .weekly none none resume) i y)
    (htime : y.row.record.time < c) : Starts (historyRows enc report .weekly none none resume) i y ∧
      (historyRows enc report .weekly none none resume).take i =
        (historyRows enc (report.before names source) .weekly none none resume).take i := by
  have hsorted : Keyed.Sorted Record.time
      (report.candidates enc .weekly (resume.map Prod.fst)) := sorted_candidates_from h henc _
  have h'' : History enc reader (report.before names source).history bs' := h'
  have hsorted' : Keyed.Sorted Record.time
      ((report.before names source).candidates enc .weekly (resume.map Prod.fst)) :=
    sorted_candidates_from h'' henc _
  have hbefore := candidates_before h h' henc hobserved hshared (resume.map Prod.fst)
  have hselect {rs : List Record} (hrs : Keyed.Sorted Record.time rs) :
      select Record.time (· < c) (preferred none rs) =
        preferred none (select Record.time (· < c) rs) := select_preferred (by simpa using hrs)
  have hpreferred {rs : List Record} (hrs : Keyed.Sorted Record.time rs) :
      Keyed.Sorted Record.time (preferred none rs) :=
    (pairwise_preferred (by simpa using hrs)).imp fun h => h.le
  have htake := take_rowsFrom (hpreferred hsorted') (hpreferred hsorted)
    (by rw [hselect hsorted', hselect hsorted, hbefore]) hy.1 htime
  change (historyRows enc report .weekly none none resume).take (i + 1) =
    (historyRows enc (report.before names source) .weekly none none resume).take (i + 1) at htake
  refine ⟨⟨?_, hy.2⟩, ?_⟩
  · rw [← List.getElem?_take_of_lt (Nat.lt_succ_self i), htake,
      List.getElem?_take_of_lt (Nat.lt_succ_self i)]
    exact hy.1
  · have := congrArg (List.take i) htake
    simpa [take_take] using this

/-- Contexts do not collide. -/
structure Pickles.Faithful (pickles : Pickles δ) : Prop where
  dumpsContext_injective : Function.Injective pickles.dumpsContext

theorem eq_before (henc : enc.Faithful) (hpickles : pickles.Faithful)
    (hcontext : enc.sha256 (pickles.dumpsContext (old.context enc)) =
      enc.sha256 (pickles.dumpsContext (report.context enc)))
    (hidentified : old.historyIdentified = report.historyIdentified)
    (hresume : old.historyResume = report.historyResume) :
    ∃ names, old = report.before names old.history ∧ old.groupAccount = report.groupAccount ∧
      old.observed enc .weekly = report.observed enc .weekly := by
  have heq := hpickles.dumpsContext_injective (henc.sha256_injective hcontext)
  simp only [Report.context, Context.mk.injEq] at heq
  obtain ⟨haccount, hgroup, hcontrols, hclears, hobserved⟩ := heq
  refine ⟨old.cycleAccounts, ?_, hgroup, hobserved⟩
  cases old
  cases report
  simp only at haccount hcontrols hclears hidentified hresume
  subst haccount hcontrols hclears hidentified hresume
  rfl

variable [DecidableEq δ]

theorem of_reusable {groups : List (Entry δ)}
    (h : report.reusable enc pickles (some cache) = some (source, groups)) :
    cache.groups = some groups ∧ cache.source = source ∧
      cache.context = enc.sha256 (pickles.dumpsContext (report.context enc)) := by
  simp only [Report.reusable] at h
  cases hgroups : cache.groups with
  | none => simp [hgroups] at h
  | some found =>
    simp only [hgroups, Option.bind_eq_bind, Option.bind_some] at h
    split at h
    next hcontext =>
      simp only [Option.pure_def, Option.some.injEq, Prod.mk.injEq] at h
      exact ⟨by rw [h.2], h.1, hcontext⟩
    next => simp at h

/-- **Entries that are reused are those of the whole run.** -/
theorem entries_eq (henc : enc.Faithful) (hpickles : pickles.Faithful) (hsame : same.Lawful)
    (h : History enc reader report.history bs) (h' : History enc reader old.history bs')
    (hkeeps : Keeps enc pickles old cache)
    (hidentified : old.historyIdentified = report.historyIdentified)
    (hresume : old.historyResume = report.historyResume) :
    report.entries enc pickles same (some cache) =
      report.entriesFrom enc pickles report.historyResume := by
  rw [Report.entries]
  cases hreusable : report.reusable enc pickles (some cache) with
  | none => rfl
  | some found =>
    obtain ⟨source, groups⟩ := found
    obtain ⟨hgroups, rfl, hcontext⟩ := of_reusable hreusable
    have hentries := hkeeps.groups groups hgroups
    rw [hkeeps.source]
    obtain ⟨names, hold, haccount, hobserved⟩ :=
      eq_before henc hpickles (hkeeps.context ▸ hcontext) hidentified hresume
    rw [hresume] at hentries
    simp only
    cases hsource : same.history old.history report.history with
    | true =>
      have heq := hsame.history hsource
      have hall : reuseCount same old.history groups report.history = groups.length := by
        simp [reuseCount, hsource]
      rw [hall, if_pos rfl, take_length, List.append_nil, hentries]
      rw [Report.entriesFrom, Report.entriesFrom, haccount, hold, heq]
      rfl
    | false =>
      rw [if_neg (by simp)]
      by_cases hreuse : reuseCount same old.history groups report.history = 0
      · rw [hreuse, if_pos rfl, take_zero, nil_append]
      · obtain ⟨k, c, entry, hcommon, hend, hentry, hstart⟩ := of_reuseCount hsource hreuse
        have hblocks := take_common hsame old.history.blocks report.history.blocks
        rw [hcommon] at hblocks
        have hshared := select_shared h h' henc hblocks hend
        rw [if_neg hreuse, hentry, Option.map_some]
        generalize reuseCount same old.history groups report.history = reuse at hentry ⊢
        rw [hentries, Report.entriesFrom, List.getElem?_map, Option.map_eq_some_iff] at hentry
        obtain ⟨closed, hclosed, rfl⟩ := hentry
        obtain ⟨i, y, hy, htime, hstate, htake⟩ := exists_starts hclosed
        have hstate : (finished enc pickles old.groupAccount closed).state = y.value := hstate
        have htime : y.row.record.time < c := htime ▸ hstart
        rw [hold] at hy hobserved
        obtain ⟨hy', hrows⟩ := rows_shared h h' henc hobserved hshared hy htime
        have hresumed := historyRows_resume h henc hy'.1 hy'.2
        rw [hold, ← hrows] at htake
        rw [hstate, hentries]
        simp only [Report.entriesFrom, haccount, hresumed]
        rw [← map_take, ← map_append]
        congr 1
        conv_rhs => rw [← take_append_drop i
          (historyRows enc report .weekly none none report.historyResume)]
        rw [collect_append, hold, htake]
        intro r hr
        rw [head?_drop, hy'.1, Option.mem_some_iff] at hr
        subst hr
        rcases hy'.2 with rfl | hreset
        · exact .inl rfl
        · exact .inr hreset

end Codexon.QuotaPeriods
