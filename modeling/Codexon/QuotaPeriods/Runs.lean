import Codexon.PackedRows.Lists
import Codexon.QuotaPeriods.Reuse
import Mathlib.Data.Countable.Basic
import Mathlib.Data.Rat.Encodable
import Mathlib.Logic.Equiv.List
import Mathlib.Tactic.DeriveCountable

/-!
# Codexon.QuotaPeriods.Runs

Views that are made one after the other, each with the periods of the one before.
-/

namespace Codexon.QuotaPeriods

open PackedRows

variable {δ : Type} [DecidableEq δ] {enc : Encoding Record δ} {pickles : Pickles δ}
variable {report old : Report} {cache : GroupCache δ} {rows : List Record}

/-! ## caches -/

omit [DecidableEq δ] in
theorem foldl_remember (pickles : Pickles δ) (entries : List (Entry δ)) (cache : GroupCache δ) :
    (entries.foldl (GroupCache.remember pickles) cache).context = cache.context ∧
    (entries.foldl (GroupCache.remember pickles) cache).source = cache.source ∧
    ∀ groups ∈ (entries.foldl (GroupCache.remember pickles) cache).groups,
      ∃ before ∈ cache.groups, groups = before ++ entries := by
  induction entries generalizing cache with
  | nil => simp
  | cons entry entries ih =>
    obtain ⟨hcontext, hsource, hgroups⟩ := ih (cache.remember pickles entry)
    rw [List.foldl_cons]
    generalize hnext : cache.remember pickles entry = next at hcontext hsource hgroups ⊢
    rw [GroupCache.remember] at hnext
    split at hnext
    next hnone =>
      subst hnext
      exact ⟨hcontext, hsource, fun groups h => by simpa [hnone] using hgroups groups h⟩
    next before hbefore =>
      simp only at hnext
      split at hnext
      · subst hnext
        exact ⟨hcontext, hsource, fun groups h => by simpa using hgroups groups h⟩
      · subst hnext
        refine ⟨hcontext, hsource, fun groups h => ⟨before, hbefore, ?_⟩⟩
        obtain ⟨found, hfound, rfl⟩ := hgroups groups h
        obtain rfl : before ++ [entry] = found := Option.some.inj hfound
        simp

theorem keeps_historyGroups {same : SameObject} {previous : Option (GroupCache δ)}
    (h : report.entries enc pickles same previous =
      report.entriesFrom enc pickles report.historyResume) :
    Keeps enc pickles report (historyGroups enc pickles report same previous).2 := by
  obtain ⟨hcontext, hsource, hgroups⟩ := foldl_remember pickles
    (report.entries enc pickles same previous)
    { context := enc.sha256 (pickles.dumpsContext (report.context enc)), source := report.history }
  refine ⟨hcontext, hsource, fun groups h' => ?_⟩
  obtain ⟨found, hfound, rfl⟩ := hgroups groups h'
  obtain rfl : [] = found := Option.some.inj hfound
  rw [List.nil_append, h]

/-- The caches of views: of one without a view before, and of those after it.  The reports
begin at the same checkpoint. -/
inductive Made (enc : Encoding Record δ) (pickles : Pickles δ) : Report → GroupCache δ → Prop where
  | first {report : Report} {rows : List Record} (same : SameObject)
      (h : BuiltHistory enc reader report.history rows) :
      Made enc pickles report (historyGroups enc pickles report same none).2
  | next {old report : Report} {cache : GroupCache δ} {rows : List Record} (same : SameObject)
      (hmade : Made enc pickles old cache) (h : BuiltHistory enc reader report.history rows)
      (hsame : same.Lawful) (hidentified : old.historyIdentified = report.historyIdentified)
      (hresume : old.historyResume = report.historyResume) :
      Made enc pickles report (historyGroups enc pickles report same (some cache)).2

omit [DecidableEq δ] in
theorem entries_none [DecidableEq δ] (same : SameObject) :
    report.entries enc pickles same none = report.entriesFrom enc pickles report.historyResume :=
  rfl

theorem Made.keeps (henc : enc.Faithful) (hpickles : pickles.Faithful)
    (h : Made enc pickles old cache) :
    Keeps enc pickles old cache ∧ ∃ bs, History enc reader old.history bs := by
  induction h with
  | first same h =>
    obtain ⟨bs, -, hhistory⟩ := h.exists_history henc
    exact ⟨keeps_historyGroups (entries_none same), bs, hhistory⟩
  | next same hmade h hsame hidentified hresume ih =>
    obtain ⟨hkeeps, bs', hold⟩ := ih
    obtain ⟨bs, -, hhistory⟩ := h.exists_history henc
    exact ⟨keeps_historyGroups (entries_eq henc hpickles hsame hhistory hold hkeeps hidentified
      hresume), bs, hhistory⟩

/-- **Classification can be resumed**: at every period of a run, and with the periods of the
view before. -/
theorem periods_resumed (henc : enc.Faithful) (hpickles : pickles.Faithful) :
    (∀ report rows, BuiltHistory enc reader report.history rows →
      ∀ mode start stop i y, Starts (historyRows enc report mode start stop none) i y →
        historyRows enc report mode start stop (some y.value) =
          (historyRows enc report mode start stop none).drop i) ∧
    (∀ old cache, Made enc pickles old cache →
      ∀ report rows, BuiltHistory enc reader report.history rows →
        old.historyIdentified = report.historyIdentified →
        old.historyResume = report.historyResume → ∀ same, same.Lawful →
          (historyGroups enc pickles report same (some cache)).1 =
            (historyGroups enc pickles report same none).1) := by
  refine ⟨fun report rows h mode start stop i y hy => ?_,
    fun old cache hmade report rows h hidentified hresume same hsame => ?_⟩
  · obtain ⟨bs, -, hhistory⟩ := h.exists_history henc
    exact historyRows_resume hhistory henc hy.1 hy.2
  · obtain ⟨bs, -, hhistory⟩ := h.exists_history henc
    obtain ⟨hkeeps, bs', hold⟩ := hmade.keeps henc hpickles
    simp only [historyGroups]
    rw [entries_eq henc hpickles hsame hhistory hold hkeeps hidentified hresume, entries_none same]

/-! ## an encoding -/

deriving instance Countable for PyFloat
deriving instance Countable for PyNum
deriving instance Countable for Window
deriving instance Countable for RecordId
deriving instance Countable for Record
deriving instance Countable for Control
deriving instance Countable for Baseline
deriving instance Countable for Edit
deriving instance Countable for Context

noncomputable def number {α : Type} [Countable α] (a : α) : Nat :=
  (exists_injective_nat α).choose a

theorem number_injective {α : Type} [Countable α] : Function.Injective (number (α := α)) :=
  (exists_injective_nat α).choose_spec

noncomputable def unary {α : Type} [Countable α] (a : α) : Bytes := List.replicate (number a) 75

theorem unary_injective {α : Type} [Countable α] : Function.Injective (unary (α := α)) :=
  fun a b h => number_injective (by simpa [unary] using congrArg List.length h)

noncomputable def unaryEncoding : Encoding Record Bytes where
  dumps := unary
  loads := Function.invFun unary
  compress block := 120 :: block
  decompress := List.tail
  dumpsPair := plainEncoding.dumpsPair
  jsonDumps rows := 91 :: unary rows
  sha256 := id

theorem unaryEncoding_faithful : unaryEncoding.Faithful where
  loads_dumps := Function.leftInverse_invFun unary_injective
  decompress_compress _ := rfl
  dumpsPair_append := plainEncoding_faithful.dumpsPair_append
  jsonDumps_injective _ _ h := unary_injective (List.cons.inj h).2
  compress_ne_jsonDumps _ _ h := absurd (List.cons.inj h).1 (by decide)
  sha256_injective := Function.injective_id

noncomputable def unaryPickles : Pickles Bytes where
  dumpsContext := unary
  dumpsGroup _ := []
  size _ := 0

def weeklyRecord (time : ℚ) (used : Int) : Record where
  id := .stored []
  time
  window := .weekly
  account := none
  source := none
  used := some (.int used)
  reset := none

noncomputable def weeklyReport (rows : List Record) : Report where
  account := none
  history := packedHistory unaryEncoding reader rows

theorem weekly_built (rows : List Record) (h : PackedRows.Sorted reader rows) :
    BuiltHistory unaryEncoding reader (weeklyReport rows).history rows := .init rows h

noncomputable def laterReport (rows : List Record) (r : Record) : Report :=
  { weeklyReport rows with
    history := (weeklyReport rows).history.withSuffix unaryEncoding reader r.time [r] }

def equalBlocks : SameObject := ⟨fun a b => a = b, fun _ _ => false⟩

/-- All is left before a reset, and a record is added. -/
theorem periods_resumed_after_reset :
    (∃ y, Starts (historyRows unaryEncoding (weeklyReport [weeklyRecord 0 50, weeklyRecord 100 0])
        .weekly none none none) 1 y ∧
      historyRows unaryEncoding (weeklyReport [weeklyRecord 0 50, weeklyRecord 100 0])
          .weekly none none (some y.value) =
        (historyRows unaryEncoding (weeklyReport [weeklyRecord 0 50, weeklyRecord 100 0])
          .weekly none none none).drop 1) ∧ (historyGroups unaryEncoding unaryPickles
        (laterReport [weeklyRecord 0 50, weeklyRecord 100 0] (weeklyRecord 200 10)) equalBlocks
        (some (historyGroups unaryEncoding unaryPickles
          (weeklyReport [weeklyRecord 0 50, weeklyRecord 100 0]) equalBlocks none).2)).1 =
      (historyGroups unaryEncoding unaryPickles
        (laterReport [weeklyRecord 0 50, weeklyRecord 100 0] (weeklyRecord 200 10)) equalBlocks
        none).1 := by
  have hpickles : unaryPickles.Faithful := ⟨unary_injective⟩
  obtain ⟨hresumed, hreused⟩ := periods_resumed unaryEncoding_faithful hpickles
  generalize hrows : [weeklyRecord 0 50, weeklyRecord 100 0] = rows
  have hsorted : PackedRows.Sorted reader rows := by
    rw [← hrows]
    simp [PackedRows.Sorted, reader, weeklyRecord]
  have hbuilt := weekly_built rows hsorted
  refine ⟨?_, ?_⟩
  · have hcandidates : (weeklyReport rows).candidates unaryEncoding .weekly none = rows := by
      obtain ⟨bs, hbs, hhistory⟩ := hbuilt.exists_history unaryEncoding_faithful
      have hiter : (weeklyReport rows).history.iter unaryEncoding = bs.flatten :=
        iter_eq hhistory unaryEncoding_faithful
      have hidentified : (weeklyReport rows).identified unaryEncoding .weekly = false := rfl
      have hrecords : (weeklyReport rows).records unaryEncoding .weekly none = rows := by
        rw [hbs] at hiter
        exact hiter
      rw [Report.candidates, hrecords, hidentified, ← hrows]
      rfl
    have hreset : ((historyRows unaryEncoding (weeklyReport rows) .weekly none none none)[1]?.any
        fun y => y.row.resetKind.isSome) := by
      have hplan : (weeklyReport rows).plan .weekly none none = ⟨.weekly, none, none, [], []⟩ := rfl
      rw [historyRows, hplan]
      simp only [Option.map_none, hcandidates]
      rw [← hrows]
      decide +kernel
    obtain ⟨y, hy, hreset⟩ := Option.any_eq_true _ _ |>.mp hreset
    exact ⟨y, ⟨hy, .inr hreset⟩, hresumed _ _ hbuilt _ _ _ _ _ ⟨hy, .inr hreset⟩⟩
  · have hlater := hbuilt.suffix (weeklyRecord 200 10).time [weeklyRecord 200 10]
      (by simp [PackedRows.Sorted]) (by simp [reader])
    exact hreused _ _ (.first equalBlocks hbuilt) (laterReport rows (weeklyRecord 200 10)) _ hlater
      rfl rfl equalBlocks ⟨fun h => by simpa [equalBlocks] using h, fun h => by
        simp [equalBlocks] at h⟩

end Codexon.QuotaPeriods
