import Codexon.ActivityPages.Revisions

/-!
# Codexon.ActivityPages.Lossless

No page skips a row as long as revisions only grow: along runs of publications
that keep the table every cursor stays below the largest stored revision, so
the rows above a cursor are the ones still to be received (`Inv`).
-/

namespace Codexon.Activity

open List

/-! ## one page -/

/-- The rows of a page are the stored ones above `after` and up to `finish`, in
order of their revisions. -/
structure Page.Exact (rows : Dict Key Row) (page : Page) : Prop where
  ascending : page.rows.Pairwise fun a b => a.revision < b.revision
  mem : ∀ row, row ∈ page.rows ↔
    Stored rows row ∧ page.after < row.revision ∧ row.revision ≤ page.finish
  start : page.after ≤ page.finish
  finish : page.finish ≤ page.header.highwater

theorem Distinct.pairwise {rows : Dict Key Row} (h : Distinct rows) :
    (rows.entries.map Prod.snd).Pairwise fun a b => a.revision ≠ b.revision := by
  rw [pairwise_map]
  have hkeys := pairwise_map.mp rows.nodup
  refine hkeys.imp_of_mem fun {a b} ha hb hne hrev => hne ?_
  exact h a.1 b.1 a.2 b.2 (Dict.get?_eq_some.mpr ha) (Dict.get?_eq_some.mpr hb) hrev

section

variable (rows : Dict Key Row) (after highwater : Nat)

def candidates : List Row :=
  ((rows.entries.map Prod.snd).filter fun row =>
    after < row.revision ∧ row.revision ≤ highwater).insertionSort
      fun a b => a.revision ≤ b.revision

theorem mem_candidates (row : Row) : row ∈ candidates rows after highwater ↔
      Stored rows row ∧ after < row.revision ∧ row.revision ≤ highwater := by
  rw [candidates, mem_insertionSort, List.mem_filter, ← stored_iff]
  simp

theorem candidates_ascending (h : Distinct rows) :
    (candidates rows after highwater).Pairwise fun a b => a.revision < b.revision := by
  have hsorted : (candidates rows after highwater).Pairwise fun a b => a.revision ≤ b.revision :=
    have : Std.Total fun a b : Row => a.revision ≤ b.revision := ⟨fun a b => Nat.le_total _ _⟩
    have : IsTrans Row fun a b => a.revision ≤ b.revision := ⟨fun _ _ _ => Nat.le_trans⟩
    pairwise_insertionSort _ _
  have hne : (candidates rows after highwater).Pairwise fun a b => a.revision ≠ b.revision :=
    (perm_insertionSort _ _).symm.pairwise (h.pairwise.filter _) fun hab => hab.symm
  exact (hsorted.and hne).imp fun hab => Nat.lt_of_le_of_ne hab.1 hab.2

end

theorem exact_of_candidates {rows : Dict Key Row} (hdistinct : Distinct rows) (page : Page)
    (hrows : page.rows = (candidates rows page.after page.header.highwater).take 512)
    (hfinish : page.finish = if page.rows.length = 512
      then (page.rows.getLast?.map (·.revision)).getD 0 else page.header.highwater)
    (hafter : page.after ≤ page.header.highwater) : page.Exact rows := by
  have hascending := candidates_ascending rows page.after page.header.highwater hdistinct
  have hmem (row : Row) := mem_candidates rows page.after page.header.highwater row
  generalize candidates rows page.after page.header.highwater = all at *
  have hsub (row : Row) (hrow : row ∈ page.rows) : row ∈ all := by
    rw [hrows] at hrow
    exact mem_of_mem_take hrow
  have hpage : page.rows.Pairwise fun a b => a.revision < b.revision :=
    hrows ▸ hascending.sublist (take_sublist 512 all)
  by_cases hfull : page.rows.length = 512
  · rw [if_pos hfull] at hfinish
    -- the rows left out are above the last one of the page
    obtain ⟨last, hlast⟩ : ∃ last, page.rows.getLast? = some last := by
      cases hl : page.rows.getLast? with
      | none => simp [getLast?_eq_none_iff.mp hl] at hfull
      | some last => exact ⟨last, rfl⟩
    have hend : page.finish = last.revision := by simp [hfinish, hlast]
    obtain ⟨init, hinit⟩ := getLast?_eq_some_iff.mp hlast
    have hupto (row : Row) (hrow : row ∈ page.rows) : row.revision ≤ last.revision := by
      rw [hinit] at hrow hpage
      rcases mem_append.mp hrow with hrow | hrow
      · exact ((pairwise_append.mp hpage).2.2 row hrow last mem_cons_self).le
      · rw [mem_singleton.mp hrow]
    have hbeyond (row : Row) (hrow : row ∈ all.drop 512) : last.revision < row.revision := by
      rw [← take_append_drop 512 all, ← hrows] at hascending
      exact (pairwise_append.mp hascending).2.2 last (mem_of_getLast? hlast) row hrow
    obtain ⟨-, hstart, hle⟩ := (hmem last).mp (hsub last (mem_of_getLast? hlast))
    refine ⟨hpage, fun row => ⟨fun hrow => ?_, fun ⟨hstored, hlow, hhigh⟩ => ?_⟩, ?_, ?_⟩
    · obtain ⟨hstored, hlow, -⟩ := (hmem row).mp (hsub row hrow)
      exact ⟨hstored, hlow, hend ▸ hupto row hrow⟩
    · have hall : row ∈ all := (hmem row).mpr ⟨hstored, hlow, by omega⟩
      rw [← take_append_drop 512 all, mem_append, ← hrows] at hall
      rcases hall with hrow | hrow
      · exact hrow
      · have := hbeyond row hrow
        omega
    · omega
    · omega
  · rw [if_neg hfull] at hfinish
    have hwhole : page.rows = all := by
      rw [hrows] at hfull ⊢
      refine take_of_length_le ?_
      rw [length_take] at hfull
      omega
    refine ⟨hpage, fun row => ?_, by omega, by omega⟩
    rw [hwhole, hmem row, hfinish]

section

variable (place : PyStr)

theorem activityPage_after (db : Db) (header : Header) (acknowledged : Option Cursor) (live : Bool)
    : (activityPage place db header acknowledged live).after ≤ header.highwater ∧
      ∀ known finish, acknowledged = some (known, finish) → known = epochOf place header.source →
        finish ≤ header.highwater →
          (activityPage place db header acknowledged live).after = finish := by
  unfold activityPage
  dsimp only
  refine ⟨?_, fun known finish hack hknown hle => ?_⟩
  · have hcap (after : Nat) : (if after > header.highwater then 0 else after) ≤ header.highwater := by
      split <;> omega
    exact hcap _
  · rw [hack]
    simp [hknown, hle]

theorem activityPage_exact {db : Db} (hdistinct : Distinct db.rows) (header : Header)
    (acknowledged : Option Cursor) (live : Bool) :
    (activityPage place db header acknowledged live).Exact db.rows :=
  exact_of_candidates hdistinct _ rfl rfl (activityPage_after place db header acknowledged live).1

end

/-! ## cursors -/

section

variable {ι : Type}

def Page.Behind (page : Page) (header : Option Header) : Prop :=
  page.finish ≤ page.header.highwater ∧
    ∃ latest, header = some latest ∧ page.header.highwater ≤ latest.highwater

def Page.Full (rows : Dict Key Row) (page : Page) : Prop :=
  ∀ row, Stored rows row → page.after < row.revision → row.revision ≤ page.finish → row ∈ page.rows

/-- The cursor's client has every stored row from its start to the cursor. -/
def Trail.Full (rows : Dict Key Row) (t : Trail) : Prop :=
  ∀ row, Stored rows row → t.start < row.revision → row.revision ≤ t.page.finish → row ∈ t.received

/-- What a client's page and cursors are worth at the stored rows. -/
structure Client.Covers (rows : Dict Key Row) (c : Client) : Prop where
  header : ∀ header, c.header = some header → header.highwater ≤ maxRevision rows
  page : ∀ live page, c.page = some (live, page) → page.Behind c.header ∧ page.Full rows ∧
    page.after ≤ page.finish ∧
    ∀ t, c.trail live = some t → t.page.epoch = page.epoch → page.after ≤ t.page.finish
  trail : ∀ live t, c.trail live = some t → t.page.Behind c.header ∧ t.Full rows

theorem Client.covers_new (rows : Dict Key Row) : ({} : Client).Covers rows :=
  ⟨nofun, nofun, nofun⟩

variable {rows : Dict Key Row}

theorem Client.Covers.grows {rows' : Dict Key Row} {c : Client} (h : c.Covers rows)
    (hgrows : Grows rows rows') : c.Covers rows' := by
  have hbound {page : Page} (hbehind : page.Behind c.header) : page.finish ≤ maxRevision rows := by
    obtain ⟨hfinish, latest, hlatest, hle⟩ := hbehind
    have := h.header latest hlatest
    omega
  have hold {page : Page} (hbehind : page.Behind c.header) {row : Row} (hrow : Stored rows' row)
      (hle : row.revision ≤ page.finish) : Stored rows row := by
    have := hbound hbehind
    rcases hgrows.kept row hrow with hstored | hnew
    · exact hstored
    · omega
  refine ⟨fun header hheader => (h.header header hheader).trans hgrows.le,
    fun live page hpage => ?_, fun live t ht => ?_⟩
  · obtain ⟨hbehind, hfull, hrest⟩ := h.page live page hpage
    exact ⟨hbehind, fun row hrow hlow hhigh => hfull row (hold hbehind hrow hhigh) hlow hhigh, hrest⟩
  · obtain ⟨hbehind, hfull⟩ := h.trail live t ht
    exact ⟨hbehind, fun row hrow hlow hhigh => hfull row (hold hbehind hrow hhigh) hlow hhigh⟩

theorem Client.Covers.read {c : Client} (h : c.Covers rows) {header : Header}
    (hheader : header.highwater = maxRevision rows) :
    Client.Covers rows { c with header := some header } := by
  have hbehind {page : Page} (hpage : page.Behind c.header) : page.Behind (some header) := by
    obtain ⟨hfinish, latest, hlatest, hle⟩ := hpage
    exact ⟨hfinish, header, rfl, hle.trans ((h.header latest hlatest).trans hheader.ge)⟩
  refine ⟨fun header' hheader' => ?_, fun live page hpage => ?_, fun live t ht => ?_⟩
  · cases hheader'
    exact hheader.le
  · exact (h.page live page hpage).imp_left hbehind
  · exact (h.trail live t ht).imp_left hbehind

theorem Client.Covers.ask {db : Db} {c : Client} (h : c.Covers db.rows)
    (hdistinct : Distinct db.rows)
    (place : PyStr) {header : Header} (hheader : c.header = some header) (live : Bool) :
    Client.Covers db.rows { c with
      page := some (live, activityPage place db header (c.acknowledged live) live) } := by
  refine ⟨h.header, fun live' page hpage => ?_, h.trail⟩
  obtain ⟨rfl, rfl⟩ : live = live' ∧ activityPage place db header (c.acknowledged live) live = page := by
    simpa using hpage
  have hexact := activityPage_exact place hdistinct header (c.acknowledged live) live
  refine ⟨⟨hexact.finish, header, hheader, le_rfl⟩,
    fun row hrow hlow hhigh => (hexact.mem row).mpr ⟨hrow, hlow, hhigh⟩, hexact.start,
    fun t ht hepoch => ?_⟩
  obtain ⟨⟨hfinish, latest, hlatest, hle⟩, -⟩ := h.trail live t ht
  obtain rfl : header = latest := Option.some.inj (hheader.symm.trans hlatest)
  have hack : c.acknowledged live = some (t.page.epoch, t.page.finish) := by
    simp only [Client.acknowledged, show c.trail live = some t from ht, Option.map_some]
  exact ((activityPage_after place db header (c.acknowledged live) live).2 _ _ hack hepoch
    (hfinish.trans hle)).le

theorem Trail.full_extend {trail : Option Trail} {page : Page}
    (htrail : ∀ t, trail = some t → t.Full rows) (hpage : page.Full rows)
    (hnext : ∀ t, trail = some t → t.page.epoch = page.epoch → page.after ≤ t.page.finish) :
    (Trail.extend trail page).Full rows ∧ (Trail.extend trail page).page = page := by
  unfold extend
  split
  · next t =>
    split
    · next hepoch =>
      refine ⟨fun row hrow hlow hhigh => ?_, rfl⟩
      have hafter := hnext t rfl hepoch
      rw [mem_append]
      by_cases hseen : row.revision ≤ t.page.finish
      · exact Or.inl (htrail t rfl row hrow hlow hseen)
      · exact Or.inr (hpage row hrow (by omega) hhigh)
    · exact ⟨hpage, rfl⟩
  · exact ⟨hpage, rfl⟩

theorem Client.Covers.acknowledge {c : Client} (h : c.Covers rows)
    {live : Bool}
    {page : Page} (hpage : c.page = some (live, page)) :
    Client.Covers rows { c with
      trail := fun l =>
        if l = live then some (Trail.extend (c.trail live) page) else c.trail l } := by
  obtain ⟨hbehind, hfull, hstart, hnext⟩ := h.page live page hpage
  obtain ⟨hextend, hlast⟩ := Trail.full_extend (fun t ht => (h.trail live t ht).2) hfull hnext
  refine ⟨h.header, fun live' page' hpage' => ?_, fun live' t ht => ?_⟩
  · obtain ⟨rfl, rfl⟩ : live = live' ∧ page = page' := by
      have := hpage.symm.trans hpage'
      simpa using this
    refine ⟨hbehind, hfull, hstart, fun t ht _ => ?_⟩
    simp only [if_pos] at ht
    obtain rfl := Option.some.inj ht
    rw [hlast]
    exact hstart
  · dsimp only at ht
    split at ht
    · obtain rfl := Option.some.inj ht
      refine ⟨?_, hextend⟩
      rw [hlast]
      exact hbehind
    · exact h.trail live' t ht

/-! ## runs -/

/-- What holds of every state while the table is kept. -/
structure World.Inv (w : World ι) : Prop where
  distinct : Distinct w.db.rows
  tells : w.publisher.Tells w.db
  covers : ∀ i, (w.clients i).Covers w.db.rows

def World.Keeps (fingerprint : Header → Bytes) (w : World ι) : Action ι → Prop
  | .publish snapshot => w.publisher.Keeps fingerprint w.db snapshot
  | _ => True

instance (fingerprint : Header → Bytes) (w : World ι) :
    DecidablePred (w.Keeps fingerprint) := fun action => by
  cases action <;> unfold World.Keeps <;> infer_instance

/-- No client has lost or will lose a row: whoever acknowledged the last page of
a publication has received every stored row it holds above the starting point,
and the next page starts where the acknowledged one of its epoch ended and has
the rows of its range once. -/
structure World.Lossless (place : PyStr) (w : World ι) : Prop where
  received : ∀ i live t, (w.clients i).trail live = some t → t.page.more = false →
    ∀ row, Stored w.db.rows row → t.start < row.revision →
      row.revision ≤ t.page.header.highwater → row ∈ t.received
  next : ∀ i live header, (w.clients i).header = some header →
    let page := activityPage place w.db header ((w.clients i).acknowledged live) live
    page.Exact w.db.rows ∧
      ∀ t, (w.clients i).trail live = some t → t.page.epoch = page.epoch →
        page.after = t.page.finish

theorem World.Inv.lossless (place : PyStr) {w : World ι} (h : w.Inv) : w.Lossless place := by
  refine ⟨fun i live t ht hmore row hrow hlow hhigh => ?_, fun i live header hheader => ?_⟩
  · obtain ⟨-, hfull⟩ := (h.covers i).trail live t ht
    have hend : t.page.header.highwater ≤ t.page.finish := by simpa [Page.more] using hmore
    exact hfull row hrow hlow (hhigh.trans hend)
  · refine ⟨activityPage_exact place h.distinct _ _ _, fun t ht hepoch => ?_⟩
    obtain ⟨⟨hfinish, latest, hlatest, hle⟩, -⟩ := (h.covers i).trail live t ht
    obtain rfl : header = latest := Option.some.inj (hheader.symm.trans hlatest)
    have hack : (w.clients i).acknowledged live = some (t.page.epoch, t.page.finish) := by
      simp [Client.acknowledged, ht]
    exact (activityPage_after place w.db header _ live).2 _ _ hack hepoch (hfinish.trans hle)

variable [DecidableEq ι] (encode : Record → Bytes) (fingerprint : Header → Bytes) (place : PyStr)

theorem World.Inv.setClient {w : World ι} (h : w.Inv) {i : ι} {c : Client}
    (hc : c.Covers w.db.rows) : (w.setClient i c).Inv := by
  refine ⟨h.distinct, h.tells, fun j => ?_⟩
  unfold World.setClient
  dsimp only
  split
  · exact hc
  · exact h.covers j

theorem World.Inv.step {w : World ι} (h : w.Inv) {action : Action ι}
    (hkeeps : w.Keeps fingerprint action) : (w.step encode fingerprint place action).Inv := by
  cases action with
  | restart live =>
    refine ⟨h.distinct, ⟨h.tells.durable, fun c hc => ?_⟩, h.covers⟩
    cases live <;> cases hc
  | publish snapshot =>
    obtain ⟨hgrows, htells⟩ := publish_grows encode fingerprint h.distinct h.tells hkeeps
    exact ⟨hgrows.distinct, htells, fun i => (h.covers i).grows hgrows⟩
  | read i live =>
    simp only [World.step]
    split
    · next header hcurrent =>
      refine h.setClient ((h.covers i).read ?_)
      unfold World.current at hcurrent
      split at hcurrent
      · obtain ⟨c, hc, rfl⟩ := Option.map_eq_some_iff.mp hcurrent
        exact (h.tells.live c hc).1
      · exact h.tells.durable header hcurrent
    · exact h
  | page i live =>
    simp only [World.step]
    split
    · next header hheader =>
      exact h.setClient ((h.covers i).ask h.distinct place hheader live)
    · exact h
  | acknowledge i =>
    simp only [World.step]
    split
    · next live page hpage =>
      exact h.setClient ((h.covers i).acknowledge hpage)
    · exact h

omit [DecidableEq ι] in
theorem World.inv_empty : ({} : World ι).Inv where
  distinct := fun key key' row row' hrow => by simp [Dict.get?] at hrow
  tells := ⟨nofun, nofun⟩
  covers := fun _ => Client.covers_new _

/-- No client loses a row in a run whose publications do not empty the table. -/
theorem paging_lossless {actions : List (Action ι)}
    (h : Along (World.step encode fingerprint place) (World.Keeps fingerprint) {} actions) :
    (run (World.step encode fingerprint place) {} actions).Lossless place :=
  (run_inv_along (fun _ _ hw hkeeps => hw.step encode fingerprint place hkeeps) World.inv_empty
    h).lossless place

end

/-! ## a table emptied and filled again -/

def textBytes (s : PyStr) : Bytes := s.map fun c => Fin.ofNat 256 c.val

def attemptRecord (attempt : PyStr) : Record := ⟨py "home", attempt, .null⟩

def sourceSnapshot (source : PyStr) (attempts : List PyStr) : Snapshot where
  records := attempts.map attemptRecord
  source := some source
  limit := some 10
  content := .null

/-- A client follows a source, which another one replaces without records
before it returns with a new one. -/
def returningSource (between : List PyStr) : List (Action Unit) :=
  [.publish (sourceSnapshot (py "first") [py "a"]), .read () false, .page () false, .acknowledge (),
    .publish (sourceSnapshot (py "second") between),
    .publish (sourceSnapshot (py "first") [py "b"]), .read () false, .page () false, .acknowledge ()]

/-- Where that ends. -/
def returned (between : List PyStr) : World Unit :=
  run (World.step (fun record => textBytes record.attempt)
    (fun header => textBytes (header.source.getD []) ++ [Fin.ofNat 256 header.highwater])
    (py "place")) {} (returningSource between)

theorem lossless_returned : (returned [py "c"]).Lossless (py "place") :=
  paging_lossless _ _ _ (by decide +kernel)

/-- Without a record of the second source the revisions start again below the
cursor, and the new row is never received. -/
theorem returned_loses : ¬ (returned []).Lossless (py "place") := by
  intro h
  have htrail : (((returned []).clients ()).trail false).map (fun t =>
      (t.page.more, t.start, t.page.header.highwater, t.received)) =
        some (false, 0, 1, [⟨1, 1, textBytes (py "a")⟩]) := by
    decide +kernel
  have hrow : (returned []).db.rows.get? (py "home", py "b") = some ⟨1, 1, textBytes (py "b")⟩ := by
    decide +kernel
  obtain ⟨t, ht, htold⟩ := Option.map_eq_some_iff.mp htrail
  simp only [Prod.mk.injEq] at htold
  obtain ⟨hmore, hstart, hhigh, hreceived⟩ := htold
  have hgot := h.received () false t ht hmore _ ⟨_, hrow⟩ (by simp [hstart]) (by simp [hhigh])
  rw [hreceived] at hgot
  revert hgot
  decide

end Codexon.Activity
