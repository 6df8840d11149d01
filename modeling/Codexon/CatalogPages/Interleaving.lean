import Codexon.CatalogPages.Durable

/-!
# Codexon.CatalogPages.Interleaving

Pages and publications in any order.  An identity stands for one committed
catalog (`World.Inv`), so every client that follows `next_offset` under it has a
prefix of that catalog, and at the end the whole of it.
-/

namespace Codexon.Catalog

open List

variable {δ ι : Type} {fingerprint : Durable → δ}

def World.Ordered (w : World δ ι) (epoch : PyStr) (sequence : Nat) : Prop :=
  match w.last with
  | some last => if last.1 = epoch then last.2 < sequence else epoch ∉ w.epochs
  | none => epoch ∉ w.epochs

instance World.decidableOrdered (w : World δ ι) (epoch : PyStr) (sequence : Nat) :
    Decidable (w.Ordered epoch sequence) := by
  unfold World.Ordered
  split <;> infer_instance

/-- What is asked of the steps of a run. -/
def World.Allowed (w : World δ ι) : Action ι → Prop
  | .publish _ epoch sequence _ => w.Ordered epoch sequence
  | _ => True

instance World.decidableAllowed (w : World δ ι) : DecidablePred w.Allowed := fun action => by
  cases action <;> unfold World.Allowed <;> infer_instance

/-- What holds of a client: its pages are of a committed catalog, unless the response
was deferred. -/
structure Follower.Follows (f : Follower) (committed : List (Identity × Committed)) : Prop where
  reads : f.deferred = false → ∃ a, (f.identity, a) ∈ committed ∧ f.Reads a
  deferred : f.deferred = true → f.received = [] ∧ f.next = none

theorem Follower.Follows.mono {f : Follower} {committed committed' : List (Identity × Committed)}
    (h : f.Follows committed) (hsub : committed ⊆ committed') : f.Follows committed' := by
  refine ⟨fun hdeferred => ?_, h.deferred⟩
  obtain ⟨a, ha, hreads⟩ := h.reads hdeferred
  exact ⟨a, hsub ha, hreads⟩

/-- What holds of every state. -/
structure World.Inv (fingerprint : Durable → δ) (w : World δ ι) : Prop where
  current : ∀ l, w.current = some l → l.Sound fingerprint ∧ w.last = some l.content.publication ∧
    ∃ identity, l.content.identity = some identity ∧ (identity, l.content.committed) ∈ w.committed
  last : ∀ last, w.last = some last → last.1 ∈ w.epochs
  committed : ∀ c ∈ w.committed, c.1.1 ∈ w.epochs ∧
    ∀ last, w.last = some last → last.1 = c.1.1 → c.1.2 ≤ last.2
  unique : ∀ identity a b, (identity, a) ∈ w.committed → (identity, b) ∈ w.committed → a = b
  followers : ∀ i f, w.followers i = some f → f.Follows w.committed

section

variable {w : World δ ι}

variable {epoch : PyStr} {sequence : Nat}

section

variable (h : w.Inv fingerprint) (hordered : w.Ordered epoch sequence)

include h hordered

theorem World.Inv.before {c : Identity × Committed} (hc : c ∈ w.committed)
    (hsame : c.1.1 = epoch) : c.1.2 < sequence := by
  obtain ⟨hepoch, hbefore⟩ := h.committed c hc
  rw [hsame] at hepoch hbefore
  unfold World.Ordered at hordered
  split at hordered
  · next last hlast =>
    split at hordered
    · next heq => exact (hbefore last hlast heq).trans_lt hordered
    · exact absurd hepoch hordered
  · exact absurd hepoch hordered

theorem World.Inv.fresh (a : Committed) : ((epoch, sequence), a) ∉ w.committed :=
  fun hmem => lt_irrefl _ (h.before hordered hmem rfl)

theorem World.Inv.later {l : Live δ} (hl : w.current = some l) :
    l.content.publication.1 = epoch → l.content.publication.2 < sequence := by
  intro hepoch
  obtain ⟨-, hlast, -⟩ := h.current l hl
  rw [World.Ordered, hlast] at hordered
  dsimp only at hordered
  rwa [if_pos hepoch] at hordered

end

theorem World.Inv.setFollower [DecidableEq ι] (h : w.Inv fingerprint) (i : ι) {f : Option Follower}
    (hf : ∀ g, f = some g → g.Follows w.committed) : (w.setFollower i f).Inv fingerprint := by
  refine ⟨h.current, h.last, h.committed, h.unique, fun j g hg => ?_⟩
  unfold World.setFollower at hg
  dsimp only at hg
  split at hg
  · exact hf g hg
  · exact h.followers j g hg

variable [DecidableEq δ]

theorem World.Inv.publish_cases (h : w.Inv fingerprint)
    (hfingerprint : Function.Injective fingerprint)
    (hordered : w.Ordered epoch sequence) (snapshot : Snapshot)
    (removes : Bool) :
    let l := Catalog.publish fingerprint w.current snapshot epoch sequence removes
    l.content.identity = some (epoch, sequence) ∨
      ∃ identity, l.content.identity = some identity ∧
        (identity, l.content.committed) ∈ w.committed := by
  dsimp only
  unfold publish
  cases hcurrent : w.current with
  | none => exact Or.inl rfl
  | some l =>
    dsimp only
    split
    · next hsame =>
      obtain ⟨hsound, -, identity, hidentity, hmem⟩ := h.current l hcurrent
      have hcommitted := committed_eq_of_durable hfingerprint hsound (h.later hordered hcurrent)
        hsame.1
      exact Or.inr ⟨identity, hidentity, by rw [← hcommitted] at hmem; exact hmem⟩
    · exact Or.inl rfl

theorem World.Inv.publish [DecidableEq ι] (h : w.Inv fingerprint)
    (hfingerprint : Function.Injective fingerprint)
    (hordered : w.Ordered epoch sequence) (snapshot : Snapshot) (removes : Bool) :
    (w.step fingerprint (.publish snapshot epoch sequence removes)).Inv fingerprint := by
  have hcases := h.publish_cases hfingerprint hordered snapshot removes
  have hsound : (prepare fingerprint w.current snapshot epoch sequence).Sound fingerprint :=
    prepare_sound fun l hl => ⟨(h.current l hl).1, h.later hordered hl⟩
  have hpublished : (Catalog.publish fingerprint w.current snapshot epoch sequence removes).Sound
      fingerprint :=
    ⟨hsound.distinct, hsound.ordinal, hsound.rows, hsound.revision, hsound.meaningful, hsound.durable⟩
  have hpublication : (Catalog.publish fingerprint w.current snapshot epoch sequence
      removes).content.publication = (epoch, sequence) := rfl
  unfold World.step
  dsimp only at hcases ⊢
  generalize Catalog.publish fingerprint w.current snapshot epoch sequence removes = l at *
  have hold (c : Identity × Committed) (hc : c ∈ w.committed) : c.1.1 ∈ epoch :: w.epochs ∧
      ∀ last, some (epoch, sequence) = some last → last.1 = c.1.1 → c.1.2 ≤ last.2 := by
    refine ⟨mem_cons_of_mem _ (h.committed c hc).1, ?_⟩
    rintro last hlast hsame
    cases hlast
    exact (h.before hordered hc hsame.symm).le
  have hidentity : ∃ identity, l.content.identity = some identity ∧
      ∀ c, c ∈ (identity, l.content.committed) :: w.committed →
        c = ((epoch, sequence), l.content.committed) ∨ c ∈ w.committed := by
    rcases hcases with hnew | ⟨identity, hkept, hmem⟩
    · exact ⟨_, hnew, fun c hc => mem_cons.mp hc⟩
    · refine ⟨identity, hkept, fun c hc => ?_⟩
      rcases mem_cons.mp hc with rfl | hc
      · exact Or.inr hmem
      · exact Or.inr hc
  obtain ⟨identity, hsome, hmem⟩ := hidentity
  have hcommitted : (l.content.identity.map fun identity => (identity, l.content.committed)).toList ++
      w.committed = (identity, l.content.committed) :: w.committed := by
    rw [hsome]
    rfl
  rw [hcommitted]
  refine ⟨fun l' hl' => ?_, fun last hlast => ?_, fun c hc => ?_, fun identity' a b ha hb => ?_,
    fun i f hf => (h.followers i f hf).mono (subset_cons_self _ _)⟩
  · cases hl'
    exact ⟨hpublished, by rw [hpublication], identity, hsome, mem_cons_self⟩
  · cases hlast
    exact mem_cons_self
  · rcases hmem c hc with rfl | hc
    · refine ⟨mem_cons_self, ?_⟩
      rintro last hlast -
      cases hlast
      exact le_rfl
    · exact hold c hc
  · rcases hmem _ ha with ha | ha <;> rcases hmem _ hb with hb | hb
    · rw [(Prod.mk.inj ha).2, (Prod.mk.inj hb).2]
    · exact absurd ((Prod.mk.inj ha).1 ▸ hb) (h.fresh hordered b)
    · exact absurd ((Prod.mk.inj hb).1 ▸ ha) (h.fresh hordered a)
    · exact h.unique identity' a b ha hb

theorem World.Inv.step [DecidableEq ι] (hfingerprint : Function.Injective fingerprint)
    (w : World δ ι) (action : Action ι) (h : w.Inv fingerprint) (hallowed : w.Allowed action) :
    (w.step fingerprint action).Inv fingerprint := by
  cases action with
  | restart =>
    refine ⟨fun l hl => ?_, h.last, h.committed, h.unique, h.followers⟩
    cases hl
  | publish snapshot epoch sequence removes => exact h.publish hfingerprint hallowed snapshot removes
  | start i r =>
    unfold World.step
    dsimp only
    split
    · next l hl =>
      refine h.setFollower i fun g hg => ?_
      obtain ⟨hidentity, -, hreads, hdeferred⟩ := started_reads rfl hg
      obtain ⟨-, -, identity, hsome, hmem⟩ := h.current l hl
      obtain rfl : identity = g.identity := Option.some.inj (hsome.symm.trans hidentity)
      exact ⟨fun hg => ⟨_, hmem, hreads hg⟩, hdeferred⟩
    · exact h
  | follow i =>
    unfold World.step
    dsimp only
    split
    · next l f hl hf =>
      split
      · next offset hnext =>
        refine h.setFollower i fun g hg => ?_
        obtain ⟨hidentity, -, hsame⟩ := followed_frame hg
        obtain ⟨hfollows, hnone⟩ := h.followers i f hf
        refine ⟨fun hdeferred => ?_, fun hdeferred => ?_⟩
        swap
        · exact absurd (hnext.symm.trans (hnone (hsame ▸ hdeferred)).2) (by simp)
        obtain ⟨a, ha, hreads⟩ := hfollows (hsame ▸ hdeferred)
        refine ⟨a, hidentity ▸ ha, followed_reads hnext hreads (fun hcommitted => ?_) hg⟩
        obtain ⟨-, -, identity, hsome, hmem⟩ := h.current l hl
        obtain rfl : identity = f.identity := Option.some.inj (hsome.symm.trans hcommitted)
        exact h.unique _ _ _ hmem ha
      · exact h
    · exact h

end

theorem World.inv_init : (({} : World δ ι)).Inv fingerprint :=
  ⟨fun _ hl => (Option.some_ne_none _ hl.symm).elim, fun _ hl => (Option.some_ne_none _ hl.symm).elim,
    fun _ hc => absurd hc not_mem_nil, fun _ _ _ ha => absurd ha not_mem_nil,
    fun _ _ hf => (Option.some_ne_none _ hf.symm).elim⟩

/-! ## the last check -/

theorem source_nodup {c : Content} {r : Request} {s : Source} (h : source c r = .ok s) :
    (s.lists.map Prod.fst).Nodup := by
  have hheader : (c.header.lists.map Prod.fst).Nodup := by
    unfold Header.lists
    cases c.header.sessionCatalog <;> cases c.header.demandMembers <;>
      simp only [Option.map_none, Option.map_some, Option.toList, nil_append, cons_append,
        map_cons, map_nil] <;> decide
  have hmembership (m : Membership) : (m.lists.map Prod.fst).Nodup := by
    simp only [Membership.lists, map_cons, map_nil]
    decide
  unfold source at h
  repeat' split at h
  all_goals first | cases h; done | skip
  · cases h
    exact hmembership _
  · cases h
    exact hheader

theorem source_listed {c : Content} {r : Request} {s : Source} (h : source c r = .ok s)
    {taken : List Item} (htaken : taken ⊆ s.items r.paged) : Listed r s taken := by
  refine ⟨source_nodup h, fun hpaged l value hmem => ?_, fun hwhole l value hmem => ?_⟩
  · have hitem := htaken hmem
    rw [Source.items, if_pos hpaged] at hitem
    simp only [mem_append, mem_flatMap, List.mem_map, reduceCtorEq, and_false, exists_false,
      or_false, Item.row.injEq] at hitem
    obtain ⟨list, hlist, -, -, rfl, -⟩ := hitem
    exact List.mem_map.mpr ⟨list, hlist, rfl⟩
  · have hitem := htaken hmem
    rw [Source.items, if_neg (by simp [hwhole])] at hitem
    simp at hitem

theorem catalogRequest_eq {c : Content} {r : Request} {s : Source} {weight : Nat} {p : Page}
    (hsource : source c r = .ok s)
    (hweight : catalogWeight (result c r s [] none) pageBytes = .ok weight)
    (hdefers : defers r s = false) (hoffset : r.offset ≤ (s.items r.paged).length)
    (hpage : page c r s weight = .ok p) (hnest : ∀ item ∈ p.taken, nest (item.json r) ≤ item.room) :
    catalogRequest c r = .ok p := by
  obtain ⟨hof, -, htaking⟩ := page_of hoffset hpage
  have hlisted : Listed r s p.taken := by
    obtain ⟨n, -, -, htaken, -⟩ := hof.taken
    refine source_listed hsource fun item hitem => ?_
    rw [htaken] at hitem
    exact mem_of_mem_take (mem_of_mem_drop (mem_of_mem_filter hitem))
  obtain ⟨w, hw⟩ := result_ok hweight hlisted htaking hnest p.next
  unfold catalogRequest
  rw [hsource]
  dsimp only
  rw [hweight]
  dsimp only
  rw [hdefers, if_neg (by simp), if_neg (not_lt.mpr hoffset), hpage]
  dsimp only
  rw [hw]

/-! ## all runs -/

/-- **The pages of a catalog**: in every run, a client that was not deferred has, of
the one catalog committed under its identity, the allowed rows before its next
offset, and all of them when there is none; its pages are at most as many as the
rows.  A page within its budget is the response if its rows have room to nest. -/
theorem catalog_followed [DecidableEq δ] [DecidableEq ι]
    (hfingerprint : Function.Injective fingerprint) {actions : List (Action ι)}
    (hordered : Along (World.step fingerprint) World.Allowed ({} : World δ ι) actions) :
    (∀ i f, (run (World.step fingerprint) ({} : World δ ι) actions).followers i = some f →
      (f.deferred = false → ∃ a,
        (f.identity, a) ∈ (run (World.step fingerprint) ({} : World δ ι) actions).committed ∧
        (∀ b, (f.identity, b) ∈
          (run (World.step fingerprint) ({} : World δ ι) actions).committed → b = a) ∧
        f.pages ≤ max 1 (a.marks f.request).length ∧ (∀ n, f.next = some n →
          f.received = ((a.marks f.request).take n).filter (Mark.allowed f.request)) ∧
        (f.next = none → f.received = (a.marks f.request).filter (Mark.allowed f.request))) ∧
      (f.deferred = true → f.received = [] ∧ f.next = none)) ∧
    ∀ c r s weight p, source c r = .ok s →
      catalogWeight (result c r s [] none) pageBytes = .ok weight → defers r s = false →
      r.offset ≤ (s.items r.paged).length → page c r s weight = .ok p →
      (∀ item ∈ p.taken, nest (item.json r) ≤ item.room) → catalogRequest c r = .ok p := by
  have hinv : (run (World.step fingerprint) ({} : World δ ι) actions).Inv fingerprint :=
    run_inv_along (fun w action h hallowed => h.step hfingerprint w action hallowed) World.inv_init
      hordered
  refine ⟨fun i f hf => ⟨fun hdeferred => ?_, (hinv.followers i f hf).deferred⟩,
    fun c r s weight p hsource hweight hdefers hoffset hpage hnest =>
      catalogRequest_eq hsource hweight hdefers hoffset hpage hnest⟩
  obtain ⟨a, ha, hreads⟩ := (hinv.followers i f hf).reads hdeferred
  refine ⟨a, ha, fun b hb => hinv.unique _ b a hb ha, hreads.pages.2, fun n hn => ?_, fun hn => ?_⟩
  · have := hreads.received
    rwa [hn] at this
  · have := hreads.received
    rwa [hn] at this

/-! ## two runs -/

def oneRow (row : Json) : Snapshot where
  header :=
    { rest := [(py "homes", .arr [.str (py "h")])], sessionCatalog := some [row], demandMembers := none }
  sessions := [{ key := (py "h", py "a"), fingerprint := [], bodyDigest := py "d", state := [] }]
  distinct := by simp

/-- `depth` lists, each in the next. -/
def nested : Nat → Json
  | 0 => .arr []
  | depth + 1 => .arr [nested depth]

def asking (deferIncomplete : Bool) : Request := { homes := [py "h"], deferIncomplete }

/-- Pages between two publications of a catalog that is never complete. -/
def reading (row : Json) (r : Request) : List (Action Unit) :=
  [.publish (oneRow row) (py "e") 1 false, .start () r, .publish (oneRow row) (py "e") 2 false,
    .follow ()]

def readOnce (row : Json) (r : Request) : World Durable Unit :=
  run (World.step id) {} (reading row r)

/-- The rows of the incomplete catalog, which a deferred response leaves out, and a row
of 27 lists, which fits its page but not the response. -/
theorem deferred_and_nested :
    (∃ f ∈ (readOnce (nested 2) (asking true)).followers (), f.next = none ∧ f.received = [] ∧
      ∀ c ∈ (readOnce (nested 2) (asking true)).committed, c.1 = f.identity →
        (c.2.marks f.request).filter (Mark.allowed f.request) ≠ []) ∧
    ∃ l ∈ (readOnce (nested 26) (asking false)).current,
      ∃ s ∈ (source l.content (asking false)).toOption,
        ∃ weight ∈ (catalogWeight (result l.content (asking false) s [] none) pageBytes).toOption,
          (page l.content (asking false) s weight).toOption.isSome = true ∧
            (catalogRequest l.content (asking false)).toOption = none := by
  decide +kernel

/-- The second publication is durably equal to the first, whose identity it keeps. -/
theorem followed_once :
    ∃ a, ((py "e", 1), a) ∈ (readOnce (nested 2) (asking false)).committed ∧
      [Mark.row (py "session_catalog") (nested 2), .owner ⟨py "h", py "a", 1, py "d", 0⟩] =
        (a.marks (asking false)).filter (Mark.allowed (asking false)) := by
  have hfollower : (readOnce (nested 2) (asking false)).followers () =
      some ⟨asking false, (py "e", 1), 1,
        [.row (py "session_catalog") (nested 2), .owner ⟨py "h", py "a", 1, py "d", 0⟩], none, false⟩ := by
    decide +kernel
  have hordered : Along (World.step id) World.Allowed ({} : World Durable Unit)
      (reading (nested 2) (asking false)) := by
    decide +kernel
  obtain ⟨hfollowers, -⟩ := catalog_followed Function.injective_id hordered
  obtain ⟨a, ha, -, -, -, hreceived⟩ := (hfollowers () _ hfollower).1 rfl
  exact ⟨a, ha, hreceived rfl⟩

end Codexon.Catalog
