import Codexon.CatalogPages.Weight

/-!
# Codexon.CatalogPages.Follow

What one page has: the allowed rows between its offset and the next one, which
is further on, so that following it comes to an end.
-/

namespace Codexon

open List

namespace Catalog

/-- The loop takes the allowed items up to where it ends, which is past its start
unless there is none or none fits. -/
theorem fill_spec (r : Request) {items : List Item} {position remaining finish : Nat} {empty : Bool}
    {taken : List Item} (h : fill r items position remaining empty = .ok (taken, finish)) :
    ∃ n, finish = position + n ∧ n ≤ items.length ∧ taken = (items.take n).filter (Item.allowed r) ∧
      (empty = true → items ≠ [] → 0 < n) := by
  induction items generalizing position remaining empty taken with
  | nil =>
    cases h
    exact ⟨0, rfl, le_rfl, rfl, fun _ hne => absurd rfl hne⟩
  | cons item items ih =>
    rw [fill] at h
    split at h
    · next hskip =>
      obtain ⟨n, hfinish, hn, htaken, -⟩ := ih h
      refine ⟨n + 1, by omega, Nat.succ_le_succ hn, ?_, fun _ _ => Nat.succ_pos n⟩
      rw [take_succ_cons, filter_cons_of_neg (by simpa using hskip), htaken]
    · next hallowed =>
      split at h
      · cases h
      · split at h
        · split at h
          · cases h
          · next hfull =>
            cases h
            exact ⟨0, rfl, Nat.zero_le _, rfl, fun hempty => absurd hempty hfull⟩
        · split at h
          · cases h
          · next rest finish' hrest =>
            cases h
            obtain ⟨n, hfinish, hn, htaken, -⟩ := ih hrest
            refine ⟨n + 1, by omega, Nat.succ_le_succ hn, ?_, fun _ _ => Nat.succ_pos n⟩
            rw [take_succ_cons, filter_cons_of_pos (by simpa using hallowed), htaken]

/-- What a page is of its source. -/
structure Page.Of (p : Page) (r : Request) (items : List Item) : Prop where
  taken : ∃ n, r.offset ≤ n ∧ n ≤ items.length ∧
    p.taken = ((items.take n).drop r.offset).filter (Item.allowed r) ∧
    p.next = if n < items.length then some n else none
  advances : ∀ next, p.next = some next → r.offset < next ∧ next < items.length

theorem page_of {c : Content} {r : Request} {s : Source} {weight : Nat} {p : Page}
    (hoffset : r.offset ≤ (s.items r.paged).length) (h : page c r s weight = .ok p) :
    p.Of r (s.items r.paged) ∧ p.identity = c.identity ∧ taking r p.taken ≤ pageBytes - weight := by
  unfold page at h
  generalize s.items r.paged = items at *
  split at h
  · cases h
  · next taken finish hfill =>
    cases h
    obtain ⟨n, rfl, hn, htaken, hprogress⟩ := fill_spec r hfill
    rw [length_take, length_drop] at hn
    have hspan : ((items.drop r.offset).take pageRows).take n =
        (items.take (r.offset + n)).drop r.offset := by
      rw [take_take, min_eq_left (by omega), drop_take, Nat.add_sub_cancel_left]
    rw [hspan] at htaken
    refine ⟨⟨⟨r.offset + n, Nat.le_add_right _ _, by omega, htaken, rfl⟩, fun next hnext => ?_⟩,
      rfl, taking_le r hfill⟩
    dsimp only at hnext
    split at hnext
    · next hmore =>
      cases hnext
      have hitems : (items.drop r.offset).take pageRows ≠ [] := by
        intro hnil
        have := congrArg List.length hnil
        rw [length_take, length_drop, length_nil] at this
        have : pageRows = 4096 := rfl
        omega
      have := hprogress rfl hitems
      exact ⟨by omega, hmore⟩
    · cases hnext

theorem catalogRequest_of {c : Content} {r : Request} {p : Page} (h : catalogRequest c r = .ok p) :
    ∃ s, source c r = .ok s ∧ p.identity = c.identity ∧ c.identity.isSome = true ∧
      ((defers r s = true ∧ p.taken = [] ∧ p.next = none) ∨
        (defers r s = false ∧ p.Of r (s.items r.paged))) := by
  unfold catalogRequest at h
  split at h
  · cases h
  · next s hs =>
    have hcommitted : c.identity.isSome = true := by
      unfold source at hs
      split at hs
      · cases hs
      · next committed hidentity => rw [hidentity]; rfl
    refine ⟨s, hs, ?_⟩
    split at h
    · cases h
    · split at h
      · next hdefers =>
        cases h
        exact ⟨rfl, hcommitted, Or.inl ⟨hdefers, rfl, rfl⟩⟩
      · next hdefers =>
        split at h
        · cases h
        · next hoffset =>
          split at h
          · cases h
          · next p' hpage =>
            split at h
            · cases h
            · cases h
              obtain ⟨hof, hidentity, -⟩ := page_of (not_lt.mp hoffset) hpage
              exact ⟨hidentity, hcommitted, Or.inr ⟨by simpa using hdefers, hof⟩⟩

end Catalog

/-!
## following

A client that follows the pages of one committed catalog has, after each page,
the allowed rows of a prefix of it (`Follower.Reads`).  The prefix grows with
every page, so the catalog's length bounds their number.
-/

namespace Catalog

/-! ## a catalog and what is read of it -/

@[simp] theorem Item.allowed_mark (r : Request) (item : Item) :
    item.mark.allowed r = item.allowed r := by
  cases item <;> rfl

theorem filter_mark (r : Request) (items : List Item) :
    (items.filter (Item.allowed r)).map Item.mark = (items.map Item.mark).filter (Mark.allowed r)
    := by
  rw [filter_map]
  congr 1
  exact filter_congr fun item _ => (item.allowed_mark r).symm

theorem Source.marks_items (s : Source) (paged : Bool) :
    (s.items paged).map Item.mark =
      (if paged then s.lists.flatMap fun l => l.2.map (Mark.row l.1) else []) ++
        (s.owners.map Entry.reference).map Mark.owner := by
  unfold Source.items
  rw [map_append, List.map_map, List.map_map]
  congr 1
  cases paged with
  | false => rfl
  | true =>
    simp only [if_true, map_flatMap, List.map_map]
    rfl

variable {c : Content} {r : Request}

theorem source_committed {s : Source} (h : source c r = .ok s) :
    c.committed.source r = (s.lists, s.owners.map Entry.reference) := by
  unfold source at h
  unfold Committed.source Content.committed
  split at h
  · cases h
  · split at h
    · cases h
    · split at h
      · next request hrequest =>
        dsimp only
        rw [List.find?_map]
        split at h
        · cases h
        · next captured hcaptured =>
          obtain ⟨found, hfound, rfl⟩ := Option.map_eq_some_iff.mp hcaptured
          have hsame : ((fun s : PyStr × Membership × List Reference => decide (s.1 = request)) ∘
              fun s : PyStr × Selection =>
                (s.1, s.2.membership, s.2.owners.map Entry.reference)) =
              fun s => decide (s.1 = request) := rfl
          rw [hsame, hfound]
          repeat' split at h
          all_goals first | cases h; done | skip
          cases h
          rfl
      · repeat' split at h
        all_goals first | cases h; done | skip
        cases h
        rfl

theorem marks_items {s : Source} (h : source c r = .ok s) :
    (s.items r.paged).map Item.mark = c.committed.marks r := by
  rw [Source.marks_items, Committed.marks, source_committed h]

theorem source_identity {s : Source} (h : source c r = .ok s)
    {identity : Identity} (hidentity : r.identity = some identity) : c.identity = some identity :=
    by
  unfold source at h
  split at h
  · cases h
  · next committed hcommitted =>
    split at h
    · cases h
    · next hstale =>
      rw [hidentity] at hstale
      simp only [Option.isSome_some, true_and, ne_eq, not_not] at hstale
      rw [hcommitted, hstale]

/-! ## one page more -/

/-- What a client has of a committed catalog. -/
structure Follower.Reads (f : Follower) (a : Committed) : Prop where
  received : f.received =
    (match f.next with
      | some n => (a.marks f.request).take n
      | none => a.marks f.request).filter (Mark.allowed f.request)
  advances : ∀ n, f.next = some n → f.pages ≤ n ∧ n < (a.marks f.request).length
  pages : 0 < f.pages ∧ f.pages ≤ max 1 (a.marks f.request).length

theorem Page.Of.marks {p : Page} {items : List Item} (h : p.Of r items) :
    ∃ n, r.offset ≤ n ∧ n ≤ items.length ∧
      p.taken.map Item.mark = (((items.map Item.mark).take n).drop r.offset).filter (Mark.allowed r) ∧
      p.next = if n < items.length then some n else none := by
  obtain ⟨n, hoffset, hn, htaken, hnext⟩ := h.taken
  refine ⟨n, hoffset, hn, ?_, hnext⟩
  rw [htaken, filter_mark, map_drop, map_take]

theorem started_reads {f : Follower} (hoffset : r.offset = 0) (h : started c r = some f) :
    c.identity = some f.identity ∧ f.request = r ∧ (f.deferred = false → f.Reads c.committed) ∧
      (f.deferred = true → f.received = [] ∧ f.next = none) := by
  unfold started at h
  split at h
  · next page s hpage hs =>
    obtain ⟨identity, hidentity, rfl⟩ := Option.map_eq_some_iff.mp h
    obtain ⟨s', hs', hsame, -, hcases⟩ := catalogRequest_of hpage
    obtain rfl : s = s' := Except.ok.inj (hs.symm.trans hs')
    refine ⟨by rw [← hsame, hidentity], rfl, ?_⟩
    rcases hcases with ⟨hdefers, htaken, hnext⟩ | ⟨hdefers, hof⟩
    · refine ⟨fun hdeferred => absurd (hdefers.symm.trans hdeferred) (by simp), fun _ => ?_⟩
      rw [htaken]
      exact ⟨rfl, hnext⟩
    · refine ⟨fun _ => ?_, fun hdeferred => absurd (hdeferred.symm.trans hdefers) (by simp)⟩
      have hadvances := hof.advances
      obtain ⟨n, -, hn, htaken, hnext⟩ := hof.marks
      rw [marks_items hs, hoffset, drop_zero] at htaken
      have hlength : (s.items r.paged).length = (c.committed.marks r).length := by
        rw [← marks_items hs, length_map]
      rw [hlength] at hn hnext hadvances
      refine ⟨?_, fun next hsome => ?_, Nat.zero_lt_one, le_max_left _ _⟩
      · dsimp only
        rw [htaken, hnext]
        split
        · next heq => split at heq <;> simp_all
        · next heq =>
          split at heq
          · cases heq
          · rw [take_of_length_le (by omega)]
      · obtain ⟨hlt, hless⟩ := hadvances next hsome
        exact ⟨by dsimp only; omega, hless⟩
  · cases h

theorem followed_frame {f g : Follower} {offset : Nat} (h : followed c f offset = some g) :
    g.identity = f.identity ∧ g.request = f.request ∧ g.deferred = f.deferred := by
  unfold followed at h
  split at h
  · cases h
    exact ⟨rfl, rfl, rfl⟩
  · cases h

theorem followed_reads {f g : Follower} {a : Committed} {offset : Nat}
    (hnext : f.next = some offset) (hreads : f.Reads a)
    (hsame : c.identity = some f.identity → c.committed = a) (h : followed c f offset = some g) :
    g.Reads a := by
  unfold followed at h
  split at h
  · next page hpage =>
    cases h
    obtain ⟨s, hs, -, -, hcases⟩ := catalogRequest_of hpage
    obtain rfl := hsame (source_identity hs rfl)
    obtain ⟨hpages, hlt⟩ := hreads.advances offset hnext
    have hfirst := hreads.pages.1
    have hreceived := hreads.received
    rw [hnext] at hreceived
    rcases hcases with ⟨hdefers, -⟩ | ⟨-, hof⟩
    · -- a deferred response is for offset 0 only
      simp only [defers, Bool.and_eq_true, decide_eq_true_eq] at hdefers
      omega
    · have hadvances := hof.advances
      obtain ⟨n, hoffset, hn, htaken, hend⟩ := hof.marks
      have hmarks : (s.items f.request.paged).map Item.mark = c.committed.marks f.request :=
        (marks_items hs).trans rfl
      have hlength : (s.items f.request.paged).length = (c.committed.marks f.request).length := by
        rw [← hmarks, length_map]
      dsimp only at htaken hoffset hadvances hn hend
      rw [hmarks] at htaken
      rw [hlength] at hn hend hadvances
      have hjoined : f.received ++ page.taken.map Item.mark =
          ((c.committed.marks f.request).take n).filter (Mark.allowed f.request) := by
        have hsplit := take_append_drop offset ((c.committed.marks f.request).take n)
        rw [take_take, min_eq_left hoffset] at hsplit
        rw [hreceived, htaken, ← hsplit, filter_append, hsplit]
        rfl
      refine ⟨?_, fun next hsome => ?_, Nat.succ_pos _, ?_⟩
      · dsimp only
        rw [hjoined, hend]
        split
        · next heq => split at heq <;> simp_all
        · next heq =>
          split at heq
          · cases heq
          · rw [take_of_length_le (by omega)]
      · obtain ⟨hmore, hless⟩ := hadvances next hsome
        exact ⟨by dsimp only; omega, hless⟩
      · dsimp only
        omega
  · cases h

end Catalog

end Codexon
