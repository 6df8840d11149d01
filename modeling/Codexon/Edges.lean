import Mathlib.Data.List.Chain

/-!
# Codexon.Edges

The edges between neighbours of a list, and lists cut along their edges.
-/

namespace Codexon

open List

namespace Edges

variable {ρ lab : Type} {xs : List ρ} {a b : ρ}

/-- `zip(xs, xs[1:])` -/
def edges (xs : List ρ) : List (ρ × ρ) := xs.zip xs.tail

@[simp]
theorem edges_nil : edges ([] : List ρ) = [] := rfl

@[simp]
theorem edges_singleton (a : ρ) : edges [a] = [] := rfl

@[simp]
theorem edges_cons_cons (a b : ρ) (xs : List ρ) :
    edges (a :: b :: xs) = (a, b) :: edges (b :: xs) := rfl

theorem edges_concat (h : xs.getLast? = some a) : edges (xs ++ [b]) = edges xs ++ [(a, b)] := by
  induction xs with
  | nil => simp at h
  | cons x xs ih =>
    cases xs with
    | nil => simpa using h
    | cons y xs =>
      have hrest := ih (by simpa using h)
      simpa using hrest

theorem edges_linked (xs : List ρ) : (edges xs).IsChain fun e f => e.2 = f.1 := by
  induction xs with
  | nil => exact .nil
  | cons x xs ih =>
    cases xs with
    | nil => exact .nil
    | cons y xs =>
      rw [edges_cons_cons]
      cases xs with
      | nil => exact .singleton _
      | cons z xs =>
        rw [edges_cons_cons] at ih ⊢
        exact isChain_cons_cons.mpr ⟨rfl, ih⟩

theorem edges_eq_nil : edges xs = [] ↔ xs.length < 2 := by
  rcases xs with _ | ⟨x, _ | ⟨y, xs⟩⟩ <;> simp

theorem edges_injective {ys : List ρ} (hx : 2 ≤ xs.length) (hy : 2 ≤ ys.length)
    (h : edges xs = edges ys) : xs = ys := by
  induction xs generalizing ys with
  | nil => simp at hx
  | cons x xs ih =>
    rcases ys with _ | ⟨y, _ | ⟨z, ys⟩⟩
    · simp at hy
    · simp at hy
    · rcases xs with _ | ⟨w, xs⟩
      · simp at hx
      · simp only [edges_cons_cons, List.cons.injEq, Prod.mk.injEq] at h
        obtain ⟨⟨rfl, rfl⟩, hrest⟩ := h
        cases xs with
        | nil =>
          have hys : ys = [] := by
            cases ys with
            | nil => rfl
            | cons => simp at hrest
          rw [hys]
        | cons v xs =>
          have hlong : 2 ≤ (w :: ys).length := by
            cases ys with
            | nil => simp at hrest
            | cons => simp
          rw [ih (by simp) hlong hrest]

/-! ## runs -/

/-- Points whose edges have one label. -/
structure Run (ρ lab : Type) where
  label : lab
  points : List ρ

section Cut

variable [DecidableEq lab] (label : ρ × ρ → lab)

/-- An edge more: of the last run, or of a new one. -/
def extend (runs : List (Run ρ lab)) (e : ρ × ρ) : List (Run ρ lab) :=
  match runs.getLast? with
  | some last =>
    if last.label = label e then
      runs.dropLast ++ [{ last with points := last.points ++ [e.2] }]
    else runs ++ [⟨label e, [e.1, e.2]⟩]
  | none => [⟨label e, [e.1, e.2]⟩]

/-- The maximal runs of edges of one label; neighbours share a point. -/
def cut (xs : List ρ) : List (Run ρ lab) := (edges xs).foldl (extend label) []

/-- The edges of the runs are these. -/
structure IsCut (runs : List (Run ρ lab)) (es : List (ρ × ρ)) : Prop where
  edges : runs.flatMap (fun run => edges run.points) = es
  last : ∀ run ∈ runs.getLast?, run.points.getLast? = es.getLast?.map Prod.snd
  long : ∀ run ∈ runs, 2 ≤ run.points.length
  label : ∀ run ∈ runs, ∀ e ∈ Edges.edges run.points, run.label = label e
  adjacent : runs.IsChain fun r s => r.label ≠ s.label

variable {label}

omit [DecidableEq lab] in
theorem IsCut.nil : IsCut label [] [] :=
  ⟨rfl, by simp, by simp, by simp, .nil⟩

theorem IsCut.extend {runs : List (Run ρ lab)} {es : List (ρ × ρ)} {e : ρ × ρ}
    (h : IsCut label runs es) (hlinked : ∀ f ∈ es.getLast?, f.2 = e.1) :
    IsCut label (extend label runs e) (es ++ [e]) := by
  have hpair : ∀ f ∈ Edges.edges [e.1, e.2], label e = label f := by simp
  rcases eq_nil_or_concat' runs with rfl | ⟨before, last, rfl⟩
  · have hes : es = [] := h.edges.symm
    subst hes
    refine ⟨by simp [Edges.extend], by simp [Edges.extend], by simp [Edges.extend], ?_,
      by simp [Edges.extend]⟩
    intro run hrun f hf
    have hrun : run = ⟨label e, [e.1, e.2]⟩ := by simpa [Edges.extend] using hrun
    subst hrun
    exact hpair f hf
  · have hlast : last.points.getLast? = some e.1 := by
      have hmap := h.last last (by simp)
      cases hes : es.getLast? with
      | none =>
        have hlong := h.long last (by simp)
        have hnil : last.points = [] := by simpa [hes] using hmap
        simp [hnil] at hlong
      | some f => rw [hmap, hes, Option.map_some, hlinked f hes]
    have hlong : ∀ run ∈ before, 2 ≤ run.points.length := fun run hrun =>
      h.long run (by simp [hrun])
    have hlabel : ∀ run ∈ before, ∀ f ∈ Edges.edges run.points, run.label = label f :=
      fun run hrun => h.label run (by simp [hrun])
    by_cases hsame : last.label = label e
    · have hextend : Edges.extend label (before ++ [last]) e =
          before ++ [{ last with points := last.points ++ [e.2] }] := by
        simp [Edges.extend, hsame]
      have hedges := edges_concat (b := e.2) hlast
      rw [hextend]
      refine ⟨?_, by simp, ?_, ?_, ?_⟩
      · rw [← h.edges]
        simp [hedges]
      · intro run hrun
        rcases mem_append.mp hrun with hrun | hrun
        · exact hlong run hrun
        · have hlast := h.long last (by simp)
          rw [mem_singleton.mp hrun]
          simp only [length_append, length_singleton]
          omega
      · intro run hrun f hf
        rcases mem_append.mp hrun with hrun | hrun
        · exact hlabel run hrun f hf
        · rw [mem_singleton.mp hrun] at hf ⊢
          rw [hedges, mem_append, mem_singleton] at hf
          rcases hf with hf | rfl
          · exact h.label last (by simp) f hf
          · exact hsame
      · have hadjacent := h.adjacent
        rw [isChain_append] at hadjacent
        exact isChain_append.mpr ⟨hadjacent.1, .singleton _, by simpa using hadjacent.2.2⟩
    · have hextend : Edges.extend label (before ++ [last]) e =
          before ++ [last] ++ [⟨label e, [e.1, e.2]⟩] := by
        simp [Edges.extend, hsame]
      rw [hextend]
      refine ⟨?_, by simp, ?_, ?_, ?_⟩
      · rw [flatMap_append, h.edges]
        simp
      · intro run hrun
        rcases mem_append.mp hrun with hrun | hrun
        · exact h.long run hrun
        · simp [mem_singleton.mp hrun]
      · intro run hrun f hf
        rcases mem_append.mp hrun with hrun | hrun
        · exact h.label run hrun f hf
        · rw [mem_singleton.mp hrun] at hf ⊢
          exact hpair f hf
      · exact isChain_append.mpr ⟨h.adjacent, .singleton _, by simpa using hsame⟩

theorem isCut_foldl {runs : List (Run ρ lab)} {es fs : List (ρ × ρ)} (h : IsCut label runs es)
    (hlinked : (es ++ fs).IsChain fun e f => e.2 = f.1) :
    IsCut label (fs.foldl (Edges.extend label) runs) (es ++ fs) := by
  induction fs generalizing runs es with
  | nil => simpa using h
  | cons e fs ih =>
    have hnext : IsCut label (Edges.extend label runs e) (es ++ [e]) := by
      refine h.extend fun f hf => ?_
      exact (isChain_append.mp hlinked).2.2 f hf e (by simp)
    have hrest := ih hnext (by simpa using hlinked)
    simpa using hrest

variable (label)

theorem isCut_cut (xs : List ρ) : IsCut label (cut label xs) (edges xs) := by
  exact isCut_foldl IsCut.nil (edges_linked xs)

end Cut

end Edges

/-!
## splitting

A list split where its edges are dropped.
-/

namespace Edges

variable {ρ : Type} (drop : ρ × ρ → Bool) {xs : List ρ} {runs : List (List ρ)} {a b : ρ}

/-- A point more: of the last run, or of a new one when its edge is dropped. -/
def splitStep (runs : List (List ρ)) (e : ρ × ρ) : List (List ρ) :=
  if drop e then runs ++ [[e.2]] else runs.dropLast ++ [runs.getLast?.getD [] ++ [e.2]]

def split : List ρ → List (List ρ)
  | [] => []
  | first :: rest => (edges (first :: rest)).foldl (splitStep drop) [[first]]

/-- The runs of the points so far. -/
structure IsSplit (runs : List (List ρ)) (xs : List ρ) : Prop where
  flatten : runs.flatten = xs
  edges : runs.flatMap edges = (edges xs).filter fun e => !drop e
  nonempty : ∀ run ∈ runs, run ≠ []
  between : runs.IsChain fun r s => ∀ a ∈ r.getLast?, ∀ b ∈ s.head?, drop (a, b) = true

variable {drop}

theorem IsSplit.step (h : IsSplit drop runs xs) (ha : xs.getLast? = some a) :
    IsSplit drop (splitStep drop runs (a, b)) (xs ++ [b]) := by
  rcases eq_nil_or_concat' runs with rfl | ⟨before, last, rfl⟩
  · have hxs : xs = [] := h.flatten.symm
    simp [hxs] at ha
  · have hlast : last.getLast? = some a := by
      have hne := h.nonempty last (by simp)
      rw [← h.flatten, flatten_append, flatten_singleton, getLast?_append_of_ne_nil _ hne] at ha
      exact ha
    have hedges := edges_concat (b := b) ha
    by_cases hdrop : drop (a, b) = true
    · have hstep : splitStep drop (before ++ [last]) (a, b) = before ++ [last] ++ [[b]] := by
        simp [splitStep, hdrop]
      rw [hstep]
      constructor
      · rw [flatten_append, h.flatten]
        simp
      · rw [flatMap_append, h.edges, hedges]
        simp [hdrop]
      · intro run hrun
        rcases mem_append.mp hrun with hrun | hrun
        · exact h.nonempty run hrun
        · simp [mem_singleton.mp hrun]
      · refine isChain_append.mpr ⟨h.between, .singleton _, ?_⟩
        simpa [hlast] using hdrop
    · have hstep : splitStep drop (before ++ [last]) (a, b) = before ++ [last ++ [b]] := by
        simp [splitStep, hdrop]
      have hrun := edges_concat (b := b) hlast
      rw [hstep]
      constructor
      · rw [← h.flatten]
        simp
      · have hold := h.edges
        rw [flatMap_append] at hold ⊢
        rw [hedges, filter_append, ← hold]
        simp [hrun, hdrop]
      · intro run hrun
        rcases mem_append.mp hrun with hrun | hrun
        · exact h.nonempty run (by simp [hrun])
        · simp [mem_singleton.mp hrun]
      · have hbetween := h.between
        rw [isChain_append] at hbetween
        refine isChain_append.mpr ⟨hbetween.1, .singleton _, ?_⟩
        intro r hr s hs p hp q hq
        have hs : s = last ++ [b] := by simpa using hs.symm
        have hq' : q ∈ last.head? := by
          rw [hs] at hq
          cases last with
          | nil => simp at hlast
          | cons c last => simpa using hq
        exact hbetween.2.2 r hr last (by simp) p hp q hq'

variable (drop)

theorem isSplit_split (xs : List ρ) : IsSplit drop (split drop xs) xs := by
  cases xs with
  | nil => exact ⟨rfl, rfl, by simp [split], .nil⟩
  | cons first rest =>
    have hstart : IsSplit drop [[first]] [first] := ⟨rfl, by simp, by simp, .singleton _⟩
    have hfold : ∀ (before after : List ρ) (a : ρ) (runs : List (List ρ)),
        before.getLast? = some a → IsSplit drop runs before →
          IsSplit drop ((edges (a :: after)).foldl (splitStep drop) runs) (before ++ after) := by
      intro before after
      induction after generalizing before with
      | nil => intro a runs _ h; simpa using h
      | cons b after ih =>
        intro a runs ha h
        have hrest := ih (before ++ [b]) b _ (by simp) (h.step (b := b) ha)
        simpa using hrest
    exact hfold [first] rest first [[first]] rfl hstart

theorem split_block {run : List ρ} (h : IsSplit drop runs xs) (hrun : run ∈ runs) :
    ∃ before after, xs = before ++ run ++ after ∧
      (∀ a ∈ before.getLast?, ∀ b ∈ run.head?, drop (a, b) = true) ∧
      ∀ a ∈ run.getLast?, ∀ b ∈ after.head?, drop (a, b) = true := by
  obtain ⟨left, right, rfl⟩ := append_of_mem hrun
  refine ⟨left.flatten, right.flatten, by rw [← h.flatten]; simp, ?_, ?_⟩
  · intro a ha b hb
    rcases eq_nil_or_concat' left with rfl | ⟨before, last, rfl⟩
    · simp at ha
    · have hne := h.nonempty last (by simp)
      rw [flatten_append, flatten_singleton, getLast?_append_of_ne_nil _ hne] at ha
      exact (isChain_append.mp h.between).2.2 last (by simp) run (by simp) a ha b hb
  · intro a ha b hb
    cases right with
    | nil => simp at hb
    | cons next right =>
      have hne := h.nonempty next (by simp)
      have hhead : b ∈ next.head? := by
        cases next with
        | nil => exact absurd rfl hne
        | cons c next => simpa using hb
      have hchain := (isChain_append.mp h.between).2.1
      exact (isChain_cons_cons.mp hchain).1 a ha b hhead

end Edges

end Codexon
