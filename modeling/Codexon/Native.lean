import Codexon.Json

/-!
# Codexon.Native

What the compiled extension takes from Python objects.  A value that it does not support makes it
answer nothing, and its caller computes the result in Python.
-/

namespace Codexon.Native

/-- Half of a surrogate pair, which a Python text may hold and a Rust one cannot. -/
def surrogate (c : CodePoint) : Bool := 0xD800 ≤ c.val && c.val < 0xE000

def Encodable (text : PyStr) : Prop := text.any surrogate = false

instance (text : PyStr) : Decidable (Encodable text) := inferInstanceAs (Decidable (_ = false))

/-- `value.extract::<String>()`; `UnicodeEncodeError` is a `ValueError`. -/
def extractText (text : PyStr) : Except PyError PyStr :=
  if Encodable text then .ok text else .error .valueError

theorem extractText_of {text : PyStr} (h : Encodable text) : extractText text = .ok text := if_pos h

theorem extractText_of_not {text : PyStr} (h : ¬Encodable text) :
    extractText text = .error .valueError := if_neg h

theorem encodable_nil : Encodable [] := rfl

/-! ## batches -/

section Batch

variable {α β : Type}

/-- What becomes of an item: it raises, is not supported, or is read. -/
abbrev Taken (β : Type) := Except PyError (Option β)

/-- All items of a batch, or the first that is not read. -/
def takeAll (take : α → Taken β) : List α → Taken (List β)
  | [] => .ok (some [])
  | item :: items =>
    match take item with
    | .error e => .error e
    | .ok none => .ok none
    | .ok (some value) =>
      match takeAll take items with
      | .ok (some values) => .ok (some (value :: values))
      | rest => rest

/-- The first item that does not satisfy `P` satisfies `Q`. -/
inductive Breaks (P Q : α → Prop) : List α → Prop where
  | here {item : α} {items : List α} (h : Q item) : Breaks P Q (item :: items)
  | later {item : α} {items : List α} (h : P item) (rest : Breaks P Q items) :
      Breaks P Q (item :: items)

theorem exists_of_forall₂ {R : α → β → Prop} {xs : List α} {ys : List β} (h : xs.Forall₂ R ys)
    {x : α} (hx : x ∈ xs) : ∃ y ∈ ys, R x y := by
  induction h with
  | nil => simp at hx
  | cons hxy _ ih =>
    rcases List.mem_cons.mp hx with rfl | hx
    · exact ⟨_, by simp, hxy⟩
    · obtain ⟨y, hy, hR⟩ := ih hx
      exact ⟨y, by simp [hy], hR⟩

variable {take : α → Taken β} {items : List α}

theorem forall_of_takeAll {values : List β} (h : takeAll take items = .ok (some values)) :
    List.Forall₂ (fun item value => take item = .ok (some value)) items values := by
  induction items generalizing values with
  | nil =>
    simp only [takeAll, Except.ok.injEq, Option.some.injEq] at h
    simp [← h]
  | cons item items ih =>
    simp only [takeAll] at h
    split at h
    · contradiction
    · simp at h
    · rename_i value hvalue
      split at h
      · rename_i rest hrest
        simp only [Except.ok.injEq, Option.some.injEq] at h
        rw [← h]
        exact .cons hvalue (ih hrest)
      · rename_i hnot
        exact absurd h (hnot values)

theorem takeAll_error {P Q : α → Prop} (hP : ∀ x, P x ↔ ∃ value, take x = .ok (some value))
    (hQ : ∀ x, Q x ↔ ∃ e, take x = .error e) :
    (∃ e, takeAll take items = .error e) ↔ Breaks P Q items := by
  constructor
  · intro ⟨e, h⟩
    induction items with
    | nil => contradiction
    | cons item items ih =>
      simp only [takeAll] at h
      split at h
      · rename_i e hitem
        exact .here ((hQ item).mpr ⟨e, hitem⟩)
      · contradiction
      · rename_i value hvalue
        split at h
        · contradiction
        · exact .later ((hP item).mpr ⟨value, hvalue⟩) (ih h)
  · intro h
    induction h with
    | here h =>
      obtain ⟨e, he⟩ := (hQ _).mp h
      exact ⟨e, by simp [takeAll, he]⟩
    | later h rest ih =>
      obtain ⟨value, hvalue⟩ := (hP _).mp h
      obtain ⟨e, he⟩ := ih
      exact ⟨e, by simp [takeAll, hvalue, he]⟩

theorem takeAll_some : (∃ values, takeAll take items = .ok (some values)) ↔
      ∀ item ∈ items, ∃ value, take item = .ok (some value) := by
  constructor
  · intro ⟨values, h⟩ item hitem
    obtain ⟨value, -, hvalue⟩ := exists_of_forall₂ (forall_of_takeAll h) hitem
    exact ⟨value, hvalue⟩
  · intro h
    induction items with
    | nil => exact ⟨[], rfl⟩
    | cons item items ih =>
      obtain ⟨value, hvalue⟩ := h item (by simp)
      obtain ⟨values, hvalues⟩ := ih fun item hitem => h item (by simp [hitem])
      exact ⟨value :: values, by simp [takeAll, hvalue, hvalues]⟩

theorem breaks_append {P Q : α → Prop} {xs ys : List α} :
    Breaks P Q (xs ++ ys) ↔ Breaks P Q xs ∨ (∀ x ∈ xs, P x) ∧ Breaks P Q ys := by
  constructor
  · intro h
    induction xs with
    | nil => exact .inr ⟨by simp, h⟩
    | cons x xs ih =>
      cases h with
      | here h => exact .inl (.here h)
      | later h rest =>
        rcases ih rest with hxs | ⟨hall, hys⟩
        · exact .inl (.later h hxs)
        · exact .inr ⟨List.forall_mem_cons.mpr ⟨h, hall⟩, hys⟩
  · rintro (h | ⟨hall, h⟩)
    · induction h with
      | here h => exact .here h
      | later h _ ih => exact .later h ih
    · induction xs with
      | nil => exact h
      | cons x xs ih =>
        exact .later (hall x (by simp)) (ih fun y hy => hall y (by simp [hy]))

theorem breaks_zipIdx {P Q : α → Prop} (xs : List α) (k : Nat) :
    Breaks (fun x => P x.1) (fun x => Q x.1) (xs.zipIdx k) ↔ Breaks P Q xs := by
  induction xs generalizing k with
  | nil => exact ⟨fun h => (nomatch h), fun h => (nomatch h)⟩
  | cons x xs ih =>
    rw [List.zipIdx_cons]
    constructor
    · rintro (h | ⟨h, rest⟩)
      · exact .here h
      · exact .later h ((ih _).mp rest)
    · rintro (h | ⟨h, rest⟩)
      · exact .here h
      · exact .later h ((ih _).mpr rest)

end Batch

end Codexon.Native
