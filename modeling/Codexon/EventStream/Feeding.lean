import Codexon.EventStream

/-!
# Codexon.EventStream.Feeding

A projection reads byte by byte: `feed` finds the runs of bytes of one kind and
appends each at once, which is the same as stepping through them (`feed_eq`).
So feeding pieces is feeding their concatenation, wherever a token is cut.
-/

namespace Codexon.EventProjection

open List

section

variable (loads : Bytes → Option Json)

def step (p : EventProjection) (c : Byte) : Except PyError EventProjection := do
  if p.string then
    let q ← p.append [c]
    if p.escape then return { q with escape := false }
    else if c = 92 then return { q with escape := true }
    else if c = 34 then q.finishToken loads
    else return q
  else if p.primitive then
    if delimiter c then (← p.finishToken loads).structural c else p.append [c]
  else p.structural c

/-- The token and the selected bytes are within their limits. -/
structure Sized (p : EventProjection) : Prop where
  selected : p.selectedBytes ≤ maxSelected
  key : p.keyToken → p.token.length ≤ 256

theorem sized_start : Sized {} := ⟨Nat.zero_le _, fun _ => Nat.zero_le _⟩

/-! ## appending -/

variable {p : EventProjection}

theorem append_nil (h : p.Sized) : p.append [] = .ok p := by
  have hselected := h.selected
  have hkey := h.key
  unfold append
  split
  · rfl
  split
  · next hk =>
    have := hkey hk
    rw [if_neg (by simpa using this)]
    simp
  · rw [if_neg (by simpa using hselected)]
    simp

theorem append_append (p : EventProjection) (a b : Bytes) :
    p.append (a ++ b) = (p.append a).bind (·.append b) := by
  cases hc : p.capture with
  | false => simp [append, hc, Except.bind]
  | true =>
    cases hk : p.keyToken with
    | true =>
      by_cases ha : 256 < p.token.length + a.length
      · have hab : 256 < p.token.length + (a.length + b.length) := by omega
        simp [append, hc, hk, ha, hab, Except.bind]
      · simp [append, hc, hk, ha, Except.bind, Nat.add_assoc]
    | false =>
      by_cases ha : maxSelected < p.selectedBytes + a.length
      · have hab : maxSelected < p.selectedBytes + (a.length + b.length) := by omega
        simp [append, hc, hk, ha, hab, Except.bind]
      · simp [append, hc, hk, ha, Except.bind, Nat.add_assoc]

variable {q : EventProjection}

theorem append_ok {part : Bytes} (h : p.append part = .ok q) :
    ∃ token capture selectedBytes, q = { p with token, capture, selectedBytes } ∧
      (p.Sized → q.Sized) := by
  unfold append at h
  split at h
  · obtain rfl := Except.ok.inj h
    exact ⟨_, _, _, rfl, fun hs => hs⟩
  split at h
  · split at h
    · obtain rfl := Except.ok.inj h
      exact ⟨_, _, _, rfl, fun hs => ⟨hs.selected, fun _ => Nat.zero_le _⟩⟩
    · next hlen =>
      obtain rfl := Except.ok.inj h
      exact ⟨_, _, _, rfl, fun hs => ⟨hs.selected, fun _ => by simpa using hlen⟩⟩
  · next hkey =>
    split at h
    · cases h
    · next hsize =>
      obtain rfl := Except.ok.inj h
      exact ⟨_, _, _, rfl, fun hs => ⟨Nat.le_of_not_lt hsize, fun hk => absurd hk hkey⟩⟩

/-! ## the other statements keep the sizes -/

theorem finishToken_ok (h : p.finishToken loads = .ok q) :
    ∃ stack result done, q = { p with
      stack, result, done, token := [], string := false, primitive := false } := by
  obtain ⟨value, -, h⟩ := ok_of_bind h
  obtain ⟨r, hr, h⟩ := ok_of_bind h
  obtain rfl := Except.ok.inj h
  unfold placeToken at hr
  split at hr
  · unfold takeKey at hr
    split at hr
    · obtain rfl := Except.ok.inj hr
      exact ⟨_, _, _, rfl⟩
    · split at hr
      · cases hr
      · obtain rfl := Except.ok.inj hr
        exact ⟨_, _, _, rfl⟩
    · cases hr
  · obtain rfl := Except.ok.inj hr
    unfold accept
    split <;> exact ⟨_, _, _, rfl⟩

section

variable (hs : p.Sized)

include hs

theorem finishToken_sized (h : p.finishToken loads = .ok q) : q.Sized := by
  obtain ⟨stack, result, done, rfl⟩ := finishToken_ok loads h
  exact ⟨hs.selected, fun _ => Nat.zero_le _⟩

theorem accept_sized (value : Json) : (p.accept value).Sized := by
  unfold accept
  split <;> exact ⟨hs.selected, hs.key⟩

theorem openBracket_sized {kind : Bracket} (h : p.openBracket kind = .ok q) : q.Sized := by
  obtain ⟨schema, -, h⟩ := ok_of_bind h
  split at h
  · cases h
  · obtain rfl := Except.ok.inj h
    exact ⟨hs.selected, hs.key⟩

theorem closeBracket_sized {kind : Bracket} (h : p.closeBracket kind = .ok q) : q.Sized := by
  unfold closeBracket at h
  split at h
  · cases h
  · next frame stack _ =>
    split at h
    · cases h
    · obtain rfl := Except.ok.inj h
      have hpopped : Sized { p with stack } := ⟨hs.selected, hs.key⟩
      exact accept_sized hpopped _

theorem colon_sized (h : p.colon = .ok q) : q.Sized := by
  unfold colon at h
  split at h
  · cases h
  · split at h
    · cases h
    · obtain rfl := Except.ok.inj h
      exact ⟨hs.selected, hs.key⟩

theorem comma_sized (h : p.comma = .ok q) : q.Sized := by
  unfold comma at h
  split at h
  · cases h
  · split at h
    · cases h
    · obtain rfl := Except.ok.inj h
      exact ⟨hs.selected, hs.key⟩

theorem startToken_sized {c : Byte} (h : p.startToken c = .ok q) : q.Sized := by
  unfold startToken at h
  split at h
  · cases h
  · obtain ⟨capture, -, h⟩ := ok_of_bind h
    obtain ⟨r, hr, h⟩ := ok_of_bind h
    obtain rfl := Except.ok.inj h
    obtain ⟨_, _, _, rfl, hsized⟩ := append_ok hr
    have := hsized ⟨hs.selected, fun _ => Nat.zero_le _⟩
    exact ⟨this.selected, this.key⟩

theorem structural_sized {c : Byte} (h : p.structural c = .ok q) : q.Sized := by
  unfold structural at h
  split at h
  · obtain rfl := Except.ok.inj h
    exact hs
  split at h
  · exact openBracket_sized hs h
  split at h
  · exact openBracket_sized hs h
  split at h
  · exact closeBracket_sized hs h
  split at h
  · exact closeBracket_sized hs h
  split at h
  · exact colon_sized hs h
  split at h
  · exact comma_sized hs h
  · exact startToken_sized hs h

theorem step_sized {c : Byte} (h : p.step loads c = .ok q) : q.Sized := by
  unfold step at h
  split at h
  · obtain ⟨r, hr, h⟩ := ok_of_bind h
    obtain ⟨_, _, _, rfl, hsized⟩ := append_ok hr
    have hr := hsized hs
    split at h
    · obtain rfl := Except.ok.inj h
      exact ⟨hr.selected, hr.key⟩
    split at h
    · obtain rfl := Except.ok.inj h
      exact ⟨hr.selected, hr.key⟩
    split at h
    · exact finishToken_sized loads hr h
    · obtain rfl := Except.ok.inj h
      exact hr
  split at h
  · split at h
    · obtain ⟨r, hr, h⟩ := ok_of_bind h
      exact structural_sized (finishToken_sized loads hs hr) h
    · obtain ⟨_, _, _, rfl, hsized⟩ := append_ok h
      exact hsized hs
  · exact structural_sized hs h

theorem foldlM_sized {data : Bytes} (h : data.foldlM (step loads) p = .ok q) : q.Sized := by
  induction data generalizing p with
  | nil =>
    obtain rfl := Except.ok.inj h
    exact hs
  | cons c data ih =>
    rw [foldlM_cons] at h
    obtain ⟨r, hr, h⟩ := ok_of_bind h
    exact ih (step_sized loads hs hr) h

end

/-! ## runs -/

theorem foldlM_string {run : Bytes} (hrun : ∀ c ∈ run, special c = false) (hs : p.Sized)
    (hstring : p.string) (hescape : p.escape = false) :
    run.foldlM (step loads) p = p.append run := by
  induction run generalizing p with
  | nil => exact (append_nil hs).symm
  | cons c run ih =>
    have hc : special c = false := hrun c mem_cons_self
    have hquote : c ≠ 34 ∧ c ≠ 92 := by simpa [special] using hc
    have hstep : p.step loads c = p.append [c] := by
      unfold step
      simp only [hstring, hescape, hquote.1, hquote.2, if_true, if_false, Bool.false_eq_true]
      cases p.append [c] <;> rfl
    rw [foldlM_cons, hstep, show c :: run = [c] ++ run from rfl, append_append]
    cases hq : p.append [c] with
    | error e => rfl
    | ok q =>
      obtain ⟨_, _, _, rfl, hsized⟩ := append_ok hq
      exact ih (fun d hd => hrun d (mem_cons_of_mem c hd)) (hsized hs) hstring hescape

theorem foldlM_primitive {run : Bytes} (hrun : ∀ c ∈ run, delimiter c = false)
    (hs : p.Sized) (hstring : p.string = false) (hprimitive : p.primitive) :
    run.foldlM (step loads) p = p.append run := by
  induction run generalizing p with
  | nil => exact (append_nil hs).symm
  | cons c run ih =>
    have hc : delimiter c = false := hrun c mem_cons_self
    have hstep : p.step loads c = p.append [c] := by
      simp [step, hstring, hprimitive, hc]
    rw [foldlM_cons, hstep, show c :: run = [c] ++ run from rfl, append_append]
    cases hq : p.append [c] with
    | error e => rfl
    | ok q =>
      obtain ⟨_, _, _, rfl, hsized⟩ := append_ok hq
      exact ih (fun d hd => hrun d (mem_cons_of_mem c hd)) (hsized hs) hstring hprimitive

theorem mem_takeWhile_not {q : Byte → Bool} {d : Bytes} :
    ∀ c ∈ d.takeWhile (!q ·), q c = false := fun c hc => by
  simpa using all_eq_true.mp (all_takeWhile (p := (!q ·))) c hc

theorem of_dropWhile_not {q : Byte → Bool} {data rest : Bytes} {c : Byte}
    (h : data.dropWhile (!q ·) = c :: rest) : q c = true := by
  have := head_dropWhile_not (!q ·) (l := data) (by rw [h]; simp)
  simpa [h] using this

/-- **Feeding steps through the bytes.** -/
theorem feed_eq (hs : p.Sized) (data : Bytes) : p.feed loads data = data.foldlM (step loads) p := by
  induction hlen : data.length using Nat.strong_induction_on generalizing p data with
  | _ n ih =>
  subst hlen
  have hnext (rest : Bytes) (hlt : rest.length < data.length) (x : Except PyError EventProjection)
      (hx : ∀ q, x = .ok q → q.Sized) :
      (x >>= fun q => q.feed loads rest) = x >>= fun q => rest.foldlM (step loads) q := by
    cases x with
    | error e => rfl
    | ok q => exact ih _ hlt (hx q rfl) rest rfl
  match data with
  | [] => rw [feed]; rfl
  | c :: rest =>
    rw [feed]
    cases hstring : p.string with
    | true =>
      cases hescape : p.escape with
      | true =>
        simp only [if_true, foldlM_cons, step, hstring, hescape]
        cases hq : p.append [c] with
        | error e => rfl
        | ok q =>
          obtain ⟨_, _, _, -, hsized⟩ := append_ok hq
          have hs' : Sized { q with escape := false } := ⟨(hsized hs).selected, (hsized hs).key⟩
          exact ih _ (by simp) hs' rest rfl
      | false =>
        have hrun := foldlM_string loads (mem_takeWhile_not (q := special) (d := c :: rest))
          hs hstring hescape
        conv_rhs => rw [← takeWhile_append_dropWhile (p := (!special ·)) (l := c :: rest),
          foldlM_append, hrun]
        simp only [if_true, Bool.false_eq_true, if_false]
        cases hq : p.append ((c :: rest).takeWhile (!special ·)) with
        | error e => rfl
        | ok q =>
          obtain ⟨_, _, _, hqeq, hsized⟩ := append_ok hq
          have hstring' : q.string := by rw [hqeq]; exact hstring
          have hescape' : q.escape = false := by rw [hqeq]; exact hescape
          simp only [bind, Except.bind]
          split
          · next htail => rw [htail]; rfl
          · next d tail htail =>
            have hd : d = 34 ∨ d = 92 := by simpa [special] using of_dropWhile_not htail
            have hlt : tail.length < (c :: rest).length := length_of_dropWhile htail
            rw [htail, foldlM_cons, step, if_pos hstring']
            cases hr : q.append [d] with
            | error e => rfl
            | ok r =>
              obtain ⟨_, _, _, -, hsized'⟩ := append_ok hr
              have hs' := hsized' (hsized hs)
              change (if d = 92 then _ else _) = (if q.escape then _ else _) >>= _
              rw [hescape', if_neg Bool.false_ne_true]
              rcases hd with rfl | rfl
              · exact hnext tail hlt _ fun _ => finishToken_sized loads hs'
              · exact ih _ hlt (p := { r with escape := true }) ⟨hs'.selected, hs'.key⟩ tail rfl
    | false =>
      cases hprimitive : p.primitive with
      | true =>
        have hrun := foldlM_primitive loads
          (mem_takeWhile_not (q := delimiter) (d := c :: rest)) hs hstring hprimitive
        conv_rhs => rw [← takeWhile_append_dropWhile (p := (!delimiter ·)) (l := c :: rest),
          foldlM_append, hrun]
        simp only [if_true, Bool.false_eq_true, if_false]
        cases hq : p.append ((c :: rest).takeWhile (!delimiter ·)) with
        | error e => rfl
        | ok q =>
          obtain ⟨_, _, _, hqeq, hsized⟩ := append_ok hq
          have hstring' : q.string = false := by rw [hqeq]; exact hstring
          have hprimitive' : q.primitive := by rw [hqeq]; exact hprimitive
          simp only [bind, Except.bind]
          split
          · next htail => rw [htail]; rfl
          · next d tail htail =>
            have hd : delimiter d := of_dropWhile_not htail
            have hlt : tail.length < (c :: rest).length := length_of_dropWhile htail
            rw [htail, foldlM_cons, step, hstring', if_neg Bool.false_ne_true,
              if_pos hprimitive', if_pos hd]
            cases hr : q.finishToken loads with
            | error e => rfl
            | ok r =>
              have hs' := finishToken_sized loads (hsized hs) hr
              exact hnext tail hlt _ fun _ => structural_sized hs'
      | false =>
        simp only [Bool.false_eq_true, if_false, foldlM_cons, step, hstring, hprimitive]
        exact hnext rest (by simp) _ fun _ => structural_sized hs

theorem feed_sized (hs : p.Sized) {data : Bytes} (h : p.feed loads data = .ok q) : q.Sized := by
  rw [feed_eq loads hs] at h
  exact foldlM_sized loads hs h

/-- **Feeding pieces is feeding the whole.** -/
theorem feed_append (hs : p.Sized) (a b : Bytes) :
    p.feed loads (a ++ b) = p.feed loads a >>= fun q => q.feed loads b := by
  rw [feed_eq loads hs, foldlM_append, ← feed_eq loads hs]
  cases hq : p.feed loads a with
  | error e => rfl
  | ok q => exact (feed_eq loads (feed_sized loads hs hq) b).symm

/-- **The split of a line into parts has no effect**: the parts step through their bytes, and
what is kept stays within its limits. -/
theorem feeds_eq_steps (parts : List Bytes) :
    parts.foldlM (feed loads) ({} : EventProjection) = parts.flatten.foldlM (step loads) {} ∧
      ∀ q, parts.foldlM (feed loads) {} = .ok q → q.Sized := by
  have h : ∀ p : EventProjection, p.Sized →
      parts.foldlM (feed loads) p = parts.flatten.foldlM (step loads) p := by
    induction parts with
    | nil => exact fun _ _ => rfl
    | cons part parts ih =>
      intro p hs
      rw [foldlM_cons, flatten_cons, foldlM_append, ← feed_eq loads hs]
      cases hq : p.feed loads part with
      | error e => rfl
      | ok q => exact ih q (feed_sized loads hs hq)
  have hparts := h {} sized_start
  exact ⟨hparts, fun q hq => foldlM_sized loads sized_start (hparts ▸ hq)⟩

end

end Codexon.EventProjection
