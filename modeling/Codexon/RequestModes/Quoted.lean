import Codexon.RequestModes

/-!
# Codexon.RequestModes.Quoted

A body whose quotes are closed is texts without quotes around quoted contents.  Its shape depends on
the former only, so that the contents that are not read by their number do not matter.
-/

namespace Codexon.RequestModes

open List

/-! ## quoted contents -/

def isContent : PyStr → Bool
  | [] => true
  | c :: rest =>
    if c = 92 then
      match rest with
      | d :: rest => !isNewline d && isContent rest
      | [] => false
    else c ≠ 34 && isContent rest

/-- Every quote that is opened is closed; the flag is whether one is open. -/
def closed : Bool → PyStr → Bool
  | false, [] => true
  | true, [] => false
  | false, c :: rest => closed (c = 34) rest
  | true, c :: rest =>
    if c = 34 then closed false rest
    else if c = 92 then
      match rest with
      | d :: rest => !isNewline d && closed true rest
      | [] => false
    else closed true rest

def inside : Re :=
  .alt (.seq (.one (· = 92)) (.one fun c => !isNewline c)) (.one fun c => c ≠ 34 && c ≠ 92)

def past (s : Regex.Point CodePoint) (t rest : PyStr) : Regex.Point CodePoint :=
  { s with before := t.reverse ++ s.before, after := rest }

variable {rest : PyStr} {s : Regex.Point CodePoint}

theorem inside_stop (h : s.after = 34 :: rest) : inside.ways s = [] := by
  simp [inside, Regex.ways, h]

theorem inside_escape {d : CodePoint} (h : s.after = 92 :: d :: rest) (hd : !isNewline d) :
    inside.ways s = [past s [92, d] rest] := by
  simp only [Bool.not_eq_true'] at hd
  simp [inside, Regex.ways, h, hd, Regex.Point.next, past]

theorem inside_plain {c : CodePoint} (h : s.after = c :: rest) (h34 : c ≠ 34) (h92 : c ≠ 92) :
    inside.ways s = [past s [c] rest] := by
  simp [inside, Regex.ways, h, h34, h92, Regex.Point.next, past]

theorem past_nil (h : s.after = rest) : past s [] rest = s := by
  subst h
  rfl

theorem upTo_past (s : Regex.Point CodePoint) (t rest : PyStr) : s.upTo (past s t rest) = t := by
  simp [Regex.Point.upTo, past]

theorem past_past (s : Regex.Point CodePoint) (t u rest : PyStr) :
    past (past s t (u ++ rest)) u rest = past s (t ++ u) rest := by
  simp [past]

theorem repeated_inside {t : PyStr} (ht : isContent t) (hs : s.after = t ++ 34 :: rest)
    {fuel : Nat} (hfuel : t.length ≤ fuel) :
    (Regex.repeated true inside.ways fuel s).head? = some (past s t (34 :: rest)) := by
  induction t using isContent.induct generalizing s fuel with
  | case1 =>
    rw [Regex.repeated_stop (inside_stop hs)]
    exact congrArg some (past_nil hs).symm
  | case2 d t ih =>
    simp only [isContent, if_true, Bool.and_eq_true] at ht
    obtain ⟨fuel, rfl⟩ : ∃ n, fuel = n + 1 := ⟨fuel - 1, by simp at hfuel; omega⟩
    have hstep := inside_escape hs ht.1
    have hshort : (past s [92, d] (t ++ 34 :: rest)).after.length < s.after.length := by
      rw [hs]
      simp only [past, cons_append, length_cons]
      omega
    rw [Regex.repeated_chain hstep hshort, ih ht.2 rfl (by simp at hfuel; omega)]
    exact congrArg some (past_past s [92, d] t _)
  | case3 => simp [isContent] at ht
  | case4 c t hc ih =>
    unfold isContent at ht
    rw [if_neg hc, Bool.and_eq_true, decide_eq_true_eq] at ht
    obtain ⟨fuel, rfl⟩ : ∃ n, fuel = n + 1 := ⟨fuel - 1, by simp at hfuel; omega⟩
    have hstep := inside_plain hs ht.1 hc
    have hshort : (past s [c] (t ++ 34 :: rest)).after.length < s.after.length := by
      rw [hs]
      simp [past]
    rw [Regex.repeated_chain hstep hshort, ih ht.2 rfl (by simp at hfuel; omega)]
    exact congrArg some (past_past s [c] t _)

theorem quoted_match {t : PyStr} (ht : isContent t) (hs : s.after = 34 :: (t ++ 34 :: rest)) :
    quoted.matchAt s = some (past s (34 :: (t ++ [34])) rest) := by
  have hopen := Regex.matchAt_seq_one (p := (· = 34))
    (b := .seq (.star true inside) (.one (· = 34))) hs
  rw [quoted]
  refine hopen.trans ?_
  rw [if_pos (by simp)]
  refine Regex.matchAt_seq_of_head (t := past s (34 :: t) (34 :: rest)) ?_ ?_
  · have hread : (Regex.repeated true inside.ways (t ++ 34 :: rest).length
        (s.next 34 (t ++ 34 :: rest))).head? = some (past _ t (34 :: rest)) :=
      repeated_inside ht rfl (by simp)
    simpa [Regex.ways, past, Regex.Point.next] using hread
  · rw [Regex.ways_one rfl (by simp)]
    simp [past, Regex.Point.next]

theorem quoted_none {c : CodePoint} (hs : s.after = c :: rest) (hc : c ≠ 34) : quoted.matchAt s =
    none := by
  rw [quoted, Regex.matchAt_seq_one hs, if_neg (by simpa using hc)]

/-! ## the shape of a body -/

/-- Texts and the quoted contents after them, and a last text. -/
def render (parts : List (PyStr × PyStr)) (tail : PyStr) : PyStr :=
  (parts.flatMap fun part => part.1 ++ 34 :: (part.2 ++ [34])) ++ tail

/-- The texts have no quotes, and the contents are such. -/
structure WellQuoted (parts : List (PyStr × PyStr)) (tail : PyStr) : Prop where
  texts : ∀ part ∈ parts, 34 ∉ part.1
  contents : ∀ part ∈ parts, isContent part.2
  tail : 34 ∉ tail

/-- The shape of texts around quoted contents, the first of which has a number. -/
def shapeText (n : Nat) : List PyStr → PyStr → PyStr
  | [], tail => tail
  | t :: texts, tail => t ++ placeholder n ++ shapeText (n + 1) texts tail

theorem tokens_text {t : PyStr} (ht : 34 ∉ t) (hs : s.after = t ++ rest) (fuel : Nat) :
    quoted.tokens (t.length + fuel) s = t.map .inl ++ quoted.tokens fuel (past s t rest) := by
  induction t generalizing s with
  | nil =>
    have hnil : past s [] rest = s := past_nil hs
    rw [hnil]
    simp
  | cons c t ih =>
    rw [mem_cons, not_or] at ht
    have hlength : (c :: t).length + fuel = (t.length + fuel) + 1 := by
      rw [length_cons]
      omega
    rw [hlength, Regex.tokens_skip hs (quoted_none hs (Ne.symm ht.1)), ih ht.2 rfl]
    simp [past, Regex.Point.next]

theorem substitute_text (strings : List PyStr) (t : PyStr)
    (rest : List (CodePoint ⊕ Regex.Match CodePoint)) : substitute strings (t.map .inl ++ rest) =
      (t ++ (substitute strings rest).1, (substitute strings rest).2) := by
  induction t with
  | nil => rfl
  | cons c t ih => simp [substitute, ih]

theorem inner_quoted (s : Regex.Point CodePoint) (t rest : PyStr) :
    inner ⟨s, past s (34 :: (t ++ [34])) rest⟩ = t := by
  simp [inner, upTo_past]

theorem substitute_render {parts : List (PyStr × PyStr)} {tail : PyStr} (h : WellQuoted parts tail)
    (hs : s.after = render parts tail) (hgroups : s.groups = [])
    {fuel : Nat} (hfuel : (render parts tail).length ≤ fuel) (strings : List PyStr) :
    substitute strings (quoted.tokens fuel s) =
      (shapeText strings.length (parts.map Prod.fst) tail, strings ++ parts.map Prod.snd) := by
  induction parts generalizing s fuel strings with
  | nil =>
    obtain ⟨extra, rfl⟩ : ∃ n, fuel = tail.length + n := ⟨fuel - tail.length, by
      simp [render] at hfuel
      omega⟩
    have htail : s.after = tail ++ [] := by simpa [render] using hs
    have hend : quoted.tokens extra (past s tail []) = [] := by
      cases extra <;> simp [Regex.tokens, past]
    rw [tokens_text h.tail htail, hend, substitute_text]
    simp [substitute, shapeText]
  | cons part parts ih =>
    obtain ⟨t, c⟩ := part
    have htext : 34 ∉ t := h.texts (t, c) (by simp)
    have hcontent : isContent c := h.contents (t, c) (by simp)
    have hrest : WellQuoted parts tail := ⟨fun p hp => h.texts p (by simp [hp]),
      fun p hp => h.contents p (by simp [hp]), h.tail⟩
    have hrender : render ((t, c) :: parts) tail = t ++ 34 :: (c ++ 34 :: render parts tail) := by
      simp [render]
    rw [hrender] at hs hfuel
    obtain ⟨extra, rfl⟩ : ∃ n, fuel = t.length + (n + 1) := ⟨fuel - t.length - 1, by
      simp at hfuel
      omega⟩
    have hafter : (past s t (34 :: (c ++ 34 :: render parts tail))).after =
      34 :: (c ++ 34 :: render parts tail) := rfl
    rw [tokens_text htext hs, Regex.tokens_match hafter (quoted_match hcontent hafter),
      substitute_text, substitute, inner_quoted, ih hrest rfl rfl (by simp at hfuel; omega)]
    simp [shapeText]

theorem shapeOf_render {parts : List (PyStr × PyStr)} {tail : PyStr} (h : WellQuoted parts tail) :
    shapeOf (render parts tail) = (shapeText 0 (parts.map Prod.fst) tail, parts.map Prod.snd) := by
  rw [shapeOf, substitute_render h rfl rfl le_rfl]
  rfl

def Splits : Bool → PyStr → Prop
  | false, body => ∃ parts tail, WellQuoted parts tail ∧ body = render parts tail
  | true, body =>
    ∃ c parts tail, isContent c ∧ WellQuoted parts tail ∧ body = c ++ 34 :: render parts tail

theorem splits_of_closed (flag : Bool) (body : PyStr) (h : closed flag body) :
    Splits flag body := by
  induction flag, body using closed.induct with
  | case1 => exact ⟨[], [], ⟨by simp, by simp, by simp⟩, rfl⟩
  | case2 => simp [closed] at h
  | case3 c rest ih =>
    rw [closed] at h
    by_cases hc : c = 34
    · obtain ⟨t, parts, tail, ht, hparts, rfl⟩ : Splits true rest := by simpa [hc] using ih h
      refine ⟨([], t) :: parts, tail, ⟨?_, ?_, hparts.tail⟩, by simp [render, hc]⟩
      · simpa using hparts.texts
      · simpa using ⟨ht, fun a b hab => hparts.contents (a, b) hab⟩
    · obtain ⟨parts, tail, hparts, rfl⟩ : Splits false rest := by simpa [hc] using ih h
      cases parts with
      | nil =>
        refine ⟨[], c :: tail, ⟨by simp, by simp, ?_⟩, by simp [render]⟩
        simpa [Ne.symm hc] using hparts.tail
      | cons part parts =>
        refine ⟨(c :: part.1, part.2) :: parts, tail, ⟨?_, ?_, hparts.tail⟩, by simp [render]⟩
        · simpa [Ne.symm hc] using hparts.texts
        · simpa using hparts.contents
  | case4 rest ih =>
    unfold closed at h
    rw [if_pos rfl] at h
    obtain ⟨parts, tail, hparts, rfl⟩ := ih h
    exact ⟨[], parts, tail, rfl, hparts, rfl⟩
  | case5 d rest hne ih =>
    rw [closed, if_neg hne, if_pos rfl, Bool.and_eq_true] at h
    obtain ⟨t, parts, tail, ht, hparts, rfl⟩ := ih h.2
    exact ⟨92 :: d :: t, parts, tail, by simp [isContent, h.1, ht], hparts, rfl⟩
  | case6 hne => simp [closed] at h
  | case7 c rest h34 h92 ih =>
    unfold closed at h
    rw [if_neg h34, if_neg h92] at h
    obtain ⟨t, parts, tail, ht, hparts, rfl⟩ := ih h
    refine ⟨c :: t, parts, tail, ?_, hparts, rfl⟩
    unfold isContent
    simp [h34, h92, ht]

/-! ## what is read by its number -/

section

variable (cs : Classes)

def turnDigits : Turn → List PyStr
  | .string digits => [digits]
  | .plain _ => []

def tierDigits (shape : PyStr) (stop : Nat) (structure_ : Structure) : List PyStr :=
  match content shape stop structure_ with
  | none => []
  | some content => (tiers cs content).filterMap fun
      | .string digits => some digits
      | _ => none

/-- The numbers of the strings that are read: the submission id, and tiers where it is a turn. -/
def usedDigits (shape : PyStr) (strings : List PyStr) : List PyStr :=
  match submission cs shape with
  | none => []
  | some (turn, stop) =>
    turnDigits turn ++
      match turnText cs strings turn with
      | .ok t => if isTurn t then structures.flatMap (tierDigits cs shape stop) else []
      | .error _ => []

def Used (body : PyStr) (i : Nat) : Prop :=
  ∃ digits ∈ usedDigits cs (shapeOf body).1 (shapeOf body).2, toInt cs digits = .ok i

variable {cs : Classes}

variable {strings strings' : List PyStr}

theorem stringAt_congr {digits : PyStr}
    (h : ∀ i, toInt cs digits = .ok i → strings'[i]? = strings[i]?) :
    stringAt cs strings' digits = stringAt cs strings digits := by
  unfold stringAt
  cases hint : toInt cs digits with
  | error e => rfl
  | ok i =>
    have hsame := h i hint
    simp only [bind, Except.bind, hsame]

theorem foldlM_agree {α β ε : Type} {f g : β → α → Except ε β} {xs : List α}
    (h : ∀ x ∈ xs, ∀ b, f b x = g b x) (b : β) : xs.foldlM f b = xs.foldlM g b := by
  induction xs generalizing b with
  | nil => rfl
  | cons x xs ih =>
    rw [foldlM_cons, foldlM_cons, h x (by simp) b]
    congr 1
    funext b
    exact ih (fun y hy => h y (by simp [hy])) b

theorem applyStructure_congr {shape : PyStr} {stop : Nat}
    {structure_ : Structure} (h : ∀ digits ∈ tierDigits cs shape stop structure_,
      stringAt cs strings' digits = stringAt cs strings digits) (result : Observation) :
    applyStructure cs shape strings' stop result structure_ =
      applyStructure cs shape strings stop result structure_ := by
  unfold applyStructure
  cases hcontent : content shape stop structure_ with
  | none => rfl
  | some found =>
    refine foldlM_agree (fun tier htier result => ?_) result
    cases tier with
    | none => rfl
    | clear => rfl
    | string digits =>
      have hmem : digits ∈ tierDigits cs shape stop structure_ := by
        simp only [tierDigits, hcontent, mem_filterMap]
        exact ⟨_, htier, rfl⟩
      simp only [applyTier, h digits hmem]

theorem observe_congr {shape : PyStr} (h : ∀ digits ∈ usedDigits cs shape strings,
      stringAt cs strings' digits = stringAt cs strings digits) :
    observe cs shape strings' = observe cs shape strings := by
  unfold observe
  unfold usedDigits at h
  cases hsubmission : submission cs shape with
  | none => rfl
  | some found =>
    obtain ⟨turn, stop⟩ := found
    simp only [hsubmission] at h ⊢
    have hturn : turnText cs strings' turn = turnText cs strings turn := by
      cases turn with
      | plain t => rfl
      | string digits => exact h digits (mem_append_left _ (by simp [turnDigits]))
    rw [hturn]
    cases htext : turnText cs strings turn with
    | error e => rfl
    | ok t =>
      rw [htext] at h
      by_cases hvalid : isTurn t
      · simp only [hvalid, if_true] at h
        have hfold (result : Observation) :
            structures.foldlM (applyStructure cs shape strings' stop) result =
              structures.foldlM (applyStructure cs shape strings stop) result := by
          refine foldlM_agree (fun structure_ hmem result => ?_) result
          refine applyStructure_congr (fun digits hdigits => h digits ?_) result
          exact mem_append_right _ (mem_flatMap.mpr ⟨_, hmem, hdigits⟩)
        simp only [bind, Except.bind, hfold]
      · simp [bind, Except.bind, hvalid]

def replaced (parts : List (PyStr × PyStr)) (contents : List PyStr) : List (PyStr × PyStr) :=
  (parts.map Prod.fst).zip contents

/-- Quoted text that is not used does not change what is observed. -/
theorem quoted_text_cannot_forge (cs : Classes) {body : PyStr} (h : closed false body) :
    (∃ parts tail, WellQuoted parts tail ∧ body = render parts tail) ∧
      ∀ parts tail, WellQuoted parts tail → body = render parts tail →
        ∀ contents : List PyStr, contents.length = parts.length → (∀ c ∈ contents, isContent c) →
          (∀ i, Used cs body i → contents[i]? = (parts.map Prod.snd)[i]?) →
            requestModeObservation cs (some (render (replaced parts contents) tail)) =
              requestModeObservation cs (some body) := by
  refine ⟨splits_of_closed false body h, ?_⟩
  rintro parts tail hparts rfl contents hlength hcontents hused
  have hlengths : contents.length = (parts.map Prod.fst).length := by simpa using hlength
  have htexts : (replaced parts contents).map Prod.fst = parts.map Prod.fst :=
    map_fst_zip hlengths.ge
  have hstrings : (replaced parts contents).map Prod.snd = contents :=
    map_snd_zip hlengths.le
  have hquoted : WellQuoted (replaced parts contents) tail := by
    refine ⟨fun part hpart => ?_, fun part hpart => ?_, hparts.tail⟩
    · obtain ⟨old, hold, heq⟩ := List.mem_map.mp (of_mem_zip hpart).1
      exact heq ▸ hparts.texts old hold
    · exact hcontents _ (of_mem_zip hpart).2
  unfold requestModeObservation
  rw [Option.getD_some, Option.getD_some, shapeOf_render hquoted, shapeOf_render hparts, htexts,
    hstrings]
  refine observe_congr fun digits hdigits => stringAt_congr fun i hi => hused i ⟨digits, ?_, hi⟩
  rw [shapeOf_render hparts]
  exact hdigits

end

/-! ## a body -/

def asciiClasses : Classes where
  space c := c = 32 || 9 ≤ c.val && c.val ≤ 13
  digit := Json.isDigit
  word c := Json.isDigit c || 97 ≤ c.val && c.val ≤ 122 || 65 ≤ c.val && c.val ≤ 90 || c = 95
  decimal c := c.val - 48

/-- A submission with a text of the user between its id and the tier of its settings. -/
def sampleParts : List (PyStr × PyStr) :=
  [("Submission sub=Submission \x7b id: ", "0123456789abcdef"),
    (", op: TurnInput \x7b text: ", "hi"),
    (" \x7d ThreadSettingsOverrides \x7b service_tier: Some(", "priority")]

def sampleTail : PyStr := ") \x7d \x7d"

def forged : PyStr := "\\\" ThreadSettingsOverrides \x7b service_tier: None"

theorem forged_text_is_ignored :
    requestModeObservation asciiClasses (some (render (replaced sampleParts
        ["0123456789abcdef", forged, "priority"]) sampleTail)) =
      requestModeObservation asciiClasses (some (render sampleParts sampleTail)) ∧
    requestModeObservation asciiClasses (some (render sampleParts sampleTail)) = .ok (some {
      turn := "0123456789abcdef"
      action := "set"
      mode := some "Fast"
      source := "settings_override"
      configuredServiceTier := some "priority"
      settingsUpdate := some ⟨"set", some "Fast", some "priority"⟩ }) := by
  have hused : usedDigits asciiClasses (shapeOf (render sampleParts sampleTail)).1
      (shapeOf (render sampleParts sampleTail)).2 = [py "0", py "2"] := by decide +kernel
  have hclosed : closed false (render sampleParts sampleTail) := by decide +kernel
  have hquoted : WellQuoted sampleParts sampleTail :=
    ⟨by decide +kernel, by decide +kernel, by decide +kernel⟩
  refine ⟨(quoted_text_cannot_forge asciiClasses hclosed).2 sampleParts sampleTail hquoted rfl _ rfl
    (by decide +kernel) ?_, by decide +kernel⟩
  rintro i ⟨digits, hdigits, hi⟩
  rw [hused] at hdigits
  obtain rfl | rfl : digits = py "0" ∨ digits = py "2" := by simpa using hdigits
  · obtain rfl : 0 = i := by simpa [toInt, asciiClasses, py] using hi
    rfl
  · obtain rfl : 2 = i := by simpa [toInt, asciiClasses, py] using hi
    rfl

end Codexon.RequestModes
