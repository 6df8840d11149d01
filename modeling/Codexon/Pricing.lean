import Codexon.Json
import Mathlib.Tactic.Positivity

/-!
# Codexon.Pricing

The price of a call, from `cachemonitor/pricing.py`: `_token_cost` looks for it, and `token_cost`
names what is missing when there is none.  Amounts are exact.
-/

namespace Codexon.Pricing

/-! ## values -/

/-- An item of a row. -/
inductive Value where
  /-- Also what `row.get` answers when there is no item. -/
  | none
  | bool (b : Bool)
  | int (n : Int)
  | str (text : PyStr)
  /-- Of another type, such as a `float` or a `list`. -/
  | other (truthy hashable : Bool)
deriving DecidableEq

namespace Value

def truthy : Value → Bool
  | .none => false
  | .bool b => b
  | .int n => n ≠ 0
  | .str text => text ≠ []
  | .other truthy _ => truthy

def hashable : Value → Bool
  | .other _ hashable => hashable
  | _ => true

/-- `v` where `type(v) is int and v >= 0`. -/
def token : Value → Option Nat
  | .int (.ofNat n) => some n
  | _ => Option.none

/-- `d.get(v)` of a table with texts as keys. -/
def lookup {β : Type} (v : Value) (d : List (PyStr × β)) : Option β :=
  match v with
  | .str text => d.lookup text
  | _ => Option.none

end Value

structure Row where
  model : Value := .none
  serviceTier : Value := .none
  serviceTierSource : Value := .none
  modeConflict : Value := .none
  inputConflict : Value := .none
  input : Value := .none
  cached : Value := .none
  written : Value := .none
  output : Value := .none
  reasoning : Value := .none

/-! ## rates -/

/-- USD for each million tokens. -/
structure Rate where
  input : ℚ
  cached : Option ℚ
  output : ℚ
  written : Option ℚ := none
deriving DecidableEq

def rates : List (PyStr × Rate) := [
  (py "gpt-5.4-mini", ⟨3/4, some (3/40), 9/2, none⟩),
  (py "gpt-5.5", ⟨5, some (1/2), 30, none⟩),
  (py "gpt-5.5-pro", ⟨30, none, 180, none⟩),
  (py "gpt-5.6-sol", ⟨4, some (2/5), 20, some 5⟩),
  (py "gpt-5.6-terra", ⟨2, some (1/5), 12, some (5/2)⟩),
  (py "gpt-5.6-luna", ⟨1/5, some (1/50), 6/5, some (1/4)⟩),
  (py "gpt-6-astra", ⟨10, some 1, 50, some (25/2)⟩),
  (py "gpt-6.1-sol", ⟨2, some (1/10), 10, some (5/2)⟩),
  (py "gpt-6.1-terra", ⟨1, some (1/20), 5, some (5/4)⟩),
  (py "gpt-6-sol", ⟨2, some (1/5), 10, some (5/2)⟩),
  (py "gpt-6-luna", ⟨1/10, some (1/100), 1/2, some (1/8)⟩)]

def aliases : List (PyStr × PyStr) := [
  (py "gpt-5.6", py "gpt-5.6-sol"),
  (py "gpt-daybreak-blue-latest", py "gpt-5.6-sol"),
  (py "gpt-5.4-mini-2026-03-17", py "gpt-5.4-mini"),
  (py "gpt-5.5-2026-04-23", py "gpt-5.5")]

def fastMultiplier : ℚ := 5/2

def subscriptionFastMultipliers : List (PyStr × ℚ) :=
  (rates.filter fun entry => entry.1 ≠ py "gpt-5.5-pro").map fun entry => (entry.1, fastMultiplier)

def Rate.times (rate : Rate) (multiplier : ℚ) : Rate where
  input := rate.input * multiplier
  cached := rate.cached.map (· * multiplier)
  output := rate.output * multiplier
  written := rate.written.map (· * multiplier)

def fastRates : List (PyStr × Rate) :=
  subscriptionFastMultipliers.filterMap fun entry =>
    (rates.lookup entry.1).map fun rate => (entry.1, rate.times entry.2)

def aliased (model : Value) : Value := ((model.lookup aliases).map Value.str).getD model

def standardRate (model : Value) : Option Rate := (aliased model).lookup rates

def standard : Value := .str (py "Standard")

def fast : Value := .str (py "Fast")

def unknown : Value := .str (py "미확인")

def subscriptionMultiplier (model tier : Value) : Option ℚ :=
  if tier = standard ∧ (standardRate model).isSome then some 1
  else if tier ≠ fast ∨ model = .str (py "gpt-daybreak-blue-latest") then none
  else (aliased model).lookup subscriptionFastMultipliers

def tierNames : List (PyStr × Value) :=
  [(py "priority", fast), (py "fast", fast), (py "default", standard), (py "standard", standard)]

def requestTier (row : Row) : Value :=
  if row.modeConflict.truthy || row.serviceTierSource = .str (py "conflict") then unknown
  else
    (row.serviceTier.lookup tierNames).getD (if row.serviceTier.truthy then row.serviceTier
      else unknown)

def requestRate (row : Row) : Option Rate :=
  let tier := requestTier row
  if subscriptionMultiplier row.model tier = none then none
  else if tier = fast then (aliased row.model).lookup fastRates
  else standardRate row.model

def rateVerified : List (PyStr × PyStr) :=
  [(py "gpt-6.1-sol", py "2026-09-30"), (py "gpt-6.1-terra", py "2026-10-27")]

def priceProfile (model : Value) : PyStr :=
  ((aliased model).lookup rateVerified).getD (py "2026-09-23") ++ py " 단가 / " ++
    py "2026-10-27" ++ py " 구독 배율"

/-! ## the price -/

/-- `COST_KEYS` -/
structure Costs where
  cost : Option ℚ := none
  input : Option ℚ := none
  uncached : Option ℚ := none
  cached : Option ℚ := none
  written : Option ℚ := none
  unclassified : Option ℚ := none
  output : Option ℚ := none
  reasoning : Option ℚ := none
  nonReasoning : Option ℚ := none

structure Result extends Costs where
  priceModel : Value
  priceTier : Value
  priceAssumed : Bool := false
  longContext : Bool := false
  priceIssue : PyStr := []
  priceProfile : PyStr
  priceIssues : List PyStr := []

/-- `count * rate / 1e6` -/
def amount (count : ℚ) (rate : ℚ) : ℚ := count * rate / 1000000

def outputCosts (rate : Rate) (output : Nat) (reasoning : Value) : Costs :=
  let known := reasoning.token.filter (· ≤ output)
  { output := some (amount output rate.output)
    reasoning := known.map fun n : Nat => amount n rate.output
    nonReasoning := known.map fun n : Nat => amount (output - n) rate.output }

/-- All parts, once every count is known. -/
def allCosts (rate : Rate) (input cached : Nat) (written : Option Nat) (costs : Costs) : Costs :=
  let uncached := match written with
    | some n => amount (input - cached - n) rate.input
    | none => 0
  let unclassified := match written with
    | some _ => 0
    | none => amount (input - cached) rate.input
  let read := amount cached (rate.cached.getD 0)
  let write := amount (written.getD 0 : Nat) (rate.written.getD rate.input)
  { costs with
    uncached := some uncached
    cached := some read
    written := some write
    unclassified := some unclassified
    input := some (uncached + read + write + unclassified)
    cost := costs.output.map (uncached + read + write + unclassified + ·) }

/-- What is left of `_token_cost` when the rate is known. -/
def ratedCosts (row : Row) (rate : Rate) : Costs × PyStr :=
  match row.input.token, row.output.token with
  | some input, some output =>
    let costs := outputCosts rate output row.reasoning
    match row.cached.token.filter (· ≤ input) with
    | none => ({}, py "캐시 읽기 미확인")
    | some cached =>
      let written := row.written.token.filter (· ≤ input - cached)
      if cached ≠ 0 ∧ rate.cached = none then ({}, py "캐시 요율 미확인")
      else if row.written ≠ .none ∧ written = none then ({}, py "캐시 쓰기 미확인/범위 오류")
      else if row.inputConflict.truthy then (costs, py "입력 구성 관측 충돌")
      else if row.written = .none ∧ rate.written ≠ none then ({}, py "캐시 쓰기 미확인")
      else (allCosts rate input cached written costs, [])
  | _, _ => ({}, py "입력/출력 미확인")

/-- `_token_cost`, of a model and a tier that can be looked up. -/
def innerCost (row : Row) : Result :=
  let model := aliased row.model
  let tier := requestTier row
  let result : Result :=
    { priceModel := model, priceTier := tier, priceProfile := priceProfile model }
  if tier ≠ fast ∧ tier ≠ standard then
    { result with priceIssue :=
        if tier = unknown then py "요청 모드 미확인" else py "요청 모드 단가 미지원" }
  else
    match requestRate row with
    | none =>
      { result with priceIssue :=
          if (model.lookup rates).isSome then py "구독 배율 미확인" else py "기준 단가 미확인" }
    | some rate =>
      let (costs, issue) := ratedCosts row rate
      { result with toCosts := costs, priceIssue := issue }

/-! ## what is missing -/

def rateIssues (row : Row) : List PyStr :=
  let model := aliased row.model
  let mode := requestTier row
  (if !model.truthy then [py "분석 모델 미확인"]
    else if (model.lookup rates).isNone then [py "모델 기준 단가 미확인"] else []) ++
  (if mode = unknown then [py "요청 모드 미확인"]
    else if mode ≠ standard ∧ mode ≠ fast then [py "요청 모드 단가 미지원"]
    else if (model.lookup rates).isSome ∧ requestRate row = none then [py "구독 배율 미확인"]
    else [])

/-- What is wrong with the counts. -/
def tokenIssues (row : Row) : List PyStr :=
  let rate := requestRate row
  (if row.input.token.isNone then [py "입력 토큰 미확인"] else []) ++
  (if row.output.token.isNone then [py "출력 토큰 미확인"] else []) ++
  (match row.cached.token with
    | none => [py "캐시 읽기 미확인"]
    | some cached =>
      if row.input.token.any (· < cached) then [py "캐시 읽기 범위 오류"] else []) ++
  (if row.inputConflict.truthy then [py "입력 구성 관측 충돌"] else []) ++
  (if row.written ≠ .none then
    match row.written.token with
    | none => [py "캐시 쓰기 범위 오류"]
    | some written =>
      if row.input.token.any (fun input : Nat => row.cached.token.any fun cached : Nat =>
        (input : Int) - cached < written)
      then [py "캐시 쓰기 범위 오류"] else []
    else if rate.any (fun rate => rate.written.isSome) then [py "캐시 쓰기 미확인"] else []) ++
  (if row.cached.truthy ∧ rate.any (fun rate => rate.cached.isNone)
    then [py "캐시 읽기 단가 미지원"] else [])

def issues (row : Row) : List PyStr := rateIssues row ++ tokenIssues row

/-- `token_cost`: a model or a tier that cannot be a key raises. -/
def tokenCost (row : Row) : Except PyError Result :=
  let conflict := row.modeConflict.truthy || row.serviceTierSource = .str (py "conflict")
  if !row.model.hashable || (!conflict && !row.serviceTier.hashable) then .error .typeError
  else
    let result := innerCost row
    let found := if issues row = [] then [result.priceIssue] else issues row
    .ok { result with priceIssues := if result.cost = none then found else [] }

end Codexon.Pricing
