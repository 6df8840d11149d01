import Codexon.Python
import Mathlib.Data.Int.Log
import Mathlib.Data.Rat.Floor
import Mathlib.Order.WithBotTop

/-!
# Codexon.Number

Python's real numbers as the tracking code meets them: `nan`, the two
infinities, the negative zero that IEEE arithmetic keeps apart from zero,
and exact finite values.  A Python `int` compares with a `float` by exact
value, so both are a `finite` rational here.

`<` and `≤` are the IEEE comparisons: false as soon as one side is `nan`.
On numbers (`IsNum`) they are a linear order, read through `rank`.
-/

namespace Codexon

/-- A Python `float` (or an `int` seen by value). -/
inductive PyFloat where
  | nan
  | inf (neg : Bool)
  | negZero
  | finite (q : ℚ)
deriving DecidableEq, Repr

namespace PyFloat

/-- `math.isfinite`. -/
def isfinite : PyFloat → Bool
  | .nan | .inf _ => false
  | .negZero | .finite _ => true

/-- Not a `nan`, so comparisons are meaningful. -/
def IsNum : PyFloat → Bool
  | .nan => false
  | _ => true

/-- Position on the extended line; the value at `nan` is never consulted. -/
def rank : PyFloat → WithBot (WithTop ℚ)
  | .nan => ⊥
  | .inf true => ⊥
  | .inf false => ((⊤ : WithTop ℚ) : WithBot (WithTop ℚ))
  | .negZero => ((0 : ℚ) : WithBot (WithTop ℚ))
  | .finite q => (q : WithBot (WithTop ℚ))

instance : LT PyFloat := ⟨fun a b => a.IsNum ∧ b.IsNum ∧ a.rank < b.rank⟩
instance : LE PyFloat := ⟨fun a b => a.IsNum ∧ b.IsNum ∧ a.rank ≤ b.rank⟩

instance (a b : PyFloat) : Decidable (a < b) :=
  inferInstanceAs (Decidable (a.IsNum ∧ b.IsNum ∧ a.rank < b.rank))

instance (a b : PyFloat) : Decidable (a ≤ b) :=
  inferInstanceAs (Decidable (a.IsNum ∧ b.IsNum ∧ a.rank ≤ b.rank))

/-- Python's `==` on numbers: `nan` equals nothing and the zeros are equal. -/
def eq (a b : PyFloat) : Bool := a.IsNum && b.IsNum && decide (a.rank = b.rank)

instance (n : Nat) : OfNat PyFloat n := ⟨.finite n⟩

variable {a b : PyFloat}

theorem lt_def : a < b ↔ a.IsNum ∧ b.IsNum ∧ a.rank < b.rank := Iff.rfl

theorem le_def : a ≤ b ↔ a.IsNum ∧ b.IsNum ∧ a.rank ≤ b.rank := Iff.rfl

theorem isNum_of_isfinite (h : a.isfinite) : a.IsNum := by
  cases a <;> simp_all [isfinite, IsNum]

theorem le_of_not_lt (ha : a.IsNum) (hb : b.IsNum) (h : ¬ a < b) : b ≤ a :=
  ⟨hb, ha, not_lt.mp fun hlt => h ⟨ha, hb, hlt⟩⟩

theorem lt_of_not_le (ha : a.IsNum) (hb : b.IsNum) (h : ¬ a ≤ b) : b < a :=
  ⟨hb, ha, not_le.mp fun hle => h ⟨ha, hb, hle⟩⟩

theorem le_of_lt (h : a < b) : a ≤ b := ⟨h.1, h.2.1, h.2.2.le⟩

theorem not_le_of_lt (h : a < b) : ¬ b ≤ a := fun hle => not_le.mpr h.2.2 hle.2.2

theorem not_lt_of_le (h : a ≤ b) : ¬ b < a := fun hlt => not_lt.mpr h.2.2 hlt.2.2

theorem le_refl (ha : a.IsNum) : a ≤ a := ⟨ha, ha, le_rfl⟩

theorem le_trans {c : PyFloat} (hab : a ≤ b) (hbc : b ≤ c) : a ≤ c :=
  ⟨hab.1, hbc.2.1, hab.2.2.trans hbc.2.2⟩

/-! ## binary64 -/

def roundHalfEven (q : ℚ) : Int :=
  let f := q.floor
  if q - f < 1 / 2 then f
  else if 1 / 2 < q - f then f + 1
  else if f % 2 = 0 then f else f + 1

/-- The double nearest to `a ≥ 0` (to `-a` if `neg`): 53 significant bits, at
least the subnormal spacing `2 ^ -1074`, infinity from `2 ^ 1024` on. -/
def roundDouble (neg : Bool) (a : ℚ) : PyFloat :=
  let e : Int := max (Int.log 2 a - 52) (-1074)
  let v : ℚ := roundHalfEven (a / 2 ^ e) * 2 ^ e
  if v = 0 then if neg then .negZero else .finite 0
  else if 2 ^ 1024 ≤ v then .inf neg
  else .finite (if neg then -v else v)

/-- `float(n)` of an integer, which raises when the nearest double is infinite. -/
def ofInt (n : Int) : Except PyError PyFloat :=
  match roundDouble (n < 0) |(n : ℚ)| with
  | .inf _ => .error .overflowError
  | x => .ok x

end PyFloat

/-- A Python `int` or `float`; the two differ in type and in arithmetic. -/
inductive PyNum where
  | int (n : Int)
  | float (x : PyFloat)
deriving DecidableEq, Repr

namespace PyNum

/-- The number as comparisons see it. -/
def value : PyNum → PyFloat
  | .int n => .finite n
  | .float x => x

/-- `100 - x`: exact on integers, rounded to a double on floats. -/
def hundredMinus : PyNum → PyNum
  | .int n => .int (100 - n)
  | .float .nan => .float .nan
  | .float (.inf neg) => .float (.inf !neg)
  | .float .negZero => .float (.finite 100)
  | .float (.finite q) => .float (PyFloat.roundDouble (100 < q) |100 - q|)

def truthy : PyNum → Bool
  | .int n => n ≠ 0
  | .float x => x ≠ .negZero && x ≠ .finite 0

end PyNum

/-!
## nearest doubles

Rounding to binary64 is monotone.  `nearest` is the double nearest to a
rational of ordinary size, by which sums and differences of times are computed.
-/

namespace PyFloat

/-- The spacing of the doubles around `a ≥ 0` is `2 ^ spacing a`. -/
def spacing (a : ℚ) : Int := max (Int.log 2 a - 52) (-1074)

/-- The double nearest to `a ≥ 0`, below the overflow threshold. -/
def nearestPos (a : ℚ) : ℚ := roundHalfEven (a / 2 ^ spacing a) * 2 ^ spacing a

def nearest (q : ℚ) : ℚ := if q < 0 then -nearestPos (-q) else nearestPos q

/-- `a + b` of doubles of ordinary size. -/
def add (a b : ℚ) : ℚ := nearest (a + b)

/-- `a - b` of doubles of ordinary size. -/
def sub (a b : ℚ) : ℚ := nearest (a - b)

/-! ## rounding to integers -/

theorem roundHalfEven_bounds (q : ℚ) : q.floor ≤ roundHalfEven q ∧ roundHalfEven q ≤ q.floor + 1 :=
    by
  unfold roundHalfEven
  dsimp only
  split
  · omega
  · split
    · omega
    · split <;> omega

theorem roundHalfEven_intCast (n : Int) : roundHalfEven n = n := by
  simp [roundHalfEven]

theorem roundHalfEven_mono {q r : ℚ} (h : q ≤ r) : roundHalfEven q ≤ roundHalfEven r := by
  have hfloor : q.floor ≤ r.floor := Rat.floor_monotone h
  rcases hfloor.lt_or_eq with hlt | heq
  · have hq := (roundHalfEven_bounds q).2
    have hr := (roundHalfEven_bounds r).1
    omega
  · -- With one floor, the larger fraction is rounded up at least as often.
    unfold roundHalfEven
    dsimp only
    rw [heq]
    split <;> split <;> try split
    all_goals try split
    all_goals try omega
    all_goals linarith

/-! ## rounding to doubles -/

theorem spacing_mono {a b : ℚ} (ha : 0 < a) (h : a ≤ b) : spacing a ≤ spacing b := by
  have := Int.log_mono_right (b := 2) ha h
  unfold spacing
  omega

theorem roundHalfEven_pow {k e : Int} (h : e ≤ k) :
    (roundHalfEven ((2 : ℚ) ^ k / 2 ^ e) : ℚ) * 2 ^ e = 2 ^ k := by
  have hquot : (2 : ℚ) ^ k / 2 ^ e = ((2 ^ (k - e).toNat : Int) : ℚ) := by
    rw [← zpow_sub₀ (by norm_num), Int.cast_pow, ← zpow_natCast, Int.toNat_of_nonneg (by omega)]
    rfl
  rw [hquot, roundHalfEven_intCast, ← hquot]
  exact div_mul_cancel₀ _ (zpow_ne_zero _ two_ne_zero)

theorem nearestPos_zero : nearestPos 0 = 0 := by
  have : roundHalfEven (0 : ℚ) = 0 := roundHalfEven_intCast 0
  simp [nearestPos, this]

theorem nearestPos_mono_of_pos {a b : ℚ} (ha : 0 < a) (h : a ≤ b) : nearestPos a ≤ nearestPos b :=
    by
  have hgrid (q : ℚ) {r : ℚ} {e : Int} (hqr : q ≤ r) :
      (roundHalfEven (q / 2 ^ e) : ℚ) * 2 ^ e ≤ roundHalfEven (r / 2 ^ e) * 2 ^ e := by
    have hpow : (0 : ℚ) < 2 ^ e := zpow_pos two_pos _
    have hround := roundHalfEven_mono (div_le_div_of_nonneg_right hqr hpow.le)
    exact mul_le_mul_of_nonneg_right (by exact_mod_cast hround) hpow.le
  rcases (spacing_mono ha h).eq_or_lt with heq | hlt
  · unfold nearestPos
    rw [heq]
    exact hgrid a h
  · -- The power of two where the spacing of `b` begins lies between them.
    have hb : spacing b = Int.log 2 b - 52 := by unfold spacing at hlt ⊢; omega
    have hlog : Int.log 2 a + 1 ≤ Int.log 2 b := by unfold spacing at hlt; omega
    have hle : (2 : ℚ) ^ Int.log 2 b ≤ b := Int.zpow_log_le_self (by norm_num) (ha.trans_le h)
    have hge : a ≤ 2 ^ Int.log 2 b :=
      (Int.lt_zpow_succ_log_self (by norm_num) a).le.trans
        (zpow_le_zpow_right₀ (by norm_num) hlog)
    calc nearestPos a
        ≤ roundHalfEven ((2 : ℚ) ^ Int.log 2 b / 2 ^ spacing a) * 2 ^ spacing a := hgrid a hge
      _ = 2 ^ Int.log 2 b := roundHalfEven_pow (by omega)
      _ = roundHalfEven ((2 : ℚ) ^ Int.log 2 b / 2 ^ spacing b) * 2 ^ spacing b :=
        (roundHalfEven_pow (by omega)).symm
      _ ≤ nearestPos b := hgrid _ hle

theorem nearestPos_nonneg {a : ℚ} (h : 0 ≤ a) : 0 ≤ nearestPos a := by
  have hpow : (0 : ℚ) < 2 ^ spacing a := zpow_pos two_pos _
  have hround := roundHalfEven_mono (div_nonneg h hpow.le)
  rw [show (0 : ℚ) = ((0 : Int) : ℚ) from rfl, roundHalfEven_intCast] at hround
  exact mul_nonneg (by exact_mod_cast hround) hpow.le

theorem nearestPos_mono {a b : ℚ} (ha : 0 ≤ a) (h : a ≤ b) : nearestPos a ≤ nearestPos b := by
  rcases ha.eq_or_lt with rfl | ha
  · rw [nearestPos_zero]
    exact nearestPos_nonneg h
  · exact nearestPos_mono_of_pos ha h

/-- **Rounding keeps the order** of the numbers it rounds. -/
theorem nearest_mono {a b : ℚ} (h : a ≤ b) : nearest a ≤ nearest b := by
  unfold nearest
  split <;> split
  · exact neg_le_neg (nearestPos_mono (by linarith) (by linarith))
  · exact (neg_nonpos.mpr (nearestPos_nonneg (by linarith))).trans
      (nearestPos_nonneg (by linarith))
  · linarith
  · exact nearestPos_mono (by linarith) h

theorem sub_mono_left {a b : ℚ} (h : a ≤ b) (c : ℚ) : sub a c ≤ sub b c :=
  nearest_mono (sub_le_sub_right h c)

end PyFloat

end Codexon
