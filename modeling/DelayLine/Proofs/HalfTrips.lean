import Mathlib.Data.Rat.Floor
import DelayLine.RoundTrip
import DelayLine.Proofs.ExactWholes

/-!
# The delays of round trips

Under the base profile no step rounds before the last one, so a delay is half of the whole
milliseconds that are measured, rounded to the nearest one. The speed profile does round, but every
step keeps the order of the times and of the factors (`halved_mono`). So a longer time gets no
shorter delay, and the speed profile gives no longer delay than the base profile.
-/

namespace DelayLine

/-- The whole number nearest to `x`, the even one of two. -/
structure IsNearestEven (x : ℚ) (k : Nat) : Prop where
  near : |x - k| ≤ 1 / 2
  even : |x - k| = 1 / 2 → Even k

theorem isNearestEven_nearest (n : Nat) {d : Nat} (hd : 0 < d) :
    IsNearestEven (n / d) (nearest n d) := by
  have hpos : (0 : ℚ) < 2 * d := by positivity
  have habs : |(n / d : ℚ) - nearest n d| = |(2 * n - 2 * (d * nearest n d) : ℚ)| / (2 * d) := by
    rw [← abs_of_pos hpos, ← abs_div]
    congr 1
    field_simp
  obtain ⟨hlow, hhigh⟩ := nearest_bounds n hd
  rw [Nat.mul_assoc] at hlow hhigh
  constructor
  · rw [habs, div_le_iff₀ hpos, one_div, inv_mul_cancel_left₀ two_ne_zero, abs_le]
    constructor
    · rw [neg_le_sub_iff_le_add]
      exact_mod_cast hhigh
    · rw [sub_le_iff_le_add']
      exact_mod_cast hlow
  · intro htie
    rw [habs, div_eq_iff hpos.ne', one_div, inv_mul_cancel_left₀ two_ne_zero,
      abs_eq (Nat.cast_nonneg d)] at htie
    refine even_nearest_of_tie hd (htie.symm.imp (fun h => ?_) fun h => ?_)
    · rw [sub_eq_iff_eq_add, neg_add_eq_sub, eq_sub_iff_add_eq] at h
      exact_mod_cast h
    · rw [sub_eq_iff_eq_add'] at h
      exact_mod_cast h

theorem IsNearestEven.abs_two_mul_sub_le {n : ℤ} {k : ℕ} (h : IsNearestEven (n / 2) k) :
    |2 * (k : ℤ) - n| ≤ 1 := by
  have hnear := abs_le.1 h.near
  have hle : (2 * (k : ℤ) - n : ℚ) ≤ 1 := by push_cast; linarith
  have hge : (-1 : ℚ) ≤ 2 * (k : ℤ) - n := by push_cast; linarith
  rw [abs_le]
  exact ⟨by exact_mod_cast hge, by exact_mod_cast hle⟩

namespace Binary64

/-- The number that a sign and a magnitude are. -/
def value (negative : Bool) (m : Magnitude) : ℚ :=
  if negative then -(m.units / unitsPerOne) else m.units / unitsPerOne

/-- The order of the numbers. NaN is not ordered, and both zeros are the same number. -/
inductive Le : Binary64 → Binary64 → Prop where
  | bot {x : Binary64} (h : x ≠ nan) : Le (infinite true) x
  | top {x : Binary64} (h : x ≠ nan) : Le x (infinite false)
  | value {s t : Bool} {m n : Magnitude} (h : value s m ≤ value t n) :
    Le (finite s m) (finite t n)

instance : LE Binary64 := ⟨Le⟩

variable {x y : Binary64} {s : Bool} {k m n : Magnitude}

theorem le_or_le (hx : x ≠ nan) (hy : y ≠ nan) : x ≤ y ∨ y ≤ x := by
  match x, y with
  | nan, _ => exact absurd rfl hx
  | _, nan => exact absurd rfl hy
  | infinite true, _ => exact .inl (.bot hy)
  | infinite false, _ => exact .inr (.top hy)
  | _, infinite true => exact .inr (.bot hx)
  | _, infinite false => exact .inl (.top hx)
  | finite s m, finite t n => exact (le_total (value s m) (value t n)).imp .value .value

theorem unitsPerOne_cast_pos : (0 : ℚ) < unitsPerOne := by exact_mod_cast unitsPerOne_pos

theorem value_true_nonpos : value true m ≤ 0 := by
  rw [value, if_pos rfl, neg_nonpos]
  positivity

theorem eq_false_of_value_pos (h : 0 < value s m) : s = false := by
  cases s with
  | true => exact absurd h value_true_nonpos.not_gt
  | false => rfl

theorem value_false_le_iff : value false m ≤ value false n ↔ m.units ≤ n.units := by
  simp only [value, Bool.false_eq_true, if_false]
  rw [div_le_div_iff_of_pos_right unitsPerOne_cast_pos, Nat.cast_le]

theorem value_zero : value false .zero = 0 := by simp [value, Magnitude.zero]

theorem ceil_value_false : ⌈value false m⌉ = m.ceil := by
  have hlt := m.ceil_mul_lt
  have hle := m.le_ceil_mul
  rw [Int.ceil_eq_iff, value, if_neg Bool.false_ne_true, lt_div_iff₀ unitsPerOne_cast_pos,
    div_le_iff₀ unitsPerOne_cast_pos, sub_one_mul, sub_lt_iff_lt_add, Int.cast_natCast]
  exact ⟨by exact_mod_cast hlt, by exact_mod_cast hle⟩

def isNegative : Binary64 → Bool
  | nan => false
  | infinite negative => negative
  | finite negative _ => negative

theorem isNegative_round (n d : Nat) : (round s n d).isNegative = s := by
  unfold round
  split <;> rfl

theorem isNegative_ceil (x : Binary64) : x.ceil.isNegative = x.isNegative := by
  match x with
  | nan | infinite _ => rfl
  | finite true _ | finite false _ => exact isNegative_round _ _

theorem isNegative_roundEven (x : Binary64) : x.roundEven.isNegative = x.isNegative := by
  match x with
  | nan | infinite _ => rfl
  | finite _ _ => exact isNegative_round _ _

theorem infinite_mul (hk : 0 < k.units) : infinite s * finite false k = infinite s :=
  (if_neg hk.ne').trans (congrArg infinite (Bool.bne_false s))

theorem isNegative_mul (x : Binary64) (hk : 0 < k.units) :
    (x * finite false k).isNegative = x.isNegative := by
  match x with
  | nan => rfl
  | infinite s => rw [infinite_mul hk]
  | finite s m => exact (isNegative_round _ _).trans (Bool.bne_false s)

theorem toAmount_of_isNegative (h : x.isNegative = true) : x.toAmount = 0 := by
  match x with
  | nan => rfl
  | infinite _ | finite _ _ => exact if_pos h

theorem exists_ofFraction {n d : Nat} (hd : 0 < d) (hn : d ≤ n * unitsPerOne) (hle : n ≤ d) :
    ∃ k : Magnitude, k.units = roundUnits (n * unitsPerOne) d ∧ 0 < k.units ∧
      k.units ≤ unitsPerOne ∧ ofFraction n d = finite false k := by
  have hpos : 0 < roundUnits (n * unitsPerOne) d := by
    rw [Nat.pos_iff_ne_zero, Ne, roundUnits_eq_zero_iff hd]
    omega
  have hround : roundUnits (n * unitsPerOne) d ≤ unitsPerOne :=
    isShort_unitsPerOne.roundUnits_le_of_le hd (Nat.mul_le_mul_right _ hle)
  have hlimit : unitsPerOne < unitsLimit := by decide +kernel
  obtain ⟨k, hk, heq⟩ := exists_round false (hround.trans_lt hlimit)
  exact ⟨k, hk, hk ▸ hpos, hk ▸ hround, heq⟩

theorem exists_unitsPerOne_eq : ∃ e, unitsPerOne = 2 * 2 ^ e := by
  have h (k : Nat) (hk : k ≤ 1074) : ∃ e, unitsPerOne = 2 ^ k * 2 ^ e :=
    ⟨1074 - k, unitsPerOne_eq_mul hk⟩
  simpa only [pow_one] using h 1 (by decide)

theorem exists_half : ∃ k : Magnitude, 0 < k.units ∧ 2 * k.units = unitsPerOne ∧
    ofFraction 1 2 = finite false k := by
  obtain ⟨e, he⟩ := exists_unitsPerOne_eq
  obtain ⟨k, hk, hpos, -, heq⟩ :=
    exists_ofFraction (n := 1) Nat.two_pos (by decide +kernel) (by decide)
  refine ⟨k, hpos, ?_, heq⟩
  rw [hk, Nat.one_mul, he, (isShort_two_pow e).roundUnits_mul Nat.two_pos]

end Binary64

open Binary64

/-- Whole milliseconds that are scaled by a number of units, halved and rounded. -/
def halved (whole scale : Nat) : Nat :=
  nearest (roundUnits (roundUnits (whole * scale) 1) 2) unitsPerOne

theorem halved_mono {whole whole' scale scale' : Nat} (hwhole : whole ≤ whole')
    (hscale : scale ≤ scale') : halved whole scale ≤ halved whole' scale' :=
  nearest_mono unitsPerOne_pos (roundUnits_mono Nat.two_pos
    (roundUnits_mono Nat.one_pos (Nat.mul_le_mul hwhole hscale)))

theorem halved_unitsPerOne {whole : Nat} (h : IsShort whole) :
    halved whole unitsPerOne = nearest whole 2 := by
  obtain ⟨e, he⟩ := exists_unitsPerOne_eq
  rw [halved, h.mul_unitsPerOne.roundUnits_one, he, Nat.mul_left_comm,
    (h.mul_two_pow e).roundUnits_mul Nat.two_pos, nearest_mul_mul_right _ _ (Nat.two_pow_pos e)]

theorem halved_zero (scale : Nat) : halved 0 scale = 0 := by
  have h : IsShort 0 := isShort_of_le (Nat.zero_le _)
  have hhalf : roundUnits 0 2 = 0 := h.roundUnits_mul Nat.two_pos
  rw [halved, Nat.zero_mul, h.roundUnits_one, hhalf]
  exact Nat.le_zero.1 (nearest_le_of_le unitsPerOne_pos (Nat.zero_le _))

theorem Profile.exists_multiplier (profile : Profile) : ∃ k : Magnitude, 0 < k.units ∧
    k.units ≤ unitsPerOne ∧ (profile = base → k.units = unitsPerOne) ∧
      profile.multiplier = .finite false k := by
  cases profile with
  | base =>
    obtain ⟨k, hk, hpos, hle, heq⟩ :=
      exists_ofFraction (n := 1) Nat.one_pos (by decide +kernel) (by decide)
    refine ⟨k, hpos, hle, fun _ => ?_, heq⟩
    rw [hk, Nat.one_mul, isShort_unitsPerOne.roundUnits_one]
  | speed =>
    obtain ⟨k, -, hpos, hle, heq⟩ :=
      exists_ofFraction (n := 33) (d := 100) (by decide) (by decide +kernel) (by decide)
    exact ⟨k, hpos, hle, nofun, heq⟩

namespace RoundTrip

variable {profile : Profile} {r r' : RoundTrip} {s : Bool} {k m : Magnitude}

theorem delay_of_finite (hk : profile.multiplier = .finite false k) (hle : k.units ≤ unitsPerOne)
    (hr : r.time = .finite false m) : r.delay profile = saturate (halved m.ceil k.units) := by
  obtain ⟨c, hc, hceil⟩ := m.exists_ceil
  obtain ⟨p, hp, hscale⟩ := exists_mul false (m := c) hle
  obtain ⟨h, hpos, hh, hhalf⟩ := exists_half
  obtain ⟨q, hq, hhalve⟩ := exists_mul false (m := p) (n := h) (by omega)
  obtain ⟨w, hw, hround⟩ := exists_roundEven false q
  have hscaled : p.units = roundUnits (m.ceil * k.units) 1 := by
    rw [hp, hc, Nat.mul_right_comm, ← roundUnits_mul_mul_right _ 1 unitsPerOne_pos, Nat.one_mul]
  have hhalved : q.units = roundUnits p.units 2 := by
    rw [hq, ← hh, roundUnits_mul_mul_right _ _ hpos]
  rw [delay, hr, hk, hceil, hscale, hhalf, hhalve, hround, toAmount, if_neg Bool.false_ne_true, hw,
    Nat.mul_div_cancel _ unitsPerOne_pos, hhalved, hscaled, halved]

theorem delay_of_isNegative (h : r.time.isNegative = true) : r.delay profile = 0 := by
  obtain ⟨k, hk, -, -, heq⟩ := profile.exists_multiplier
  obtain ⟨u, hu, -, hhalf⟩ := exists_half
  refine toAmount_of_isNegative ?_
  rw [heq, hhalf, isNegative_roundEven, isNegative_mul _ hu, isNegative_mul _ hk, isNegative_ceil,
    h]

theorem delay_of_nan (h : r.time = .nan) : r.delay profile = 0 := by
  rw [delay, h]
  rfl

theorem delay_of_infinite (h : r.time = .infinite false) : r.delay profile = maxAmount := by
  obtain ⟨k, hk, -, -, heq⟩ := profile.exists_multiplier
  obtain ⟨u, hu, -, hhalf⟩ := exists_half
  have hceil : (infinite false).ceil = .infinite false := rfl
  rw [delay, h, hceil, heq, hhalf, infinite_mul hk, infinite_mul hu]
  rfl

theorem delay_of_nonpos (hr : r.time = .finite s m) (h : value s m ≤ 0) : r.delay profile = 0 := by
  cases s with
  | true => exact delay_of_isNegative (by rw [hr]; rfl)
  | false =>
    obtain ⟨k, -, hle, -, heq⟩ := profile.exists_multiplier
    have hzero : m.units ≤ Magnitude.zero.units := value_false_le_iff.1 (h.trans value_zero.ge)
    have hceil : m.ceil = 0 := Nat.le_zero.1 ((Magnitude.ceil_mono hzero).trans (by decide +kernel))
    rw [delay_of_finite heq hle hr, hceil, halved_zero]
    rfl

theorem delay_base (hr : r.time = .finite false m) :
    r.delay .base = saturate (nearest m.ceil 2) := by
  obtain ⟨k, -, hle, hk, heq⟩ := Profile.base.exists_multiplier
  rw [delay_of_finite heq hle hr, hk rfl, halved_unitsPerOne m.isShort_ceil]

theorem delay_le_delay {profile' : Profile} (hprofile : profile = profile' ∨ profile' = .base)
    (h : r.time ≤ r'.time) : r.delay profile ≤ r'.delay profile' := by
  generalize ht : r.time = t at h
  generalize ht' : r'.time = t' at h
  cases h with
  | bot =>
    rw [delay_of_isNegative (by rw [ht]; rfl)]
    exact UInt64.zero_le
  | top =>
    rw [delay_of_infinite ht', UInt64.le_iff_toNat_le]
    exact toNat_le_maxAmount _
  | @value s s' m m' h =>
    rcases le_or_gt (value s m) 0 with hle | hpos
    · rw [delay_of_nonpos ht hle]
      exact UInt64.zero_le
    · -- Both times are positive, so their units are ordered as they are.
      obtain rfl := eq_false_of_value_pos hpos
      obtain rfl := eq_false_of_value_pos (hpos.trans_le h)
      obtain ⟨k, -, hk, -, heq⟩ := profile.exists_multiplier
      obtain ⟨k', -, hk', hbase, heq'⟩ := profile'.exists_multiplier
      have hscale : k.units ≤ k'.units := by
        rcases hprofile with rfl | hprofile
        · rw [heq] at heq'
          cases heq'
          exact le_rfl
        · rwa [hbase hprofile]
      rw [delay_of_finite heq hk ht, delay_of_finite heq' hk' ht']
      exact saturate_mono (halved_mono (Magnitude.ceil_mono (value_false_le_iff.1 h)) hscale)

theorem delay_speed_le (r : RoundTrip) : r.delay .speed ≤ r.delay .base := by
  by_cases ht : r.time = .nan
  · rw [delay_of_nan ht, delay_of_nan ht]
    exact UInt64.le_refl 0
  · exact delay_le_delay (.inr rfl) ((le_or_le ht ht).elim id id)

theorem delay_base_nearest (hr : r.time = .finite s m) (h : 0 ≤ value s m) :
    ∃ k : ℕ, IsNearestEven (⌈value s m⌉ / 2) k ∧ r.delay .base = saturate k := by
  cases s with
  | true =>
    have hzero : value true m = 0 := le_antisymm value_true_nonpos h
    refine ⟨0, ?_, delay_of_isNegative (by rw [hr]; rfl)⟩
    rw [hzero]
    exact ⟨by simp, by simp⟩
  | false =>
    refine ⟨_, ?_, delay_base hr⟩
    rw [ceil_value_false, Int.cast_natCast]
    exact isNearestEven_nearest m.ceil Nat.two_pos

/-- Both directions get one delay. Under the base profile it is half of the time rounded up, to the
nearest millisecond. It grows with the time under both profiles, and from base to speed it does not
grow. -/
theorem delay_halves_time (r : RoundTrip) :
    (∀ profile direction carried,
      ((r.toRule profile).schedule direction).after carried = r.delay profile) ∧
    (∀ negative m, r.time = .finite negative m → 0 ≤ value negative m →
      ∃ k : ℕ, IsNearestEven (⌈value negative m⌉ / 2) k ∧
        (r.delay .base).toNat = min k maxAmount.toNat ∧
        (k ≤ maxAmount.toNat →
          |2 * ((r.delay .base).toNat : ℤ) - ⌈value negative m⌉| ≤ 1)) ∧
    (∀ r' : RoundTrip,
      (r.time ≠ .nan → r'.time ≠ .nan → r.time ≤ r'.time ∨ r'.time ≤ r.time) ∧
      ∀ profile, r.time ≤ r'.time → r.delay profile ≤ r'.delay profile) ∧
    (∀ profile, (r.time ≤ .finite false .zero → r.delay profile = 0) ∧
      (r.time = .infinite false → r.delay profile = maxAmount) ∧
      (r.time = .nan → r.delay profile = 0)) ∧
    r.delay .speed ≤ r.delay .base := by
  refine ⟨fun profile direction carried => ?_, fun negative m ht hle => ?_,
    fun r' => ⟨le_or_le, fun profile => delay_le_delay (.inl rfl)⟩,
    fun profile => ⟨fun h => ?_, delay_of_infinite, delay_of_nan⟩, r.delay_speed_le⟩
  · cases direction <;> exact Schedule.after_constant ..
  · obtain ⟨k, hk, heq⟩ := delay_base_nearest ht hle
    have hmin : (r.delay .base).toNat = min k maxAmount.toNat := heq ▸ toNat_saturate k
    refine ⟨k, hk, hmin, fun hmax => ?_⟩
    rw [hmin, Nat.min_eq_left hmax]
    exact hk.abs_two_mul_sub_le
  · have hzero : (⟨r.endpoint, .finite false .zero⟩ : RoundTrip).delay profile = 0 :=
      delay_of_nonpos rfl value_zero.le
    have hle : r.delay profile ≤ 0 := hzero ▸ delay_le_delay (.inl rfl) h
    exact UInt64.le_antisymm hle UInt64.zero_le

/-- Half of 51 milliseconds is as far from 25 as from 26. -/
theorem delay_halves_time_of_tie :
    let r (time : Binary64) : RoundTrip := ⟨⟨⟨1, 1, 1, 1⟩, 443⟩, time⟩
    let m : Magnitude := ⟨51 * unitsPerOne, by decide +kernel⟩
    (0 ≤ value false m ∧ ∃ k : ℕ, IsNearestEven (⌈value false m⌉ / 2) k ∧
      26 = min k maxAmount.toNat ∧
        (k ≤ maxAmount.toNat → |2 * ((26 : ℕ) : ℤ) - ⌈value false m⌉| ≤ 1)) ∧
    (r (finite true m)).delay .speed = 0 ∧
    (r (finite false m)).delay .speed ≤ (r (infinite false)).delay .speed ∧
    (r (infinite false)).delay .speed = maxAmount ∧ (r nan).delay .base = 0 := by
  intro r m
  have hpos : 0 ≤ value false m := value_zero.ge.trans (value_false_le_iff.2 (Nat.zero_le _))
  have hnonpos : finite true m ≤ finite false .zero :=
    .value (value_true_nonpos.trans value_zero.ge)
  have hbase : ((r (finite false m)).delay .base).toNat = 26 := by decide +kernel
  have htie := (delay_halves_time (r (finite false m))).2.1 false m rfl hpos
  rw [hbase] at htie
  exact ⟨⟨hpos, htie⟩, ((delay_halves_time (r (finite true m))).2.2.2.1 .speed).1 hnonpos,
    ((delay_halves_time (r (finite false m))).2.2.1 (r (infinite false))).2 .speed (.top nofun),
    ((delay_halves_time (r (infinite false))).2.2.2.1 .speed).2.1 rfl,
    ((delay_halves_time (r nan)).2.2.2.1 .base).2.2 rfl⟩

end RoundTrip

end DelayLine
