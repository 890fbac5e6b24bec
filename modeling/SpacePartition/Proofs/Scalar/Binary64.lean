-- No single module of Mathlib has the lemmas on the bits of numbers, which come with all of it.
import Mathlib
import SpacePartition.Scalar.Binary64
import SpacePartition.Proofs.Scalar.Orderly

/-!
The order of rounded numbers. A number is in order where its bits put it, sign and magnitude, so
that all that holds of the order of integers holds of numbers that are none but undefined ones.
-/

namespace SpacePartition.Binary64

open Float.Model Float.Model.UnpackedFloat

-- The order of the numbers as an order of integers, in which both zeros are `0`.
def place (x : Float) : Int :=
  let bits := x.toBits.toNat
  if bits < 2 ^ 63 then bits else 2 ^ 63 - bits

section Fields

variable (b : BitVec 64)

theorem toNat_unpackMantissa :
    (@unpackMantissa Format.binary64 b).toNat = b.toNat % 2 ^ 52 := by
  simp [unpackMantissa]

theorem toNat_unpackExponent :
    (@unpackExponent Format.binary64 b).toNat = b.toNat / 2 ^ 52 % 2 ^ 11 := by
  simp [unpackExponent, Nat.shiftRight_eq_div_pow]

theorem toNat_unpackSign :
    (@unpackSign Format.binary64 b).toNat = b.toNat / 2 ^ 63 := by
  have h : b.toNat < 2 ^ 64 := b.isLt
  simp [unpackSign, Nat.shiftRight_eq_div_pow]
  omega

end Fields

-- Whether a number in parts has a place. An exponent above the least one comes with a long
-- mantissa.
def Reads (p : Int) : UnpackedFloat → Prop
  | .infinity s     => p = s.apply (2047 * 2 ^ 52)
  | .notANumber     => False
  | .zero _         => p = 0
  | .finite s m e _ => p = s.apply (m + (e + 1074) * 2 ^ 52) ∧ m < 2 ^ 53 ∧ -1074 ≤ e ∧ e ≤ 971 ∧
    (e = -1074 ∨ 2 ^ 52 ≤ m)

theorem reads_unpack {x : Float} (h : x.isNaN = false) : Reads (place x) x.toModel.unpack := by
  have hb : x.toModel.toBits.toBitVec.toNat = x.toBits.toNat := rfl
  have hlt : x.toBits.toNat < 2 ^ 64 := x.toBits.toBitVec.isLt
  have hu : x.toModel.unpack = UnpackedFloat.unpack Format.binary64 x.toModel.toBits.toBitVec := rfl
  have hn : x.toModel.unpack.isNaN = false := h
  have hp : place x = if x.toBits.toNat < 2 ^ 63 then (x.toBits.toNat : Int)
    else 2 ^ 63 - x.toBits.toNat := rfl
  rw [hu] at hn ⊢
  generalize x.toModel.toBits.toBitVec = b at *
  have hm := toNat_unpackMantissa b
  have he := toNat_unpackExponent b
  have hs := toNat_unpackSign b
  rw [hb] at hm he hs
  generalize x.toBits.toNat = bits at *
  generalize place x = p at *
  have sign (n : Int) : (Sign.ofBitVec (@unpackSign Format.binary64 b)).apply n =
      if bits < 2 ^ 63 then n else -n := by
    have h0 : @unpackSign Format.binary64 b = 0#1 ↔ bits < 2 ^ 63 := by
      rw [← BitVec.toNat_inj, hs, BitVec.toNat_zero]
      omega
    simp only [Sign.ofBitVec, h0]
    split <;> rfl
  have hl : (1#1 ++ @unpackMantissa Format.binary64 b).toNat = 2 ^ 52 + bits % 2 ^ 52 := by
    rw [BitVec.toNat_append, hm, ← Nat.shiftLeft_add_eq_or_of_lt (Nat.mod_lt _ (by decide))]
    rfl
  have h1 : (-1#11).toNat = 2047 := rfl
  have h2 : ((Format.binary64.exponentBias : Nat) : Int) = 1023 := rfl
  simp only [UnpackedFloat.unpack, ← BitVec.toNat_inj, hm, he, hl, h1, h2, BitVec.toNat_zero]
    at hn ⊢
  split at hn <;> rename_i hE
  case isTrue =>
    split at hn <;> rename_i hM
    case isTrue =>
      rw [if_pos hE, if_pos hM, Reads, sign]
      split <;> omega
    case isFalse => cases hn
  case isFalse =>
    rw [if_neg hE]
    split
    case isTrue h =>
      split
      case isTrue =>
        rw [Reads]
        split at hp <;> omega
      case isFalse =>
        rw [Reads, sign]
        split <;> omega
    case isFalse =>
      rw [Reads, sign]
      split <;> omega

-- Places compare as exponents do, and mantissas next.
theorem then_compare {m m' : Nat} {e e' : Int} (hm : m < 2 ^ 53) (hm' : m' < 2 ^ 53)
    (he : -1074 ≤ e) (he' : -1074 ≤ e') (hn : e = -1074 ∨ 2 ^ 52 ≤ m)
    (hn' : e' = -1074 ∨ 2 ^ 52 ≤ m') :
    (compare e e').then (compare m m') =
      compare (m + (e + 1074) * 2 ^ 52) (m' + (e' + 1074) * 2 ^ 52) := by
  rcases lt_trichotomy e e' with h | rfl | h
  case inl =>
    rw [Int.compare_eq_lt.mpr h]
    exact (Int.compare_eq_lt.mpr (by omega)).symm
  case inr.inl =>
    rw [Int.compare_eq_eq.mpr rfl]
    rcases lt_trichotomy m m' with h | rfl | h
    case inl     => exact (Nat.compare_eq_lt.mpr h).trans (Int.compare_eq_lt.mpr (by omega)).symm
    case inr.inl => exact (Nat.compare_eq_eq.mpr rfl).trans (Int.compare_eq_eq.mpr rfl).symm
    case inr.inr => exact (Nat.compare_eq_gt.mpr h).trans (Int.compare_eq_gt.mpr (by omega)).symm
  case inr.inr =>
    rw [Int.compare_eq_gt.mpr h]
    exact (Int.compare_eq_gt.mpr (by omega)).symm

theorem swap_compare_neg (x y : Int) : (compare x y).swap = compare (-x) (-y) := by
  rcases lt_trichotomy x y with h | rfl | h
  case inl     => rw [Int.compare_eq_lt.mpr h, Int.compare_eq_gt.mpr (by omega)]; rfl
  case inr.inl => rw [Int.compare_eq_eq.mpr rfl, Int.compare_eq_eq.mpr rfl]; rfl
  case inr.inr => rw [Int.compare_eq_gt.mpr h, Int.compare_eq_lt.mpr (by omega)]; rfl

theorem compare_reads {u v : UnpackedFloat} {p q : Int} (hu : Reads p u) (hv : Reads q v) :
    u.compare v = some (compare p q) := by
  have lt {p q : Int} (h : p < q) : some .lt = some (compare p q) :=
    congrArg some (Int.compare_eq_lt.mpr h).symm
  have eq {p q : Int} (h : p = q) : some .eq = some (compare p q) :=
    congrArg some (Int.compare_eq_eq.mpr h).symm
  have gt {p q : Int} (h : q < p) : some .gt = some (compare p q) :=
    congrArg some (Int.compare_eq_gt.mpr h).symm
  rcases u with (_ | _) | _ | s | ⟨_ | _, m, e, hm⟩ <;>
    rcases v with (_ | _) | _ | s' | ⟨_ | _, m', e', hm'⟩ <;>
    simp only [Reads, Sign.apply] at hu hv <;> try omega
  case finite.negative.finite.negative =>
    obtain ⟨rfl, hu⟩ := hu
    obtain ⟨rfl, hv⟩ := hv
    rw [← swap_compare_neg, ← then_compare hu.1 hv.1 hu.2.1 hv.2.1 hu.2.2.2 hv.2.2.2]
    rfl
  case finite.positive.finite.positive =>
    obtain ⟨rfl, hu⟩ := hu
    obtain ⟨rfl, hv⟩ := hv
    rw [← then_compare hu.1 hv.1 hu.2.1 hv.2.1 hu.2.2.2 hv.2.2.2]
    rfl
  all_goals first | exact lt (by omega) | exact gt (by omega) | exact eq (by omega)

variable {x y z : Float}

theorem compare_eq (hx : x.isNaN = false) (hy : y.isNaN = false) :
    x.toModel.unpack.compare y.toModel.unpack = some (compare (place x) (place y)) :=
  compare_reads (reads_unpack hx) (reads_unpack hy)

-- A number that is undefined does not compare.
theorem compare_undefined (h : x.isNaN = true ∨ y.isNaN = true) :
    x.toModel.unpack.compare y.toModel.unpack = none := by
  have nan {x : Float} (h : x.isNaN = true) : x.toModel.unpack = .notANumber := isNaN_iff.mp h
  rcases h with h | h <;> rw [nan h]
  case inl => rfl
  case inr => cases x.toModel.unpack <;> rfl

theorem le_iff : x ≤ y ↔ x.isNaN = false ∧ y.isNaN = false ∧ place x ≤ place y := by
  have hle : x ≤ y ↔ (x.toModel.unpack.compare y.toModel.unpack).any (·.isLE) = true :=
    decide_eq_true_iff
  rw [hle]
  by_cases hn : x.isNaN = true ∨ y.isNaN = true
  case pos =>
    rw [compare_undefined hn]
    refine iff_of_false nofun fun ⟨hx, hy, _⟩ => ?_
    rw [hx, hy] at hn
    exact hn.elim nofun nofun
  case neg =>
    simp only [not_or, Bool.not_eq_true] at hn
    rw [compare_eq hn.1 hn.2]
    exact Int.isLE_compare.trans ⟨fun h => ⟨hn.1, hn.2, h⟩, fun h => h.2.2⟩

theorem lt_iff : x < y ↔ x.isNaN = false ∧ y.isNaN = false ∧ place x < place y := by
  have hlt : x < y ↔ (x.toModel.unpack.compare y.toModel.unpack == some .lt) = true :=
    decide_eq_true_iff
  rw [hlt, beq_iff_eq]
  by_cases hn : x.isNaN = true ∨ y.isNaN = true
  case pos =>
    rw [compare_undefined hn]
    refine iff_of_false nofun fun ⟨hx, hy, _⟩ => ?_
    rw [hx, hy] at hn
    exact hn.elim nofun nofun
  case neg =>
    simp only [not_or, Bool.not_eq_true] at hn
    rw [compare_eq hn.1 hn.2, Option.some_inj]
    exact Int.compare_eq_lt.trans ⟨fun h => ⟨hn.1, hn.2, h⟩, fun h => h.2.2⟩

-- A number is undefined if it is not equal to itself.
theorem isNaN_eq (x : Float) : Scalar.isNaN x = x.isNaN := by
  rw [Scalar.isNaN, Float.isNaN_eq_decide_eq_nan, Bool.eq_iff_iff, Bool.not_eq_true',
    Float.beq_self_eq_false_iff, decide_eq_true_iff]

theorem place_bounds (h : x.isNaN = false) :
    -(2047 * 2 ^ 52) ≤ place x ∧ place x ≤ 2047 * 2 ^ 52 := by
  have hr := reads_unpack h
  generalize x.toModel.unpack = u at hr
  rcases u with (_ | _) | _ | _ | ⟨_ | _, m, e, hm⟩ <;>
    simp only [Reads, Sign.apply] at hr <;> omega

theorem toNat_toBits_lt (x : Float) : x.toBits.toNat < 2 ^ 64 :=
  x.toBits.toBitVec.isLt

-- The total order tells the zeros apart, and is else the order of places.
theorem place_le_of_rank_le (hx : x.isNaN = false) (hy : y.isNaN = false) (h : rank x ≤ rank y) :
    place x ≤ place y := by
  have := toNat_toBits_lt x
  simp only [rank, place, hx, hy, Bool.false_eq_true, if_false] at h ⊢
  split at h <;> split at h <;> split <;> split <;> omega

-- Numbers of one place are the same, unless they are zeros.
theorem eq_of_place (h : place x = place y) (h0 : place x ≠ 0) : x = y := by
  have := toNat_toBits_lt x
  have := toNat_toBits_lt y
  refine Float.toBits_inj.mp <| UInt64.toNat_inj.mp ?_
  simp only [place] at h h0
  split at h <;> split at h <;> split at h0 <;> omega

theorem place_infinity : place infinity = 2047 * 2 ^ 52 ∧ place (-infinity) = -(2047 * 2 ^ 52) := by
  decide

section Magnitude

-- A number without its sign has the same exponent and mantissa.
theorem unpack_positive (b : BitVec 64) :
    UnpackedFloat.unpack Format.binary64 (packComponents Format.binary64 .positive
      (unpackExponent b) (unpackMantissa b)) = (UnpackedFloat.unpack Format.binary64 b).abs := by
  simp only [UnpackedFloat.unpack, unpackExponent_packComponents, unpackMantissa_packComponents,
    unpackSign_packComponents, Sign.ofBitVec_toBitVec]
  split
  case isTrue => split <;> rfl
  case isFalse =>
    split
    case isTrue  => split <;> rfl
    case isFalse => rfl

theorem unpack_isNaNBits {b : BitVec 64} (h : @isNaNBits Format.binary64 b = true) :
    UnpackedFloat.unpack Format.binary64 b = .notANumber := by
  have ⟨he, hm⟩ := of_decide_eq_true h
  rw [UnpackedFloat.unpack, if_pos he, if_neg hm]

theorem unpack_abs (x : Float) : x.abs.toModel.unpack = x.toModel.unpack.abs := by
  have hb (b : BitVec 64) : UnpackedFloat.unpack Format.binary64
      (UnpackedFloat.pack Format.binary64 (UnpackedFloat.unpack Format.binary64 b).abs) =
        (UnpackedFloat.unpack Format.binary64 b).abs := by
    rw [← unpack_positive, pack_unpack]
    split
    case isTrue h => rw [unpack_packedNaN, unpack_isNaNBits h]
    case isFalse  => rfl
  exact hb _

theorem isNaN_abs (x : Float) : x.abs.isNaN = x.isNaN := by
  change x.abs.toModel.unpack.isNaN = x.toModel.unpack.isNaN
  rw [unpack_abs]
  cases x.toModel.unpack <;> rfl

theorem not_abs_lt_zero (x : Float) : ¬x.abs < 0 := by
  intro h
  obtain ⟨hn, -, h⟩ := lt_iff.mp h
  have h0 : place 0 = 0 := by decide
  have hr := reads_unpack hn
  rw [unpack_abs] at hr
  generalize x.toModel.unpack = u at hr
  rcases u with _ | _ | _ | ⟨_, m, e, hm⟩ <;>
    simp only [UnpackedFloat.abs, Reads, Sign.apply] at hr <;> omega

end Magnitude

instance : Scalar.Orderly Float where
  defined_of_le h := by
    rw [isNaN_eq, isNaN_eq]
    exact ⟨(le_iff.mp h).1, (le_iff.mp h).2.1⟩
  le_trans h h' := by
    rw [le_iff] at h h' ⊢
    exact ⟨h.1, h'.2.1, h.2.2.trans h'.2.2⟩
  le_total {x y} hx hy := by
    rw [isNaN_eq] at hx hy
    rw [le_iff, le_iff]
    exact (le_total (place x) (place y)).imp (fun h => ⟨hx, hy, h⟩) fun h => ⟨hy, hx, h⟩
  not_le hx hy := by
    rw [isNaN_eq] at hx hy
    simp only [le_iff, lt_iff, hx, hy, true_and, Int.not_le]
  totalLE_trans h h' := by
    change decide _ = true at h h' ⊢
    simp only [decide_eq_true_eq] at h h' ⊢
    exact h.trans h'
  totalLE_total x y := by
    change (decide _ || decide _) = true
    simpa using le_total (rank x) (rank y)
  le_of_totalLE {x y} hx hy h := by
    rw [isNaN_eq] at hx hy
    exact le_iff.mpr ⟨hx, hy, place_le_of_rank_le hx hy <| of_decide_eq_true h⟩
  le_infinity {x} hx := by
    rw [isNaN_eq] at hx
    exact le_iff.mpr ⟨hx, by decide, place_infinity.1 ▸ (place_bounds hx).2⟩
  neg_infinity_lt := by decide
  eq_infinity {x} h := by
    have ⟨_, hx, h⟩ := le_iff.mp h
    have hp : place x = place infinity := le_antisymm (place_infinity.1 ▸ (place_bounds hx).2) h
    exact eq_of_place hp (by rw [hp, place_infinity.1]; decide)
  eq_neg_infinity {x} h := by
    have ⟨hx, _, h⟩ := le_iff.mp h
    have hp : place x = place (-infinity) := le_antisymm h (place_infinity.2 ▸ (place_bounds hx).1)
    exact eq_of_place hp (by rw [hp, place_infinity.2]; decide)
  isNaN_neg_infinity := by decide
  infinity_sub := by decide
  zero_add_infinity := by decide
  not_zero_lt := by decide
  zero_beq := by decide
  neg_zero_beq := by decide
  zero_div h := by rcases h with rfl | rfl <;> decide

instance : Scalar.Magnitudes Float where
  isNaN_abs x := by
    rw [isNaN_eq, isNaN_eq]
    exact isNaN_abs x
  not_abs_lt_zero := not_abs_lt_zero

end SpacePartition.Binary64
