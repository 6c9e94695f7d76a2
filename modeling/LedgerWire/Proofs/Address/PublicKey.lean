import LedgerWire.Proofs.Address.Points

/-!
# Public keys are points

The sum of two points of the curve is a point: the denominators of the addition law have no zero, as
`d` is no square and `-1` is one. In extended coordinates the sum is computed without a division, and
what is multiplied and encoded stays a point.
-/

namespace LedgerWire

namespace Curve

variable {x₁ y₁ x₂ y₂ : Residue}

theorem onCurve_iff_d {x y : Residue} :
    OnCurve x y ↔ -x ^ 2 + y ^ 2 = 1 + d * x ^ 2 * y ^ 2 := by
  rw [OnCurve, cast_d]

/-! ### The addition law -/

theorem sq_eq_of_mul_eq (h₁ : OnCurve x₁ y₁) (h₂ : OnCurve x₂ y₂) {ε i : Residue} (hε : ε ^ 2 = 1)
    (hi : i ^ 2 = -1) (h : (d : Residue) * x₁ * x₂ * y₁ * y₂ = ε) :
    (i * x₁ + ε * y₁) ^ 2 = d * (x₁ * y₁ * (i * x₂ + y₂)) ^ 2 := by
  rw [onCurve_iff_d] at h₁ h₂
  linear_combination h₁ - d * x₁ ^ 2 * y₁ ^ 2 * h₂ + (y₁ ^ 2 - 1) * hε +
    (x₁ ^ 2 - d * x₁ ^ 2 * y₁ ^ 2 * x₂ ^ 2) * hi -
    (2 * i * x₁ * y₁ + d * x₁ * x₂ * y₁ * y₂ + ε) * h

/-- The denominators have no zero. With a root `i` of `-1`, both of `±i x₂ + y₂` would be zero. -/
theorem mul_ne_of_sq_eq_one (h₁ : OnCurve x₁ y₁) (h₂ : OnCurve x₂ y₂) {ε : Residue}
    (hε : ε ^ 2 = 1) : (d : Residue) * x₁ * x₂ * y₁ * y₂ ≠ ε := by
  intro h
  obtain ⟨i, hi⟩ := isSquare_neg_one
  have hne : ε ≠ 0 := by
    rintro rfl
    simp at hε
  have hxy : x₁ * y₁ ≠ 0 := fun hzero => hne (by linear_combination d * x₂ * y₂ * hzero - h)
  have hroot {j : Residue} (hj : j ^ 2 = -1) : j * x₂ + y₂ = 0 :=
    (mul_eq_zero.mp (eq_zero_of_sq_eq (sq_eq_of_mul_eq h₁ h₂ hε hj h))).resolve_left hxy
  have hplus := hroot (j := i) (by linear_combination -hi)
  have hminus := hroot (j := -i) (by linear_combination -hi)
  have htwo : (2 : Residue) * y₂ = 0 := by linear_combination hplus + hminus
  rcases mul_eq_zero.mp htwo with htwo | hy
  · exact natCast_ne_zero 2 (by decide) (by exact_mod_cast htwo)
  · exact hne (by linear_combination d * x₁ * x₂ * y₁ * hy - h)

theorem one_add_ne_zero (h₁ : OnCurve x₁ y₁) (h₂ : OnCurve x₂ y₂) :
    1 + (d : Residue) * x₁ * x₂ * y₁ * y₂ ≠ 0 := fun h =>
  mul_ne_of_sq_eq_one h₁ h₂ (by ring : (-1 : Residue) ^ 2 = 1) (by linear_combination h)

theorem one_sub_ne_zero (h₁ : OnCurve x₁ y₁) (h₂ : OnCurve x₂ y₂) :
    1 - (d : Residue) * x₁ * x₂ * y₁ * y₂ ≠ 0 := fun h =>
  mul_ne_of_sq_eq_one h₁ h₂ (by ring : (1 : Residue) ^ 2 = 1) (by linear_combination -h)

theorem onCurve_div {m n u v : Residue} (hu : u ≠ 0) (hv : v ≠ 0)
    (h : -(m * v) ^ 2 + (n * u) ^ 2 = (u * v) ^ 2 + d * m ^ 2 * n ^ 2) :
    OnCurve (m / u) (n / v) := by
  rw [onCurve_iff_d]
  field_simp
  linear_combination h

/-- The sum of two points. What is left over is a sum of products, each with one of the equations. -/
theorem onCurve_add (h₁ : OnCurve x₁ y₁) (h₂ : OnCurve x₂ y₂) :
    OnCurve ((x₁ * y₂ + x₂ * y₁) / (1 + d * x₁ * x₂ * y₁ * y₂))
      ((y₁ * y₂ + x₁ * x₂) / (1 - d * x₁ * x₂ * y₁ * y₂)) := by
  refine onCurve_div (one_add_ne_zero h₁ h₂) (one_sub_ne_zero h₁ h₂) ?_
  rw [onCurve_iff_d] at h₁ h₂
  linear_combination
    ((y₂ ^ 2 - x₂ ^ 2) * (1 + d ^ 2 * x₁ ^ 2 * y₁ ^ 2 * x₂ ^ 2 * y₂ ^ 2) -
      d * x₂ ^ 2 * y₂ ^ 2 * (y₁ ^ 2 - x₁ ^ 2 + 1 + d * x₁ ^ 2 * y₁ ^ 2)) * h₁ +
    ((1 + d * x₁ ^ 2 * y₁ ^ 2) * (1 + d ^ 2 * x₁ ^ 2 * y₁ ^ 2 * x₂ ^ 2 * y₂ ^ 2) -
      d * x₁ ^ 2 * y₁ ^ 2 * (y₂ ^ 2 - x₂ ^ 2 + 1 + d * x₂ ^ 2 * y₂ ^ 2)) * h₂

/-! ### Extended coordinates -/

namespace Point

/-- A point in extended coordinates, and the point of the curve that it is. -/
structure Represents (a : Point) (x y : Residue) : Prop where
  onCurve : OnCurve x y
  z_ne_zero : (a.Z : Residue) ≠ 0
  x_eq : (a.X : Residue) = a.Z * x
  y_eq : (a.Y : Residue) = a.Z * y
  t_eq : (a.T : Residue) = a.Z * x * y
  x_lt : a.X < p

theorem represents_zero : zero.Represents 0 1 where
  onCurve := onCurve_neutral
  z_ne_zero := by simp [zero]
  x_eq := by simp [zero]
  y_eq := by simp [zero]
  t_eq := by simp [zero]
  x_lt := by decide

theorem represents_base : base.Represents base.X base.Y where
  onCurve := by
    rw [onCurve_iff_d, neg_add_eq_iff_eq_add]
    have h : ((base.Y ^ 2 : Nat) : Residue) =
        ((base.X ^ 2 + (1 + d * base.X ^ 2 * base.Y ^ 2) : Nat) : Residue) :=
      (ZMod.natCast_eq_natCast_iff' _ _ _).mpr (by decide +kernel)
    exact_mod_cast h
  z_ne_zero := by simp [base]
  x_eq := by simp [base]
  y_eq := by simp [base]
  t_eq := by
    have ht : base.T = base.X * base.Y % p := rfl
    rw [ht, ZMod.natCast_mod, Nat.cast_mul]
    simp [base]
  x_lt := by decide

theorem cast_p_sub {n : Nat} (h : n < p) : ((p - n : Nat) : Residue) = -n := by
  rw [Nat.cast_sub h.le, ZMod.natCast_self, zero_sub]

theorem cast_p_sub_mod (n : Nat) : ((p - n % p : Nat) : Residue) = -n := by
  rw [cast_p_sub (Nat.mod_lt n (by decide)), ZMod.natCast_mod]

/-- The coordinates of a sum, without the reductions. -/
theorem cast_add {a b : Point} (ha : a.X < p) (hb : b.X < p) :
    ((add a b).X : Residue) =
      4 * (a.X * b.Y + b.X * a.Y) * (a.Z * b.Z - d * a.T * b.T) ∧
    ((add a b).Y : Residue) =
      4 * (a.Y * b.Y + a.X * b.X) * (a.Z * b.Z + d * a.T * b.T) ∧
    ((add a b).Z : Residue) =
      4 * (a.Z * b.Z + d * a.T * b.T) * (a.Z * b.Z - d * a.T * b.T) ∧
    ((add a b).T : Residue) =
      4 * (a.X * b.Y + b.X * a.Y) * (a.Y * b.Y + a.X * b.X) := by
  refine ⟨?_, ?_, ?_, ?_⟩ <;>
  · simp only [add, ZMod.natCast_mod, Nat.cast_mul, Nat.cast_add, cast_p_sub ha, cast_p_sub hb,
      cast_p_sub_mod]
    ring

theorem represents_div {a : Point} {s m n u v : Residue} (hs : s ≠ 0) (hu : u ≠ 0) (hv : v ≠ 0)
    (h : OnCurve (m / u) (n / v)) (hX : (a.X : Residue) = s * m * v)
    (hY : (a.Y : Residue) = s * n * u) (hZ : (a.Z : Residue) = s * u * v)
    (hT : (a.T : Residue) = s * m * n) (hlt : a.X < p) : a.Represents (m / u) (n / v) where
  onCurve := h
  z_ne_zero := by
    rw [hZ]
    exact mul_ne_zero (mul_ne_zero hs hu) hv
  x_eq := by
    rw [hX, hZ]
    field_simp
  y_eq := by
    rw [hY, hZ]
    field_simp
  t_eq := by
    rw [hT, hZ]
    field_simp
  x_lt := hlt

theorem represents_add {a b : Point} (ha : a.Represents x₁ y₁) (hb : b.Represents x₂ y₂) :
    (add a b).Represents ((x₁ * y₂ + x₂ * y₁) / (1 + d * x₁ * x₂ * y₁ * y₂))
      ((y₁ * y₂ + x₁ * x₂) / (1 - d * x₁ * x₂ * y₁ * y₂)) := by
  obtain ⟨hX, hY, hZ, hT⟩ := cast_add ha.x_lt hb.x_lt
  simp only [ha.x_eq, ha.y_eq, ha.t_eq, hb.x_eq, hb.y_eq, hb.t_eq] at hX hY hZ hT
  have htwo : (2 : Residue) ≠ 0 := by exact_mod_cast natCast_ne_zero 2 (by decide)
  refine represents_div (s := (2 * a.Z * b.Z) ^ 2)
    (pow_ne_zero 2 (mul_ne_zero (mul_ne_zero htwo ha.z_ne_zero) hb.z_ne_zero))
    (one_add_ne_zero ha.onCurve hb.onCurve) (one_sub_ne_zero ha.onCurve hb.onCurve)
    (onCurve_add ha.onCurve hb.onCurve) ?_ ?_ ?_ ?_ (Nat.mod_lt _ (by decide))
  · rw [hX]
    ring
  · rw [hY]
    ring
  · rw [hZ]
    ring
  · rw [hT]
    ring

theorem exists_represents_multiple (fuel n : Nat) {a : Point} (ha : a.Represents x₁ y₁) :
    ∃ x y, (multiple fuel n a).Represents x y := by
  induction fuel generalizing n a x₁ y₁ with
  | zero => exact ⟨0, 1, represents_zero⟩
  | succ fuel ih =>
    obtain ⟨x, y, hrest⟩ := ih (n / 2) (represents_add ha ha)
    by_cases hodd : n % 2 = 1
    · exact ⟨_, _, by
        rw [multiple, if_pos hodd]
        exact represents_add ha hrest⟩
    · exact ⟨x, y, by
        rw [multiple, if_neg hodd]
        exact hrest⟩

theorem val_of_cast_eq {n : Nat} {x : Residue} (h : (n : Residue) = x) : n % p = x.val := by
  rw [← h, ZMod.val_natCast]

theorem encode_eq {a : Point} {x y : Residue} (h : a.Represents x y) :
    a.encode = encodePoint x y := by
  have hx : a.X * inverse a.Z % p = x.val := val_of_cast_eq (by
    rw [Nat.cast_mul, cast_inverse, h.x_eq, mul_right_comm, mul_inv_cancel₀ h.z_ne_zero, one_mul])
  have hy : a.Y * inverse a.Z % p = y.val := val_of_cast_eq (by
    rw [Nat.cast_mul, cast_inverse, h.y_eq, mul_right_comm, mul_inv_cancel₀ h.z_ne_zero, one_mul])
  unfold encode encodePoint
  simp only [hx, hy]

end Point

/-- A public key encodes a point of the curve. -/
theorem exists_publicKey_eq (seed : Bytes) :
    ∃ x y, OnCurve x y ∧ publicKey seed = encodePoint x y := by
  obtain ⟨x, y, h⟩ := Point.exists_represents_multiple 255 (scalar seed) Point.represents_base
  exact ⟨x, y, h.onCurve, Point.encode_eq h⟩

theorem isOnCurve_publicKey (seed : Bytes) : isOnCurve (publicKey seed) = true := by
  obtain ⟨x, y, h, heq⟩ := exists_publicKey_eq seed
  rw [heq]
  exact isOnCurve_encodePoint h

/-- No secret seed has a derived address for its public key. -/
theorem address_ne_publicKey (seed : Bytes) (seeds program : Value) :
    Address.ledger.createFor seeds program ≠ .ok (publicKey seed) ∧
      ∀ bump, Address.ledger.findFor seeds program ≠ .ok (publicKey seed, bump) :=
  ne_address_of_isOnCurve (isOnCurve_publicKey seed) seeds program

end Curve

end LedgerWire
