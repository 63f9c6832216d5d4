import EllipticSignatures.Key.Verifying
import EllipticSignatures.Proofs.Bytes
import EllipticSignatures.Proofs.Curve.Weierstrass
import EllipticSignatures.Proofs.Field.AnyModulus

/-!
# Encodings of points

A reduced coordinate fits the bytes of the field, so every finite point with coordinates in the
field has an encoding in both forms (`Affine.exists_toSec1`). Reading is taken apart once, for every
modulus (`Affine.ofSec1_eq_ok_iff`): the bytes are a tag with the big-endian form of one or two
coordinates, and the point is the lifted abscissa or the pair of coordinates. For a prime modulus
lifting an abscissa finds the points of that abscissa (`Affine.liftX_eq_some_iff`), so what is read
is a finite point of the curve (`Affine.onCurve_of_ofSec1`).
-/

namespace EllipticSignatures

open FieldElement

variable {c : Curve}

/-! ## Coordinates -/

namespace FieldElement

/-- Writing an element succeeds iff it fits, and gives its big-endian form. -/
theorem toBytes_eq_ok_iff {a : FieldElement} {width : ℕ} {bytes : Bytes} :
    a.toBytes width = .ok bytes ↔
      Bytes.width a.value ≤ width ∧ bytes = Bytes.bigEndian width a.value := by
  rw [toBytes]
  by_cases h : Bytes.width a.value ≤ width <;> simp [h, eq_comm]

theorem length_of_toBytes {a : FieldElement} {width : ℕ} {bytes : Bytes}
    (h : a.toBytes width = .ok bytes) : bytes.length = width := by
  rw [(toBytes_eq_ok_iff.mp h).right, Bytes.length_bigEndian]

/-- An encoded element is read back. -/
theorem toNat_of_toBytes {a : FieldElement} {width : ℕ} {bytes : Bytes}
    (h : a.toBytes width = .ok bytes) : bytes.toNat = a.value := by
  obtain ⟨hw, rfl⟩ := toBytes_eq_ok_iff.mp h
  exact Bytes.toNat_bigEndian_of_width_le hw

end FieldElement

section Coordinates

variable [NeZero c.p]

/-- A reduced coordinate fits the bytes of the field. -/
theorem Curve.width_le_fieldBytes (x : ZMod c.p) : Bytes.width x.val ≤ c.fieldBytes :=
  Bytes.width_le_of_lt (ZMod.val_lt x)

theorem toBytes_ofZMod (x : ZMod c.p) :
    (ofZMod x).toBytes c.fieldBytes = .ok (Bytes.bigEndian c.fieldBytes x.val) := by
  rw [toBytes, value_ofZMod, if_pos (Curve.width_le_fieldBytes x)]

omit [NeZero c.p] in
/-- The bytes of a coordinate are a residue, or they are refused. -/
theorem ofCanonicalBytes_cases (bytes : Bytes) :
    (bytes.toNat < c.p ∧ ofCanonicalBytes bytes c.p = .ok (ofZMod (bytes.toNat : ZMod c.p))) ∨
      (¬bytes.toNat < c.p ∧
        ofCanonicalBytes bytes c.p = .error (.invalidEncoding .notBelowModulus)) := by
  unfold ofCanonicalBytes
  by_cases hlt : bytes.toNat < c.p
  · exact .inl ⟨hlt, by rw [if_pos hlt, mk_eq_ofZMod hlt rfl]⟩
  · exact .inr ⟨hlt, if_neg hlt⟩

/-- The bytes of the field are read as the coordinate that they write. -/
theorem ofCanonicalBytes_eq_ok_iff {bytes : Bytes} {a : FieldElement}
    (hlength : bytes.length = c.fieldBytes) :
    ofCanonicalBytes bytes c.p = .ok a ↔
      ∃ x : ZMod c.p, a = ofZMod x ∧ bytes = Bytes.bigEndian c.fieldBytes x.val := by
  constructor
  · intro h
    obtain ⟨hlt, hread⟩ | ⟨-, hread⟩ := ofCanonicalBytes_cases (c := c) bytes
    · rw [hread, Except.ok.injEq] at h
      refine ⟨bytes.toNat, h.symm, ?_⟩
      rw [ZMod.val_natCast_of_lt hlt, ← hlength, Bytes.bigEndian_toNat]
    · rw [hread] at h
      cases h
  · rintro ⟨x, rfl, rfl⟩
    rw [ofCanonicalBytes, Bytes.toNat_bigEndian_of_width_le (Curve.width_le_fieldBytes x),
      if_pos (ZMod.val_lt x), ofZMod]

end Coordinates

/-! ## Writing -/

section Writing

variable [NeZero c.p]

namespace Affine

theorem toCompressed_point (x y : ZMod c.p) :
    (Affine.point (ofZMod x) (ofZMod y)).toCompressed c =
      .ok (parityTag (ofZMod y).isOdd :: Bytes.bigEndian c.fieldBytes x.val) := by
  simp [toCompressed, toBytes_ofZMod]

theorem toUncompressed_point (x y : ZMod c.p) :
    (Affine.point (ofZMod x) (ofZMod y)).toUncompressed c =
      .ok (uncompressedTag ::
        (Bytes.bigEndian c.fieldBytes x.val ++ Bytes.bigEndian c.fieldBytes y.val)) := by
  simp [toUncompressed, toBytes_ofZMod]

/-- A finite point with coordinates in the field has an encoding in both forms. -/
theorem exists_toSec1 {P : Affine} (hP : P.InField c.p) (hfinite : P ≠ .infinity)
    (format : PointFormat) : ∃ bytes, P.toSec1 format c = .ok bytes := by
  cases P with
  | infinity => exact absurd rfl hfinite
  | point x y =>
    obtain ⟨x, rfl⟩ := hP.left.exists_ofZMod
    obtain ⟨y, rfl⟩ := hP.right.exists_ofZMod
    cases format
    · exact ⟨_, toCompressed_point x y⟩
    · exact ⟨_, toUncompressed_point x y⟩

end Affine

/-- A public key other than the identity has an encoding in both forms. -/
theorem VerifyingKey.exists_toSec1 {P : Affine} (hP : P.InField c.p) (hfinite : P ≠ .infinity)
    (format : PointFormat) : ∃ bytes, (⟨P, c⟩ : VerifyingKey).toSec1 format = .ok bytes := by
  obtain ⟨bytes, h⟩ := Affine.exists_toSec1 hP hfinite format
  exact ⟨bytes, by rw [toSec1, h]⟩

end Writing

/-! ## Reading -/

namespace Affine

section Reading

variable [NeZero c.p]

/-- The compressed form is the abscissa alone, which is lifted. -/
theorem ofCompressedBody_eq_ok_iff {odd : Bool} {body : Bytes} {P : Affine} :
    ofCompressedBody odd body c = .ok P ↔
      ∃ x : ZMod c.p, body = Bytes.bigEndian c.fieldBytes x.val ∧
        liftX (ofZMod x) odd c = .ok (some P) := by
  unfold ofCompressedBody
  by_cases hlength : body.length = c.fieldBytes
  swap
  · -- A body of another length is no coordinate.
    simp only [ne_eq, hlength, not_false_eq_true, if_true, Outcome.refuse_ne_ok, false_iff]
    rintro ⟨x, rfl, -⟩
    exact hlength (Bytes.length_bigEndian _ _)
  simp only [ne_eq, hlength, not_true_eq_false, if_false, bind_eq_ok, Outcome.ofExcept_eq_ok,
    ofCanonicalBytes_eq_ok_iff hlength, Outcome.liftM_checked, Outcome.ofChecked_eq_ok]
  constructor
  · rintro ⟨_, ⟨x, rfl, hx⟩, found, hfound, h⟩
    cases found with
    | none => simp at h
    | some Q => exact ⟨x, hx, by rw [hfound, ← Except.ok.inj h]⟩
  · rintro ⟨x, hx, hlift⟩
    exact ⟨_, ⟨x, rfl, hx⟩, some P, hlift, rfl⟩

/-- The uncompressed form is a pair of coordinates, which is checked. -/
theorem ofUncompressedBody_eq_ok_iff {body : Bytes} {P : Affine} :
    ofUncompressedBody body c = .ok P ↔
      ∃ x y : ZMod c.p,
        body = Bytes.bigEndian c.fieldBytes x.val ++ Bytes.bigEndian c.fieldBytes y.val ∧
        P = .point (ofZMod x) (ofZMod y) ∧ P.isOnCurve c = .ok true := by
  unfold ofUncompressedBody
  by_cases hlength : body.length = 2 * c.fieldBytes
  swap
  -- A body of another length is not two coordinates.
  · simp only [ne_eq, hlength, not_false_eq_true, if_true, Outcome.refuse_ne_ok, false_iff]
    rintro ⟨x, y, rfl, -⟩
    exact hlength (by simp [two_mul])
  have hfirst : (body.take c.fieldBytes).length = c.fieldBytes := by
    rw [List.length_take]
    omega
  have hsecond : (body.drop c.fieldBytes).length = c.fieldBytes := by
    rw [List.length_drop]
    omega
  simp only [ne_eq, hlength, not_true_eq_false, if_false, bind_eq_ok, Outcome.ofExcept_eq_ok,
    ofCanonicalBytes_eq_ok_iff hfirst, ofCanonicalBytes_eq_ok_iff hsecond, Outcome.liftM_checked,
    Outcome.ofChecked_eq_ok]
  constructor
  · rintro ⟨_, ⟨x, rfl, hx⟩, _, ⟨y, rfl, hy⟩, on, hon, h⟩
    cases on with
    | false => simp at h
    | true =>
      obtain rfl : Affine.point (ofZMod x) (ofZMod y) = P := by simpa using h
      exact ⟨x, y, by rw [← hx, ← hy, List.take_append_drop], rfl, hon⟩
  · rintro ⟨x, y, rfl, rfl, hon⟩
    have hx := Bytes.length_bigEndian c.fieldBytes x.val
    exact ⟨_, ⟨x, rfl, List.take_left' hx⟩, _, ⟨y, rfl, List.drop_left' hx⟩, true, hon, rfl⟩

omit [NeZero c.p] in
theorem ofSec1_parityTag (odd : Bool) (body : Bytes) :
    ofSec1 (parityTag odd :: body) c = ofCompressedBody odd body c := by
  cases odd <;> rfl

omit [NeZero c.p] in
theorem ofSec1_uncompressedTag (body : Bytes) :
    ofSec1 (uncompressedTag :: body) c = ofUncompressedBody body c := rfl

omit [NeZero c.p] in
/-- What is read starts with one of the three tags. -/
theorem exists_tag_of_ofSec1 {bytes : Bytes} {P : Affine} (h : ofSec1 bytes c = .ok P) :
    (∃ odd body, bytes = parityTag odd :: body) ∨ ∃ body, bytes = uncompressedTag :: body := by
  cases bytes with
  | nil => simp [ofSec1] at h
  | cons tag body =>
    by_cases heven : tag = parityTag false
    · exact .inl ⟨false, body, by rw [heven]⟩
    by_cases hodd : tag = parityTag true
    · exact .inl ⟨true, body, by rw [hodd]⟩
    by_cases hboth : tag = uncompressedTag
    · exact .inr ⟨body, by rw [hboth]⟩
    · simp [ofSec1, heven, hodd, hboth] at h

/-- What is read, in either form, for every modulus. -/
theorem ofSec1_eq_ok_iff {bytes : Bytes} {P : Affine} :
    ofSec1 bytes c = .ok P ↔
      (∃ odd, ∃ x : ZMod c.p, bytes = parityTag odd :: Bytes.bigEndian c.fieldBytes x.val ∧
        liftX (ofZMod x) odd c = .ok (some P)) ∨
      ∃ x y : ZMod c.p,
        bytes = uncompressedTag ::
          (Bytes.bigEndian c.fieldBytes x.val ++ Bytes.bigEndian c.fieldBytes y.val) ∧
        P = .point (ofZMod x) (ofZMod y) ∧ P.isOnCurve c = .ok true := by
  constructor
  · intro h
    obtain ⟨odd, body, rfl⟩ | ⟨body, rfl⟩ := exists_tag_of_ofSec1 h
    · rw [ofSec1_parityTag] at h
      obtain ⟨x, rfl, hlift⟩ := ofCompressedBody_eq_ok_iff.mp h
      exact .inl ⟨odd, x, rfl, hlift⟩
    · rw [ofSec1_uncompressedTag] at h
      obtain ⟨x, y, rfl, hP⟩ := ofUncompressedBody_eq_ok_iff.mp h
      exact .inr ⟨x, y, rfl, hP⟩
  · rintro (⟨odd, x, rfl, hlift⟩ | ⟨x, y, rfl, hP⟩)
    · rw [ofSec1_parityTag]
      exact ofCompressedBody_eq_ok_iff.mpr ⟨x, rfl, hlift⟩
    · rw [ofSec1_uncompressedTag]
      exact ofUncompressedBody_eq_ok_iff.mpr ⟨x, y, rfl, hP⟩

/-- The root that is found becomes the ordinate, or its opposite does. -/
theorem liftX_of_sqrt (hc : c.Checks) {x y : ZMod c.p} (odd : Bool)
    (hsqrt : (ofZMod (x * x * x + c.weierstrass.a₄ * x + c.weierstrass.a₆)).sqrt =
      .ok (some (ofZMod y))) :
    liftX (ofZMod x) odd c = .ok (some (.point (ofZMod x)
      (ofZMod (if (ofZMod y).isOdd = odd then y else -y)))) := by
  rw [liftX, Curve.rhs_ofZMod hc, ok_bind, hsqrt, ok_bind]
  by_cases hodd : (ofZMod y).isOdd = odd <;> simp [hodd]

/-- Lifting an abscissa gives a finite point with coordinates in the field. -/
theorem inField_of_liftX (hc : c.Checks) {x : ZMod c.p} {odd : Bool} {P : Affine}
    (h : liftX (ofZMod x) odd c = .ok (some P)) : P ≠ .infinity ∧ P.InField c.p := by
  obtain hfault | ⟨found, hfound, hfield⟩ :=
    sqrt_cases (x * x * x + c.weierstrass.a₄ * x + c.weierstrass.a₆)
  · simp [liftX, Curve.rhs_ofZMod hc, hfault] at h
  cases found with
  | none => simp [liftX, Curve.rhs_ofZMod hc, hfound] at h
  | some y =>
    obtain ⟨y, rfl⟩ := (hfield y rfl).exists_ofZMod
    rw [liftX_of_sqrt hc odd hfound, Except.ok.injEq, Option.some.injEq] at h
    subst h
    exact ⟨Affine.noConfusion, inField_ofZMod x, inField_ofZMod _⟩

/-- What is read is a finite point with coordinates in the field. -/
theorem inField_of_ofSec1 (hc : c.Checks) {bytes : Bytes} {P : Affine}
    (h : ofSec1 bytes c = .ok P) : P ≠ .infinity ∧ P.InField c.p := by
  obtain ⟨odd, x, -, hlift⟩ | ⟨x, y, -, rfl, -⟩ := ofSec1_eq_ok_iff.mp h
  · exact inField_of_liftX hc hlift
  · exact ⟨Affine.noConfusion, inField_ofZMod x, inField_ofZMod y⟩

end Reading

section Prime

variable [Fact c.p.Prime]

/-- For a prime modulus, lifting an abscissa finds a point of that abscissa, whose ordinate has the
requested parity unless it is zero. -/
theorem liftX_eq_some_iff (hc : c.Checks) {x : ZMod c.p} {odd : Bool} {P : Affine} :
    liftX (ofZMod x) odd c = .ok (some P) ↔
      ∃ y : ZMod c.p, c.weierstrass.Equation x y ∧ P = .point (ofZMod x) (ofZMod y) ∧
        (y ≠ 0 → (ofZMod y).isOdd = odd) := by
  by_cases hsquare : IsSquare (x * x * x + c.weierstrass.a₄ * x + c.weierstrass.a₆)
  swap
  · -- No point has this abscissa.
    constructor
    · intro h
      simp [liftX, Curve.rhs_ofZMod hc, sqrt_of_not_isSquare hc.p_ne_two hsquare] at h
    · rintro ⟨y, hy, -⟩
      exact absurd ⟨y, (Curve.equation_iff_rhs.mp hy).symm⟩ hsquare
  obtain ⟨y, hy, hsqrt⟩ := sqrt_of_isSquare hc.p_ne_two hsquare
  have hopposite (hy₀ : y ≠ 0) := isOdd_neg_ofZMod hc.p_odd hy₀
  rw [liftX_of_sqrt hc odd hsqrt, Except.ok.injEq, Option.some.injEq]
  constructor
  · rintro rfl
    by_cases hodd : (ofZMod y).isOdd = odd
    · rw [if_pos hodd]
      exact ⟨y, Curve.equation_iff_rhs.mpr hy, rfl, fun _ => hodd⟩
    · rw [if_neg hodd]
      refine ⟨-y, Curve.equation_iff_rhs.mpr (by rw [neg_mul_neg, hy]), rfl, ?_⟩
      intro hne
      rw [hopposite (neg_ne_zero.mp hne)]
      exact Bool.not_eq_iff.mpr hodd
  · rintro ⟨v, hv, rfl, hparity⟩
    -- The ordinates of one abscissa are the root and its opposite, of different parity.
    obtain rfl | rfl := mul_self_eq_mul_self_iff.mp ((Curve.equation_iff_rhs.mp hv).trans hy.symm)
    · by_cases hv₀ : v = 0
      · simp [hv₀]
      · rw [if_pos (hparity hv₀)]
    · by_cases hy₀ : y = 0
      · simp [hy₀]
      · rw [← hparity (neg_ne_zero.mpr hy₀), hopposite hy₀, if_neg (Bool.not_eq_not.mpr rfl)]

/-- What is read is a finite point of the curve with reduced coordinates. -/
theorem onCurve_of_ofSec1 (hc : c.Checks) {bytes : Bytes} {P : Affine}
    (h : ofSec1 bytes c = .ok P) : P ≠ .infinity ∧ P.OnCurve c := by
  obtain ⟨odd, x, -, hlift⟩ | ⟨x, y, -, rfl, hon⟩ := ofSec1_eq_ok_iff.mp h
  · obtain ⟨y, hy, rfl, -⟩ := (liftX_eq_some_iff hc).mp hlift
    have hon := onCurve_ofPoint hc (.some x y (Curve.nonsingular_of_equation hc hy))
    rw [ofPoint_some] at hon
    exact ⟨Affine.noConfusion, hon⟩
  · exact ⟨Affine.noConfusion, ⟨(inField_ofZMod x).reduced, (inField_ofZMod y).reduced⟩, hon⟩

end Prime

end Affine

end EllipticSignatures
