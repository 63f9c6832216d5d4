import EllipticSignatures.Proofs.Point.Sec1

/-!
# Encodings and the points that they write

Reading undoes writing in both forms, for every finite point of an accepted curve of prime modulus
(`Affine.ofSec1_toSec1`).

Writing undoes reading for almost all bytes. A point of ordinate zero is its own opposite, and its
abscissa is lifted to it whichever parity is asked for. Its compressed form is therefore read under
both tags and written with the even one only. Nothing else is read that would not be written:
encodings are canonical exactly if no point of the curve has ordinate zero
(`Affine.encodedBy_of_ofSec1`), and `Curve.twentyEight` is an accepted curve with such a point.
-/

namespace EllipticSignatures

open FieldElement

/-- The form that the tag of an encoding names. -/
def PointFormat.ofTag (tag : UInt8) : PointFormat :=
  if tag = Affine.uncompressedTag then .uncompressed else .compressed

namespace Affine

/-- The bytes are what writing the point gives in the form that their own tag names. -/
def EncodedBy (c : Curve) (Q : Affine) (bytes : Bytes) : Prop :=
  ∃ tag body, bytes = tag :: body ∧ Q.toSec1 (PointFormat.ofTag tag) c = .ok bytes

/-- All bytes that are read are what writing the point gives. -/
def CanonicalEncodings (c : Curve) : Prop :=
  ∀ bytes Q, ofSec1 bytes c = .ok Q → Q.EncodedBy c bytes

/-- Lifting an abscissa gives a point of the curve whose ordinate has the requested parity. -/
def LiftsParity (c : Curve) : Prop :=
  ∀ x odd P, x.InField c.p → liftX x odd c = .ok (some P) →
    ∃ y, P = .point x y ∧ P.OnCurve c ∧ y.isOdd = odd

/-- No point is read from two different compressed encodings. -/
def UniqueCompressed (c : Curve) : Prop :=
  ∀ odd odd' body body' Q, ofSec1 (parityTag odd :: body) c = .ok Q →
    ofSec1 (parityTag odd' :: body') c = .ok Q → odd = odd' ∧ body = body'

/-- No point of the curve has ordinate zero. -/
def NoZeroOrdinate (c : Curve) : Prop := ∀ x, ¬(Affine.point x (zero c.p)).OnCurve c

variable {c : Curve}

theorem encodedBy_parityTag {Q : Affine} {odd : Bool} {body : Bytes} :
    Q.EncodedBy c (parityTag odd :: body) ↔ Q.toCompressed c = .ok (parityTag odd :: body) := by
  have hform : PointFormat.ofTag (parityTag odd) = .compressed := by
    cases odd <;> rfl
  constructor
  · rintro ⟨tag, body', hbytes, h⟩
    obtain ⟨rfl, -⟩ := List.cons.inj hbytes
    rwa [hform] at h
  · intro h
    exact ⟨_, body, rfl, by rwa [hform]⟩

theorem parityTag_injective : Function.Injective parityTag := by
  decide

section Prime

variable [Fact c.p.Prime]

/-! ## Reading undoes writing -/

/-- The compressed form is read under the tag of either parity if the ordinate is zero, and under
the tag of its own parity in any case. -/
theorem ofSec1_compressed (hc : c.Checks) {x y : ZMod c.p} (h : c.weierstrass.Equation x y)
    {odd : Bool} (hodd : y ≠ 0 → (ofZMod y).isOdd = odd) :
    ofSec1 (parityTag odd :: Bytes.bigEndian c.fieldBytes x.val) c =
      .ok (.point (ofZMod x) (ofZMod y)) :=
  ofSec1_eq_ok_iff.mpr (.inl ⟨odd, x, rfl, (liftX_eq_some_iff hc).mpr ⟨y, h, rfl, hodd⟩⟩)

theorem ofSec1_uncompressed (hc : c.Checks) {x y : ZMod c.p} (h : c.weierstrass.Equation x y) :
    ofSec1 (uncompressedTag ::
      (Bytes.bigEndian c.fieldBytes x.val ++ Bytes.bigEndian c.fieldBytes y.val)) c =
        .ok (.point (ofZMod x) (ofZMod y)) :=
  ofSec1_eq_ok_iff.mpr (.inr ⟨x, y, rfl, rfl, ((onCurve_point_iff hc).mpr h).passes⟩)

end Prime

/-- Reading undoes writing. On an accepted curve of prime modulus, every finite point of the curve
is written in both forms, in one tag and one or two coordinates, and is read back from either. -/
theorem ofSec1_toSec1 {c : Curve} (hc : c.Accepted) (hp : c.p.Prime) {Q : Affine}
    (hQ : Q.OnCurve c) (hfinite : Q ≠ .infinity) :
    (∃ bytes, Q.toCompressed c = .ok bytes ∧ bytes.length = 1 + c.fieldBytes ∧
      ofSec1 bytes c = .ok Q) ∧
    ∃ bytes, Q.toUncompressed c = .ok bytes ∧ bytes.length = 1 + 2 * c.fieldBytes ∧
      ofSec1 bytes c = .ok Q := by
  have := Fact.mk hp
  obtain ⟨x, y, rfl, h⟩ := hQ.exists_point hc.checks hfinite
  refine ⟨⟨_, toCompressed_point x y, ?_, ofSec1_compressed hc.checks h fun _ => rfl⟩,
    ⟨_, toUncompressed_point x y, ?_, ofSec1_uncompressed hc.checks h⟩⟩
  · rw [List.length_cons, Bytes.length_bigEndian, add_comm]
  · rw [List.length_cons, List.length_append, Bytes.length_bigEndian, Bytes.length_bigEndian]
    ring

end Affine

/-- The curve `y² = x³ + x + 1` over the field of 23 elements, which has 28 points. The point
`(4, 0)` is its own opposite. -/
def Curve.twentyEight : Curve :=
  { name := "twenty-eight"
    p := 23
    n := 28
    a := ⟨1, 23⟩
    b := ⟨1, 23⟩
    generator := .point ⟨3, 23⟩ ⟨10, 23⟩ }

theorem Curve.accepted_twentyEight : Curve.twentyEight.Accepted :=
  ⟨23, 28, 1, 1, 3, 10, by rfl⟩

theorem Curve.prime_p_twentyEight : Curve.twentyEight.p.Prime := by
  rw [Curve.twentyEight]
  norm_num

namespace Affine

/-- The point of ordinate zero on the curve with 28 points is read back from both forms. -/
theorem twentyEight_ofSec1_toSec1 :
    let Q : Affine := .point ⟨4, 23⟩ ⟨0, 23⟩
    Q.OnCurve Curve.twentyEight ∧
      (∃ bytes, Q.toCompressed Curve.twentyEight = .ok bytes ∧ bytes.length = 2 ∧
        ofSec1 bytes Curve.twentyEight = .ok Q) ∧
      ∃ bytes, Q.toUncompressed Curve.twentyEight = .ok bytes ∧ bytes.length = 3 ∧
        ofSec1 bytes Curve.twentyEight = .ok Q := by
  intro Q
  have hQ : Q.OnCurve Curve.twentyEight := ⟨⟨by decide, by decide⟩, by rfl⟩
  exact ⟨hQ, ofSec1_toSec1 Curve.accepted_twentyEight Curve.prime_p_twentyEight hQ
    Affine.noConfusion⟩

/-! ## Writing undoes reading, but for points of ordinate zero -/

section Prime

variable {c : Curve} [Fact c.p.Prime]

/-- What is read in the compressed form is a point of that abscissa. It is written with the same
bytes if its ordinate has the parity of the tag, and otherwise its ordinate is zero. -/
theorem exists_of_ofSec1_parityTag (hc : c.Checks) {odd : Bool} {body : Bytes} {Q : Affine}
    (h : ofSec1 (parityTag odd :: body) c = .ok Q) :
    ∃ x y : ZMod c.p, Q = .point (ofZMod x) (ofZMod y) ∧ c.weierstrass.Equation x y ∧
      body = Bytes.bigEndian c.fieldBytes x.val ∧ (y ≠ 0 → (ofZMod y).isOdd = odd) := by
  rw [ofSec1_parityTag] at h
  obtain ⟨x, hbody, hlift⟩ := ofCompressedBody_eq_ok_iff.mp h
  obtain ⟨y, hy, rfl, hodd⟩ := (liftX_eq_some_iff hc).mp hlift
  exact ⟨x, y, rfl, hy, hbody, hodd⟩

/-- What is read is written with the same bytes, or is a point of ordinate zero that was read under
the odd tag and is written under the even one. -/
theorem encodedBy_or_zero_ordinate (hc : c.Checks) {bytes : Bytes} {Q : Affine}
    (h : ofSec1 bytes c = .ok Q) :
    Q.EncodedBy c bytes ∨ ∃ x body, Q = .point x (zero c.p) ∧ bytes = parityTag true :: body ∧
      Q.toCompressed c = .ok (parityTag false :: body) := by
  obtain ⟨odd, body, rfl⟩ | ⟨body, rfl⟩ := exists_tag_of_ofSec1 h
  · obtain ⟨x, y, rfl, hy, rfl, hodd⟩ := exists_of_ofSec1_parityTag hc h
    by_cases hparity : (ofZMod y).isOdd = odd
    · rw [encodedBy_parityTag, toCompressed_point, hparity]
      exact .inl rfl
    · -- The parity can only differ at zero, which is even.
      obtain rfl : y = 0 := by_contra fun hne => hparity (hodd hne)
      have heven : (ofZMod (0 : ZMod c.p)).isOdd = false := by simp [isOdd]
      rw [heven, eq_comm, Bool.not_eq_false] at hparity
      rw [zero_eq_ofZMod, hparity, toCompressed_point, heven]
      exact .inr ⟨_, _, rfl, rfl, rfl⟩
  · rw [ofSec1_uncompressedTag] at h
    obtain ⟨x, y, rfl, rfl, -⟩ := ofUncompressedBody_eq_ok_iff.mp h
    exact .inl ⟨_, _, rfl, toUncompressed_point x y⟩

/-- Lifting gives a point of the curve of the requested parity, or of ordinate zero. -/
theorem exists_parity_or_zero_of_liftX (hc : c.Checks) {x : FieldElement} (hx : x.InField c.p)
    {odd : Bool} {P : Affine} (h : liftX x odd c = .ok (some P)) :
    ∃ y, P = .point x y ∧ P.OnCurve c ∧ (y.isOdd = odd ∨ y = zero c.p) := by
  obtain ⟨x, rfl⟩ := hx.exists_ofZMod
  obtain ⟨y, hy, rfl, hodd⟩ := (liftX_eq_some_iff hc).mp h
  refine ⟨ofZMod y, rfl, (onCurve_point_iff hc).mpr hy, ?_⟩
  by_cases hzero : y = 0
  · exact .inr (by rw [hzero, zero_eq_ofZMod])
  · exact .inl (hodd hzero)

/-- A point of ordinate zero is found with both parities and read under both tags, and is written
under the even one. -/
theorem exists_readings_of_zero_ordinate (hc : c.Checks) {x : FieldElement}
    (h : (Affine.point x (zero c.p)).OnCurve c) :
    x.InField c.p ∧ ∃ body, ∀ odd,
      liftX x odd c = .ok (some (.point x (zero c.p))) ∧
      ofSec1 (parityTag odd :: body) c = .ok (.point x (zero c.p)) ∧
      (Affine.point x (zero c.p)).toCompressed c = .ok (parityTag false :: body) := by
  have hx := h.inField.left
  obtain ⟨x, rfl⟩ := hx.exists_ofZMod
  rw [zero_eq_ofZMod] at h ⊢
  have hequation := (onCurve_point_iff hc).mp h
  refine ⟨hx, Bytes.bigEndian c.fieldBytes x.val, fun odd => ⟨?_, ?_, ?_⟩⟩
  · exact (liftX_eq_some_iff hc).mpr ⟨0, hequation, rfl, fun hne => absurd rfl hne⟩
  · exact ofSec1_compressed hc hequation fun hne => absurd rfl hne
  · rw [toCompressed_point]
    simp [isOdd]

/-- Encodings are canonical iff no point has ordinate zero. -/
theorem canonicalEncodings_iff (hc : c.Checks) : CanonicalEncodings c ↔ NoZeroOrdinate c := by
  constructor
  · intro hcanonical x h
    obtain ⟨-, body, hbody⟩ := exists_readings_of_zero_ordinate hc h
    obtain ⟨-, hread, hwritten⟩ := hbody true
    have hsame := encodedBy_parityTag.mp (hcanonical _ _ hread)
    rw [hwritten, Except.ok.injEq, List.cons.injEq] at hsame
    exact absurd (parityTag_injective hsame.left) Bool.false_ne_true
  · intro hnone bytes Q h
    refine (encodedBy_or_zero_ordinate hc h).resolve_right ?_
    rintro ⟨x, body, rfl, -⟩
    exact hnone x (onCurve_of_ofSec1 hc h).right

/-- Lifting respects the parity iff no point has ordinate zero. -/
theorem liftsParity_iff (hc : c.Checks) : LiftsParity c ↔ NoZeroOrdinate c := by
  constructor
  · intro hlifts x h
    obtain ⟨hx, body, hbody⟩ := exists_readings_of_zero_ordinate hc h
    obtain ⟨y, hy, -, hodd⟩ := hlifts x true _ hx (hbody true).left
    obtain rfl := (Affine.point.inj hy).right
    simp [isOdd, zero] at hodd
  · intro hnone x odd P hx h
    obtain ⟨y, rfl, hon, hodd | rfl⟩ := exists_parity_or_zero_of_liftX hc hx h
    · exact ⟨y, rfl, hon, hodd⟩
    · exact absurd hon (hnone x)

/-- Compressed encodings are unique iff no point has ordinate zero. -/
theorem uniqueCompressed_iff (hc : c.Checks) : UniqueCompressed c ↔ NoZeroOrdinate c := by
  constructor
  · intro hunique x h
    obtain ⟨-, body, hbody⟩ := exists_readings_of_zero_ordinate hc h
    have hsame := hunique true false body body _ (hbody true).right.left (hbody false).right.left
    exact absurd hsame.left.symm Bool.false_ne_true
  · intro hnone odd odd' body body' Q h h'
    -- Both encodings are what writing the point gives.
    have hcanonical := (canonicalEncodings_iff hc).mpr hnone
    have hsame := (encodedBy_parityTag.mp (hcanonical _ _ h)).symm.trans
      (encodedBy_parityTag.mp (hcanonical _ _ h'))
    rw [Except.ok.injEq, List.cons.injEq] at hsame
    exact ⟨parityTag_injective hsame.left, hsame.right⟩

end Prime

/-- Which encodings are canonical. On an accepted curve of prime modulus, what is read is a finite
point of the curve, and writing it in the form that the tag names gives the bytes back, unless the
ordinate is zero and the tag is the odd one, which writing replaces by the even one. Lifting an
abscissa gives a point of the curve of that abscissa and of the requested parity, unless the
ordinate is zero. Encodings are canonical, lifting respects the parity and compressed encodings are
unique, each exactly if no point of the curve has ordinate zero. -/
theorem encodedBy_of_ofSec1 {c : Curve} (hc : c.Accepted) (hp : c.p.Prime) :
    (∀ bytes Q, ofSec1 bytes c = .ok Q → Q ≠ .infinity ∧ Q.OnCurve c ∧
      (Q.EncodedBy c bytes ∨ ∃ x body, Q = .point x (zero c.p) ∧
        bytes = parityTag true :: body ∧ Q.toCompressed c = .ok (parityTag false :: body))) ∧
    (∀ x odd P, x.InField c.p → liftX x odd c = .ok (some P) →
      ∃ y, P = .point x y ∧ P.OnCurve c ∧ (y.isOdd = odd ∨ y = zero c.p)) ∧
    (CanonicalEncodings c ↔ NoZeroOrdinate c) ∧
    (LiftsParity c ↔ NoZeroOrdinate c) ∧
    (UniqueCompressed c ↔ NoZeroOrdinate c) := by
  have := Fact.mk hp
  have hk := hc.checks
  refine ⟨?_, ?_, canonicalEncodings_iff hk, liftsParity_iff hk, uniqueCompressed_iff hk⟩
  · intro bytes Q h
    obtain ⟨hfinite, hon⟩ := onCurve_of_ofSec1 hk h
    exact ⟨hfinite, hon, encodedBy_or_zero_ordinate hk h⟩
  · intro x odd P hx h
    exact exists_parity_or_zero_of_liftX hk hx h

/-- The curve with 13 points has no point of ordinate zero, so what is read on it is written with
the same bytes. -/
theorem thirteen_encodedBy :
    ofSec1 [0x03, 0x04] Curve.thirteen = .ok (.point ⟨4, 19⟩ ⟨3, 19⟩) ∧
      (Affine.point ⟨4, 19⟩ ⟨3, 19⟩).EncodedBy Curve.thirteen [0x03, 0x04] := by
  have hread : ofSec1 [0x03, 0x04] Curve.thirteen = .ok (.point ⟨4, 19⟩ ⟨3, 19⟩) := by rfl
  have hsearch : ∀ x < 19,
      (Affine.point ⟨x, 19⟩ (zero 19)).isOnCurve Curve.thirteen ≠ .ok true := by
    decide +kernel
  obtain ⟨-, -, hcanonical, -⟩ :=
    encodedBy_of_ofSec1 Curve.accepted_thirteen Curve.prime_p_thirteen
  refine ⟨hread, hcanonical.mpr ?_ _ _ hread⟩
  rintro ⟨x, _⟩ h
  obtain ⟨⟨rfl, hx⟩, -⟩ := h.inField
  exact hsearch x hx h.passes

/-- On an accepted curve of prime modulus the bytes `03 04` are read as the point `(4, 0)`, which is
written as `02 04`, and lifting the abscissa four to an odd ordinate gives the even ordinate
zero. -/
theorem twentyEight_not_encodedBy :
    Curve.twentyEight.Accepted ∧ Curve.twentyEight.p.Prime ∧
      ofSec1 [0x03, 0x04] Curve.twentyEight = .ok (.point ⟨4, 23⟩ ⟨0, 23⟩) ∧
      (Affine.point ⟨4, 23⟩ ⟨0, 23⟩).toCompressed Curve.twentyEight = .ok [0x02, 0x04] ∧
      ¬CanonicalEncodings Curve.twentyEight ∧
      liftX ⟨4, 23⟩ true Curve.twentyEight = .ok (some (.point ⟨4, 23⟩ ⟨0, 23⟩)) ∧
      ¬LiftsParity Curve.twentyEight ∧ ¬UniqueCompressed Curve.twentyEight := by
  have := Fact.mk Curve.prime_p_twentyEight
  have hk := Curve.accepted_twentyEight.checks
  have hzero : ¬NoZeroOrdinate Curve.twentyEight := by
    intro h
    exact h ⟨4, 23⟩ ⟨⟨by decide, by decide⟩, by rfl⟩
  exact ⟨Curve.accepted_twentyEight, Curve.prime_p_twentyEight, by rfl, by rfl,
    (canonicalEncodings_iff hk).not.mpr hzero, by rfl, (liftsParity_iff hk).not.mpr hzero,
    (uniqueCompressed_iff hk).not.mpr hzero⟩

end Affine

end EllipticSignatures
