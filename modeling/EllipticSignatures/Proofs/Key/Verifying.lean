import EllipticSignatures.Encoding.Signature
import EllipticSignatures.Proofs.Key.Signing
import EllipticSignatures.Proofs.Point.Sec1

/-!
# What a verifying key promises

A verifying key that is read from outside has passed a check: its point is finite and on the curve,
and it has an encoding in both forms (`VerifyingKey.Imported.sound`). The verifying key of a signing
key has passed none. It is on the curve, but it is the identity if the secret scalar annihilates the
generator, and the checks of a curve only make the group order a multiple of the order of the
generator. All verifying keys of a curve are sound exactly if no smaller positive scalar annihilates
the generator (`verifyingKey_sound_iff`), as for a prime group order; `Curve.thirteenTwice` is an
accepted curve where one is not.
-/

namespace EllipticSignatures

open FieldElement

namespace VerifyingKey

/-- The point of the key is finite, lies on its curve and has an encoding in both forms. -/
structure Sound (key : VerifyingKey) : Prop where
  /-- The point is not the identity. -/
  finite : key.point ≠ .infinity
  /-- The point has reduced coordinates and passes the check of the curve. -/
  onCurve : key.point.OnCurve key.curve
  /-- Encoding does not end in a fault. -/
  encodes : ∀ format, ∃ bytes, key.toSec1 format = .ok bytes

/-- The key has been read from a point, from an encoded point or from a record. -/
inductive Imported : VerifyingKey → Prop
  /-- From a point with reduced coordinates. -/
  | affine {P : Affine} {c : Curve} {key : VerifyingKey} (reduced : P.Reduced)
      (h : ofAffine P c = .ok key) : Imported key
  /-- From an encoded point of a given curve. -/
  | sec1On {bytes : Bytes} {c : Curve} {key : VerifyingKey} (h : ofSec1On bytes c = .ok key) :
      Imported key
  /-- From an encoded point of the default curve. -/
  | sec1 {bytes : Bytes} {key : VerifyingKey} (h : ofSec1 bytes = .ok key) : Imported key
  /-- From a stored encoding. -/
  | record {bytes : Bytes} {key : VerifyingKey} (h : ofRecord bytes = .ok key) : Imported key

/-! ## Keys that are read -/

/-- A point becomes a key iff it is finite and passes the check of the curve. -/
theorem ofAffine_eq_ok_iff {P : Affine} {c : Curve} {key : VerifyingKey} :
    ofAffine P c = .ok key ↔ P ≠ .infinity ∧ P.isOnCurve c = .ok true ∧ key = ⟨P, c⟩ := by
  cases P with
  | infinity => simp [ofAffine, Affine.isInfinity]
  | point x y =>
    simp only [ofAffine, Affine.isInfinity, Bool.false_eq_true, if_false, bind_eq_ok,
      Outcome.liftM_checked, Outcome.ofChecked_eq_ok, ne_eq, reduceCtorEq, not_false_eq_true,
      true_and]
    constructor
    · rintro ⟨on, hon, h⟩
      cases on with
      | false => simp at h
      | true => exact ⟨hon, by simpa [eq_comm] using h⟩
    · rintro ⟨hon, rfl⟩
      exact ⟨true, hon, rfl⟩

/-- An encoded point becomes a key by way of the decoded point. -/
theorem exists_ofAffine_of_ofSec1On {bytes : Bytes} {c : Curve} {key : VerifyingKey}
    (h : ofSec1On bytes c = .ok key) :
    ∃ P, Affine.ofSec1 bytes c = .ok P ∧ ofAffine P c = .ok key := by
  obtain ⟨P, hP, hkey⟩ := bind_eq_ok.mp h
  exact ⟨P, Outcome.mapRefusal_eq_ok.mp hP, hkey⟩

/-- A finite point of an accepted curve is a sound key. -/
theorem sound_of_onCurve {c : Curve} (hc : c.Checks) {P : Affine} (hfinite : P ≠ .infinity)
    (hon : P.OnCurve c) : (⟨P, c⟩ : VerifyingKey).Sound := by
  have := hc.neZero_p
  exact ⟨hfinite, hon, exists_toSec1 hon.inField hfinite⟩

/-- The identity has no encoding in either form. -/
theorem toSec1_infinity (c : Curve) (format : PointFormat) :
    (⟨.infinity, c⟩ : VerifyingKey).toSec1 format = .error .identityKey := by
  cases format <;> rfl

/-- A key that holds a point of its curve is sound, or it is the identity and has no encoding. -/
theorem sound_or_infinity {key : VerifyingKey} (hc : key.curve.Checks)
    (hon : key.point.OnCurve key.curve) :
    key.Sound ∨ key.point = .infinity ∧ ∀ format, key.toSec1 format = .error .identityKey := by
  obtain ⟨P, c⟩ := key
  by_cases hfinite : P = .infinity
  · subst hfinite
    exact .inr ⟨rfl, toSec1_infinity c⟩
  · exact .inl (sound_of_onCurve hc hfinite hon)

/-- A key that has been read holds a finite point of its curve. -/
theorem Imported.finite_and_onCurve {key : VerifyingKey} (h : key.Imported)
    (hc : key.curve.Accepted) : key.point ≠ .infinity ∧ key.point.OnCurve key.curve := by
  -- Each encoded form is decoded on some curve, which becomes the curve of the key.
  have decoded {bytes : Bytes} {c : Curve} (h : ofSec1On bytes c = .ok key) :
      key.point ≠ .infinity ∧ key.point.OnCurve key.curve := by
    obtain ⟨P, hP, hkey⟩ := exists_ofAffine_of_ofSec1On h
    obtain ⟨hfinite, hon, rfl⟩ := ofAffine_eq_ok_iff.mp hkey
    have := hc.checks.neZero_p
    exact ⟨hfinite, (Affine.inField_of_ofSec1 hc.checks hP).right.reduced, hon⟩
  cases h with
  | affine hreduced h =>
    obtain ⟨hfinite, hon, rfl⟩ := ofAffine_eq_ok_iff.mp h
    exact ⟨hfinite, hreduced, hon⟩
  | sec1On h => exact decoded h
  | sec1 h => exact decoded h
  | record h =>
    obtain ⟨encoded, -, h⟩ := bind_eq_ok.mp h
    exact decoded (Outcome.mapRefusal_eq_ok.mp h)

/-- A key that has been read is sound. -/
theorem Imported.sound {key : VerifyingKey} (h : key.Imported) (hc : key.curve.Accepted) :
    key.Sound := by
  obtain ⟨hfinite, hon⟩ := h.finite_and_onCurve hc
  exact sound_of_onCurve hc.checks hfinite hon

end VerifyingKey

/-! ## Keys of signing keys -/

namespace SigningKey

variable {key : SigningKey} [Fact key.curve.p.Prime]

/-- The public key of a signing key is the identity iff the secret scalar annihilates the
generator. -/
theorem publicKey_eq_infinity_iff (hc : key.curve.Checks) :
    (key.publicKey hc).point = .infinity ↔
      PointGroup.scalarMul key.curve.generator key.scalar.value key.curve = .ok .infinity := by
  rw [hc.scalarMul_generator, Except.ok.injEq, publicKey]

/-- The public key of a signing key is sound iff the secret scalar does not annihilate the
generator. -/
theorem publicKey_sound_iff (hc : key.curve.Checks) :
    (key.publicKey hc).Sound ↔
      PointGroup.scalarMul key.curve.generator key.scalar.value key.curve ≠ .ok .infinity := by
  rw [Ne, ← publicKey_eq_infinity_iff hc]
  constructor
  · intro h
    exact h.finite
  · intro hfinite
    exact VerifyingKey.sound_of_onCurve hc hfinite (Affine.onCurve_ofPoint hc _)

end SigningKey

/-- A curve whose group order is prime has no smaller positive scalar that annihilates the
generator. -/
theorem Curve.Checks.scalarMul_generator_ne_infinity {c : Curve} [Fact c.p.Prime] (hc : c.Checks)
    (hn : c.n.Prime) {k : ℕ} (hk : c.inScalarRange k) :
    PointGroup.scalarMul c.generator k c ≠ .ok .infinity := by
  have := Fact.mk hn
  rw [hc.scalarMul_generator, Ne, Except.ok.injEq, Affine.ofPoint_eq_infinity_iff,
    hc.multiples_eq_zero_iff hn]
  exact Curve.cast_ne_zero_of_inScalarRange hk

/-- Which verifying keys are sound. On an accepted curve of prime modulus, every key that is read
from a point, an encoding or a record is. The verifying key of a signing key exists and is on the
curve, and it is sound, or it is the identity and has no encoding in either form. All of these are
sound exactly if no positive scalar below the group order annihilates the generator, and so for a
prime group order. -/
theorem verifyingKey_sound_iff {c : Curve} (hc : c.Accepted) (hp : c.p.Prime) :
    (∀ vk : VerifyingKey, vk.Imported → vk.curve = c → vk.Sound) ∧
    (∀ key : SigningKey, key.curve = c → c.inScalarRange key.scalar.value →
      ∃ vk, key.verifyingKey = .ok vk ∧ vk.curve = c ∧ vk.point.OnCurve c ∧
        (vk.Sound ∨ vk.point = .infinity ∧ ∀ format, vk.toSec1 format = .error .identityKey)) ∧
    ((∀ (key : SigningKey) (vk : VerifyingKey), key.curve = c →
        c.inScalarRange key.scalar.value → key.verifyingKey = .ok vk → vk.Sound) ↔
      ∀ k, 1 ≤ k → k < c.n → PointGroup.scalarMul c.generator k c ≠ .ok .infinity) ∧
    (c.n.Prime → ∀ k, 1 ≤ k → k < c.n →
      PointGroup.scalarMul c.generator k c ≠ .ok .infinity) := by
  have := Fact.mk hp
  have hk := hc.checks
  refine ⟨?_, ?_, ⟨?_, ?_⟩, ?_⟩
  · rintro vk h rfl
    exact h.sound hc
  · rintro key rfl -
    have hon : (key.publicKey hk).point.OnCurve key.curve := Affine.onCurve_ofPoint hk _
    exact ⟨key.publicKey hk, SigningKey.verifyingKey_eq hk, rfl, hon,
      @VerifyingKey.sound_or_infinity (key.publicKey hk) hk hon⟩
  · -- The scalar `k` is the secret of a signing key, whose verifying key is sound.
    intro h k h₁ hlt
    have hsound := h ⟨⟨k⟩, c⟩ _ rfl (Curve.inScalarRange_iff.mpr ⟨h₁, hlt⟩)
      (SigningKey.verifyingKey_eq hk)
    exact (@SigningKey.publicKey_sound_iff ⟨⟨k⟩, c⟩ _ hk).mp hsound
  · rintro h key vk rfl hrange hvk
    rw [SigningKey.verifyingKey_eq hk, Except.ok.injEq] at hvk
    subst hvk
    obtain ⟨h₁, hlt⟩ := Curve.inScalarRange_iff.mp hrange
    exact (SigningKey.publicKey_sound_iff hk).mpr (h _ h₁ hlt)
  · intro hn k h₁ hlt
    exact hk.scalarMul_generator_ne_infinity hn (Curve.inScalarRange_iff.mpr ⟨h₁, hlt⟩)

/-- The secret five of the curve with 13 points has a sound verifying key. -/
theorem thirteen_verifyingKey_sound :
    ∃ vk, (SigningKey.mk ⟨5⟩ Curve.thirteen).verifyingKey = .ok vk ∧ vk.Sound := by
  obtain ⟨-, hexists, hsound, hprime⟩ :=
    verifyingKey_sound_iff Curve.accepted_thirteen Curve.prime_p_thirteen
  obtain ⟨vk, hvk, -⟩ := hexists ⟨⟨5⟩, Curve.thirteen⟩ rfl (by decide)
  exact ⟨vk, hvk, hsound.mpr (hprime Curve.prime_n_thirteen) _ vk rfl (by decide) hvk⟩

/-- The curve with 13 points and twice their number as group order. -/
def Curve.thirteenTwice : Curve :=
  { Curve.thirteen with name := "thirteen twice", n := 26 }

/-- On an accepted curve of prime modulus the secret 13, which is in range for the group order 26,
has the identity as its verifying key, and encoding it is a fault in both forms. -/
theorem thirteenTwice_verifyingKey_not_sound :
    Curve.thirteenTwice.Accepted ∧ Curve.thirteenTwice.p.Prime ∧
      Curve.thirteenTwice.inScalarRange 13 ∧
      ∃ vk, (SigningKey.mk ⟨13⟩ Curve.thirteenTwice).verifyingKey = .ok vk ∧
        vk.point = .infinity ∧ ∀ format, vk.toSec1 format = .error .identityKey := by
  refine ⟨⟨19, 26, 0, 2, 4, 3, by rfl⟩, Curve.prime_p_thirteen, by decide,
    ⟨.infinity, Curve.thirteenTwice⟩, by rfl, rfl, ?_⟩
  exact VerifyingKey.toSec1_infinity Curve.thirteenTwice

end EllipticSignatures
