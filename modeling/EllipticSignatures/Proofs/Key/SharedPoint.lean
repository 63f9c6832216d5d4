import EllipticSignatures.Proofs.Key.Signing

/-!
# Both owners share one point

A signing key multiplies the public point of a peer by its own scalar. Between two signing keys of
one curve both products are the generator times both scalars, so both owners get the same answer
(`diffieHellman_agree`): the product, or a refusal if it is the identity. For a prime group order it
never is.
-/

namespace EllipticSignatures

open FieldElement

namespace SigningKey

variable {key : SigningKey} [Fact key.curve.p.Prime]

/-- The point shared with the owner of a point of the curve is the multiple of that point by the
secret scalar, which is refused if it is the identity. -/
theorem diffieHellman_ofPoint (hc : key.curve.Checks) (T : key.curve.Point) :
    key.diffieHellman ⟨Affine.ofPoint T, key.curve⟩ =
      if Affine.ofPoint (key.scalar.value • T) = .infinity then Outcome.refuse .invalidPoint
      else .ok (Affine.ofPoint (key.scalar.value • T)) := by
  obtain ⟨Q, hQ, hQr⟩ := Projective.exists_ofAffine (Affine.inField_ofPoint T)
  obtain ⟨R, hR, hRr⟩ := (Projective.models hc).scalarMul hQr key.scalar.value
  rw [diffieHellman, if_neg (not_not.mpr rfl), hQ, Outcome.liftM_checked, Outcome.ofChecked_ok,
    ok_bind, hR, Outcome.liftM_checked, Outcome.ofChecked_ok, ok_bind, hRr.toAffine_eq,
    Outcome.liftM_checked, Outcome.ofChecked_ok, ok_bind]
  cases key.scalar.value • T with
  | zero => rfl
  | some x y h => rfl

/-- The point shared with another signing key of the curve is the generator times both scalars. -/
theorem diffieHellman_publicKey (hc : key.curve.Checks) (j : ℕ) :
    key.diffieHellman ⟨Affine.ofPoint (hc.multiples j), key.curve⟩ =
      if Affine.ofPoint (hc.multiples (key.scalar.value * j : ℕ)) = .infinity then
        Outcome.refuse .invalidPoint
      else .ok (Affine.ofPoint (hc.multiples (key.scalar.value * j : ℕ))) := by
  have hproduct : key.scalar.value • hc.multiples (j : ZMod key.curve.n) =
      hc.multiples (key.scalar.value * j : ℕ) := by
    rw [← map_nsmul, nsmul_eq_mul, Nat.cast_mul]
  rw [diffieHellman_ofPoint hc, hproduct]

end SigningKey

/-- For a prime group order, the generator times two scalars in range is not the identity. -/
theorem Curve.Checks.multiples_mul_ne_zero {c : Curve} [Fact c.p.Prime] (hc : c.Checks)
    (hn : c.n.Prime) {j k : ℕ} (hj : c.inScalarRange j) (hk : c.inScalarRange k) :
    hc.multiples (j * k : ℕ) ≠ 0 := by
  have := Fact.mk hn
  rw [Ne, hc.multiples_eq_zero_iff hn, Nat.cast_mul]
  -- The residues modulo a prime have no zero divisors.
  exact mul_ne_zero (Curve.cast_ne_zero_of_inScalarRange hj)
    (Curve.cast_ne_zero_of_inScalarRange hk)

/-- Two signing keys of an accepted curve of prime modulus share a point. With the verifying key of
the other, each of them gets the generator times the product of both scalars, or both are refused
because this is the identity. For a prime group order it is a finite point of the curve. -/
theorem diffieHellman_agree {c : Curve} (hc : c.Accepted) (hp : c.p.Prime) {a b : SigningKey}
    (ha : a.curve = c) (hb : b.curve = c) :
    ∃ A B S, a.verifyingKey = .ok A ∧ b.verifyingKey = .ok B ∧
      PointGroup.scalarMul c.generator (a.scalar.value * b.scalar.value % c.n) c = .ok S ∧
      S.OnCurve c ∧
      a.diffieHellman B = (if S = .infinity then Outcome.refuse .invalidPoint else .ok S) ∧
      b.diffieHellman A = a.diffieHellman B ∧
      (c.n.Prime → c.inScalarRange a.scalar.value → c.inScalarRange b.scalar.value →
        S ≠ .infinity ∧ a.diffieHellman B = .ok S ∧ b.diffieHellman A = .ok S) := by
  obtain ⟨j, c₁⟩ := a
  obtain ⟨k, c₂⟩ := b
  obtain rfl : c₁ = c := ha
  obtain rfl : c₂ = c₁ := hb
  have := Fact.mk hp
  have hk := hc.checks
  have hfirst := @SigningKey.diffieHellman_publicKey ⟨j, c₂⟩ _ hk k.value
  have hsecond := @SigningKey.diffieHellman_publicKey ⟨k, c₂⟩ _ hk j.value
  -- The order of the two multiplications does not matter.
  rw [Nat.mul_comm k.value j.value] at hsecond
  refine ⟨_, _, Affine.ofPoint (hk.multiples (j.value * k.value : ℕ)),
    @SigningKey.verifyingKey_eq ⟨j, c₂⟩ _ hk, @SigningKey.verifyingKey_eq ⟨k, c₂⟩ _ hk,
    ?_, Affine.onCurve_ofPoint hk _, hfirst, hsecond.trans hfirst.symm, ?_⟩
  · rw [hk.scalarMul_generator, ZMod.natCast_mod]
  · intro hn hjrange hkrange
    have hfinite : Affine.ofPoint (hk.multiples (j.value * k.value : ℕ)) ≠ .infinity :=
      Affine.ofPoint_eq_infinity_iff.not.mpr (hk.multiples_mul_ne_zero hn hjrange hkrange)
    rw [if_neg hfinite] at hfirst hsecond
    exact ⟨hfinite, hfirst, hsecond⟩

/-- On the curve with 13 points the secrets five and seven share nine times the generator, since
their product is 35. -/
theorem thirteen_diffieHellman_agree :
    ∃ A B, (SigningKey.mk ⟨5⟩ Curve.thirteen).verifyingKey = .ok A ∧
      (SigningKey.mk ⟨7⟩ Curve.thirteen).verifyingKey = .ok B ∧
      (SigningKey.mk ⟨5⟩ Curve.thirteen).diffieHellman B = .ok (.point ⟨9, 19⟩ ⟨3, 19⟩) ∧
      (SigningKey.mk ⟨7⟩ Curve.thirteen).diffieHellman A = .ok (.point ⟨9, 19⟩ ⟨3, 19⟩) := by
  have hproduct : PointGroup.scalarMul Curve.thirteen.generator 9 Curve.thirteen =
      .ok (.point ⟨9, 19⟩ ⟨3, 19⟩) := by
    rfl
  obtain ⟨A, B, S, hA, hB, hS, -, -, -, hprime⟩ := @diffieHellman_agree Curve.thirteen
    Curve.accepted_thirteen Curve.prime_p_thirteen ⟨⟨5⟩, Curve.thirteen⟩ ⟨⟨7⟩, Curve.thirteen⟩
    rfl rfl
  obtain rfl := Except.ok.inj (hproduct.symm.trans hS)
  obtain ⟨-, hfirst, hsecond⟩ := hprime Curve.prime_n_thirteen (by decide) (by decide)
  exact ⟨A, B, hA, hB, hfirst, hsecond⟩

end EllipticSignatures
