import EllipticSignatures.Proofs.Signature.Totality

/-!
# When decoding and verification end

Decoding a compressed point and verification under an address take the square root of
`x³ + a x + b`, and nothing else that they do can fail to end. On an accepted curve the abscissas
over which the search for the root is in vain are known (`Curve.searchesInVain_iff`): there are none
unless the modulus is composite and Euler-trivial, and then they are those for which `x³ + a x + b`
is no square modulo any prime factor of the modulus. Over them no number of tries is enough
(`Curve.SearchesInVain.forall_tries`). For all other inputs decoding ends with a point or a refusal
and verification with yes or no (`decoding_and_verification_end`).
-/

namespace EllipticSignatures

open FieldElement

namespace Outcome

variable {ε ε' α β : Type}

/-- The computation searches without end if `inVain` holds, and answers otherwise. -/
def AnswersUnless (inVain : Prop) (x : Outcome ε α) : Prop :=
  (inVain ∧ x = .error (.fault .endlessSearch)) ∨ (¬inVain ∧ x.Answers)

theorem AnswersUnless.bind {inVain : Prop} {x : Outcome ε α} {f : α → Outcome ε β}
    (hx : x.AnswersUnless inVain) (hf : ∀ a, x = .ok a → (f a).Answers) :
    AnswersUnless inVain (x >>= f) := by
  obtain ⟨hvain, rfl⟩ | ⟨hvain, hx⟩ := hx
  · exact .inl ⟨hvain, error_bind _ _⟩
  · exact .inr ⟨hvain, hx.bind hf⟩

theorem AnswersUnless.mapRefusal {inVain : Prop} {x : Outcome ε α} (hx : x.AnswersUnless inVain)
    (rename : ε → ε') : (Outcome.mapRefusal rename x).AnswersUnless inVain := by
  obtain ⟨hvain, rfl⟩ | ⟨hvain, hx⟩ := hx
  · exact .inl ⟨hvain, rfl⟩
  · exact .inr ⟨hvain, hx.mapRefusal rename⟩

end Outcome

namespace Curve

variable {c : Curve}

/-- The bytes are a compressed point over an abscissa whose ordinate is searched for in vain. -/
def DecodesInVain (c : Curve) (bytes : Bytes) : Prop :=
  ∃ odd, ∃ body : Bytes, bytes = Affine.parityTag odd :: body ∧ body.length = c.fieldBytes ∧
    body.toNat < c.p ∧ c.SearchesInVain body.toNat

/-- The texts are an address and a signature in range whose first number is an abscissa whose
ordinate is searched for in vain. -/
def VerifiesInVain [Digests] (c : Curve) (address signature : String) : Prop :=
  (∃ parsed, Address.ofText address = .ok parsed) ∧
    ∃ sig, MessageSignature.ofBase64 signature = .ok sig ∧
      c.inScalarRange sig.r.toNat ∧ c.inScalarRange sig.s.toNat ∧ sig.r.toNat < c.p ∧
      c.SearchesInVain sig.r.toNat

/-! ## The search over an abscissa -/

/-- A search in vain goes on for any number of tries. -/
theorem SearchesInVain.forall_tries (hc : c.Checks) {r : ℕ} (h : c.SearchesInVain r) :
    ∃ x square unit, c.baseElement r = .ok x ∧ c.rhs x = .ok square ∧ one c.p = .ok unit ∧
      square.legendre = .ok 1 ∧
      ∀ tries, searchBase square unit tries (zero c.p) = .error .endlessSearch := by
  have := hc.neZero_p
  obtain ⟨hsymbol, hvain⟩ := sqrt_eq_endlessSearch_iff.mp ((searchesInVain_iff_sqrt hc rfl).mp h)
  refine ⟨_, _, _, ofNat_eq_ofZMod r, rhs_ofZMod hc _, one_eq_ofZMod, hsymbol, ?_⟩
  rw [zero_eq_ofZMod]
  exact (forall_searchBase_iff _).mpr hvain

end Curve

/-! ## Decoding -/

namespace Affine

variable {c : Curve}

/-- Lifting an abscissa is a search in vain, or it ends with a point or without one. -/
theorem liftX_cases [NeZero c.p] (hc : c.Checks) {r : ℕ} {x : ZMod c.p} (hx : (r : ZMod c.p) = x)
    (odd : Bool) :
    (c.SearchesInVain r ∧ liftX (ofZMod x) odd c = .error .endlessSearch) ∨
      (¬c.SearchesInVain r ∧ ∃ found, liftX (ofZMod x) odd c = .ok found) := by
  rw [Curve.searchesInVain_iff_sqrt hc hx]
  obtain hvain | ⟨root, hroot, hfield⟩ :=
    sqrt_cases (x * x * x + c.weierstrass.a₄ * x + c.weierstrass.a₆)
  · exact .inl ⟨hvain, by simp [liftX, Curve.rhs_ofZMod hc, hvain]⟩
  · refine .inr ⟨by simp [hroot], ?_⟩
    cases root with
    | none => exact ⟨none, by simp [liftX, Curve.rhs_ofZMod hc, hroot]⟩
    | some y =>
      obtain ⟨y, rfl⟩ := (hfield y rfl).exists_ofZMod
      exact ⟨_, liftX_of_sqrt hc odd hroot⟩

/-- A tag of a compressed point leaves the conditions on the body. -/
theorem decodesInVain_parityTag_iff {odd : Bool} {body : Bytes} :
    c.DecodesInVain (parityTag odd :: body) ↔
      body.length = c.fieldBytes ∧ body.toNat < c.p ∧ c.SearchesInVain body.toNat := by
  constructor
  · rintro ⟨_, _, h, hbody⟩
    obtain ⟨-, rfl⟩ := List.cons.inj h
    exact hbody
  · intro h
    exact ⟨odd, body, rfl, h⟩

/-- Reading an abscissa is a search in vain, or it answers. -/
theorem ofCompressedBody_answersUnless (hc : c.Checks) (odd : Bool) (body : Bytes) :
    (ofCompressedBody odd body c).AnswersUnless (c.DecodesInVain (parityTag odd :: body)) := by
  have := hc.neZero_p
  rw [decodesInVain_parityTag_iff]
  unfold ofCompressedBody
  by_cases hlength : body.length = c.fieldBytes
  swap
  · rw [if_pos hlength]
    exact .inr ⟨fun h => hlength h.left, Outcome.answers_refuse _⟩
  rw [if_neg (not_not.mpr hlength)]
  obtain ⟨hlt, hx⟩ | ⟨hlt, hx⟩ := ofCanonicalBytes_cases (c := c) body
  swap
  · rw [hx]
    exact .inr ⟨fun h => hlt h.right.left, Outcome.answers_refuse _⟩
  rw [hx, Outcome.ofExcept_ok, ok_bind, Outcome.liftM_checked]
  -- The length and the range are as they should be, so the search decides.
  obtain ⟨hsearch, hlift⟩ | ⟨hsearch, found, hlift⟩ := liftX_cases hc (r := body.toNat) rfl odd
  · rw [hlift, Outcome.ofChecked_error, error_bind]
    exact .inl ⟨⟨hlength, hlt, hsearch⟩, rfl⟩
  · refine .inr ⟨fun h => hsearch h.right.right, ?_⟩
    rw [hlift, Outcome.ofChecked_ok, ok_bind]
    cases found with
    | none => exact Outcome.answers_refuse _
    | some P => exact Outcome.answers_ok P

/-- Both coordinates are checked without a search. -/
theorem answers_ofUncompressedBody (hc : c.Checks) (body : Bytes) :
    (ofUncompressedBody body c).Answers := by
  have := hc.neZero_p
  unfold ofUncompressedBody
  by_cases hlength : body.length = 2 * c.fieldBytes
  swap
  · rw [if_pos hlength]
    exact Outcome.answers_refuse _
  rw [if_neg (not_not.mpr hlength)]
  obtain ⟨-, hx⟩ | ⟨-, hx⟩ := ofCanonicalBytes_cases (c := c) (body.take c.fieldBytes)
  swap
  · rw [hx]
    exact Outcome.answers_refuse _
  obtain ⟨-, hy⟩ | ⟨-, hy⟩ := ofCanonicalBytes_cases (c := c) (body.drop c.fieldBytes)
  swap
  · rw [hx, hy]
    exact Outcome.answers_refuse _
  simp only [hx, hy, Outcome.ofExcept_ok, isOnCurve_point hc, Outcome.liftM_checked,
    Outcome.ofChecked_ok, ok_bind]
  split
  · exact Outcome.answers_ok _
  · exact Outcome.answers_refuse _

/-- Decoding is a search in vain for some compressed points, and otherwise it answers. -/
theorem ofSec1_answersUnless (hc : c.Checks) (bytes : Bytes) :
    (ofSec1 bytes c).AnswersUnless (c.DecodesInVain bytes) := by
  by_cases hcompressed : ∃ odd, ∃ body : Bytes, bytes = parityTag odd :: body
  · obtain ⟨odd, body, rfl⟩ := hcompressed
    rw [ofSec1_parityTag]
    exact ofCompressedBody_answersUnless hc odd body
  -- Only a compressed form is lifted, and nothing else searches for a root.
  refine .inr ⟨?_, ?_⟩
  · rintro ⟨odd, body, h, -⟩
    exact hcompressed ⟨odd, body, h⟩
  cases bytes with
  | nil => exact Outcome.answers_refuse _
  | cons tag body =>
    have heven : tag ≠ parityTag false := by
      rintro rfl
      exact hcompressed ⟨false, body, rfl⟩
    have hodd : tag ≠ parityTag true := by
      rintro rfl
      exact hcompressed ⟨true, body, rfl⟩
    rw [ofSec1, if_neg heven, if_neg hodd]
    split
    · exact answers_ofUncompressedBody hc body
    · exact Outcome.answers_refuse _

end Affine

/-- Decoding a key adds a check to decoding its point, which always answers. -/
theorem VerifyingKey.ofSec1On_answersUnless {c : Curve} (hc : c.Checks) (bytes : Bytes) :
    (ofSec1On bytes c).AnswersUnless (c.DecodesInVain bytes) := by
  have := hc.neZero_p
  refine ((Affine.ofSec1_answersUnless hc bytes).mapRefusal _).bind ?_
  intro P hP
  obtain ⟨hfinite, hfield⟩ := Affine.inField_of_ofSec1 hc (Outcome.mapRefusal_eq_ok.mp hP)
  cases P with
  | infinity => exact absurd rfl hfinite
  | point x y =>
    obtain ⟨x, rfl⟩ := hfield.left.exists_ofZMod
    obtain ⟨y, rfl⟩ := hfield.right.exists_ofZMod
    simp only [ofAffine, Affine.isInfinity, Affine.isOnCurve_point hc, Outcome.liftM_checked,
      Outcome.ofChecked_ok, ok_bind, Bool.false_eq_true, if_false]
    split
    · exact Outcome.answers_ok _
    · exact Outcome.answers_refuse _

/-! ## Verification -/

/-- Verification is a search in vain for some signatures in range, and otherwise it says yes or
no. -/
theorem SignedMessage.verifyOn_ends_iff [Digests] {c : Curve} (hc : c.Checks) (address : String)
    (message : Bytes) (signature : String) :
    (c.VerifiesInVain address signature ∧
        verifyOn c address message signature = .error .endlessSearch) ∨
      (¬c.VerifiesInVain address signature ∧
        ∃ valid, verifyOn c address message signature = .ok valid) := by
  obtain ⟨valid, hvalid⟩ | ⟨hvain, sig, hsig, hsearch⟩ :=
    verifyOn_cases hc address message signature
  · refine .inr ⟨?_, valid, hvalid⟩
    rintro ⟨⟨parsed, hparsed⟩, sig, hsig, hr, hs, hp, hsearch⟩
    simp [verifyOn, hparsed, hsig, MessageSignature.toEcdsa,
      MessageSignature.recoverCandidates_of_searchesInVain ⟨hr, hs, hp⟩ hsearch] at hvalid
  · refine .inl ⟨?_, hvain⟩
    -- Texts that cannot be read and numbers out of range are answered before any search.
    cases hparsed : Address.ofText address with
    | error cause => simp [verifyOn, hparsed] at hvain
    | ok parsed =>
      by_cases hrange :
          c.inScalarRange sig.r.toNat ∧ c.inScalarRange sig.s.toNat ∧ sig.r.toNat < c.p
      · obtain ⟨hr, hs, hp⟩ := hrange
        exact ⟨⟨parsed, hparsed⟩, sig, hsig, hr, hs, hp, hsearch⟩
      · simp [verifyOn, hparsed, hsig, MessageSignature.toEcdsa, MessageSignature.anyHasAddress,
          MessageSignature.recoverCandidates_of_out_of_range hrange] at hvain

/-- Decoding and verification end on an accepted curve for all inputs, apart from a set that is
known exactly. Over the abscissa `r` the ordinate is searched for in vain iff the modulus is
Euler-trivial and `r³ + a r + b` is no square modulo any of its prime factors; then every candidate
is passed by and no number of tries is enough. Decoding a compressed point over such an abscissa and
verification of a signature that starts with one search without end. All other bytes are decoded to
a point or a key or refused, and all other texts are accepted or not. For a prime modulus there is
no exception. -/
theorem decoding_and_verification_end [Digests] {c : Curve} (hc : c.Accepted) :
    (∀ r, c.SearchesInVain r ↔
      EulerTrivial c.p ∧ NowhereSquare c.p (r ^ 3 + c.a.value * r + c.b.value)) ∧
    (∀ r, c.SearchesInVain r →
      ∃ x square unit, c.baseElement r = .ok x ∧ c.rhs x = .ok square ∧ one c.p = .ok unit ∧
        square.legendre = .ok 1 ∧
        ∀ tries, searchBase square unit tries (zero c.p) = .error .endlessSearch) ∧
    (∀ bytes, (Affine.ofSec1 bytes c).AnswersUnless (c.DecodesInVain bytes)) ∧
    (∀ bytes, (VerifyingKey.ofSec1On bytes c).AnswersUnless (c.DecodesInVain bytes)) ∧
    (∀ address message signature,
      (c.VerifiesInVain address signature ∧
        SignedMessage.verifyOn c address message signature = .error .endlessSearch) ∨
      (¬c.VerifiesInVain address signature ∧
        ∃ valid, SignedMessage.verifyOn c address message signature = .ok valid)) ∧
    (c.p.Prime → ∀ r, ¬c.SearchesInVain r) := by
  have hk := hc.checks
  exact ⟨Curve.searchesInVain_iff hk, fun _ h => h.forall_tries hk, Affine.ofSec1_answersUnless hk,
    VerifyingKey.ofSec1On_answersUnless hk, SignedMessage.verifyOn_ends_iff hk,
    Curve.not_searchesInVain hk⟩

/-- On the curve modulo 1729 the abscissa three leads to 31, which is no square modulo 7, 13 and 19,
and is searched over without end. The abscissa seven leads to a square modulo 7, and decoding it
ends. -/
theorem carmichael_decoding_and_verification :
    Curve.carmichael.SearchesInVain 3 ∧
      Affine.ofSec1 [0x02, 0x00, 0x03] Curve.carmichael = .error (.fault .endlessSearch) ∧
      VerifyingKey.ofSec1On [0x02, 0x00, 0x03] Curve.carmichael =
        .error (.fault .endlessSearch) ∧
      (Affine.ofSec1 [0x02, 0x00, 0x07] Curve.carmichael).Answers ∧
      SignedMessage.verifyOn Curve.carmichael (Address.ofSec1 [0x02, 0x07, 0x01]).toText
        [0x68, 0x69] (MessageSignature.mk .compressed 0 (Block.ofNat 32 3)
          (Block.ofNat 32 1)).toBase64 = .error .endlessSearch ∧
      ∃ valid, SignedMessage.verifyOn Curve.carmichael (Address.ofSec1 [0x02, 0x07, 0x01]).toText
        [0x68, 0x69] (MessageSignature.mk .compressed 0 (Block.ofNat 32 1)
          (Block.ofNat 32 5)).toBase64 = .ok valid := by
  obtain ⟨hsearch, -, hpoints, hkeys, hverify, -⟩ :=
    decoding_and_verification_end Curve.accepted_carmichael
  have hthree : Curve.carmichael.SearchesInVain 3 := by
    refine (hsearch 3).mpr ⟨eulerTrivial_1729, nowhereSquare_1729_iff.mpr ?_⟩
    decide
  have hvain : Curve.carmichael.DecodesInVain [0x02, 0x00, 0x03] :=
    ⟨false, [0x00, 0x03], rfl, by decide, by decide, hthree⟩
  have hends : ¬Curve.carmichael.DecodesInVain [0x02, 0x00, 0x07] := by
    rintro ⟨odd, body, hbytes, -, -, hseven⟩
    obtain ⟨-, rfl⟩ := List.cons.inj hbytes
    have := (nowhereSquare_1729_iff.mp ((hsearch 7).mp hseven).right).left
    exact this (by decide)
  refine ⟨hthree, ?_, ?_, ?_, ?_, ?_⟩
  · exact ((hpoints _).resolve_right fun h => h.left hvain).right
  · exact ((hkeys _).resolve_right fun h => h.left hvain).right
  · exact ((hpoints _).resolve_left fun h => hends h.left).right
  · refine ((hverify _ _ _).resolve_right fun h => h.left ?_).right
    exact ⟨⟨_, Address.ofText_toText _⟩, _, MessageSignature.ofBase64_toBase64 _, by decide,
      by decide, by decide, hthree⟩
  · refine ((hverify _ _ _).resolve_left fun h => ?_).right
    obtain ⟨-, sig, hsig, -, -, -, hone⟩ := h.left
    rw [MessageSignature.ofBase64_toBase64, Except.ok.injEq] at hsig
    subst hsig
    have := (nowhereSquare_1729_iff.mp ((hsearch 1).mp hone).right).right.right
    exact this (by decide)

/-- Neither decoding nor verification ends on every input of an accepted curve: 31 is passed by at
every candidate, however many are tried. -/
theorem carmichael_endless :
    Curve.carmichael.Accepted ∧
      (∀ tries, searchBase ⟨31, 1729⟩ ⟨1, 1729⟩ tries (zero 1729) = .error .endlessSearch) ∧
      Affine.ofSec1 [0x02, 0x00, 0x03] Curve.carmichael = .error (.fault .endlessSearch) ∧
      VerifyingKey.ofSec1On [0x02, 0x00, 0x03] Curve.carmichael =
        .error (.fault .endlessSearch) ∧
      SignedMessage.verifyOn Curve.carmichael (Address.ofSec1 [0x02, 0x07, 0x01]).toText
        [0x68, 0x69] (MessageSignature.mk .compressed 0 (Block.ofNat 32 3)
          (Block.ofNat 32 1)).toBase64 = .error .endlessSearch := by
  have hk := Curve.accepted_carmichael.checks
  obtain ⟨hsearch, hverify⟩ := carmichael_verifyOn_endless
  have hvain : Curve.carmichael.DecodesInVain [0x02, 0x00, 0x03] :=
    ⟨false, [0x00, 0x03], rfl, by decide, by decide, hsearch⟩
  refine ⟨Curve.accepted_carmichael, ?_, ?_, ?_, hverify⟩
  · obtain ⟨x, square, unit, hx, hsquare, hunit, -, htries⟩ := hsearch.forall_tries hk
    obtain rfl : (⟨3, 1729⟩ : FieldElement) = x := Except.ok.inj hx
    obtain rfl : (⟨31, 1729⟩ : FieldElement) = square := Except.ok.inj hsquare
    obtain rfl : (⟨1, 1729⟩ : FieldElement) = unit := Except.ok.inj hunit
    exact htries
  · exact ((Affine.ofSec1_answersUnless hk _).resolve_right fun h => h.left hvain).right
  · exact ((VerifyingKey.ofSec1On_answersUnless hk _).resolve_right fun h => h.left hvain).right

end EllipticSignatures
