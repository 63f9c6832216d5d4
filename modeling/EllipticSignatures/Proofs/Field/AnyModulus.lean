import EllipticSignatures.Proofs.Field.SquareRoot

/-!
# Characters and roots modulo any number

No curve has its modulus tested for primality. Modulo any positive number the formulas for the
quadratic character and for square roots still stay within the reduced elements, although their
results no longer mean what they are named for. One fault is left: the search for a base of the
quadratic extension can visit every residue without success (`sqrt_cases`), and then, and only then,
`sqrt` has no answer (`sqrt_eq_endlessSearch_iff`).
-/

namespace EllipticSignatures.FieldElement

variable {m : ℕ} [NeZero m]

/-- The base consists of reduced elements of modulus `m`. -/
def ExtensionBase.InField (m : ℕ) : ExtensionBase → Prop
  | .root t => t.InField m
  | .nonResidue t omega => t.InField m ∧ omega.InField m

/-- The search for a base finds one within the field, or tries every candidate in vain. -/
theorem searchBase_cases (a u : ZMod m) :
    ∀ (tries : ℕ) (t : ZMod m),
      searchBase (ofZMod a) (ofZMod u) tries (ofZMod t) = .error .endlessSearch ∨
        ∃ base, searchBase (ofZMod a) (ofZMod u) tries (ofZMod t) = .ok base ∧ base.InField m
  | 0, _ => .inl rfl
  | tries + 1, t => by
    simp only [searchBase, square_ofZMod, sub_ofZMod, add_ofZMod, ok_bind, pure_eq_ok]
    obtain hsymbol | hsymbol | hsymbol := legendre_cases (t * t - a)
    · exact .inr ⟨.root (ofZMod t), by simp [hsymbol], inField_ofZMod t⟩
    · exact .inr ⟨.nonResidue (ofZMod t) (ofZMod (t * t - a)), by simp [hsymbol],
        inField_ofZMod t, inField_ofZMod _⟩
    · simpa [hsymbol] using searchBase_cases a u tries (t + u)

section Sqrt

variable {a : ZMod m}

/-- A search in vain leaves an element of character one without an answer. -/
theorem sqrt_of_searchBase_error {fault : Fault} (hsymbol : (ofZMod a).legendre = .ok 1)
    (hvain : searchBase (ofZMod a) (ofZMod (1 : ZMod m)) m (ofZMod (0 : ZMod m)) = .error fault) :
    (ofZMod a).sqrt = .error fault := by
  simp [sqrt, hsymbol, hvain]

/-- With a base that the search has found, `sqrt` gives an element of the field or nothing. -/
theorem exists_sqrt_of_searchBase {base : ExtensionBase} (hsymbol : (ofZMod a).legendre = .ok 1)
    (hbase : searchBase (ofZMod a) (ofZMod (1 : ZMod m)) m (ofZMod (0 : ZMod m)) = .ok base)
    (hfield : base.InField m) :
    ∃ found, (ofZMod a).sqrt = .ok found ∧ ∀ y ∈ found, y.InField m := by
  simp only [sqrt, hsymbol, ok_bind, modulus_ofZMod, one_eq_ofZMod, zero_eq_ofZMod, pure_eq_ok,
    hbase, one_ne_zero, if_false, show (1 : ℤ) ≠ -1 by decide]
  cases base with
  | root t =>
    exact ⟨some t, rfl, by simpa [ExtensionBase.InField] using hfield⟩
  | nonResidue t omega =>
    obtain ⟨t, rfl⟩ := hfield.left.exists_ofZMod
    obtain ⟨ω, rfl⟩ := hfield.right.exists_ofZMod
    -- The power stays in the extension, whose real parts are elements of the field.
    have hpow := QuadraticElement.pow_ofAlgebra (⟨t, 1⟩ : QuadraticAlgebra (ZMod m) ω 0)
      ((m + 1) >>> 1)
    rw [QuadraticElement.ofAlgebra] at hpow
    simp only [hpow, ok_bind, QuadraticElement.ofAlgebra, square_ofZMod, ofZMod_inj]
    generalize ((⟨t, 1⟩ : QuadraticAlgebra (ZMod m) ω 0) ^ ((m + 1) >>> 1)).re = root
    by_cases hroot : root * root = a
    · rw [if_pos hroot]
      exact ⟨some (ofZMod root), rfl, by simpa using inField_ofZMod root⟩
    · rw [if_neg hroot]
      exact ⟨none, rfl, by simp⟩

/-- Only the search for a base can fail: for an element of character one it may be in vain, and in
every other case `sqrt` gives an element of the field or nothing. -/
theorem sqrt_outcome (a : ZMod m) :
    ((ofZMod a).legendre = .ok 1 ∧
      searchBase (ofZMod a) (ofZMod (1 : ZMod m)) m (ofZMod (0 : ZMod m)) =
        .error .endlessSearch ∧ (ofZMod a).sqrt = .error .endlessSearch) ∨
    ∃ found, (ofZMod a).sqrt = .ok found ∧ ∀ y ∈ found, y.InField m := by
  obtain hsymbol | hsymbol | hsymbol := legendre_cases a
  · exact .inr ⟨some (ofZMod a), by simp [sqrt, hsymbol], by simpa using inField_ofZMod a⟩
  · exact .inr ⟨none, by simp [sqrt, hsymbol], by simp⟩
  · obtain hvain | ⟨base, hbase, hfield⟩ := searchBase_cases a 1 m 0
    · exact .inl ⟨hsymbol, hvain, sqrt_of_searchBase_error hsymbol hvain⟩
    · exact .inr (exists_sqrt_of_searchBase hsymbol hbase hfield)

/-- A square root, if there is one, lies in the field; only the search for a base can fail. -/
theorem sqrt_cases (a : ZMod m) :
    (ofZMod a).sqrt = .error .endlessSearch ∨
      ∃ found, (ofZMod a).sqrt = .ok found ∧ ∀ y ∈ found, y.InField m :=
  (sqrt_outcome a).imp_left fun h => h.right.right

/-- `sqrt` ends without an answer exactly if its search is in vain. -/
theorem sqrt_eq_endlessSearch_iff :
    (ofZMod a).sqrt = .error .endlessSearch ↔
      (ofZMod a).legendre = .ok 1 ∧
        searchBase (ofZMod a) (ofZMod (1 : ZMod m)) m (ofZMod (0 : ZMod m)) =
          .error .endlessSearch := by
  constructor
  · intro h
    obtain ⟨hsymbol, hvain, -⟩ | ⟨found, hfound, -⟩ := sqrt_outcome a
    · exact ⟨hsymbol, hvain⟩
    · rw [hfound] at h
      cases h
  · rintro ⟨hsymbol, hvain⟩
    exact sqrt_of_searchBase_error hsymbol hvain

end Sqrt

end EllipticSignatures.FieldElement
