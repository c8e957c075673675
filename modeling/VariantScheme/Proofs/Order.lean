import VariantScheme.Proofs.CommonAncestors

/-!
    What fits is an order of types, with `any` at its top, up to naming: a reference, a record and a
    variant of one name fit one another without being the same type. It is glued from several tests,
    and the chains through it stay short because nothing but `any` lies above a variant
    (`Fits.alike_of_variant`). A variant that is given in full has to be one of those declared;
    another one could go by the name of a record, and it would fit what goes by that name without
    fitting what the record fits. -/

namespace VariantScheme

/-- The same type, or two types that go by one name. -/
def Ty.Alike (t u : Ty) : Prop := t = u ∨ ∃ n, t.name? = some n ∧ u.name? = some n

theorem Ty.Alike.symm {t u : Ty} (h : t.Alike u) : u.Alike t := by
  rcases h with rfl | ⟨n, ht, hu⟩
  · exact .inl rfl
  · exact .inr ⟨n, hu, ht⟩

namespace Catalog

variable {k : Catalog} {a b c d : Ty} {n : String}

/-- If the type is a variant in full, then it is one that is declared. -/
def Owns (k : Catalog) (t : Ty) : Prop := ∀ v, t = .variant v → v ∈ k.variants

/-- A value of type `a` passes where `d` is expected at the site. -/
def Passes (k : Catalog) (site : Phrase) (a d : Ty) : Prop :=
  (k.compatible a d site).isFailure = false

/-- What goes by a name that no variant has is a reference to it. -/
theorem Owns.reference?_eq (ha : k.Owns a) (hn : a.name? = some n) (free : ¬ k.DeclaresVariant n) :
    a.reference? = some n := by
  cases a with
  | variant v =>
    obtain rfl := Option.some.inj hn
    exact absurd ⟨v, ha v rfl, rfl⟩ free
  | named | record => exact hn
  | _ => cases hn

/-! ### The laws of the order -/

/-- `any` fits nothing else. -/
theorem Fits.eq_any (h : k.Fits .any d) : d = .any := by
  cases h with
  | top | same => rfl
  | sameName left => cases left
  | case ref => cases ref

/-- Nothing lies above a variant but `any`, and what goes by the variant's name. -/
theorem Fits.alike_of_variant (h : k.Fits a d) (hn : a.name? = some n) (hv : k.DeclaresVariant n)
    (hd : d ≠ .any) : a.Alike d := by
  cases h with
  | top => exact absurd rfl hd
  | same => exact .inl rfl
  | sameName left right => exact .inr ⟨_, left, right⟩
  | case ref _ free =>
    obtain rfl := Option.some.inj (hn.symm.trans (Ty.name?_of_reference? ref))
    exact absurd hv free

theorem Fits.trans (ha : k.Owns a) (hab : k.Fits a b) (hbc : k.Fits b c) : k.Fits a c := by
  cases hbc with
  | top => exact .top
  | same => exact hab
  | sameName left right =>
    cases hab with
    | top => cases left
    | same => exact .sameName left right
    | sameName left' right' =>
      obtain rfl := Option.some.inj (left.symm.trans right')
      exact .sameName left' right
    | case ref record free mem right' listed =>
      obtain rfl := Option.some.inj (left.symm.trans right')
      exact .case ref record free mem right listed
  | case ref record free mem right listed =>
    -- `b` is a record below `c`; no variant has its name
    have hb := Ty.name?_of_reference? ref
    cases hab with
    | top => cases hb
    | same => exact .case ref record free mem right listed
    | sameName left' right' =>
      obtain rfl := Option.some.inj (hb.symm.trans right')
      exact .case (ha.reference?_eq left' free) record free mem right listed
    | case _ _ _ mem' right' =>
      obtain rfl := Option.some.inj (hb.symm.trans right')
      exact absurd ⟨_, mem', rfl⟩ free

theorem Fits.antisymm (hab : k.Fits a b) (hba : k.Fits b a) : a.Alike b := by
  cases hab with
  | top => exact .inl hba.eq_any
  | same => exact .inl rfl
  | sameName left right => exact .inr ⟨_, left, right⟩
  | case ref _ _ mem right =>
    have ha : a ≠ .any := by
      rintro rfl
      cases ref
    exact (hba.alike_of_variant right ⟨_, mem, rfl⟩ ha).symm

/-- Compatibility is an order of types up to naming, with `any` at its top and nothing else there.
    The declarations may be at fault, but a variant that is given in full has to be one of them. -/
theorem compatible_order (k : Catalog) (site : Phrase) (a b c : Ty)
    (honest : ∀ t ∈ [a, b, c], t.isFailure = false) (owned : ∀ t ∈ [a, b, c], k.Owns t) :
    k.Passes site a a ∧
      (k.Passes site a b → k.Passes site b c → k.Passes site a c) ∧
      (k.Passes site a b → k.Passes site b a → a.Alike b) ∧
      k.Passes site a .any ∧
      (k.Passes site .any b → b = .any) := by
  have ha : a.isFailure = false := honest a (by simp)
  have hb : b.isFailure = false := honest b (by simp)
  simp only [Passes, isFailure_compatible_iff ha, isFailure_compatible_iff hb,
    isFailure_compatible_iff (t := .any) rfl]
  exact ⟨.same, Fits.trans (owned a (by simp)), Fits.antisymm, .top, Fits.eq_any⟩

/-- A record passes for a variant by name, and that one passes for the variant in full; so the record
    does. -/
theorem compatible_order_vehicles :
    let wheeled : Variant := ⟨"Wheeled", [⟨"Car", []⟩, ⟨"Bike", []⟩]⟩
    let types : List Ty := [.record ⟨"Car", []⟩, .named "Wheeled", .variant wheeled]
    (∀ t ∈ types, t.isFailure = false) ∧ (∀ t ∈ types, vehicles.Owns t) ∧
      ∀ site, vehicles.Passes site (.record ⟨"Car", []⟩) (.variant wheeled) := by
  intro wheeled types
  have honest : ∀ t ∈ types, t.isFailure = false := by decide
  have owned : ∀ t ∈ types, vehicles.Owns t := by
    have hmem : wheeled ∈ vehicles.variants := by decide
    simp [types, Owns, hmem]
  refine ⟨honest, owned, fun site => ?_⟩
  exact (compatible_order vehicles site _ _ _ honest owned).2.1 rfl rfl

end Catalog

end VariantScheme
