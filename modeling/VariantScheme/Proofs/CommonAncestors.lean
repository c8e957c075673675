import VariantScheme.Proofs.Join
import VariantScheme.Proofs.Typing

/-!
    The join against what fits. The ancestors that several types have in common are exactly the
    types above all of them, each listed once, and none is listed before one that lies below it; so
    the join, which is the first, is minimal. There is a common ancestor just when something more
    special than `any` takes all the types, or when they are all `any`: what takes them all need not
    be an ancestor itself, but by its name it is one (`Fits.above_byName`). -/

namespace VariantScheme

/-- One of the kinds of type that have ancestors: no failure, and not of no kind. -/
def Ty.hasKind : Ty → Bool
  | .failure _ | .bare _ => false
  | _ => true

theorem Ty.isFailure_of_hasKind {t : Ty} (h : t.hasKind = true) : t.isFailure = false := by
  cases t <;> first | rfl | cases h

theorem Ty.byName_of_name? {t : Ty} {n : String} (h : t.name? = some n) : t.byName = .named n := by
  rw [Ty.byName, h]

namespace Catalog

variable {k : Catalog} {t d : Ty} {ts : List Ty}

/-- The name that a type goes by, if any, is declared. -/
def Knows (k : Catalog) (t : Ty) : Prop :=
  ∀ n, t.name? = some n → k.DeclaresVariant n ∨ k.DeclaresRecord n

theorem exists_ancestors (k : Catalog) (h : t.hasKind = true) : ∃ as, k.ancestors t = .ok as := by
  cases t with
  | failure | bare => cases h
  | _ => exact ⟨_, rfl⟩

/-! ### What is common -/

/-- No ancestor is listed twice. -/
theorem ancestors_nodup {as : List Ty} (h : k.ancestors t = .ok as) : as.Nodup := by
  refine ancestors_pairwise_of_lineage (fun n => ?_) h
  exact (lineage_pairwise n).imp fun h hab => h.2 (Ty.named.inj hab).symm

/-- The common ancestors of some types are those above all of them, each once and none before one
    that lies below it. -/
theorem exists_commonAncestors (hne : ts ≠ []) (hkind : ∀ t ∈ ts, t.hasKind = true) :
    ∃ cover, k.commonAncestors ts = .ok cover ∧ cover.Nodup ∧
      (∀ a, a ∈ cover ↔ k.AboveAll ts a) ∧
      cover.Pairwise fun c d => k.isSubtype d c = false := by
  obtain ⟨t, ts, rfl⟩ := List.exists_cons_of_ne_nil hne
  obtain ⟨ht, hts⟩ := List.forall_mem_cons.mp hkind
  obtain ⟨as, has⟩ := k.exists_ancestors ht
  obtain ⟨p, hp, hcover⟩ := commonAncestors_eq has fun u hu => k.exists_ancestors (hts u hu)
  refine ⟨_, hcover, (ancestors_nodup has).filter p, fun a => ?_, (ancestors_pairwise has).filter p⟩
  have hfirst : a ∈ as ↔ Above k t a := by simp [above_iff, has]
  simp [AboveAll, hp, hfirst]

/-- The join is the first of the common ancestors; where there is none, that is the failure. -/
theorem join_of_commonAncestors {cover : List Ty} (h : k.commonAncestors ts = .ok cover)
    (hpair : cover.Pairwise fun c d => k.isSubtype d c = false) :
    k.join ts = .ok (cover.head?.getD (.failure (.noCommonType ts))) := by
  rw [join, h]
  cases cover with
  | nil => rfl
  | cons c cs => exact congrArg _ (mostSpecific_cons (List.pairwise_cons.mp hpair).1)

/-! ### What fits -/

/-- The compatibility check passes a type exactly where it fits. -/
theorem isFailure_compatible_iff {site : Phrase} (ht : t.isFailure = false) :
    (k.compatible t d site).isFailure = false ↔ k.Fits t d := by
  rw [compatible, ← fits_iff]
  split
  · rename_i hfits
    simp [hfits, (fits_iff.mp hfits).isFailure_eq ht]
  · rename_i hfits
    simp [hfits, Ty.isFailure]

/-- A type fits whatever lies above it. -/
theorem Above.fits {a : Ty} (h : k.Above t a) : k.Fits t a := by
  cases h with
  | atom | quoted | var | proc => exact .same
  | variant => exact .sameName rfl rfl
  | declared ref => exact .sameName (Ty.name?_of_reference? ref) rfl
  | listed ref free mem case => exact .case ref (.of_listed mem case) free mem rfl case

/-- Only `any` is below `any`, among types with their ancestors. -/
theorem Above.eq_any (h : k.Above t .any) : t = .any := by
  cases h with
  | atom => rfl

/-- A type of known name is among its own ancestors. -/
theorem above_byName (hkind : t.hasKind = true) (hknown : k.Knows t) : k.Above t t.byName := by
  cases t with
  | named n | record r => exact .declared rfl (hknown _ rfl)
  | failure | bare => cases hkind
  | _ => constructor

/-- What a type fits, `any` apart, is by its name among the ancestors of that type. -/
theorem Fits.above_byName (h : k.Fits t d) (hkind : t.hasKind = true) (hknown : k.Knows t)
    (hd : d ≠ .any) : k.Above t d.byName := by
  cases h with
  | top => exact absurd rfl hd
  | same => exact Catalog.above_byName hkind hknown
  | sameName left right =>
    rw [Ty.byName_of_name? right, ← Ty.byName_of_name? left]
    exact Catalog.above_byName hkind hknown
  | case ref _ free mem right listed =>
    rw [Ty.byName_of_name? right]
    exact .listed ref free mem listed

/-- Some types have an ancestor in common just when they are all `any`, or all fit one other
    type. -/
theorem exists_aboveAll_iff (hkind : ∀ t ∈ ts, t.hasKind = true) (hknown : ∀ t ∈ ts, k.Knows t) :
    (∃ a, k.AboveAll ts a) ↔ (∀ t ∈ ts, t = .any) ∨ ∃ d, d ≠ .any ∧ ∀ t ∈ ts, k.Fits t d := by
  constructor
  · rintro ⟨a, habove⟩
    by_cases ha : a = .any
    · subst ha
      exact .inl fun t ht => (habove t ht).eq_any
    · exact .inr ⟨a, ha, fun t ht => (habove t ht).fits⟩
  · rintro (hany | ⟨d, hd, hfits⟩)
    · refine ⟨.any, fun t ht => ?_⟩
      rw [hany t ht]
      exact .atom
    · exact ⟨d.byName, fun t ht => (hfits t ht).above_byName (hkind t ht) (hknown t ht) hd⟩

/-! ### The join -/

/-- The join of some types, whose names are declared, is a minimal one of their common ancestors.
    These are exactly the types in all the lists of ancestors, each once. There is no join exactly
    when the types are not all `any` and no type other than `any` takes them all; else the join is
    a common ancestor that takes them all and has no other one below it. -/
theorem join_minimal (k : Catalog) (ts : List Ty) (site : Phrase) (hne : ts ≠ [])
    (hkind : ∀ t ∈ ts, t.hasKind = true) (hknown : ∀ t ∈ ts, k.Knows t) :
    ∃ cover, k.commonAncestors ts = .ok cover ∧ cover.Nodup ∧
      (∀ a, a ∈ cover ↔ ∀ t ∈ ts, ∃ as, k.ancestors t = .ok as ∧ a ∈ as) ∧
      (k.join ts = .ok (.failure (.noCommonType ts)) ↔
        (¬ ∀ t ∈ ts, t = .any) ∧
          ∀ d, d ≠ .any → ¬ ∀ t ∈ ts, (k.compatible t d site).isFailure = false) ∧
      (k.join ts ≠ .ok (.failure (.noCommonType ts)) →
        ∃ a ∈ cover, k.join ts = .ok a ∧
          (∀ t ∈ ts, (k.compatible t a site).isFailure = false) ∧
          ∀ b ∈ cover, b ≠ a → k.isSubtype b a = false) := by
  obtain ⟨cover, hcover, hnodup, hmem, hpair⟩ := exists_commonAncestors (k := k) hne hkind
  have hjoin := join_of_commonAncestors hcover hpair
  have hpasses : ∀ d, (∀ t ∈ ts, (k.compatible t d site).isFailure = false) ↔
      ∀ t ∈ ts, k.Fits t d := fun d =>
    forall₂_congr fun t ht => isFailure_compatible_iff (Ty.isFailure_of_hasKind (hkind t ht))
  have hempty : cover = [] ↔ (¬ ∀ t ∈ ts, t = .any) ∧
      ∀ d, d ≠ .any → ¬ ∀ t ∈ ts, (k.compatible t d site).isFailure = false := by
    have hexists := exists_aboveAll_iff hkind hknown
    simp only [hpasses, List.eq_nil_iff_forall_not_mem, hmem]
    rw [← not_exists, hexists, not_or]
    simp only [not_exists, not_and]
  refine ⟨cover, hcover, hnodup, fun a => ?_, ?_, fun hsome => ?_⟩
  · rw [hmem]
    exact forall₂_congr fun t _ => above_iff
  · rw [← hempty, hjoin]
    cases cover with
    | nil => simp
    | cons c cs =>
      obtain ⟨t, ht⟩ := List.exists_mem_of_ne_nil ts hne
      have hc := ((hmem c).mp List.mem_cons_self t ht).isFailure_eq
      simp only [List.head?_cons, Option.getD_some, Except.ok.injEq, reduceCtorEq, iff_false]
      rintro rfl
      cases hc
  · cases cover with
    | nil => exact absurd hjoin hsome
    | cons c cs =>
      refine ⟨c, List.mem_cons_self, hjoin, (hpasses c).mpr fun t ht => ?_, fun b hb hne => ?_⟩
      · exact ((hmem c).mp List.mem_cons_self t ht).fits
      · exact (List.pairwise_cons.mp hpair).1 b ((List.mem_cons.mp hb).resolve_left hne)

/-- Two variants that share both their cases. -/
def vehicles : Catalog :=
  ⟨[], [⟨"Wheeled", [⟨"Car", []⟩, ⟨"Bike", []⟩]⟩, ⟨"Rented", [⟨"Bike", []⟩, ⟨"Car", []⟩]⟩]⟩

/-- Either variant would do for both cases; the join is the one declared first. -/
theorem join_minimal_vehicles :
    vehicles.commonAncestors [.record ⟨"Car", []⟩, .named "Bike"] =
        .ok [.named "Wheeled", .named "Rented"] ∧
      vehicles.join [.record ⟨"Car", []⟩, .named "Bike"] = .ok (.named "Wheeled") ∧
      vehicles.isSubtype (.named "Rented") (.named "Wheeled") = false := by
  have hkind : ∀ t ∈ [Ty.record ⟨"Car", []⟩, .named "Bike"], t.hasKind = true := by decide
  have hknown : ∀ t ∈ [Ty.record ⟨"Car", []⟩, .named "Bike"], vehicles.Knows t := by
    have hcases : vehicles.DeclaresRecord "Car" ∧ vehicles.DeclaresRecord "Bike" := by
      simp only [← record?_isSome_iff]
      decide
    simp [Knows, Ty.name?, hcases]
  have hcover : vehicles.commonAncestors [.record ⟨"Car", []⟩, .named "Bike"] =
      .ok [.named "Wheeled", .named "Rented"] := rfl
  have hjoin : vehicles.join [.record ⟨"Car", []⟩, .named "Bike"] = .ok (.named "Wheeled") := rfl
  obtain ⟨cover, hcommon, -, -, -, hsome⟩ :=
    join_minimal vehicles _ (.literal 0 (.int 0)) (List.cons_ne_nil _ _) hkind hknown
  obtain rfl := Except.ok.inj (hcover.symm.trans hcommon)
  obtain ⟨a, -, ha, -, hminimal⟩ := hsome (by simp [hjoin])
  obtain rfl := Except.ok.inj (hjoin.symm.trans ha)
  exact ⟨hcover, hjoin, hminimal (.named "Rented") (by decide) (by decide)⟩

end Catalog

end VariantScheme
