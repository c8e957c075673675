import VariantScheme.Catalog.Ancestry
import VariantScheme.Proofs.Declarations

/-!
    The order of types, declaratively. `Above` says which types lie above a type, and `Fits` when a
    value of one type may stand where another is expected; `above_iff` and `fits_iff` say that the
    search through ancestors decides them. Both go by name, and a name is looked up among the
    variants first: `isSubtype_case_iff` says when a record still lies below the variants that list
    it. -/

namespace VariantScheme

/-- The name that a reference or a record is looked up by. A variant stands for itself. -/
def Ty.reference? : Ty → Option String
  | .named n => some n
  | .record r => some r.name
  | _ => none

theorem Ty.name?_of_reference? {t : Ty} {n : String} (h : t.reference? = some n) :
    t.name? = some n := by
  cases t <;> simp_all [Ty.reference?, Ty.name?]

namespace Catalog

/-- `Above k t a`: the type `a` is `t` or lies above it, named types by name. A record lies below
    the variants that list it, unless its name is a variant's. -/
inductive Above (k : Catalog) : Ty → Ty → Prop
  | atom {n : String} : Above k (.atom n) (.atom n)
  | quoted : Above k .quoted .quoted
  | var {n : String} {s : Site} : Above k (.var n s) (.var n s)
  | proc {ps : List Ty} {r : Ty} : Above k (.proc ps r) (.proc ps r)
  | variant {v : Variant} : Above k (.variant v) (.named v.name)
  | declared {t : Ty} {n : String} (ref : t.reference? = some n)
      (decl : k.DeclaresVariant n ∨ k.DeclaresRecord n) : Above k t (.named n)
  | listed {t : Ty} {n : String} {v : Variant} (ref : t.reference? = some n)
      (free : ¬ k.DeclaresVariant n) (mem : v ∈ k.variants) (case : n ∈ v.recordNames) :
      Above k t (.named v.name)

/-- `Fits k a d`: a value of type `a` may stand where `d` is expected. -/
inductive Fits (k : Catalog) : Ty → Ty → Prop
  | top {a : Ty} : Fits k a .any
  | same {a : Ty} : Fits k a a
  | sameName {a d : Ty} {n : String} (left : a.name? = some n) (right : d.name? = some n) :
      Fits k a d
  | case {a d : Ty} {n : String} {v : Variant} (ref : a.reference? = some n)
      (record : k.DeclaresRecord n) (free : ¬ k.DeclaresVariant n) (mem : v ∈ k.variants)
      (right : d.name? = some v.name) (listed : n ∈ v.recordNames) : Fits k a d

variable {k : Catalog}

/-! ### Ancestors -/

theorem lineage_of_variant {n : String} (hv : k.DeclaresVariant n) : k.lineage n = [n] := by
  rw [lineage, if_pos (variant?_isSome_iff.mpr hv)]

theorem lineage_of_record {n : String} (hv : ¬ k.DeclaresVariant n) (hr : k.DeclaresRecord n) :
    k.lineage n = distinctBy id (n :: (k.parents n).map (·.name)) := by
  rw [lineage, if_neg (mt variant?_isSome_iff.mp hv),
    if_neg (mt record?_isNone_iff.mp (not_not_intro hr))]

theorem lineage_of_undeclared {n : String} (hv : ¬ k.DeclaresVariant n)
    (hr : ¬ k.DeclaresRecord n) : k.lineage n = [] := by
  rw [lineage, if_neg (mt variant?_isSome_iff.mp hv), if_pos (record?_isNone_iff.mpr hr)]

theorem mem_parents {n : String} {v : Variant} :
    v ∈ k.parents n ↔ v ∈ k.variants ∧ n ∈ v.recordNames := by
  simp [parents]

theorem mem_lineage {m n : String} : m ∈ k.lineage n ↔
    (m = n ∧ (k.DeclaresVariant n ∨ k.DeclaresRecord n)) ∨
      (¬ k.DeclaresVariant n ∧ ∃ v ∈ k.variants, n ∈ v.recordNames ∧ v.name = m) := by
  by_cases hv : k.DeclaresVariant n
  · simp [lineage_of_variant hv, hv]
  · by_cases hr : k.DeclaresRecord n
    · simp [lineage_of_record hv hr, mem_distinctBy_id, mem_parents, hv, hr, and_assoc]
    · simp only [lineage_of_undeclared hv hr, List.not_mem_nil, hv, hr, or_self, and_false,
        false_or, not_false_eq_true, true_and, false_iff]
      rintro ⟨v, hmem, hn, -⟩
      exact hr (.of_listed hmem hn)

theorem mem_lineage_of_reference {t : Ty} {m n : String} (ht : t.reference? = some n) :
    m ∈ k.lineage n ↔ Above k t (.named m) := by
  rw [mem_lineage]
  constructor
  · rintro (⟨rfl, hd⟩ | ⟨hv, v, hmem, hn, rfl⟩)
    · exact .declared ht hd
    · exact .listed ht hv hmem hn
  · intro h
    cases h with
    | variant => simp [Ty.reference?] at ht
    | declared ref decl =>
      obtain rfl : n = m := by simpa [ht] using ref
      exact .inl ⟨rfl, decl⟩
    | @listed _ n' v ref free mem case =>
      obtain rfl : n = n' := by simpa [ht] using ref
      exact .inr ⟨free, v, mem, case, rfl⟩

theorem mem_ancestorNames {t : Ty} {m : String} :
    m ∈ k.ancestorNames t ↔ Above k t (.named m) := by
  cases t with
  | named n => exact mem_lineage_of_reference rfl
  | record r => exact mem_lineage_of_reference rfl
  | variant v =>
    rw [ancestorNames, List.mem_singleton]
    constructor
    · rintro rfl
      exact .variant
    · intro h
      cases h with
      | variant => rfl
      | declared ref => simp [Ty.reference?] at ref
      | listed ref => simp [Ty.reference?] at ref
  | _ =>
    simp only [ancestorNames, List.not_mem_nil, false_iff]
    intro h
    cases h with
    | declared ref => simp [Ty.reference?] at ref
    | listed ref => simp [Ty.reference?] at ref

/-- The types above a type are the ones that the search through its ancestors lists. -/
theorem above_iff {t a : Ty} : Above k t a ↔ ∃ as, k.ancestors t = .ok as ∧ a ∈ as := by
  -- a named type is above only by name, any other type only as itself
  have hnamed : Above k t a → t.isNamed → ∃ m, a = .named m := by
    intro h ht
    cases h with
    | variant => exact ⟨_, rfl⟩
    | declared => exact ⟨_, rfl⟩
    | listed => exact ⟨_, rfl⟩
    | _ => simp [Ty.isNamed, Ty.name?] at ht
  cases t with
  | named n | record r | variant v =>
    simp only [ancestors, Except.ok.injEq, exists_eq_left', List.mem_map, mem_ancestorNames]
    constructor
    · intro h
      obtain ⟨m, rfl⟩ := hnamed h rfl
      exact ⟨m, h, rfl⟩
    · rintro ⟨m, h, rfl⟩
      exact h
  | failure f | bare i =>
    simp only [ancestors, reduceCtorEq, false_and, exists_false, iff_false]
    intro h
    cases h with
    | declared ref => simp [Ty.reference?] at ref
    | listed ref => simp [Ty.reference?] at ref
  | atom | quoted | var | proc =>
    simp only [ancestors, Except.ok.injEq, exists_eq_left', List.mem_singleton]
    constructor
    · intro h
      cases h with
      | declared ref => simp [Ty.reference?] at ref
      | listed ref => simp [Ty.reference?] at ref
      | _ => rfl
    · rintro rfl
      constructor

/-- Only a type lies above a type, never a failure. -/
theorem Above.isFailure_eq {t a : Ty} (h : Above k t a) : a.isFailure = false := by
  cases h <;> rfl

/-! ### The two tests -/

theorem isSubtype_named {a b : Ty} {m n : String} (ha : a.name? = some m) (hb : b.name? = some n) :
    k.isSubtype a b = true ↔ m = n ∨ Above k a (.named n) := by
  have hany : b ≠ .any := by
    rintro rfl
    simp [Ty.any, Ty.name?] at hb
  simp [isSubtype, ha, hb, hany, mem_ancestorNames]

theorem isSubtype_unnamed {a b : Ty} (h : a.name? = none ∨ b.name? = none) :
    k.isSubtype a b = true ↔ b = .any ∨ ((a.isAtomic ∨ a.isVar) ∧ a = b) := by
  rcases h with h | h
  · simp [isSubtype, h]
  · cases ha : a.name? <;> simp [isSubtype, h, ha]

/-- A named type fits another exactly when it goes by the same name or lies below it. -/
theorem fits_named_iff {a d : Ty} {m n : String} (ha : a.name? = some m) (hd : d.name? = some n) :
    Fits k a d ↔ m = n ∨ Above k a (.named n) := by
  constructor
  · intro h
    cases h with
    | top => simp [Ty.any, Ty.name?] at hd
    | same => exact .inl (Option.some.inj (ha.symm.trans hd))
    | sameName left right =>
      exact .inl (Option.some.inj (ha.symm.trans (left.trans (right.symm.trans hd))))
    | case ref record free mem right listed =>
      obtain rfl := Option.some.inj (right.symm.trans hd)
      exact .inr (.listed ref free mem listed)
  · rintro (rfl | h)
    · exact .sameName ha hd
    · cases h with
      | variant => exact .sameName rfl hd
      | declared ref => exact .sameName (Ty.name?_of_reference? ref) hd
      | listed ref free mem case =>
        exact .case ref (.of_listed mem case) free mem hd case

/-- The compatibility test decides `Fits`. -/
theorem fits_iff {a d : Ty} : k.fits a d = true ↔ Fits k a d := by
  rw [fits, Bool.or_eq_true, Bool.or_eq_true, decide_eq_true_iff, decide_eq_true_iff]
  by_cases hnone : a.name? = none ∨ d.name? = none
  · rw [isSubtype_unnamed hnone]
    constructor
    · rintro ((rfl | rfl) | rfl | ⟨-, rfl⟩)
      · exact .top
      · exact .same
      · exact .top
      · exact .same
    · intro h
      cases h with
      | top => exact .inl (.inl rfl)
      | same => exact .inl (.inr rfl)
      | sameName left right => simp [left, right] at hnone
      | case ref _ _ _ right => simp [Ty.name?_of_reference? ref, right] at hnone
  · obtain ⟨⟨m, ha⟩, n, hd⟩ : (∃ m, a.name? = some m) ∧ ∃ n, d.name? = some n := by
      simpa [Option.ne_none_iff_exists'] using hnone
    rw [isSubtype_named ha hd, fits_named_iff ha hd]
    constructor
    · rintro ((rfl | rfl) | h)
      · simp [Ty.any, Ty.name?] at hd
      · exact .inl (Option.some.inj (ha.symm.trans hd))
      · exact h
    · exact .inr

/-! ### Records below their variants -/

theorem above_case_iff {v : Variant} {r : Record} {a : Ty} (hv : v ∈ k.variants)
    (hr : r ∈ v.records) (ha : a.reference? = some r.name) :
    Above k a (.named v.name) ↔ r.name = v.name ∨ ¬ k.DeclaresVariant r.name := by
  rw [← mem_lineage_of_reference ha, mem_lineage]
  constructor
  · rintro (⟨hname, -⟩ | ⟨free, -⟩)
    · exact .inl hname.symm
    · exact .inr free
  · intro h
    by_cases hd : k.DeclaresVariant r.name
    · have hname : r.name = v.name := h.resolve_right (not_not_intro hd)
      exact .inl ⟨hname.symm, .inl hd⟩
    · exact .inr ⟨hd, v, hv, mem_recordNames.mpr ⟨r, hr, rfl⟩, rfl⟩

/-- A record lies below a variant that lists it, in whichever form the two are given, exactly when
    no variant goes by the record's name, save the one that lists it. -/
theorem isSubtype_case_iff (p : Program) {v : Variant} {r : Record}
    (hv : v ∈ p.catalog.variants) (hr : r ∈ v.records) :
    (∀ a ∈ [Ty.record r, .named r.name], ∀ b ∈ [Ty.variant v, .named v.name],
      (p.catalog.isSubtype a b = true ↔
        r.name = v.name ∨ ¬ p.catalog.DeclaresVariant r.name)) ∧
    ∃ above, p.catalog.ancestors (.record r) = .ok above ∧
      (.named v.name ∈ above ↔ r.name = v.name ∨ ¬ p.catalog.DeclaresVariant r.name) := by
  refine ⟨fun a ha b hb => ?_, _, rfl, ?_⟩
  · have href : a.reference? = some r.name := by
      rcases List.mem_cons.mp ha with rfl | ha
      · rfl
      · rw [List.mem_singleton.mp ha, Ty.reference?]
    have hname : b.name? = some v.name := by
      rcases List.mem_cons.mp hb with rfl | hb
      · rfl
      · rw [List.mem_singleton.mp hb, Ty.name?]
    rw [isSubtype_named (Ty.name?_of_reference? href) hname, above_case_iff hv hr href]
    exact or_iff_right_of_imp .inl
  · rw [List.mem_map]
    simp only [Ty.named.injEq, exists_eq_right, mem_ancestorNames]
    exact above_case_iff hv hr rfl

/-- A variant `A`, and a variant `C` that has a case of that name. -/
def shadowed : Program :=
  ⟨[.defineType 0 ⟨"A", [⟨"B", []⟩]⟩], .defineType 1 ⟨"C", [⟨"A", []⟩]⟩⟩

theorem isSubtype_case_iff_shadowed :
    shadowed.catalog.isSubtype (.record ⟨"B", []⟩) (.named "A") = true ∧
      ¬ shadowed.catalog.isSubtype (.record ⟨"A", []⟩) (.named "C") = true := by
  have hb := (isSubtype_case_iff shadowed (v := ⟨"A", [⟨"B", []⟩]⟩) (r := ⟨"B", []⟩)
    (by decide) (by decide)).1 (.record ⟨"B", []⟩) (by decide) (.named "A") (by decide)
  have ha := (isSubtype_case_iff shadowed (v := ⟨"C", [⟨"A", []⟩]⟩) (r := ⟨"A", []⟩)
    (by decide) (by decide)).1 (.record ⟨"A", []⟩) (by decide) (.named "C") (by decide)
  refine ⟨hb.mpr (.inr ?_), fun h => ?_⟩
  · rw [← variant?_isSome_iff]
    decide
  · rcases ha.mp h with h | h
    · exact absurd h (by decide)
    · exact h (variant?_isSome_iff.mp (by decide))

/-- Declarations without fault, and still a record that does not lie below a variant that lists
    it: its name finds the other variant. -/
theorem shadowed_case_not_subtype :
    shadowed.catalog.declarationFault? = none ∧
      (⟨"C", [⟨"A", []⟩]⟩ : Variant) ∈ shadowed.catalog.variants ∧
      shadowed.catalog.isSubtype (.record ⟨"A", []⟩) (.variant ⟨"C", [⟨"A", []⟩]⟩) = false := by
  decide

end Catalog

end VariantScheme
