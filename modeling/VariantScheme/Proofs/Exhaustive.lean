import VariantScheme.Proofs.Checking

/-!
    An accepted case analysis takes every record that its subject may hold, by exactly one arm and
    with a name for each field. What the subject may hold is a question to the order of types; that
    the arms are right was found out about the variant that the analysis names. The two meet in
    `listed_of_fits`: a record that fits the subject's type is a case of that variant. -/

namespace VariantScheme

variable {k : Catalog} {v : Variant} {s : Ty} {n m type : String}

theorem Catalog.Fits.exists_name {a d : Ty} (h : k.Fits a d) (hd : d.name? = some n) :
    ∃ m, a.name? = some m := by
  cases h with
  | top => cases hd
  | same => exact ⟨n, hd⟩
  | sameName left => exact ⟨_, left⟩
  | case ref => exact ⟨_, Ty.name?_of_reference? ref⟩

namespace Catalog

/-- A record fits a named type by being it, or as a case of a variant of that name. -/
theorem record_fits_iff (hk : k.NamesApart) (hn : k.DeclaresRecord n) (hs : s.name? = some m) :
    k.Fits (.named n) s ↔ n = m ∨ ∃ w ∈ k.variants, n ∈ w.recordNames ∧ w.name = m := by
  have hfree : ¬ k.DeclaresVariant n := fun hv => hk n hv hn
  rw [fits_named_iff rfl hs, ← mem_lineage_of_reference rfl, mem_lineage]
  constructor
  · rintro (rfl | ⟨rfl, -⟩ | ⟨-, hw⟩)
    · exact .inl rfl
    · exact .inl rfl
    · exact .inr hw
  · rintro (rfl | hw)
    · exact .inl rfl
    · exact .inr (.inr ⟨hfree, hw⟩)

/-- A type that fits a variant goes by the variant's name or by the name of one of its cases. -/
theorem name_of_fits_variant (hk : k.Agrees) (hv : k.variant? type = some v)
    (hs : s.name? = some m) (h : k.Fits s (.named type)) :
    m = type ∨ (¬ k.DeclaresVariant m ∧ m ∈ v.recordNames) := by
  cases h with
  | same => exact .inl (Option.some.inj hs.symm)
  | sameName left right =>
    exact .inl (Option.some.inj (hs.symm.trans (left.trans right.symm)))
  | @case _ _ w ref _ free mem right listed =>
    obtain rfl := Option.some.inj (hs.symm.trans (Ty.name?_of_reference? ref))
    obtain ⟨hmem, hname⟩ := variant?_mem hv
    have hw : w = v := hk.variants w mem v hmem (by rw [hname, Option.some.inj right])
    exact .inr ⟨free, hw ▸ listed⟩

/-- Whatever the subject of an analysis may hold is a case of the variant that is analysed. -/
theorem listed_of_fits (hk : k.Agrees) (hapart : k.NamesApart) (hv : k.variant? type = some v)
    (hs : k.Fits s (.named type)) (hn : k.DeclaresRecord n) (h : k.Fits (.named n) s) :
    n ∈ v.recordNames := by
  obtain ⟨m, hm⟩ := hs.exists_name rfl
  obtain ⟨hmem, rfl⟩ := variant?_mem hv
  rcases (record_fits_iff hapart hn hm).mp h with rfl | ⟨w, hw, hlisted, rfl⟩
  · -- the subject is the record itself
    rcases name_of_fits_variant hk hv hm hs with rfl | ⟨-, hlisted⟩
    · exact absurd hn (hapart _ ⟨v, hmem, rfl⟩)
    · exact hlisted
  · -- the subject is a variant that lists the record
    rcases name_of_fits_variant hk hv hm hs with hname | ⟨hfree, -⟩
    · rwa [← hk.variants w hw v hmem hname]
    · exact absurd ⟨w, hw, rfl⟩ hfree

end Catalog

/-- Of members with different keys, one has the key that is looked for. -/
theorem filter_eq_singleton {α : Type} (key : α → String) : ∀ {as : List α},
    (as.map key).Nodup → n ∈ as.map key → ∃ a, as.filter (fun b => key b = n) = [a]
  | a :: as, hnodup, hn => by
      rw [List.map_cons, List.nodup_cons] at hnodup
      by_cases ha : key a = n
      · refine ⟨a, ?_⟩
        have hnone : as.filter (fun b => key b = n) = [] := by
          rw [List.filter_eq_nil_iff]
          intro b hb hbn
          exact hnodup.1 (List.mem_map.mpr ⟨b, hb, by simpa [ha] using hbn⟩)
        rw [List.filter_cons_of_pos (by simpa using ha), hnone]
      · have hn' : n ∈ as.map key := (List.mem_cons.mp hn).resolve_left (Ne.symm ha)
        obtain ⟨b, hb⟩ := filter_eq_singleton key hnodup.2 hn'
        exact ⟨b, by rw [List.filter_cons_of_neg (by simpa using ha), hb]⟩

theorem Catalog.Covers.exists_arm {arms : List Arm} (hk : k.Agrees) (h : k.Covers v arms)
    (hn : n ∈ v.recordNames) :
    ∃ arm, arms.filter (fun a => a.record = n) = [arm] ∧
      ∀ d ∈ k.records, d.name = n → arm.pattern.length = d.fields.length := by
  obtain ⟨arm, harm⟩ := filter_eq_singleton Arm.record h.once ((h.cases_iff n).mpr hn)
  have hmem : arm ∈ arms.filter (fun a => a.record = n) := by simp [harm]
  obtain ⟨harms, hrecord⟩ : arm ∈ arms ∧ arm.record = n := by simpa using hmem
  refine ⟨arm, harm, fun d hd hname => ?_⟩
  obtain ⟨r, hr, hshape⟩ := h.shaped arm harms
  have hrd : some r = some d := by rw [← hr, ← hk.record?_eq hd, hrecord, hname]
  rw [hshape, Option.some.inj hrd]

/-- An accepted case analysis is exhaustive. Its subject has a named type, and every record that
    may stand there is taken by exactly one arm, with as many names as the record has fields. -/
theorem typeCase_exhaustive (program : Program) (env : Env) (r : Report) {i : Nat}
    {type : String} {subject : Phrase} {arms : List Arm} {t : Ty}
    (hvalid : program.catalog.declarationFault? = none) (hapart : program.catalog.NamesApart)
    (haccepted : (typeOfExpression (.typeCase i type subject arms) env program r false).verdict
      = .ok t) (ht : t.isFailure = false) :
    ∃ s, (typeOfExpression subject env program r false).verdict = .ok s ∧ s.isFailure = false ∧
      s.isNamed = true ∧
      ∀ n site, program.catalog.DeclaresRecord n →
        (program.catalog.compatible (.named n) s site).isFailure = false →
        ∃ arm, arms.filter (fun a => a.record = n) = [arm] ∧
          ∀ d ∈ program.catalog.records, d.name = n →
            arm.pattern.length = d.fields.length := by
  have hk : program.catalog.Agrees :=
    (Catalog.declarationFault?_eq_none_iff.mp hvalid).toAgrees
  have htyped := (Checker.check_iff _).mp ((verdict_eq_ok_iff ht).mp haccepted)
  cases htyped with
  | @typeCase _ _ _ _ _ _ s _ _ hv hcovers hs hfits _ _ =>
    obtain ⟨m, hm⟩ := hfits.exists_name rfl
    refine ⟨s, ?_, hs.isFailure_eq, by rw [Ty.isNamed, hm]; rfl, fun n site hn hcomp => ?_⟩
    · exact (verdict_eq_ok_iff hs.isFailure_eq).mpr ((Checker.check_iff _).mpr hs)
    · have hsubject : program.catalog.Fits (.named n) s := by
        rw [← Catalog.fits_iff]
        by_contra hfalse
        simp [Catalog.compatible, hfalse, Ty.isFailure] at hcomp
      have hfound := Catalog.variant?_eq_some_iff.mpr hv
      exact hcovers.exists_arm hk (Catalog.listed_of_fits hk hapart hfound hfits hn hsubject)

/-- Two variants that share a case, and a value of that case to analyse as the first of them. -/
def figures : Program :=
  ⟨[.defineType 0 ⟨"Shape",
      [⟨"Circle", [⟨"r", .number⟩]⟩, ⟨"Box", [⟨"w", .number⟩, ⟨"h", .number⟩]⟩]⟩,
    .defineType 1 ⟨"Round", [⟨"Circle", [⟨"r", .number⟩]⟩]⟩],
    .call 2 (.variable 3 "make-Circle") [.literal 4 (.int 1)]⟩

/-- The arms of an analysis of shapes, out of order. -/
def figureArms : List Arm :=
  [⟨5, "Box", ["w", "h"], ⟨[], .variable 6 "h"⟩⟩, ⟨7, "Circle", ["r"], ⟨[], .variable 8 "r"⟩⟩]

theorem typeCase_exhaustive_figures :
    figures.catalog.declarationFault? = none ∧ figures.catalog.NamesApart ∧
      (typeOfExpression (.typeCase 9 "Shape" figures.last figureArms) figures.catalog.globals
        figures {} false).verdict = .ok .number ∧
      ∃ arm, figureArms.filter (fun a => a.record = "Circle") = [arm] ∧
        ∀ d ∈ figures.catalog.records, d.name = "Circle" →
          arm.pattern.length = d.fields.length := by
  have hvalid : figures.catalog.declarationFault? = none := by decide
  have hapart : figures.catalog.NamesApart := by
    have h : ∀ v ∈ figures.catalog.variants, ∀ r ∈ figures.catalog.records, r.name ≠ v.name := by
      decide
    rintro _ ⟨v, hv, rfl⟩ ⟨r, hr, hname⟩
    exact h v hv r hr hname
  have haccepted : (typeOfExpression (.typeCase 9 "Shape" figures.last figureArms)
      figures.catalog.globals figures {} false).verdict = .ok .number := rfl
  refine ⟨hvalid, hapart, haccepted, ?_⟩
  obtain ⟨s, hs, -, -, harms⟩ := typeCase_exhaustive figures _ {} hvalid hapart haccepted rfl
  obtain rfl : Ty.named "Circle" = s := Except.ok.inj hs
  exact harms "Circle" figures.last (Catalog.record?_isSome_iff.mp (by decide)) (by decide)

end VariantScheme
