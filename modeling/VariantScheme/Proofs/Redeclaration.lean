import Mathlib.Data.List.Perm.Basic
import VariantScheme.Proofs.Declarations

/-!
    Names that are declared more than once. Each declaration is held against the first of its name
    only, records before variants, and that is enough: a mismatch is reported exactly when some two
    declarations of one name differ, in whatever order they stand. Where none is reported, it makes
    no difference that the first declaration of a name is the one found, and whether declarations
    are without fault depends on which there are and not on their order. -/

namespace VariantScheme

/-- Records of one name that differ have different fields. -/
theorem Record.fields_ne {r s : Record} (hname : r.name = s.name) (h : r ≠ s) :
    r.fields ≠ s.fields := by
  intro hfields
  cases r
  cases s
  simp_all

namespace Catalog

variable {k k' : Catalog} {n : String}

/-! ### Differing declarations -/

/-- A name that is declared twice is reported exactly when the declarations do not agree. -/
theorem exists_recordMismatch_iff :
    (∃ n, k.declarationFault? = some (.recordMismatch n)) ↔ ¬ k.Agrees := by
  rw [← redeclared?_eq_none_iff, declarationFault?]
  cases k.redeclared? with
  | some n => simp
  | none => cases k.baseless? <;> simp

theorem not_agrees_iff : ¬ k.Agrees ↔
    (∃ r ∈ k.records, ∃ s ∈ k.records, r.name = s.name ∧ r.fields ≠ s.fields) ∨
      ∃ v ∈ k.variants, ∃ w ∈ k.variants, v.name = w.name ∧ v ≠ w := by
  constructor
  · intro h
    by_contra hnone
    refine h ⟨fun r hr s hs hname => ?_, fun v hv w hw hname => ?_⟩
    · by_contra hne
      exact hnone (.inl ⟨r, hr, s, hs, hname, Record.fields_ne hname hne⟩)
    · by_contra hne
      exact hnone (.inr ⟨v, hv, w, hw, hname, hne⟩)
  · rintro (⟨r, hr, s, hs, hname, hne⟩ | ⟨v, hv, w, hw, hname, hne⟩) h
    · exact hne (by rw [h.records r hr s hs hname])
    · exact hne (h.variants v hv w hw hname)

/-! ### Declarations in another order -/

section

variable (h : ∀ v, v ∈ k.variants ↔ v ∈ k'.variants)

include h

theorem mem_records_congr (r : Record) : r ∈ k.records ↔ r ∈ k'.records := by
  simp only [mem_records, h]

theorem declares_congr (n : String) : k.DeclaresVariant n ∨ k.DeclaresRecord n ↔
    k'.DeclaresVariant n ∨ k'.DeclaresRecord n := by
  simp only [DeclaresVariant, DeclaresRecord, h, mem_records_congr h]

/-- A value stays one whatever the order of the declarations it is built by. -/
theorem Constructible.congr (hn : k.Constructible n) : k'.Constructible n := by
  induction hn with
  | record mem _ ih =>
    exact .record ((mem_records_congr h _).mp mem) fun f hf m hm hd =>
      ih f hf m hm ((declares_congr h m).mpr hd)
  | variant mem case _ ih => exact .variant ((h _).mp mem) case ih

theorem WellDeclared.congr (hk : k.WellDeclared) : k'.WellDeclared where
  records r hr s hs :=
    hk.records r ((mem_records_congr h r).mpr hr) s ((mem_records_congr h s).mpr hs)
  variants v hv w hw := hk.variants v ((h v).mpr hv) w ((h w).mpr hw)
  based v hv := (hk.based v ((h v).mpr hv)).congr h

end

/-- A mismatch is reported exactly when two records of one name have different fields or two
    variants of one name differ. Where none is reported, looking up the name of a declared variant
    or record finds that very one. Whether there is no fault at all is the same for the same
    declarations in any other order. -/
theorem recordMismatch_iff_differ (k : Catalog) :
    ((∃ n, k.declarationFault? = some (.recordMismatch n)) ↔
      (∃ r ∈ k.records, ∃ s ∈ k.records, r.name = s.name ∧ r.fields ≠ s.fields) ∨
        ∃ v ∈ k.variants, ∃ w ∈ k.variants, v.name = w.name ∧ v ≠ w) ∧
      ((∀ n, k.declarationFault? ≠ some (.recordMismatch n)) →
        (∀ v ∈ k.variants, k.variant? v.name = some v) ∧
          ∀ r ∈ k.records, k.record? r.name = some r) ∧
      ∀ k' : Catalog, k'.variants.Perm k.variants →
        (k'.declarationFault? = none ↔ k.declarationFault? = none) := by
  refine ⟨exists_recordMismatch_iff.trans not_agrees_iff, fun hnone => ?_, fun k' hperm => ?_⟩
  · have hagrees : k.Agrees := by
      by_contra hdiffer
      obtain ⟨n, hn⟩ := exists_recordMismatch_iff.mpr hdiffer
      exact hnone n hn
    exact ⟨fun v hv => hagrees.variant?_eq hv, fun r hr => hagrees.record?_eq hr⟩
  · rw [declarationFault?_eq_none_iff, declarationFault?_eq_none_iff]
    constructor
    · exact fun hk' => hk'.congr fun v => hperm.mem_iff
    · exact fun hk => hk.congr fun v => hperm.mem_iff.symm

/-- Two variants that share a case, the first of them declared twice. -/
def rounds : Catalog :=
  ⟨[], [⟨"Shape", [⟨"Circle", [⟨"r", .number⟩]⟩, ⟨"Box", [⟨"side", .number⟩]⟩]⟩,
    ⟨"Round", [⟨"Circle", [⟨"r", .number⟩]⟩]⟩,
    ⟨"Shape", [⟨"Circle", [⟨"r", .number⟩]⟩, ⟨"Box", [⟨"side", .number⟩]⟩]⟩]⟩

/-- A variant whose case has another field name than the circles above. -/
def disc : Variant := ⟨"Disc", [⟨"Circle", [⟨"radius", .number⟩]⟩]⟩

theorem recordMismatch_iff_differ_rounds :
    (∀ v ∈ rounds.variants, rounds.variant? v.name = some v) ∧
      (⟨[], rounds.variants.reverse⟩ : Catalog).declarationFault? = none ∧
      ∃ n, (⟨[], disc :: rounds.variants⟩ : Catalog).declarationFault? =
        some (.recordMismatch n) := by
  have hvalid : rounds.declarationFault? = none := by decide
  obtain ⟨-, hfirst, hperm⟩ := recordMismatch_iff_differ rounds
  obtain ⟨hdiffer, -, -⟩ := recordMismatch_iff_differ ⟨[], disc :: rounds.variants⟩
  refine ⟨(hfirst (by simp [hvalid])).1, ?_, hdiffer.mpr (.inl ?_)⟩
  · exact (hperm ⟨[], rounds.variants.reverse⟩ (List.reverse_perm _)).mpr hvalid
  · exact ⟨⟨"Circle", [⟨"radius", .number⟩]⟩, by decide, ⟨"Circle", [⟨"r", .number⟩]⟩, by decide, rfl,
      by decide⟩

end Catalog

end VariantScheme
