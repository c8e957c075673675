import Mathlib.Data.Fintype.Card
import Mathlib.Data.Set.Finite.List
import VariantScheme.Proofs.Reachability

/-!
    Which variant is blamed for a missing base case. Every variant without a value has a field that
    names another one; there are finitely many, so following such fields comes back to where it has
    been, and some variant without a value recurs into itself. The first that does is blamed. -/

namespace VariantScheme

/-- Where each member is related to another one, following the relation comes round in a circle. -/
theorem exists_cycle {α : Type} {r : α → α → Prop} {as : List α} (hne : as ≠ [])
    (h : ∀ a ∈ as, ∃ b ∈ as, r a b) : ∃ a ∈ as, Relation.TransGen r a a := by
  by_contra hnone
  -- without a circle the members would be ordered, and one that is last is related to no other
  let after : {a // a ∈ as} → {a // a ∈ as} → Prop := fun b a => Relation.TransGen r a b
  have hfinite : Finite {a // a ∈ as} := (List.finite_toSet as).to_subtype
  have htrans : IsTrans _ after := ⟨fun _ _ _ hcb hba => hba.trans hcb⟩
  have hirrefl : Std.Irrefl after := ⟨fun a ha => hnone ⟨a, a.2, ha⟩⟩
  have hwf : WellFounded after := Finite.wellFounded_of_trans_of_irrefl after
  obtain ⟨a, ha⟩ := List.exists_mem_of_ne_nil as hne
  obtain ⟨last, -, hlast⟩ := hwf.has_min Set.univ ⟨⟨a, ha⟩, trivial⟩
  obtain ⟨b, hb, hab⟩ := h last last.2
  exact hlast ⟨b, hb⟩ trivial (.single hab)

namespace Catalog

variable {k : Catalog} {v : Variant}

/-! ### Variants without a value -/

section

variable (hcases : ∀ v ∈ k.variants, v.records ≠ [])
  (hfields : ∀ r ∈ k.records, ∀ n, r.Mentions n →
    k.DeclaresVariant n ∨ k.DeclaresRecord n → k.DeclaresVariant n)

include hcases hfields

/-- A variant has no value because some field asks for one of a variant that has none. -/
theorem exists_stuck_mention (hv : v ∈ k.stuck) : ∃ n ∈ k.stuck.map (·.name), v.Mentions n := by
  obtain ⟨hmem, hnone⟩ := mem_stuck.mp hv
  obtain ⟨r, hr⟩ := List.exists_mem_of_ne_nil _ (hcases v hmem)
  have hrecord : r ∈ k.records := mem_records.mpr ⟨v, hmem, hr⟩
  by_contra hall
  refine hnone (.variant hmem hr (.record hrecord fun f hf n hn hd => ?_))
  obtain ⟨w, hw, rfl⟩ := hfields r hrecord n ⟨f, hf, hn⟩ hd
  by_contra hstuck
  exact hall ⟨w.name, List.mem_map.mpr ⟨w, mem_stuck.mpr ⟨hw, hstuck⟩, rfl⟩, r, hr, f, hf, hn⟩

/-- Among variants without a value, one recurs into itself. -/
theorem exists_stuck_recurring (hne : k.stuck ≠ []) : ∃ v ∈ k.stuck, k.Reaches v v.name := by
  -- what a name leads to is read off the first declaration of it, which is stuck like any other
  have hfirst : ∀ n ∈ k.stuck.map (·.name), ∃ v ∈ k.stuck, v.name = n ∧ k.variant? n = some v := by
    intro n hn
    obtain ⟨w, hw, rfl⟩ := List.mem_map.mp hn
    obtain ⟨hmem, hnone⟩ := mem_stuck.mp hw
    obtain ⟨v, hv⟩ := Option.isSome_iff_exists.mp (variant?_isSome_iff.mpr ⟨w, hmem, rfl⟩)
    obtain ⟨hvmem, hname⟩ := variant?_mem hv
    exact ⟨v, mem_stuck.mpr ⟨hvmem, hname ▸ hnone⟩, hname, hv⟩
  have hnext : ∀ n ∈ k.stuck.map (·.name), ∃ m ∈ k.stuck.map (·.name), k.LeadsTo n m := by
    intro n hn
    obtain ⟨v, hv, -, hfound⟩ := hfirst n hn
    obtain ⟨m, hm, hmentions⟩ := exists_stuck_mention hcases hfields hv
    exact ⟨m, hm, .variant hfound hmentions⟩
  obtain ⟨n, hn, hcycle⟩ := exists_cycle (by simpa using hne) hnext
  obtain ⟨v, hv, rfl, hfound⟩ := hfirst n hn
  obtain ⟨m, hm, hback⟩ := Relation.TransGen.head'_iff.mp hcycle
  cases hm with
  | variant found mentions =>
    obtain rfl := Option.some.inj (hfound.symm.trans found)
    exact ⟨v, hv, m, mentions, hback⟩
  | record free => simp [hfound] at free

/-- So the variant that is blamed is the first that has no value and recurs into itself. -/
theorem baseless?_eq_find? : k.baseless? =
    (k.stuck.find? fun v => v.name ∈ k.reachable v).map (·.name) := by
  rw [baseless?]
  cases hfound : k.stuck.find? fun v => v.name ∈ k.reachable v with
  | some v => rw [Option.some_or]
  | none =>
    have hempty : k.stuck = [] := by
      by_contra hne
      obtain ⟨v, hv, hrecurs⟩ := exists_stuck_recurring hcases hfields hne
      have hnot := List.find?_eq_none.mp hfound v hv
      exact hnot (by simpa [mem_reachable_iff] using hrecurs)
    simp [hempty]

end

/-- The blame for a missing base case falls on a variant that recurs into itself, provided that each
    variant has a case and that fields name variants, where they name something declared. The
    variant has no value, its own name is reached from its fields, and no earlier variant is like
    that. -/
theorem baseless?_recurs (k : Catalog) (hcases : ∀ v ∈ k.variants, v.records ≠ [])
    (hfields : ∀ r ∈ k.records, ∀ n, r.Mentions n →
      k.DeclaresVariant n ∨ k.DeclaresRecord n → k.DeclaresVariant n)
    {n : String} (h : k.baseless? = some n) :
    n ∉ k.constructible ∧
      ∃ before v after, k.variants = before ++ v :: after ∧ v.name = n ∧
        (k.stuck.find? fun w => w.name ∈ k.reachable w) = some v ∧ k.Reaches v n ∧
        ∀ w ∈ before, w.name ∉ k.constructible → ¬ k.Reaches w w.name := by
  rw [baseless?_eq_find? hcases hfields] at h
  obtain ⟨v, hv, rfl⟩ := Option.map_eq_some_iff.mp h
  have hsearch := hv
  rw [stuck, List.find?_filter, List.find?_eq_some_iff_append] at hsearch
  obtain ⟨hfits, before, after, hsplit, hearlier⟩ := hsearch
  simp only [decide_eq_true_iff, mem_reachable_iff] at hfits
  refine ⟨hfits.1, before, v, after, hsplit, rfl, hv, hfits.2, fun w hw hnone hrecurs => ?_⟩
  have hnot := hearlier w hw
  simp [hnone, mem_reachable_iff, hrecurs] at hnot

/-- An errand ends nowhere, because rings and chains go round through one another. -/
def errands : Catalog :=
  ⟨[], [⟨"Errand", [⟨"Go", [⟨"to", .named "Ring"⟩]⟩]⟩,
    ⟨"Ring", [⟨"Link", [⟨"next", .named "Chain"⟩]⟩]⟩,
    ⟨"Chain", [⟨"Bond", [⟨"size", .number⟩, ⟨"next", .named "Ring"⟩]⟩]⟩,
    ⟨"Rest", [⟨"Stop", []⟩]⟩]⟩

theorem baseless?_recurs_errands :
    errands.baseless? = some "Ring" ∧ "Ring" ∉ errands.constructible ∧
      ∃ before v after, errands.variants = before ++ v :: after ∧ v.name = "Ring" ∧
        (errands.stuck.find? fun w => w.name ∈ errands.reachable w) = some v ∧
        errands.Reaches v "Ring" ∧
        ∀ w ∈ before, w.name ∉ errands.constructible → ¬ errands.Reaches w w.name := by
  have hcases : ∀ v ∈ errands.variants, v.records ≠ [] := by decide
  have hfields : ∀ r ∈ errands.records, ∀ f ∈ r.fields, ∀ n ∈ f.type.name?,
      (errands.variant? n).isSome := by decide
  have hblamed : errands.baseless? = some "Ring" := by decide
  refine ⟨hblamed, baseless?_recurs errands hcases ?_ hblamed⟩
  rintro r hr n ⟨f, hf, hn⟩ -
  exact variant?_isSome_iff.mp (hfields r hr f hf n hn)

end Catalog

end VariantScheme
