import Mathlib.Logic.Function.Iterate
import VariantScheme.Proofs.Declarations

/-!
    The names that a survey finds are exactly those that have a value. A value is a finite tree, and
    what it is a value of is said apart for records and for variants; the survey knows names only,
    so a name that is declared as both would be taken for either. Where names are apart the two
    agree, whatever else the declarations do: they may recur through one another, and declarations
    of one name may differ. -/

namespace VariantScheme

/-- A finite value: a record with a part for each of its fields. A `plain` part is for a field that
    nothing has to be built for. -/
inductive Value where
  | plain
  | built (record : String) (parts : List Value)

namespace Catalog

mutual

/-- A value of a record: some declaration of the name has a value for every field. -/
inductive RecordValue (k : Catalog) : Value → String → Prop
  | built {r : Record} {parts : List Value} (mem : r ∈ k.records)
      (fields : FieldValues k parts r.fieldTypes) : RecordValue k (.built r.name parts) r.name

/-- A value of a variant: some declaration of the name lists a record that it is a value of. -/
inductive VariantValue (k : Catalog) : Value → String → Prop
  | case {v : Variant} {n : String} {x : Value} (mem : v ∈ k.variants)
      (listed : n ∈ v.recordNames) (value : RecordValue k x n) : VariantValue k x v.name

/-- What a field of the given type can be filled with. -/
inductive FieldValue (k : Catalog) : Value → Ty → Prop
  | unnamed {t : Ty} (nameless : t.name? = none) : FieldValue k .plain t
  | undeclared {t : Ty} {n : String} (name : t.name? = some n)
      (unknown : ¬ (k.DeclaresVariant n ∨ k.DeclaresRecord n)) : FieldValue k .plain t
  | record {t : Ty} {n : String} {x : Value} (name : t.name? = some n)
      (value : RecordValue k x n) : FieldValue k x t
  | variant {t : Ty} {n : String} {x : Value} (name : t.name? = some n)
      (value : VariantValue k x n) : FieldValue k x t

/-- Values for several fields, one for each. -/
inductive FieldValues (k : Catalog) : List Value → List Ty → Prop
  | nil : FieldValues k [] []
  | cons {x : Value} {xs : List Value} {t : Ty} {ts : List Ty} (head : FieldValue k x t)
      (tail : FieldValues k xs ts) : FieldValues k (x :: xs) (t :: ts)

end

variable {k : Catalog} {x : Value} {n : String}

theorem RecordValue.declares (h : k.RecordValue x n) : k.DeclaresRecord n := by
  cases h with
  | built mem => exact ⟨_, mem, rfl⟩

theorem VariantValue.declares (h : k.VariantValue x n) : k.DeclaresVariant n := by
  cases h with
  | case mem => exact ⟨_, mem, rfl⟩

/-! ### What has a value is constructible -/

mutual

theorem RecordValue.constructible {x : Value} {n : String} :
    k.RecordValue x n → k.Constructible n
  | .built mem fields => .record mem fun f hf _ hm hd =>
      fields.constructible (List.mem_map.mpr ⟨f, hf, rfl⟩) hm hd

theorem VariantValue.constructible {x : Value} {n : String} :
    k.VariantValue x n → k.Constructible n
  | .case mem listed value => by
      have hrecord := value.constructible
      obtain ⟨r, hr, rfl⟩ := mem_recordNames.mp listed
      exact .variant mem hr hrecord

theorem FieldValue.constructible {x : Value} {t : Ty} {m : String} :
    k.FieldValue x t → t.name? = some m → k.DeclaresVariant m ∨ k.DeclaresRecord m →
      k.Constructible m
  | .unnamed nameless, hm, _ => by simp [nameless] at hm
  | .undeclared name unknown, hm, hd => by
      obtain rfl := Option.some.inj (name.symm.trans hm)
      exact absurd hd unknown
  | .record name value, hm, _ => by
      obtain rfl := Option.some.inj (name.symm.trans hm)
      exact value.constructible
  | .variant name value, hm, _ => by
      obtain rfl := Option.some.inj (name.symm.trans hm)
      exact value.constructible

theorem FieldValues.constructible {xs : List Value} {ts : List Ty} {t : Ty} {m : String} :
    k.FieldValues xs ts → t ∈ ts → t.name? = some m → k.DeclaresVariant m ∨ k.DeclaresRecord m →
      k.Constructible m
  | .cons head tail, ht, hm, hd => by
      rcases List.mem_cons.mp ht with rfl | ht
      · exact head.constructible hm hd
      · exact tail.constructible ht hm hd

end

/-! ### What is constructible has a value -/

/-- Some tree is a value of the name, as a record or as a variant. -/
def HasValue (k : Catalog) (n : String) : Prop := ∃ x, k.RecordValue x n ∨ k.VariantValue x n

/-- A field can be filled when its name, if declared, has a value. -/
theorem exists_fieldValue {t : Ty}
    (h : ∀ m, t.name? = some m → k.DeclaresVariant m ∨ k.DeclaresRecord m → k.HasValue m) :
    ∃ x, k.FieldValue x t := by
  cases hname : t.name? with
  | none => exact ⟨.plain, .unnamed hname⟩
  | some m =>
    by_cases hd : k.DeclaresVariant m ∨ k.DeclaresRecord m
    · obtain ⟨x, hx | hx⟩ := h m hname hd
      · exact ⟨x, .record hname hx⟩
      · exact ⟨x, .variant hname hx⟩
    · exact ⟨.plain, .undeclared hname hd⟩

theorem exists_fieldValues {ts : List Ty} (h : ∀ t ∈ ts, ∃ x, k.FieldValue x t) :
    ∃ xs, k.FieldValues xs ts := by
  induction ts with
  | nil => exact ⟨[], .nil⟩
  | cons t ts ih =>
    obtain ⟨x, hx⟩ := h t List.mem_cons_self
    obtain ⟨xs, hxs⟩ := ih fun u hu => h u (List.mem_cons_of_mem t hu)
    exact ⟨x :: xs, .cons hx hxs⟩

theorem Constructible.hasValue (hapart : k.NamesApart) (h : k.Constructible n) : k.HasValue n := by
  induction h with
  | @record r mem _ ih =>
    have hfields : ∀ t ∈ r.fieldTypes, ∃ x, k.FieldValue x t := by
      intro t ht
      obtain ⟨f, hf, rfl⟩ := List.mem_map.mp ht
      exact exists_fieldValue (ih f hf)
    obtain ⟨parts, hparts⟩ := exists_fieldValues hfields
    exact ⟨.built r.name parts, .inl (.built mem hparts)⟩
  | @variant v r mem case _ ih =>
    have hlisted : r.name ∈ v.recordNames := mem_recordNames.mpr ⟨r, case, rfl⟩
    obtain ⟨x, hx | hx⟩ := ih
    · exact ⟨x, .inr (.case mem hlisted hx)⟩
    · -- the case would be a variant as well
      exact absurd (.of_listed mem hlisted) (hapart _ hx.declares)

theorem constructible_iff_hasValue (hapart : k.NamesApart) : k.Constructible n ↔ k.HasValue n := by
  constructor
  · exact Constructible.hasValue hapart
  · rintro ⟨x, hx | hx⟩
    · exact hx.constructible
    · exact hx.constructible

/-! ### The survey -/

/-- A survey ends, after no more passes than its weight says: the flag is down then, and was up
    before each of the passes. -/
theorem Survey.exists_passes (k : Catalog) (s : Survey) : ∃ passes ≤ s.weight k,
    (pass k)^[passes] s = s.finish k ∧ (s.finish k).progress = false ∧
      ∀ earlier < passes, ((pass k)^[earlier] s).progress = true := by
  fun_induction finish k s with
  | case1 s hflag ih =>
    obtain ⟨passes, hpasses, hfinish, hend, hearlier⟩ := ih
    have hlighter := weight_pass_lt k hflag
    refine ⟨passes + 1, by omega, hfinish, hend, fun earlier h => ?_⟩
    cases earlier with
    | zero => exact hflag
    | succ earlier => exact hearlier earlier (by omega)
  | case2 s hflag =>
    exact ⟨0, Nat.zero_le _, rfl, by simpa using hflag, fun _ h => absurd h (Nat.not_lt_zero _)⟩

/-- Where no name is declared both as a variant and as a record, the survey ends, after at most one
    pass more than there are declared names, and has found exactly the names that have a value; so
    no variant is blamed for a missing base case just when each has a value. -/
theorem mem_constructible_iff_hasValue (k : Catalog) (hapart : k.NamesApart) :
    (∃ passes ≤ k.declaredNames.length + 1,
        (Survey.pass k)^[passes] Survey.start = ⟨k.constructible, false⟩ ∧
        ∀ earlier < passes, ((Survey.pass k)^[earlier] Survey.start).progress = true) ∧
      (∀ n, n ∈ k.constructible ↔ k.HasValue n) ∧
      (k.baseless? = none ↔ ∀ v ∈ k.variants, ∃ x, k.VariantValue x v.name) := by
  refine ⟨?_, fun n => ?_, ?_⟩
  · obtain ⟨passes, hpasses, hfinish, hend, hearlier⟩ := Survey.exists_passes k Survey.start
    have hweight : Survey.start.weight k = k.declaredNames.length + 1 := by
      simp [Survey.weight, Survey.unknown, Survey.start]
    refine ⟨passes, hweight ▸ hpasses, ?_, hearlier⟩
    rw [hfinish, constructible, ← hend]
  · rw [mem_constructible_iff, constructible_iff_hasValue hapart]
  · rw [baseless?_eq_none_iff]
    refine forall₂_congr fun v hv => ?_
    rw [constructible_iff_hasValue hapart]
    constructor
    · rintro ⟨x, hx | hx⟩
      · exact absurd hx.declares (hapart _ ⟨v, hv, rfl⟩)
      · exact ⟨x, hx⟩
    · rintro ⟨x, hx⟩
      exact ⟨x, .inr hx⟩

/-- Trees and forests recur through one another. A knot has no base case, nor has a loop, and the
    two declare their common record differently. -/
def orchard : Catalog :=
  ⟨[], [⟨"Tree", [⟨"Node", [⟨"kids", .named "Forest"⟩]⟩]⟩,
    ⟨"Forest", [⟨"Nil", []⟩,
      ⟨"Grove", [⟨"first", .named "Tree"⟩, ⟨"rest", .named "Forest"⟩]⟩]⟩,
    ⟨"Loop", [⟨"Again", [⟨"next", .named "Loop"⟩]⟩]⟩,
    ⟨"Knot", [⟨"Again", [⟨"next", .named "Knot"⟩]⟩]⟩]⟩

theorem mem_constructible_iff_hasValue_orchard :
    orchard.NamesApart ∧ orchard.baseless? = some "Loop" ∧
      (∃ x, orchard.VariantValue x "Tree") ∧ ¬ ∃ x, orchard.VariantValue x "Knot" := by
  have hapart : orchard.NamesApart := by
    have h : ∀ v ∈ orchard.variants, ∀ r ∈ orchard.records, r.name ≠ v.name := by decide
    rintro _ ⟨v, hv, rfl⟩ ⟨r, hr, hname⟩
    exact h v hv r hr hname
  obtain ⟨-, hmem, -⟩ := mem_constructible_iff_hasValue orchard hapart
  refine ⟨hapart, by decide, ?_, ?_⟩
  · obtain ⟨x, hx | hx⟩ := (hmem "Tree").mp (by decide)
    · have hrecord : ∀ r ∈ orchard.records, r.name ≠ "Tree" := by decide
      obtain ⟨r, hr, hname⟩ := hx.declares
      exact absurd hname (hrecord r hr)
    · exact ⟨x, hx⟩
  · rintro ⟨x, hx⟩
    have hknot : "Knot" ∉ orchard.constructible := by decide
    exact hknot ((hmem "Knot").mpr ⟨x, .inr hx⟩)

end Catalog

end VariantScheme
