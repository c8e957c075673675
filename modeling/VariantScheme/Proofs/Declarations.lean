import Mathlib.Tactic.ByContra
import VariantScheme.Catalog.Declarations

/-!
    What it takes for declarations to be without fault. No two declarations of one name differ, and
    every variant has a value that is built in finitely many steps: `declarationFault?_eq_none_iff`
    says that the search for faults comes out empty exactly then. -/

namespace VariantScheme.Catalog

variable {k : Catalog} {n : String} {r : Record} {v : Variant}

/-! ### Declared names -/

/-- Some variant goes by the name. -/
def DeclaresVariant (k : Catalog) (n : String) : Prop := ∃ v ∈ k.variants, v.name = n

/-- Some record goes by the name. -/
def DeclaresRecord (k : Catalog) (n : String) : Prop := ∃ r ∈ k.records, r.name = n

/-- No name is declared both as a variant and as a record. -/
def NamesApart (k : Catalog) : Prop := ∀ n, k.DeclaresVariant n → ¬ k.DeclaresRecord n

theorem mem_records : r ∈ k.records ↔ ∃ v ∈ k.variants, r ∈ v.records := by
  rw [records, List.mem_flatMap]

theorem mem_recordNames : n ∈ v.recordNames ↔ ∃ r ∈ v.records, r.name = n := by
  rw [Variant.recordNames, List.mem_map]

theorem variant?_isSome_iff : (k.variant? n).isSome ↔ k.DeclaresVariant n := by
  simp [variant?, DeclaresVariant]

theorem record?_isSome_iff : (k.record? n).isSome ↔ k.DeclaresRecord n := by
  simp only [record?, DeclaresRecord, List.find?_isSome, beq_iff_eq]

theorem record?_isNone_iff : (k.record? n).isNone ↔ ¬ k.DeclaresRecord n := by
  rw [← record?_isSome_iff]
  cases k.record? n <;> simp

theorem declared?_isSome_iff :
    (k.declared? n).isSome ↔ k.DeclaresVariant n ∨ k.DeclaresRecord n := by
  simp [declared?, Option.isSome_or, variant?_isSome_iff, record?_isSome_iff]

theorem variant?_mem (h : k.variant? n = some v) : v ∈ k.variants ∧ v.name = n :=
  ⟨List.mem_of_find?_eq_some h, by simpa using List.find?_some h⟩

theorem record?_mem (h : k.record? n = some r) : r ∈ k.records ∧ r.name = n :=
  ⟨List.mem_of_find?_eq_some h, by simpa using List.find?_some h⟩

theorem DeclaresRecord.of_listed (hv : v ∈ k.variants) (hn : n ∈ v.recordNames) :
    k.DeclaresRecord n := by
  obtain ⟨r, hr, rfl⟩ := mem_recordNames.mp hn
  exact ⟨r, mem_records.mpr ⟨v, hv, hr⟩, rfl⟩

/-! ### Agreement of repeated declarations -/

/-- Declarations of one name are the same declaration. -/
structure Agrees (k : Catalog) : Prop where
  records : ∀ r ∈ k.records, ∀ s ∈ k.records, r.name = s.name → r = s
  variants : ∀ v ∈ k.variants, ∀ w ∈ k.variants, v.name = w.name → v = w

/-- Every member is the first of its name exactly when each name has one member. -/
theorem forall_find?_iff {α : Type} (name : α → String) (as : List α) :
    (∀ a ∈ as, as.find? (fun b => name b == name a) = some a) ↔
      ∀ a ∈ as, ∀ b ∈ as, name a = name b → a = b := by
  constructor
  · intro h a ha b hb hab
    have hfirst : some a = some b := by rw [← h a ha, ← h b hb, hab]
    exact Option.some.inj hfirst
  · intro h a ha
    have hsome : (as.find? fun b => name b == name a).isSome := by
      rw [List.find?_isSome]
      exact ⟨a, ha, by simp⟩
    obtain ⟨b, hb⟩ := Option.isSome_iff_exists.mp hsome
    have hname : name b = name a := by simpa using List.find?_some hb
    rw [hb, h b (List.mem_of_find?_eq_some hb) a ha hname]

theorem Agrees.record?_eq (h : k.Agrees) (hr : r ∈ k.records) : k.record? r.name = some r :=
  (forall_find?_iff Record.name k.records).mpr h.records r hr

theorem Agrees.variant?_eq (h : k.Agrees) (hv : v ∈ k.variants) : k.variant? v.name = some v :=
  (forall_find?_iff Variant.name k.variants).mpr h.variants v hv

theorem redeclared?_eq_none_iff : k.redeclared? = none ↔ k.Agrees := by
  rw [redeclared?, Option.or_eq_none_iff, Option.map_eq_none_iff, Option.map_eq_none_iff,
    List.find?_eq_none, List.find?_eq_none]
  simp only [ne_eq, decide_not, Bool.not_eq_true', decide_eq_false_iff_not, Decidable.not_not]
  constructor
  · rintro ⟨hr, hv⟩
    exact ⟨(forall_find?_iff Record.name k.records).mp hr,
      (forall_find?_iff Variant.name k.variants).mp hv⟩
  · intro h
    exact ⟨fun r hr => h.record?_eq hr, fun v hv => h.variant?_eq hv⟩

/-- A member that is not the first of its name has a namesake that differs from it. -/
theorem exists_namesake {α : Type} {name : α → String} {as : List α} {a : α} (ha : a ∈ as)
    (h : as.find? (fun b => name b == name a) ≠ some a) :
    ∃ b ∈ as, name b = name a ∧ a ≠ b := by
  have hsome : (as.find? fun b => name b == name a).isSome := by
    rw [List.find?_isSome]
    exact ⟨a, ha, by simp⟩
  obtain ⟨b, hb⟩ := Option.isSome_iff_exists.mp hsome
  refine ⟨b, List.mem_of_find?_eq_some hb, by simpa using List.find?_some hb, ?_⟩
  rintro rfl
  exact h hb

/-- The name that is found declared twice has two declarations that differ. -/
theorem differ_of_redeclared? (h : k.redeclared? = some n) :
    (∃ r ∈ k.records, ∃ s ∈ k.records, r.name = n ∧ s.name = n ∧ r ≠ s) ∨
      ∃ v ∈ k.variants, ∃ w ∈ k.variants, v.name = n ∧ w.name = n ∧ v ≠ w := by
  rcases Option.or_eq_some_iff.mp h with h | ⟨-, h⟩
  · obtain ⟨r, hr, rfl⟩ := Option.map_eq_some_iff.mp h
    have hmem : r ∈ k.records := List.mem_of_find?_eq_some hr
    have hfirst : k.record? r.name ≠ some r := by simpa using List.find?_some hr
    obtain ⟨s, hs, hname, hne⟩ := exists_namesake hmem hfirst
    exact .inl ⟨r, hmem, s, hs, rfl, hname, hne⟩
  · obtain ⟨v, hv, rfl⟩ := Option.map_eq_some_iff.mp h
    have hmem : v ∈ k.variants := List.mem_of_find?_eq_some hv
    have hfirst : k.variant? v.name ≠ some v := by simpa using List.find?_some hv
    obtain ⟨w, hw, hname, hne⟩ := exists_namesake hmem hfirst
    exact .inr ⟨v, hmem, w, hw, rfl, hname, hne⟩

/-! ### Finite values -/

/-- A name has a value. That of a record is built of values for its fields, and only a field of a
    declared name asks for one; that of a variant is the value of one of its records. -/
inductive Constructible (k : Catalog) : String → Prop
  | record {r : Record} (mem : r ∈ k.records)
      (fields : ∀ f ∈ r.fields, ∀ n, f.type.name? = some n →
        k.DeclaresVariant n ∨ k.DeclaresRecord n → Constructible k n) : Constructible k r.name
  | variant {v : Variant} {r : Record} (mem : v ∈ k.variants) (case : r ∈ v.records)
      (built : Constructible k r.name) : Constructible k v.name

/-- A field can be filled when its name, if declared, is known. -/
theorem canFill_iff {known : List String} {t : Ty} : k.canFill known t = true ↔
    ∀ n, t.name? = some n → k.DeclaresVariant n ∨ k.DeclaresRecord n → n ∈ known := by
  rw [canFill]
  cases t.name? with
  | none => simp
  | some n =>
    simp only [← declared?_isSome_iff, Option.some.injEq, forall_eq', Bool.or_eq_true,
      Option.isNone_iff_eq_none, decide_eq_true_eq]
    cases k.declared? n <;> simp

namespace Survey

variable {s t : Survey}

/-- What is ready has a value if all that is known does. -/
theorem Ready.constructible {known : List String} (h : Ready k known n)
    (hknown : ∀ m ∈ known, k.Constructible m) : k.Constructible n := by
  cases h with
  | record mem fields =>
    refine .record mem fun f hf m hm hd => hknown m ?_
    exact canFill_iff.mp (fields f.type (List.mem_map.mpr ⟨f, hf, rfl⟩)) m hm hd
  | variant mem listed built =>
    obtain ⟨r, hr, rfl⟩ := mem_recordNames.mp listed
    exact .variant mem hr (hknown _ built)

theorem Grows.constructible (h : Grows k s t) (hs : ∀ m ∈ s.known, k.Constructible m) :
    ∀ m ∈ t.known, k.Constructible m := by
  induction h with
  | refl => exact hs
  | found _ ready _ ih => exact List.forall_mem_cons.mpr ⟨ready.constructible ih, ih⟩

/-- A survey finds only names that have a value. -/
theorem finish_constructible (hs : ∀ m ∈ s.known, k.Constructible m) :
    ∀ m ∈ (s.finish k).known, k.Constructible m := by
  fun_induction finish k s with
  | case1 s _ ih => exact ih ((grows_pass k s).constructible hs)
  | case2 => exact hs

/-- Whatever is ready is known already. -/
def Closed (k : Catalog) (s : Survey) : Prop := ∀ n, Ready k s.known n → n ∈ s.known

theorem Grows.antisymm (h : Grows k s t) (h' : Grows k t s) : t = s := by
  rcases h.eq_or_lt with hsame | ⟨-, hless⟩
  · exact hsame
  · rcases h'.eq_or_lt with hsame | ⟨-, hless'⟩
    · exact hsame.symm
    · omega

theorem mem_of_consider_eq {ready : Bool} (h : s.consider n ready = s) (hready : ready = true) :
    n ∈ s.known := by
  by_contra hnew
  rw [consider, if_pos ⟨hnew, hready⟩] at h
  simpa using congrArg (·.known.length) h

/-- Steps that come back to where they began have all been without effect. -/
theorem eq_of_foldl_eq {α : Type} {step : Survey → α → Survey} : ∀ {as : List α},
    (∀ a ∈ as, ∀ s, Grows k s (step s a)) → as.foldl step s = s → ∀ a ∈ as, step s a = s
  | [], _, _ => by simp
  | a :: as, hgrows, hfold => by
      obtain ⟨hfirst, hrest⟩ := List.forall_mem_cons.mp hgrows
      have hback : Grows k (step s a) s := by
        have := grows_foldl (s := step s a) hrest
        rwa [← List.foldl_cons, hfold] at this
      have hsame : step s a = s := (hfirst s).antisymm hback
      rw [List.foldl_cons, hsame] at hfold
      exact List.forall_mem_cons.mpr ⟨hsame, eq_of_foldl_eq hrest hfold⟩

/-- After a pass that ends with the flag down nothing is left to find. -/
theorem closed_pass (h : (s.pass k).progress = false) : Closed k (s.pass k) := by
  have hsame : s.pass k = ⟨s.known, false⟩ := by
    rcases (grows_pass k s).eq_or_lt with hsame | ⟨hflag, -⟩
    · exact hsame
    · simp [h] at hflag
  have hvariants : ∀ v ∈ k.variants, visitVariant k ⟨s.known, false⟩ v = ⟨s.known, false⟩ :=
    eq_of_foldl_eq (fun _ hv _ => grows_visitVariant hv) hsame
  -- the records of a variant have no effect either, so it is judged by what was known before
  have hrecords : ∀ v ∈ k.variants,
      v.records.foldl (visitRecord k) ⟨s.known, false⟩ = ⟨s.known, false⟩ := by
    intro v hv
    refine (grows_visitRecords hv).antisymm ?_
    have hback := grows_consider_variant (s := v.records.foldl (visitRecord k) ⟨s.known, false⟩) hv
    rwa [← visitVariant, hvariants v hv] at hback
  rw [hsame]
  intro n hn
  cases hn with
  | @record r mem fields =>
    obtain ⟨v, hv, hr⟩ := mem_records.mp mem
    have hvisit := eq_of_foldl_eq
      (fun _ hr _ => grows_visitRecord (mem_records.mpr ⟨v, hv, hr⟩)) (hrecords v hv) r hr
    exact mem_of_consider_eq hvisit (by simpa using fields)
  | @variant v n mem listed built =>
    have hvisit := hvariants v mem
    rw [visitVariant, hrecords v mem] at hvisit
    exact mem_of_consider_eq hvisit (List.any_eq_true.mpr ⟨n, listed, by simpa using built⟩)

theorem closed_finish (h : s.progress = false → Closed k s) : Closed k (s.finish k) := by
  fun_induction finish k s with
  | case1 s _ ih => exact ih closed_pass
  | case2 s hflag => exact h (by simpa using hflag)

/-- Where everything ready is known, every name that has a value is. -/
theorem Closed.mem (hclosed : Closed k s) (h : k.Constructible n) : n ∈ s.known := by
  induction h with
  | @record r mem _ ih =>
    refine hclosed r.name (.record mem fun t ht => canFill_iff.mpr ?_)
    obtain ⟨f, hf, rfl⟩ := List.mem_map.mp ht
    exact ih f hf
  | @variant v r mem case _ ih =>
    exact hclosed v.name (.variant mem (mem_recordNames.mpr ⟨r, case, rfl⟩) ih)

end Survey

/-- A survey finds exactly the names that have a value. -/
theorem mem_constructible_iff : n ∈ k.constructible ↔ k.Constructible n := by
  constructor
  · exact Survey.finish_constructible (by simp [Survey.start]) n
  · exact (Survey.closed_finish (by simp [Survey.start])).mem

theorem mem_stuck : v ∈ k.stuck ↔ v ∈ k.variants ∧ ¬ k.Constructible v.name := by
  rw [stuck, List.mem_filter, decide_eq_true_iff, mem_constructible_iff]

theorem baseless?_eq_none_iff : k.baseless? = none ↔ ∀ v ∈ k.variants, k.Constructible v.name := by
  rw [baseless?, Option.map_eq_none_iff, Option.or_eq_none_iff, List.head?_eq_none_iff]
  constructor
  · rintro ⟨-, hstuck⟩ v hv
    by_contra hnone
    have hmem : v ∈ k.stuck := mem_stuck.mpr ⟨hv, hnone⟩
    simp [hstuck] at hmem
  · intro h
    have hstuck : k.stuck = [] := by
      rw [List.eq_nil_iff_forall_not_mem]
      intro v hv
      exact (mem_stuck.mp hv).2 (h v (mem_stuck.mp hv).1)
    simp [hstuck]

/-- The variant that is found to be without a base case has no value. -/
theorem stuck_of_baseless? (h : k.baseless? = some n) :
    k.DeclaresVariant n ∧ ¬ k.Constructible n := by
  obtain ⟨v, hv, rfl⟩ := Option.map_eq_some_iff.mp h
  have hstuck : v ∈ k.stuck := by
    rcases Option.or_eq_some_iff.mp hv with hv | ⟨-, hv⟩
    · exact List.mem_of_find?_eq_some hv
    · exact List.mem_of_mem_head? hv
  obtain ⟨hmem, hnone⟩ := mem_stuck.mp hstuck
  exact ⟨⟨v, hmem, rfl⟩, hnone⟩

/-! ### Faults -/

/-- Declarations without fault. -/
structure WellDeclared (k : Catalog) : Prop extends Agrees k where
  based : ∀ v ∈ k.variants, k.Constructible v.name

theorem declarationFault?_eq_none_iff : k.declarationFault? = none ↔ k.WellDeclared := by
  rw [declarationFault?, Option.or_eq_none_iff, Option.map_eq_none_iff, Option.map_eq_none_iff,
    redeclared?_eq_none_iff, baseless?_eq_none_iff]
  exact ⟨fun ⟨ha, hb⟩ => ⟨ha, hb⟩, fun h => ⟨h.toAgrees, h.based⟩⟩

end VariantScheme.Catalog
