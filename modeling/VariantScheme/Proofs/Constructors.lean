import VariantScheme.Proofs.Checking

/-!
    A record is made by its constructor and taken apart by the arms of case analyses. The two come
    by its fields in different ways: the constructor is a name among the globals, where definitions,
    variants, predicates and the constructors of all records share one frame and the first pair for
    a name counts; an arm looks the record up in the catalog, where the first declaration counts.
    They have the same fields, also where a record is declared several times and the declarations
    differ, as long as nothing else goes by the constructor's name. -/

namespace VariantScheme

namespace Catalog

variable {k : Catalog} {n : String} {r : Record}

/-! ### The constructor among the globals -/

/-- No definition, no declared name and no predicate goes by this name. -/
structure Unclaimed (k : Catalog) (x : String) : Prop where
  definitions : ∀ d ∈ k.definitions, d.name ≠ x
  variants : ∀ v ∈ k.variants, v.name ≠ x ∧ v.name ++ "?" ≠ x
  records : ∀ r ∈ k.records, r.name ≠ x ∧ r.name ++ "?" ≠ x

theorem lookup_variantEntries {x : String} {vs : List Variant}
    (hfree : ∀ v ∈ vs, v.name ≠ x ∧ v.name ++ "?" ≠ x) :
    (vs.flatMap variantEntries).lookup x = none := by
  rw [lookup_eq_none_iff]
  intro hx
  obtain ⟨e, he, rfl⟩ := List.mem_map.mp hx
  obtain ⟨v, hv, hev⟩ := List.mem_flatMap.mp he
  have hcases : e = (v.name, .named v.name) ∨ e = (v.name ++ "?", predicate) := by
    simpa [variantEntries] using hev
  rcases hcases with rfl | rfl
  · exact (hfree v hv).1 rfl
  · exact (hfree v hv).2 rfl

/-- What one record adds to the globals has the constructor of that record, and of no other. -/
theorem lookup_recordEntries
    (hfree : r.name ≠ "make-" ++ n ∧ r.name ++ "?" ≠ "make-" ++ n) :
    (recordEntries r).lookup ("make-" ++ n) =
      if r.name == n then some (.proc r.fieldTypes (.named n)) else none := by
  have hname : ("make-" ++ n == r.name) = false := beq_false_of_ne hfree.1.symm
  have hpredicate : ("make-" ++ n == r.name ++ "?") = false := beq_false_of_ne hfree.2.symm
  rw [recordEntries, List.lookup_cons, hname, List.lookup_cons, hpredicate, List.lookup_cons]
  by_cases hn : r.name = n
  · simp [hn]
  · have hother : ("make-" ++ n == "make-" ++ r.name) = false :=
      beq_false_of_ne fun h => hn ((String.append_right_inj _).mp h).symm
    simp [hother, hn]

/-- Among what several records add, the constructor is that of the first record of the name. -/
theorem lookup_constructor {rs : List Record}
    (hfree : ∀ r ∈ rs, r.name ≠ "make-" ++ n ∧ r.name ++ "?" ≠ "make-" ++ n) :
    (rs.flatMap recordEntries).lookup ("make-" ++ n) =
      (rs.find? fun r => r.name == n).map fun r => .proc r.fieldTypes (.named n) := by
  induction rs with
  | nil => rfl
  | cons r rs ih =>
    obtain ⟨hr, hrs⟩ := List.forall_mem_cons.mp hfree
    rw [List.flatMap_cons, List.lookup_append, lookup_recordEntries hr, ih hrs, List.find?_cons]
    cases r.name == n <;> rfl

theorem globals_lookup_constructor (hfree : k.Unclaimed ("make-" ++ n))
    (hr : k.record? n = some r) :
    k.globals.lookup ("make-" ++ n) = .proc r.fieldTypes (.named n) := by
  have hdefinitions : (Param.entries k.definitions).lookup ("make-" ++ n) = none := by
    rw [lookup_eq_none_iff, Param.entries, List.map_map]
    intro hx
    obtain ⟨d, hd, hname⟩ := List.mem_map.mp hx
    exact hfree.definitions d hd hname
  rw [record?] at hr
  rw [globals, Env.lookup_bind, List.lookup_append, List.lookup_append, hdefinitions,
    lookup_variantEntries hfree.variants, lookup_constructor hfree.records, hr]
  rfl

end Catalog

/-! ### The names in an arm -/

/-- Names are given to the fields of a record: in `inner` the names of the pattern stand for the
    types of the fields, the first for the first and so on, and every other name for what it stands
    for in `env`. -/
structure Env.Unpacks (env : Env) (pattern : List String) (types : List Ty) (inner : Env) :
    Prop where
  field : ∀ (j : Nat) x t, pattern[j]? = some x → types[j]? = some t → inner.lookup x = t
  other : ∀ x, x ∉ pattern → inner.lookup x = env.lookup x

theorem Env.unpacks_bind (env : Env) {pattern : List String} {types : List Ty}
    (hlength : pattern.length = types.length) (hnodup : pattern.Nodup) :
    env.Unpacks pattern types (env.bind (pattern.zip types)) := by
  have hnames : (pattern.zip types).map (·.1) = pattern :=
    List.map_fst_zip (Nat.le_of_eq hlength)
  constructor
  · intro j x t hx ht
    have hmem : (x, t) ∈ pattern.zip types :=
      List.mem_iff_getElem?.mpr ⟨j, List.getElem?_zip_eq_some.mpr ⟨hx, ht⟩⟩
    have hlookup := (lookup_eq_some_iff_mem (hnames.symm ▸ hnodup)).mpr hmem
    rw [Env.lookup_bind, hlookup, Option.getD_some]
  · intro x hx
    have hlookup : (pattern.zip types).lookup x = none :=
      lookup_eq_none_iff.mpr (hnames.symm ▸ hx)
    rw [Env.lookup_bind, hlookup, Option.getD_none]

/-- An arm with as many names as its record has fields is checked by its body, where the names stand
    for the fields; then the other arms follow. -/
theorem Checker.checkArms_cons_of_record {k : Catalog} {lenient : Bool} {env : Env} {i : Nat}
    {n : String} {r : Record} {pattern : List String} {body : Body} {arms : List Arm}
    (hr : k.record? n = some r) (hlength : pattern.length = r.fieldTypes.length) :
    (⟨lenient, some k⟩ : Checker).checkArms (⟨i, n, pattern, body⟩ :: arms) env = (do
      let t ← (⟨lenient, some k⟩ : Checker).checkBody body (env.bind (pattern.zip r.fieldTypes))
      return t :: (← (⟨lenient, some k⟩ : Checker).checkArms arms env)) := by
  have hfields : (⟨lenient, some k⟩ : Checker).armFields ⟨i, n, pattern, body⟩ =
      .ok r.fieldTypes := by
    refine armFields_eq_ok_iff.mpr ⟨r, hr, ?_, rfl⟩
    rw [hlength, Record.fieldTypes, List.length_map]
  have henter := enter_eq_ok_iff.mpr ⟨hlength, Eq.refl (env.bind (pattern.zip r.fieldTypes))⟩
  rw [checkArms, checkArm, hfields]
  change ((enter env pattern r.fieldTypes >>= _) >>= _) = _
  rw [henter]
  rfl

/-! ### Made and taken apart -/

/-- What the constructor of a record takes is what an arm for this record gives names to. Let no
    definition, no declared name and no predicate go by the constructor's name. Then this name
    stands for a procedure from the types of the fields to the record; and any arm for the record,
    with as many names as there are fields and no name twice, is checked by its body, where the
    names stand for these same types in order and all else is as around the arm. -/
theorem constructor_matches_arm (program : Program) {n : String}
    (hdeclared : program.catalog.DeclaresRecord n)
    (hfree : program.catalog.Unclaimed ("make-" ++ n)) :
    ∃ r, program.catalog.record? n = some r ∧
      program.catalog.globals.lookup ("make-" ++ n) = .proc r.fieldTypes (.named n) ∧
      ∀ (lenient : Bool) (env : Env) (pattern : List String),
        pattern.length = r.fieldTypes.length → pattern.Nodup →
        ∃ inner, env.Unpacks pattern r.fieldTypes inner ∧
          ∀ (i : Nat) (body : Body) (arms : List Arm),
            Checker.checkArms ⟨lenient, some program.catalog⟩ (⟨i, n, pattern, body⟩ :: arms) env =
              (do
                let t ← Checker.checkBody ⟨lenient, some program.catalog⟩ body inner
                return t :: (← Checker.checkArms ⟨lenient, some program.catalog⟩ arms env)) := by
  obtain ⟨r, hr⟩ := Option.isSome_iff_exists.mp (Catalog.record?_isSome_iff.mpr hdeclared)
  refine ⟨r, hr, Catalog.globals_lookup_constructor hfree hr, ?_⟩
  intro lenient env pattern hlength hnodup
  exact ⟨_, env.unpacks_bind hlength hnodup,
    fun i body arms => Checker.checkArms_cons_of_record hr hlength⟩

/-- A record that is declared twice, with other fields the second time, and a definition whose name
    begins as those of constructors do. -/
def remade : Program :=
  ⟨[.define 0 ⟨"make-disc", .number⟩ (.literal 1 (.int 0)),
    .defineType 2 ⟨"Shape", [⟨"Box", [⟨"width", .number⟩, ⟨"label", .string⟩]⟩, ⟨"Dot", []⟩]⟩],
    .defineType 3 ⟨"Crate", [⟨"Box", [⟨"content", .boolean⟩]⟩]⟩⟩

theorem constructor_matches_arm_remade :
    remade.catalog.DeclaresRecord "Box" ∧ remade.catalog.Unclaimed ("make-" ++ "Box") ∧
      remade.catalog.globals.lookup ("make-" ++ "Box") =
        .proc [.number, .string] (.named "Box") ∧
      ∃ inner, Env.Unpacks [[("w", .boolean)]] ["w", "l"] [.number, .string] inner ∧
        ∀ (i : Nat) (body : Body) (arms : List Arm),
          Checker.checkArms ⟨true, some remade.catalog⟩ (⟨i, "Box", ["w", "l"], body⟩ :: arms)
              [[("w", .boolean)]] = (do
            let t ← Checker.checkBody ⟨true, some remade.catalog⟩ body inner
            return t :: (← Checker.checkArms ⟨true, some remade.catalog⟩ arms
              [[("w", .boolean)]])) := by
  have hdeclared : remade.catalog.DeclaresRecord "Box" := Catalog.record?_isSome_iff.mp (by decide)
  have hfree : remade.catalog.Unclaimed ("make-" ++ "Box") :=
    ⟨by decide, by decide, by decide⟩
  obtain ⟨r, hr, hmake, harm⟩ := constructor_matches_arm remade hdeclared hfree
  have hbox : remade.catalog.record? "Box" =
      some ⟨"Box", [⟨"width", .number⟩, ⟨"label", .string⟩]⟩ := rfl
  obtain rfl := Option.some.inj (hr.symm.trans hbox)
  exact ⟨hdeclared, hfree, hmake, harm true [[("w", .boolean)]] ["w", "l"] rfl (by decide)⟩

end VariantScheme
