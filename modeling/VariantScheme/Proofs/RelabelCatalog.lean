import VariantScheme.Proofs.Checking
import VariantScheme.Proofs.Relabel

/-!
    Scopes and catalogs of relabelled code. What is looked up is found relabelled. Types are told
    apart by name or by equality, and a relabelling keeps both where it keeps nodes apart: what fits
    still fits, and joins, faults in declarations and faults in case analyses are those from before,
    relabelled. -/

namespace VariantScheme

/-! ### Outcomes -/

def Refusal.relabel (ρ : Nat → Nat) : Refusal → Refusal
  | .notAnExpression p => .notAnExpression (p.relabel ρ)
  | .notAVariant t => .notAVariant (t.relabel ρ)
  | .noParamType t => .noParamType (t.relabel ρ)
  | .notRecords members => .notRecords (members.map (Ty.relabel ρ))
  | .notAFailure t => .notAFailure (t.relabel ρ)
  | .noRule p => .noRule (p.relabel ρ)
  | .noAncestry t => .noAncestry (t.relabel ρ)
  | .nameless t => .nameless (t.relabel ρ)
  | e => e

theorem Refusal.relabel_untyped (ρ : Nat → Nat) (value : Datum) :
    (untyped value).relabel ρ = untyped value := by
  rw [untyped]
  cases value.inspect <;> rfl

def Halt.relabel (ρ : Nat → Nat) : Halt → Halt
  | .failed f => .failed (f.relabel ρ)
  | .inherited f => .inherited (f.relabel ρ)
  | .refused e => .refused (e.relabel ρ)

/-- The outcome with its error and its value changed. -/
def carry {ε α β : Type} (g : ε → ε) (f : α → β) : Except ε α → Except ε β
  | .ok a => .ok (f a)
  | .error e => .error (g e)

/-- Two computations, the second on changed data, come to outcomes that differ by this change when
    their steps do. -/
theorem carry_bind {ε α α' β β' : Type} {g : ε → ε} {f : α → α'} {f' : β → β'} {x : Except ε α}
    {x' : Except ε α'} {h : α → Except ε β} {h' : α' → Except ε β'} (hx : x' = carry g f x)
    (hh : ∀ a, h' (f a) = carry g f' (h a)) : (x' >>= h') = carry g f' (x >>= h) := by
  subst hx
  cases x with
  | error e => rfl
  | ok a => exact hh a

theorem carry_mapError {ρ : Nat → Nat} {α β : Type} {f : α → β} (x : Except Refusal α) :
    (carry (Refusal.relabel ρ) f x).mapError Halt.refused =
      carry (Halt.relabel ρ) f (x.mapError Halt.refused) := by
  cases x <;> rfl

section

variable (ρ : Nat → Nat)

theorem detect_relabel (t : Ty) :
    detect (t.relabel ρ) = carry (Halt.relabel ρ) (Ty.relabel ρ) (detect t) := by
  cases t <;> rfl

theorem inherit_relabel (t : Ty) :
    inherit (t.relabel ρ) = carry (Halt.relabel ρ) (Ty.relabel ρ) (inherit t) := by
  cases t <;> rfl

/-! ### Scopes -/

def Env.relabel (env : Env) : Env := env.map (List.map (Prod.map id (Ty.relabel ρ)))

theorem distinctBy_map {α β κ : Type} [DecidableEq κ] (key : β → κ) (g : α → β) : ∀ as : List α,
    distinctBy key (as.map g) = (distinctBy (fun a => key (g a)) as).map g
  | [] => rfl
  | a :: as => by
      rw [List.map_cons, distinctBy, distinctBy, List.map_cons, distinctBy_map key g as,
        List.filter_map]
      rfl

theorem Env.bind_relabel (env : Env) (pairs : List (String × Ty)) :
    (env.relabel ρ).bind (pairs.map (Prod.map id (Ty.relabel ρ))) = (env.bind pairs).relabel ρ := by
  rw [Env.bind, Env.bind, Frame.ofPairs, Frame.ofPairs, distinctBy_map]
  rfl

theorem Param.entries_relabel (params : List Param) :
    Param.entries (params.map (Param.relabel ρ)) =
      (Param.entries params).map (Prod.map id (Ty.relabel ρ)) := by
  simp [Param.entries, Param.relabel, Function.comp_def]

theorem Env.bind_entries_relabel (env : Env) (params : List Param) :
    (env.relabel ρ).bind (Param.entries (params.map (Param.relabel ρ))) =
      (env.bind (Param.entries params)).relabel ρ := by
  rw [Param.entries_relabel, Env.bind_relabel]

theorem lookup_map_snd (f : Ty → Ty) (x : String) : ∀ frame : Frame,
    List.lookup x (frame.map (Prod.map id f)) = (List.lookup x frame).map f
  | [] => rfl
  | (y, t) :: frame => by
      rw [List.map_cons, Prod.map_apply, List.lookup_cons, List.lookup_cons, id]
      cases x == y with
      | true => rfl
      | false => exact lookup_map_snd f x frame

theorem Env.lookup?_relabel (x : String) : ∀ env : Env,
    (env.relabel ρ).lookup? x = (env.lookup? x).map (Ty.relabel ρ)
  | [] => rfl
  | frame :: env => by
      rw [Env.lookup?, Option.map_or, ← Env.lookup?_relabel x env, ← lookup_map_snd]
      rfl

theorem Env.lookup_relabel (env : Env) (x : String) :
    (env.relabel ρ).lookup x = (env.lookup x).relabel ρ := by
  rw [Env.lookup, Env.lookup, Env.lookup?_relabel]
  cases env.lookup? x <;> rfl

theorem enter_relabel (env : Env) (names : List String) (types : List Ty) :
    Checker.enter (env.relabel ρ) names (types.map (Ty.relabel ρ)) =
      carry (Halt.relabel ρ) (Env.relabel ρ) (Checker.enter env names types) := by
  rw [Checker.enter, Checker.enter, Env.extend, Env.extend, List.length_map, List.zip_map_right,
    Env.bind_relabel]
  split <;> rfl

theorem Phrase.definition?_relabel (p : Phrase) :
    (p.relabel ρ).definition? = p.definition?.map (Param.relabel ρ) := by
  cases p <;> rfl

theorem Phrase.declaration?_relabel (p : Phrase) :
    (p.relabel ρ).declaration? = p.declaration?.map (Variant.relabel ρ) := by
  cases p <;> rfl

theorem Phrase.header?_relabel (p : Phrase) :
    (p.relabel ρ).header? = p.header?.map (Ty.relabel ρ) := by
  cases p with
  | lambda i params result body =>
    simp [Phrase.relabel, Phrase.header?, Ty.relabel, Ty.relabelEach_eq, Param.relabel,
      Function.comp_def]
  | _ => rfl

theorem Phrase.scope_relabel (p : Phrase) (env : Env) :
    (p.relabel ρ).scope (env.relabel ρ) = (p.scope env).relabel ρ := by
  rw [Phrase.scope, Phrase.scope, Phrase.definition?_relabel]
  cases p.definition? with
  | none => rfl
  | some x => exact Env.bind_entries_relabel ρ env [x]

theorem scopeAfter_relabel (ps : List Phrase) (env : Env) :
    scopeAfter (Phrase.relabelEach ρ ps) (env.relabel ρ) = (scopeAfter ps env).relabel ρ := by
  induction ps generalizing env with
  | nil => rfl
  | cons p ps ih =>
    rw [Phrase.relabelEach, Checker.scopeAfter_cons, Checker.scopeAfter_cons, p.scope_relabel, ih]

end

/-! ### Catalogs -/

namespace Catalog

section

variable (ρ : Nat → Nat) (k : Catalog)

def relabel : Catalog :=
  ⟨k.definitions.map (Param.relabel ρ), k.variants.map (Variant.relabel ρ)⟩

def Search.relabel (s : Search) : Search := ⟨s.found, s.pending.map (Ty.relabel ρ)⟩

theorem variants_relabel : (k.relabel ρ).variants = k.variants.map (Variant.relabel ρ) := rfl

theorem records_relabel : (k.relabel ρ).records = k.records.map (Record.relabel ρ) := by
  simp [records, relabel, List.flatMap_map, List.map_flatMap]

theorem variant?_relabel (n : String) :
    (k.relabel ρ).variant? n = (k.variant? n).map (Variant.relabel ρ) := by
  rw [variant?, variant?, relabel, List.find?_map]
  simp only [Function.comp_def, Variant.name_relabel]

theorem record?_relabel (n : String) :
    (k.relabel ρ).record? n = (k.record? n).map (Record.relabel ρ) := by
  rw [record?, record?, records_relabel, List.find?_map]
  simp only [Function.comp_def, Record.name_relabel]

theorem declared?_relabel (n : String) :
    (k.relabel ρ).declared? n = (k.declared? n).map (Ty.relabel ρ) := by
  rw [declared?, declared?, variant?_relabel, record?_relabel, Option.map_or]
  simp [Function.comp_def, Ty.relabel]

theorem parents_relabel (n : String) :
    (k.relabel ρ).parents n = (k.parents n).map (Variant.relabel ρ) := by
  simp [parents, relabel, List.filter_map, Function.comp_def, Variant.recordNames_relabel]

theorem lineage_relabel (n : String) : (k.relabel ρ).lineage n = k.lineage n := by
  simp [lineage, variant?_relabel, record?_relabel, parents_relabel, Function.comp_def]

theorem ancestorNames_relabel (t : Ty) : (k.relabel ρ).ancestorNames (t.relabel ρ) =
    k.ancestorNames t := by
  cases t with
  | named n => exact k.lineage_relabel ρ n
  | record r => rw [Ty.relabel, ancestorNames, ancestorNames, lineage_relabel, r.name_relabel]
  | variant v => rw [Ty.relabel, ancestorNames, ancestorNames, v.name_relabel]
  | _ => rfl

theorem ancestors_relabel (t : Ty) : (k.relabel ρ).ancestors (t.relabel ρ) =
    carry (Refusal.relabel ρ) (List.map (Ty.relabel ρ)) (k.ancestors t) := by
  have hnames : (k.ancestorNames t).map Ty.named =
      ((k.ancestorNames t).map Ty.named).map (Ty.relabel ρ) := by
    simp [Function.comp_def, Ty.relabel]
  have hsame := k.ancestorNames_relabel ρ t
  cases t with
  | named | record | variant =>
    rw [Ty.relabel] at hsame ⊢
    rw [ancestors, ancestors, hsame, carry, ← hnames]
  | _ => rfl

end

variable {ρ : Nat → Nat} (hρ : Function.Injective ρ) (k : Catalog)

include hρ

/-! #### Fitting -/

theorem isSubtype_relabel (a b : Ty) :
    (k.relabel ρ).isSubtype (a.relabel ρ) (b.relabel ρ) = k.isSubtype a b := by
  have hinj := Ty.relabel_injective hρ
  have hany : b.relabel ρ = .any ↔ b = .any := hinj.eq_iff (b := .any)
  simp only [isSubtype, hany, Ty.name?_relabel, ancestorNames_relabel, Ty.isAtomic_relabel,
    Ty.isVar_relabel, hinj.eq_iff]

theorem fits_relabel (a d : Ty) :
    (k.relabel ρ).fits (a.relabel ρ) (d.relabel ρ) = k.fits a d := by
  have hinj := Ty.relabel_injective hρ
  have hany : d.relabel ρ = .any ↔ d = .any := hinj.eq_iff (b := .any)
  simp only [fits, hany, hinj.eq_iff, k.isSubtype_relabel hρ]

theorem compatible_relabel (a d : Ty) (site : Phrase) :
    (k.relabel ρ).compatible (a.relabel ρ) (d.relabel ρ) (site.relabel ρ) =
      (k.compatible a d site).relabel ρ := by
  rw [compatible, compatible, k.fits_relabel hρ, site.occurrence_relabel]
  split <;> rfl

/-! #### Joining -/

theorem narrow_relabel (common : List Ty) (u : Ty) :
    (k.relabel ρ).narrow (common.map (Ty.relabel ρ)) (u.relabel ρ) =
      carry (Refusal.relabel ρ) (List.map (Ty.relabel ρ)) (k.narrow common u) := by
  refine carry_bind (k.ancestors_relabel ρ u) fun above => congrArg Except.ok ?_
  simp [List.filter_map, Function.comp_def, (Ty.relabel_injective hρ).eq_iff]

theorem foldlM_narrow_relabel : ∀ ts common : List Ty,
    (ts.map (Ty.relabel ρ)).foldlM (k.relabel ρ).narrow (common.map (Ty.relabel ρ)) =
      carry (Refusal.relabel ρ) (List.map (Ty.relabel ρ)) (ts.foldlM k.narrow common)
  | [], _ => rfl
  | t :: ts, common => by
      rw [List.map_cons, List.foldlM_cons, List.foldlM_cons]
      exact carry_bind (k.narrow_relabel hρ common t) fun rest => foldlM_narrow_relabel ts rest

theorem commonAncestors_relabel (ts : List Ty) :
    (k.relabel ρ).commonAncestors (ts.map (Ty.relabel ρ)) =
      carry (Refusal.relabel ρ) (List.map (Ty.relabel ρ)) (k.commonAncestors ts) := by
  cases ts with
  | nil => rfl
  | cons t ts =>
    exact carry_bind (k.ancestors_relabel ρ t) fun first => k.foldlM_narrow_relabel hρ ts first

theorem mostSpecific_relabel (candidates : List Ty) :
    (k.relabel ρ).mostSpecific (candidates.map (Ty.relabel ρ)) =
      (k.mostSpecific candidates).relabel ρ := by
  rw [mostSpecific, List.foldl_map]
  refine @List.foldl_hom _ _ _ (Ty.relabel ρ) _ _ candidates .any fun choice c => ?_
  rw [k.isSubtype_relabel hρ]
  split <;> rfl

theorem join_relabel (ts : List Ty) :
    (k.relabel ρ).join (ts.map (Ty.relabel ρ)) =
      carry (Refusal.relabel ρ) (Ty.relabel ρ) (k.join ts) := by
  refine carry_bind (k.commonAncestors_relabel hρ ts) fun common => ?_
  rw [List.isEmpty_map, k.mostSpecific_relabel hρ, ← Ty.relabelEach_eq]
  split <;> rfl

omit hρ

/-! #### Case analyses -/

theorem armFault?_relabel (type : String) (v : Variant) (arm : Arm) :
    (k.relabel ρ).armFault? type (v.relabel ρ) (arm.relabel ρ) =
      (k.armFault? type v arm).map (Failure.relabel ρ) := by
  have hsite := (Phrase.arm arm).occurrence_relabel ρ
  obtain ⟨i, record, pattern, body⟩ := arm
  rw [Phrase.relabel, Arm.relabel] at hsite
  rw [Arm.relabel, armFault?, armFault?, record?_relabel, hsite]
  cases k.record? record with
  | none => rfl
  | some r =>
    simp only [Option.map_some, Record.fields_relabel, List.length_map, Variant.recordNames_relabel]
    split_ifs <;> rfl

theorem missing_relabel (v : Variant) (arms : List Arm) :
    missing (v.relabel ρ) (arms.map (Arm.relabel ρ)) = missing v arms := by
  simp [missing, Variant.recordNames_relabel, Function.comp_def]

theorem caseFault?_relabel (type : String) (arms : List Arm) :
    (k.relabel ρ).caseFault? type (arms.map (Arm.relabel ρ)) =
      (k.caseFault? type arms).map (Failure.relabel ρ) := by
  rw [caseFault?, caseFault?, variant?_relabel]
  cases k.variant? type with
  | none => rfl
  | some v =>
    simp only [Option.map_some, List.map_map, Function.comp_def, Arm.record_relabel,
      List.findSome?_map, armFault?_relabel, missing_relabel, Option.map_or, Option.map_map,
      List.map_findSome?]
    cases missing v arms <;> rfl

/-! #### Declarations -/

theorem canFill_relabel (known : List String) (t : Ty) :
    (k.relabel ρ).canFill known (t.relabel ρ) = k.canFill known t := by
  simp [canFill, Ty.name?_relabel, declared?_relabel]

theorem visitRecord_relabel (s : Survey) (r : Record) :
    s.visitRecord (k.relabel ρ) (r.relabel ρ) = s.visitRecord k r := by
  rw [Survey.visitRecord, Survey.visitRecord, Record.fieldTypes_relabel, List.all_map]
  simp only [Function.comp_def, canFill_relabel, Record.name_relabel]

theorem visitVariant_relabel (s : Survey) (v : Variant) :
    s.visitVariant (k.relabel ρ) (v.relabel ρ) = s.visitVariant k v := by
  rw [Survey.visitVariant, Survey.visitVariant, Variant.records_relabel, List.foldl_map]
  simp only [visitRecord_relabel, Variant.name_relabel, Variant.recordNames_relabel]

theorem pass_relabel (s : Survey) : s.pass (k.relabel ρ) = s.pass k := by
  rw [Survey.pass, Survey.pass, variants_relabel, List.foldl_map]
  simp only [visitVariant_relabel]

theorem constructible_relabel : (k.relabel ρ).constructible = k.constructible := by
  have hfinish : ∀ s : Survey, s.finish (k.relabel ρ) = s.finish k := by
    intro s
    fun_induction Survey.finish k s with
    | case1 s hflag ih => rw [Survey.finish, if_pos hflag, pass_relabel, ih]
    | case2 s hflag => rw [Survey.finish, if_neg hflag]
  rw [constructible, constructible, hfinish]

theorem fieldTypes_relabel (n : String) :
    (k.relabel ρ).fieldTypes n = (k.fieldTypes n).map (Ty.relabel ρ) := by
  rw [fieldTypes, fieldTypes, declared?_relabel]
  cases k.declared? n with
  | none => rfl
  | some t =>
    cases t with
    | variant v => exact v.fieldTypes_relabel ρ
    | record r => exact r.fieldTypes_relabel ρ
    | _ => rfl

theorem turn_relabel (s : Search) :
    (s.relabel ρ).turn (k.relabel ρ) = (s.turn k).relabel ρ := by
  obtain ⟨found, pending⟩ := s
  cases pending with
  | nil => rfl
  | cons t rest =>
    simp only [Search.relabel, List.map_cons, Search.turn, Ty.name?_relabel]
    cases t.name? with
    | none => rfl
    | some n =>
      dsimp only
      split
      · rfl
      · rw [fieldTypes_relabel, ← List.map_reverse, ← List.map_append]

theorem finish_relabel (s : Search) :
    (s.relabel ρ).finish (k.relabel ρ) = (s.finish k).relabel ρ := by
  fun_induction Search.finish k s with
  | case1 s hend => rw [Search.finish, if_pos (by simpa [Search.relabel] using hend)]
  | case2 s hgoing ih =>
    rw [Search.finish, if_neg (by simpa [Search.relabel] using hgoing), turn_relabel, ih]

theorem reachable_relabel (v : Variant) :
    (k.relabel ρ).reachable (v.relabel ρ) = k.reachable v := by
  have hstart : Search.start (v.relabel ρ) = (Search.start v).relabel ρ := by
    rw [Search.start, v.fieldTypes_relabel ρ, ← List.map_reverse]
    rfl
  rw [reachable, hstart, finish_relabel]
  rfl

theorem stuck_relabel : (k.relabel ρ).stuck = k.stuck.map (Variant.relabel ρ) := by
  rw [stuck, stuck, constructible_relabel, variants_relabel, List.filter_map]
  simp only [Function.comp_def, Variant.name_relabel]

theorem baseless?_relabel : (k.relabel ρ).baseless? = k.baseless? := by
  rw [baseless?, baseless?, stuck_relabel, List.find?_map, List.head?_map, ← Option.map_or,
    Option.map_map]
  simp only [Function.comp_def, Variant.name_relabel, reachable_relabel]

include hρ in
theorem redeclared?_relabel : (k.relabel ρ).redeclared? = k.redeclared? := by
  have hrecord : ∀ r : Record, (k.record? r.name).map (Record.relabel ρ) = some (r.relabel ρ) ↔
      k.record? r.name = some r := fun r =>
    (Option.map_injective (Record.relabel_injective hρ)).eq_iff (b := some r)
  have hvariant : ∀ v : Variant, (k.variant? v.name).map (Variant.relabel ρ) = some (v.relabel ρ) ↔
      k.variant? v.name = some v := fun v =>
    (Option.map_injective (Variant.relabel_injective hρ)).eq_iff (b := some v)
  simp only [redeclared?, records_relabel, variants_relabel, List.find?_map, Option.map_map,
    Function.comp_def, Record.name_relabel, Variant.name_relabel, record?_relabel,
    variant?_relabel, ne_eq, hrecord, hvariant]

include hρ in
theorem declarationFault?_relabel :
    (k.relabel ρ).declarationFault? = k.declarationFault?.map (Failure.relabel ρ) := by
  rw [declarationFault?, declarationFault?, k.redeclared?_relabel hρ, baseless?_relabel,
    Option.map_or, Option.map_map, Option.map_map]
  rfl

/-! #### The global scope -/

theorem variantEntries_relabel (v : Variant) :
    variantEntries (v.relabel ρ) = (variantEntries v).map (Prod.map id (Ty.relabel ρ)) := by
  rw [variantEntries, variantEntries, v.name_relabel]
  rfl

theorem recordEntries_relabel (r : Record) :
    recordEntries (r.relabel ρ) = (recordEntries r).map (Prod.map id (Ty.relabel ρ)) := by
  rw [recordEntries, recordEntries, r.name_relabel, r.fieldTypes_relabel, ← Ty.relabelEach_eq]
  rfl

theorem globals_relabel : (k.relabel ρ).globals = k.globals.relabel ρ := by
  rw [globals, globals, ← Env.bind_relabel, records_relabel]
  simp only [relabel, Param.entries_relabel, List.flatMap_map, variantEntries_relabel,
    recordEntries_relabel, List.map_append, List.map_flatMap]
  rfl

end Catalog

theorem Body.catalog_relabel (ρ : Nat → Nat) (program : Program) :
    (program.relabel ρ).catalog = program.catalog.relabel ρ := by
  simp only [Body.catalog, Catalog.ofPhrases, Catalog.relabel, Body.toList_relabel,
    List.filterMap_map, List.map_filterMap, Function.comp_def, Phrase.definition?_relabel,
    Phrase.declaration?_relabel]

/-! ### Operators -/

namespace Operator

variable (ρ : Nat → Nat) {op : String}

theorem relabel_of_fixed? {t : Ty} (h : fixed? op = some t) : t.relabel ρ = t := by
  rw [fixed?] at h
  split_ifs at h <;> cases h <;> rfl

theorem relabel_of_generic? {params : List String} {result : Ty}
    (h : generic? op = some (params, result)) : result.relabel ρ = result := by
  rw [generic?] at h
  split_ifs at h <;> cases h <;> rfl

theorem signature?_relabel (op : String) (s : Site) :
    signature? op (s.relabel ρ) = (signature? op s).map (Ty.relabel ρ) := by
  rw [signature?, signature?]
  cases hfixed : fixed? op with
  | some t => exact congrArg some (relabel_of_fixed? ρ hfixed).symm
  | none =>
    cases hgeneric : generic? op with
    | none => rfl
    | some signature =>
      obtain ⟨params, result⟩ := signature
      simp [Ty.relabel, Ty.relabelEach_eq, Function.comp_def, relabel_of_generic? ρ hgeneric]

end Operator

end VariantScheme
