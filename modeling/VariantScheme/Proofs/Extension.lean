import VariantScheme.Proofs.Continuation
import VariantScheme.Proofs.Simulation

/-!
    One variant more. At the end of a program a new variant is declared, with cases that the program
    has already or that are new as well. A case that was there gets one more variant above it, so
    that lists of ancestors get longer; but the newcomer comes last in them, and a type that was the
    first in common still is the first. So the verdict on code that knows nothing of the new names
    stays what it was, unless it was that some types have nothing in common. -/

namespace VariantScheme

/-! ### Mentions -/

/-- The name comes up in the type, as a reference or as what it declares. -/
inductive Ty.Mentions (n : String) : Ty → Prop
  | named : Mentions n (.named n)
  | param {ps : List Ty} {r p : Ty} (mem : p ∈ ps) (inside : Mentions n p) : Mentions n (.proc ps r)
  | result {ps : List Ty} {r : Ty} (inside : Mentions n r) : Mentions n (.proc ps r)
  | record {r : Record} (name : r.name = n) : Mentions n (.record r)
  | field {r : Record} {f : Field} (mem : f ∈ r.fields) (inside : Mentions n f.type) :
      Mentions n (.record r)
  | variant {v : Variant} (name : v.name = n) : Mentions n (.variant v)
  | case {v : Variant} {r : Record} (mem : r ∈ v.records) (inside : Mentions n (.record r)) :
      Mentions n (.variant v)

/-- The name comes up in a type somewhere in the phrase, or in a case analysis. -/
def Phrase.Mentions (n : String) (p : Phrase) : Prop :=
  ∃ q, p.Contains q ∧ ∃ t ∈ q.typesAt, t.Mentions n

/-- There is no declaration of a variant in the phrase, at any depth. -/
def Phrase.NeverDeclares (p : Phrase) : Prop := ∀ i v, ¬ p.Contains (.defineType i v)

/-- The name comes up neither in the program, where it would be to declare it, nor in the expression
    or in the types of the names in scope. -/
structure Unmentioned (n : String) (program : Program) (e : Phrase) (env : Env) : Prop where
  program : ∀ p ∈ program.toList, ¬ p.Mentions n
  expression : ¬ e.Mentions n
  scope : ∀ x t, env.lookup? x = some t → ¬ t.Mentions n

section

variable {n : String}

theorem Ty.Mentions.of_name? {t : Ty} (h : t.name? = some n) : t.Mentions n := by
  cases t with
  | named m => exact Option.some.inj h ▸ .named
  | record r => exact .record (Option.some.inj h)
  | variant v => exact .variant (Option.some.inj h)
  | _ => cases h

theorem Ty.not_mentions_atom {m : String} : ¬ (Ty.atom m).Mentions n := nofun

theorem Ty.mentions_named_iff {m : String} : (Ty.named m).Mentions n ↔ m = n := by
  constructor
  · intro h
    cases h
    rfl
  · rintro rfl
    exact .named

theorem Ty.mentions_proc_iff {ps : List Ty} {r : Ty} :
    (Ty.proc ps r).Mentions n ↔ (∃ p ∈ ps, p.Mentions n) ∨ r.Mentions n := by
  constructor
  · intro h
    cases h with
    | param mem inside => exact .inl ⟨_, mem, inside⟩
    | result inside => exact .inr inside
  · rintro (⟨p, mem, inside⟩ | inside)
    · exact .param mem inside
    · exact .result inside

theorem Ty.mentions_record_iff {r : Record} :
    (Ty.record r).Mentions n ↔ r.name = n ∨ ∃ f ∈ r.fields, f.type.Mentions n := by
  constructor
  · intro h
    cases h with
    | record name => exact .inl name
    | field mem inside => exact .inr ⟨_, mem, inside⟩
  · rintro (name | ⟨f, mem, inside⟩)
    · exact .record name
    · exact .field mem inside

theorem Ty.mentions_variant_iff {v : Variant} :
    (Ty.variant v).Mentions n ↔ v.name = n ∨ ∃ r ∈ v.records, (Ty.record r).Mentions n := by
  constructor
  · intro h
    cases h with
    | variant name => exact .inl name
    | case mem inside => exact .inr ⟨_, mem, inside⟩
  · rintro (name | ⟨r, mem, inside⟩)
    · exact .variant name
    · exact .case mem inside

/-- What a type mentions by its name alone. -/
theorem Ty.Mentions.of_byName {t : Ty} (h : t.byName.Mentions n) : t.Mentions n := by
  cases hname : t.name? with
  | none => rwa [Ty.byName, hname] at h
  | some m =>
    rw [Ty.byName, hname] at h
    obtain rfl := Ty.mentions_named_iff.mp h
    exact .of_name? hname

end

/-! ### The catalog with one variant more -/

namespace Catalog

/-- The catalog with a variant more, declared last. -/
def declare (k : Catalog) (u : Variant) : Catalog := { k with variants := k.variants ++ [u] }

/-- The name is that of the variant, or of a case that no variant had before. -/
def Introduces (k : Catalog) (u : Variant) (n : String) : Prop :=
  n = u.name ∨ (n ∈ u.recordNames ∧ ¬ k.DeclaresRecord n)

/-- No name that `u` introduces comes up in the type. -/
def Untouched (k : Catalog) (u : Variant) (t : Ty) : Prop := ∀ n, k.Introduces u n → ¬ t.Mentions n

variable {k : Catalog} {u : Variant} {n : String} {t a d : Ty} {ts : List Ty}

theorem Untouched.not_introduces (h : k.Untouched u t) (hn : t.Mentions n) : ¬ k.Introduces u n :=
  fun hnew => h n hnew hn

theorem Untouched.ne_named (h : k.Untouched u t) : t ≠ .named u.name := by
  rintro rfl
  exact h u.name (.inl rfl) .named

theorem hereditary_untouched (k : Catalog) (u : Variant) : Ty.Hereditary (k.Untouched u) where
  atom _ _ _ := Ty.not_mentions_atom
  quoted _ _ := nofun
  var _ _ _ _ := nofun
  proc_iff ps r := by
    simp only [Untouched, Ty.mentions_proc_iff, not_or, not_exists, not_and]
    constructor
    · exact fun h => ⟨fun p hp n hn => (h n hn).1 p hp, fun n hn => (h n hn).2⟩
    · exact fun h n hn => ⟨fun p hp => h.1 p hp n hn, h.2 n hn⟩

/-! #### Looking names up -/

theorem records_declare : (k.declare u).records = k.records ++ u.records := by
  simp [records, declare]

theorem declaresVariant_declare (hn : ¬ k.Introduces u n) :
    (k.declare u).DeclaresVariant n ↔ k.DeclaresVariant n := by
  have hname : u.name ≠ n := fun h => hn (.inl h.symm)
  simp [DeclaresVariant, declare, or_and_right, exists_or, hname]

theorem declaresRecord_declare (hn : ¬ k.Introduces u n) :
    (k.declare u).DeclaresRecord n ↔ k.DeclaresRecord n := by
  have hcase : (∃ r ∈ u.records, r.name = n) → k.DeclaresRecord n := fun h =>
    Classical.byContradiction fun hfree => hn (.inr ⟨mem_recordNames.mpr h, hfree⟩)
  rw [DeclaresRecord, records_declare]
  simp only [List.mem_append, or_and_right, exists_or]
  exact or_iff_left_of_imp hcase

theorem variant?_declare (hn : ¬ k.Introduces u n) : (k.declare u).variant? n = k.variant? n := by
  have hname : (u.name == n) = false := beq_false_of_ne fun h => hn (.inl h.symm)
  simp [variant?, declare, List.find?_append, hname]

theorem record?_declare (hn : ¬ k.Introduces u n) : (k.declare u).record? n = k.record? n := by
  rw [record?, records_declare, List.find?_append]
  cases hfound : k.record? n with
  | some r =>
    rw [record?] at hfound
    rw [hfound, Option.some_or]
  | none =>
    have hfree : ¬ k.DeclaresRecord n := record?_isNone_iff.mp (by rw [hfound]; rfl)
    rw [record?] at hfound
    rw [hfound, Option.none_or, List.find?_eq_none]
    intro r hr hname
    exact hn (.inr ⟨mem_recordNames.mpr ⟨r, hr, eq_of_beq hname⟩, hfree⟩)

/-! #### What lies above -/

/-- Above a type that the newcomer leaves alone, only the newcomer is new. -/
theorem above_declare_iff (ht : k.Untouched u t) (ha : a ≠ .named u.name) :
    (k.declare u).Above t a ↔ k.Above t a := by
  have hname : ∀ {n}, t.reference? = some n → ¬ k.Introduces u n := fun href =>
    ht.not_introduces (.of_name? (Ty.name?_of_reference? href))
  constructor
  · intro h
    cases h with
    | declared ref decl =>
      rw [declaresVariant_declare (hname ref), declaresRecord_declare (hname ref)] at decl
      exact .declared ref decl
    | listed ref free mem case =>
      rw [declaresVariant_declare (hname ref)] at free
      rcases List.mem_append.mp mem with mem | mem
      · exact .listed ref free mem case
      · rw [List.mem_singleton.mp mem] at ha
        exact absurd rfl ha
    | _ => constructor
  · intro h
    cases h with
    | declared ref decl =>
      rw [← declaresVariant_declare (hname ref), ← declaresRecord_declare (hname ref)] at decl
      exact .declared ref decl
    | listed ref free mem case =>
      rw [← declaresVariant_declare (hname ref)] at free
      exact .listed ref free (List.mem_append_left _ mem) case
    | _ => constructor

theorem aboveAll_declare_iff (hts : ∀ t ∈ ts, k.Untouched u t) (ha : a ≠ .named u.name) :
    (k.declare u).AboveAll ts a ↔ k.AboveAll ts a :=
  forall₂_congr fun t ht => above_declare_iff (hts t ht) ha

/-- Two catalogs that have the same names above a type let it stand in the same places. -/
theorem Fits.of_above {k' : Catalog} (h : k.Fits a d)
    (habove : ∀ n, d.name? = some n → k.Above a (.named n) → k'.Above a (.named n)) :
    k'.Fits a d := by
  cases h with
  | top => exact .top
  | same => exact .same
  | sameName left right => exact .sameName left right
  | case ref record free mem right listed =>
    have hcase := habove _ right (.listed ref free mem listed)
    exact (fits_named_iff (Ty.name?_of_reference? ref) right).mpr (.inr hcase)

theorem fits_declare (ha : k.Untouched u a) (hd : k.Untouched u d) :
    (k.declare u).fits a d = k.fits a d := by
  have hname : ∀ n, d.name? = some n → Ty.named n ≠ .named u.name := by
    rintro n hn h
    exact hd.not_introduces (.of_name? hn) (.inl (Ty.named.inj h))
  rw [Bool.eq_iff_iff, fits_iff, fits_iff]
  constructor
  · exact fun h => h.of_above fun n hn => (above_declare_iff ha (hname n hn)).mp
  · exact fun h => h.of_above fun n hn => (above_declare_iff ha (hname n hn)).mpr

theorem compatible_declare (ha : k.Untouched u a) (hd : k.Untouched u d) (site : Phrase) :
    (k.declare u).compatible a d site = k.compatible a d site := by
  rw [compatible, compatible, fits_declare ha hd]

/-! #### The join -/

/-- No name that `u` introduces comes up in the declarations. -/
def NewTo (k : Catalog) (u : Variant) : Prop := ∀ v ∈ k.variants, k.Untouched u (.variant v)

theorem NewTo.untouched_named (hnew : k.NewTo u) {v : Variant} (hv : v ∈ k.variants) :
    k.Untouched u (.named v.name) := by
  intro n hn h
  exact hnew v hv n hn (.variant (Ty.mentions_named_iff.mp h))

theorem NewTo.untouched_fields (hnew : k.NewTo u) {r : Record} (hr : r ∈ k.records) :
    ∀ t ∈ r.fieldTypes, k.Untouched u t := by
  obtain ⟨v, hv, hr⟩ := mem_records.mp hr
  refine List.forall_mem_map.mpr fun f hf n hn h => ?_
  exact hnew v hv n hn (.case hr (.field hf h))

/-- What was the join of some types still is, and has none of the new names. -/
theorem Joins.declare (hnew : k.NewTo u) (hts : ∀ t ∈ ts, k.Untouched u t) (h : k.Joins ts a) :
    (k.declare u).Joins ts a ∧ k.Untouched u a := by
  cases h with
  | @itself t ts common =>
    have hself : k.Untouched u t.byName := fun n hn hm =>
      hts t List.mem_cons_self n hn hm.of_byName
    exact ⟨.itself ((aboveAll_declare_iff hts hself.ne_named).mpr common), hself⟩
  | @variant t ts n v before after ref free proper order case common earliest =>
    obtain ⟨ht, hts⟩ := List.forall_mem_cons.mp hts
    have hn : ¬ k.Introduces u n := ht.not_introduces (.of_name? (Ty.name?_of_reference? ref))
    have hmem : ∀ w ∈ before ++ v :: after, (Ty.named w.name) ≠ .named u.name := fun w hw =>
      (hnew.untouched_named (order ▸ hw)).ne_named
    have hv := hnew.untouched_named (v := v) (by simp [order])
    have horder : (k.declare u).variants = before ++ v :: (after ++ [u]) := by
      simp [Catalog.declare, order]
    refine ⟨.variant ref ?_ ?_ horder case ?_ ?_, hv⟩
    · rwa [declaresVariant_declare hn]
    · rwa [aboveAll_declare_iff hts fun h => hn (.inl (Ty.named.inj h))]
    · rwa [aboveAll_declare_iff hts hv.ne_named]
    · intro w hw hcase
      rw [aboveAll_declare_iff hts (hmem w (List.mem_append_left _ hw))]
      exact earliest w hw hcase

theorem eq_noCommonType_of_join {f : Failure} (h : k.join ts = .ok (.failure f)) :
    f = .noCommonType ts := by
  cases ts with
  | nil =>
    cases h
    rfl
  | cons t ts => exact (commonAncestors_of_join_failure (ancestors_of_join h) h).1

/-! #### Case analyses -/

theorem armFault?_declare {type : String} {v : Variant} {arm : Arm}
    (harm : ¬ k.Introduces u arm.record) :
    (k.declare u).armFault? type v arm = k.armFault? type v arm := by
  rw [armFault?, armFault?, record?_declare harm]

theorem findSome?_armFault?_declare {type : String} {v : Variant} : ∀ {arms : List Arm},
    (∀ arm ∈ arms, ¬ k.Introduces u arm.record) →
    arms.findSome? ((k.declare u).armFault? type v) = arms.findSome? (k.armFault? type v)
  | [], _ => rfl
  | arm :: arms, h => by
      obtain ⟨harm, harms⟩ := List.forall_mem_cons.mp h
      rw [List.findSome?_cons, List.findSome?_cons, armFault?_declare harm,
        findSome?_armFault?_declare harms]

theorem caseFault?_declare {type : String} {arms : List Arm} (htype : ¬ k.Introduces u type)
    (harms : ∀ arm ∈ arms, ¬ k.Introduces u arm.record) :
    (k.declare u).caseFault? type arms = k.caseFault? type arms := by
  rw [caseFault?, caseFault?, variant?_declare htype]
  cases k.variant? type with
  | none => rfl
  | some v => simp only [findSome?_armFault?_declare harms]

end Catalog

theorem Body.catalog_declare (program : Program) (i : Nat) (u : Variant) :
    (program.followedBy (.defineType i u)).catalog = program.catalog.declare u := by
  have htoList : (program.followedBy (.defineType i u)).toList =
      program.toList ++ [.defineType i u] := rfl
  simp [Body.catalog, Catalog.ofPhrases, Catalog.declare, htoList, Phrase.definition?,
    Phrase.declaration?]

/-! ### Checking with one variant more -/

/-- The halts that a declaration more may change: the types at hand have nothing in common, or the
    check was given up. -/
inductive Halt.Revisable : Halt → Prop
  | noCommonType {ts : List Ty} : Revisable (.failed (.noCommonType ts))
  | refused {r : Refusal} : Revisable (.refused r)

namespace Checker

open Catalog

variable {k : Catalog} {u : Variant} {lenient : Bool}

theorem matches_join (hnew : k.NewTo u) {ts : List Ty} (hts : ∀ t ∈ ts, k.Untouched u t) :
    Matches Halt.Revisable (k.Untouched u) ((⟨lenient, some k⟩ : Checker).join ts)
      ((⟨lenient, some (k.declare u)⟩ : Checker).join ts) := by
  rw [Checker.join, Checker.join, catalog_bind, catalog_bind]
  cases hjoin : k.join ts with
  | error e => exact .inr .refused
  | ok a =>
    cases ha : a.isFailure with
    | true =>
      cases a with
      | failure f =>
        obtain rfl := eq_noCommonType_of_join hjoin
        exact .inr .noCommonType
      | _ => cases ha
    | false =>
      obtain ⟨hjoins, huntouched⟩ := (join_iff.mp ⟨hjoin, ha⟩).declare hnew hts
      have hdetect : detect a = .ok a := detect_eq_ok_iff.mpr ⟨rfl, ha⟩
      rw [(join_iff.mpr hjoins).1]
      exact .same fun b hb => Except.ok.inj (hdetect.symm.trans hb) ▸ huntouched

theorem follows_declare (hnew : k.NewTo u) :
    Follows Halt.Revisable (k.Untouched u) ⟨lenient, some k⟩ ⟨lenient, some (k.declare u)⟩ where
  toHereditary := k.hereditary_untouched u
  expect ha hd site := by
    rw [Checker.expect, Checker.expect, catalog_bind, catalog_bind, compatible_declare ha hd]
  branches {a b} ha hb := by
    rw [Checker.branches, Checker.branches, catalog_bind, catalog_bind, fits_declare ha hb]
    split
    · exact ⟨rfl, hb⟩
    · exact matches_join hnew (by simp [ha, hb])
  join hts := matches_join hnew hts

theorem within_declare (hnew : k.NewTo u) {e : Phrase} (hdeclare : e.NeverDeclares)
    (he : ∀ n, k.Introduces u n → ¬ e.Mentions n) :
    e.Within (AlikeAt Halt.Revisable (k.Untouched u) ⟨lenient, some k⟩
      ⟨lenient, some (k.declare u)⟩) := by
  intro q hq
  have htypes : ∀ t ∈ q.typesAt, k.Untouched u t := fun t ht n hn hm => he n hn ⟨q, hq, t, ht, hm⟩
  refine ⟨htypes, ?_⟩
  cases q with
  | assign => rfl
  | defineType i v => exact absurd hq (hdeclare i v)
  | typeCase i type subject arms =>
    obtain ⟨htype, harms⟩ := List.forall_mem_cons.mp htypes
    have hfault := caseFault?_declare (htype.not_introduces .named)
      fun a ha => (List.forall_mem_map.mp harms a ha).not_introduces .named
    refine .inl ⟨rfl, ?_⟩
    rw [expectCases, expectCases, catalog_bind, catalog_bind, hfault]
  | arm a =>
    have hrecord := record?_declare ((htypes _ List.mem_cons_self).not_introduces .named)
    refine ⟨?_, fun fields hfields => ?_⟩
    · rw [armFields, armFields, catalog_bind, catalog_bind, hrecord]
    · obtain ⟨r, hr, -, rfl⟩ := armFields_eq_ok_iff.mp hfields
      exact hnew.untouched_fields (record?_mem hr).1
  | _ => trivial

/-- The check comes to the same with a variant more, or its halt is one that this may change. -/
theorem check_declare (hnew : k.NewTo u) {e : Phrase} {env : Env} (hdeclare : e.NeverDeclares)
    (he : ∀ n, k.Introduces u n → ¬ e.Mentions n) (henv : env.Clean (k.Untouched u)) :
    (⟨lenient, some (k.declare u)⟩ : Checker).check e env =
        (⟨lenient, some k⟩ : Checker).check e env ∨
      ∃ halt, (⟨lenient, some k⟩ : Checker).check e env = .error halt ∧ halt.Revisable :=
  ((follows_declare hnew).check e (within_declare hnew hdeclare he) henv).eq_or_excused

end Checker

theorem Report.not_revisable_of_conclude {r : Report} {halt : Halt} {t : Ty}
    (h : (r.conclude (.error halt)).1 = .ok t) (ht : ∀ ts, t ≠ .failure (.noCommonType ts)) :
    ¬ halt.Revisable := by
  intro hrev
  cases hrev with
  | refused => cases h
  | @noCommonType ts =>
    rw [conclude] at h
    cases hfail : (r.fail (.noCommonType ts)).1 with
    | error e =>
      rw [hfail] at h
      cases h
    | ok _ =>
      rw [hfail] at h
      exact ht ts (Except.ok.inj h).symm

/-- What a new variant introduces is mentioned nowhere. -/
theorem unmentioned_of_introduces {program : Program} {u : Variant} {e : Phrase} {env : Env}
    (hname : Unmentioned u.name program e env)
    (hrecords : ∀ s ∈ u.records, s ∈ program.catalog.records ∨ Unmentioned s.name program e env)
    {n : String} (hn : program.catalog.Introduces u n) : Unmentioned n program e env := by
  rcases hn with rfl | ⟨hcase, hfree⟩
  · exact hname
  · obtain ⟨s, hs, rfl⟩ := Catalog.mem_recordNames.mp hcase
    exact (hrecords s hs).resolve_left fun hmem => hfree ⟨s, hmem, rfl⟩

theorem newTo_of_unmentioned {program : Program} {u : Variant} {e : Phrase} {env : Env}
    (h : ∀ n, program.catalog.Introduces u n → Unmentioned n program e env) :
    program.catalog.NewTo u := by
  intro v hv n hn hm
  obtain ⟨p, hp, hdecl⟩ := List.mem_filterMap.mp hv
  cases p with
  | defineType i w =>
    obtain rfl := Option.some.inj hdecl
    exact (h n hn).program _ hp ⟨_, .self, _, List.mem_cons_self, hm⟩
  | _ => cases hdecl

/-- To declare one variant more is conservative. Its name is new to the program, to the expression
    and to the scope, and each of its cases is one of the program's or has a new name too. Then a
    verdict on the expression, other than that types have nothing in common, is also the verdict
    with the new variant, and the report is the same. -/
theorem typeOfExpression_declare (program : Program) (i : Nat) (u : Variant) (e : Phrase)
    (env : Env) (r : Report) (lenient : Bool) (hname : Unmentioned u.name program e env)
    (hrecords : ∀ s ∈ u.records, s ∈ program.catalog.records ∨ Unmentioned s.name program e env)
    (hdeclare : e.NeverDeclares) {t : Ty}
    (hverdict : (typeOfExpression e env program r lenient).verdict = .ok t)
    (ht : ∀ ts, t ≠ .failure (.noCommonType ts)) :
    typeOfExpression e env (program.followedBy (.defineType i u)) r lenient =
      typeOfExpression e env program r lenient := by
  have hnew : ∀ n, program.catalog.Introduces u n → Unmentioned n program e env :=
    fun n => unmentioned_of_introduces hname hrecords
  have henv : env.Clean (program.catalog.Untouched u) := fun x t hx n hn =>
    (hnew n hn).scope x t hx
  rcases Checker.check_declare (newTo_of_unmentioned hnew) hdeclare
    (fun n hn => (hnew n hn).expression) henv with hsame | ⟨halt, hhalt, hrevisable⟩
  · rw [typeOfExpression_eq, typeOfExpression_eq, Body.catalog_declare, hsame]
  · rw [typeOfExpression_eq, hhalt] at hverdict
    exact absurd hrevisable (Report.not_revisable_of_conclude hverdict ht)

/-- Shapes of two kinds. -/
def shapes : Program :=
  ⟨[], .defineType 0 ⟨"Shape", [⟨"Circle", [⟨"r", .number⟩]⟩, ⟨"Box", [⟨"w", .number⟩]⟩]⟩⟩

/-- The same two kinds and a third, which is about a solid inside. -/
def solids : Variant :=
  ⟨"Solid", [⟨"Box", [⟨"w", .number⟩]⟩, ⟨"Circle", [⟨"r", .number⟩]⟩,
    ⟨"Shell", [⟨"inner", .named "Solid"⟩]⟩]⟩

/-- One of two shapes. -/
def eitherShape : Phrase :=
  .cond 1 (.literal 2 (.bool true)) (.variable 3 "c") (.variable 4 "b")

/-- Names for a shape of either kind. -/
def shapeScope : Env := Env.bind [] [("c", .named "Circle"), ("b", .named "Box")]

/-- With solids declared, shapes and solids lie above both branches; the type is still `Shape`. -/
theorem typeOfExpression_declare_solids :
    (shapes.followedBy (.defineType 5 solids)).catalog.commonAncestors
        [.named "Circle", .named "Box"] = .ok [.named "Shape", .named "Solid"] ∧
      (typeOfExpression eitherShape shapeScope shapes {} false).verdict = .ok (.named "Shape") ∧
      typeOfExpression eitherShape shapeScope (shapes.followedBy (.defineType 5 solids)) {} false =
        typeOfExpression eitherShape shapeScope shapes {} false := by
  have hwithin : eitherShape.Within fun q => q.typesAt = [] ∧ ∀ i v, q ≠ .defineType i v :=
    .of_parts ⟨rfl, by simp [eitherShape]⟩ (List.forall_mem_cons.mpr ⟨.leaf ⟨rfl, by simp⟩ rfl,
      List.forall_mem_cons.mpr ⟨.leaf ⟨rfl, by simp⟩ rfl,
        List.forall_mem_singleton.mpr (.leaf ⟨rfl, by simp⟩ rfl)⟩⟩)
  have hnew : ∀ n, "Shape" ≠ n ∧ "Circle" ≠ n ∧ "Box" ≠ n →
      Unmentioned n shapes eitherShape shapeScope := by
    rintro n ⟨hshape, hcircle, hbox⟩
    have hdecl : shapes.last.Within fun q => ∀ t ∈ q.typesAt, ¬ t.Mentions n := by
      refine .leaf (List.forall_mem_singleton.mpr ?_) rfl
      simp [Ty.mentions_variant_iff, Ty.mentions_record_iff, Ty.number, Ty.not_mentions_atom,
        hshape, hcircle, hbox]
    have hscope : ∀ e ∈ [("c", Ty.named "Circle"), ("b", .named "Box")], ¬ e.2.Mentions n := by
      simp [Ty.mentions_named_iff, hcircle, hbox]
    refine ⟨List.forall_mem_singleton.mpr ?_, ?_,
      Env.forall_lookup?_bind (by simp [Env.lookup?]) hscope⟩
    · rintro ⟨q, hq, t, ht, hm⟩
      exact hdecl q hq t ht hm
    · rintro ⟨q, hq, t, ht, -⟩
      rw [(hwithin q hq).1] at ht
      exact List.not_mem_nil ht
  have hrecords : ∀ s ∈ solids.records, s ∈ shapes.catalog.records ∨ s.name = "Shell" := by decide
  have hverdict : (typeOfExpression eitherShape shapeScope shapes {} false).verdict =
      .ok (.named "Shape") := rfl
  refine ⟨rfl, hverdict, typeOfExpression_declare shapes 5 solids eitherShape _ {} false
    (hnew "Solid" (by decide)) (fun s hs => ?_) (fun i v h => (hwithin _ h).2 i v rfl) hverdict
    (by simp)⟩
  rcases hrecords s hs with hold | hshell
  · exact .inl hold
  · exact .inr (hshell ▸ hnew "Shell" (by decide))

end VariantScheme
