import VariantScheme.Issue
import VariantScheme.Proofs.Declarations
import VariantScheme.Proofs.Scope

/-!
    Well-formed code: its annotations are honest types, its literals have types, and nothing but
    expressions stands where an expression is wanted. Honest types have written forms, and so have
    the parameters and the declarations that mention only these. -/

namespace VariantScheme

/-- A type with no failure inside it, and nothing of no particular kind. -/
inductive Ty.Honest : Ty → Prop
  | atom {n : String} : Honest (.atom n)
  | quoted : Honest .quoted
  | var {n : String} {s : Site} : Honest (.var n s)
  | proc {ps : List Ty} {r : Ty} :
      (∀ p ∈ ps, Honest p) → Honest r → Honest (.proc ps r)
  | named {n : String} : Honest (.named n)
  | record {r : Record} : (∀ t ∈ r.fieldTypes, Honest t) → Honest (.record r)
  | variant {v : Variant} :
      (∀ r ∈ v.records, ∀ t ∈ r.fieldTypes, Honest t) → Honest (.variant v)

/-- An expression all of whose annotations are honest and all of whose literals have a type. -/
inductive Phrase.WellFormed : Phrase → Prop
  | literal {i value t} : value.type? = some t → WellFormed (.literal i value)
  | quotation {i datum} : WellFormed (.quotation i datum)
  | operator {i op} : WellFormed (.operator i op)
  | variable {i x} : WellFormed (.variable i x)
  | cond {i test thenPart elsePart} :
      WellFormed test → WellFormed thenPart → WellFormed elsePart →
      WellFormed (.cond i test thenPart elsePart)
  | lambda {i params result body} :
      (∀ x ∈ params, x.type.Honest) → result.Honest → (∀ p ∈ body.toList, WellFormed p) →
      WellFormed (.lambda i params result body)
  | call {i fn args} :
      WellFormed fn → (∀ a ∈ args, WellFormed a) → WellFormed (.call i fn args)
  | letIn {i bindings body} :
      (∀ b ∈ bindings, b.param.type.Honest) → (∀ b ∈ bindings, WellFormed b.value) →
      (∀ p ∈ body.toList, WellFormed p) → WellFormed (.letIn i bindings body)
  | letrec {i bindings body} :
      (∀ b ∈ bindings, b.param.type.Honest) → (∀ b ∈ bindings, WellFormed b.value) →
      (∀ p ∈ body.toList, WellFormed p) → WellFormed (.letrec i bindings body)
  | define {i param value} :
      param.type.Honest → WellFormed value → WellFormed (.define i param value)
  | assign {i x value} : WellFormed value → WellFormed (.assign i x value)
  | defineType {i v} : (Ty.variant v).Honest → WellFormed (.defineType i v)
  | typeCase {i type subject arms} :
      WellFormed subject → (∀ a ∈ arms, ∀ p ∈ a.body.toList, WellFormed p) →
      WellFormed (.typeCase i type subject arms)

/-- All top-level expressions are well formed. -/
def Body.WellFormed (program : Program) : Prop := ∀ p ∈ program.toList, p.WellFormed

/-- Every name in scope stands for an honest type. -/
def Env.Honest (env : Env) : Prop := ∀ x t, env.lookup? x = some t → t.Honest

/-- The declared types of definitions and of fields are honest. -/
structure Catalog.Honest (k : Catalog) : Prop where
  definitions : ∀ d ∈ k.definitions, d.type.Honest
  fields : ∀ r ∈ k.records, ∀ t ∈ r.fieldTypes, t.Honest

/-! ### Environments and catalogs -/

theorem Env.Honest.bind {env : Env} {pairs : List (String × Ty)} (henv : env.Honest)
    (hpairs : ∀ e ∈ pairs, e.2.Honest) : (env.bind pairs).Honest :=
  Env.forall_lookup?_bind henv hpairs

theorem Param.honest_entries {params : List Param} (h : ∀ x ∈ params, x.type.Honest) :
    ∀ e ∈ Param.entries params, e.2.Honest := by
  intro e he
  obtain ⟨x, hx, rfl⟩ := List.mem_map.mp he
  exact h x hx

/-- A well-formed program makes honest declarations. -/
theorem Body.WellFormed.honest_catalog {program : Program} (h : program.WellFormed) :
    program.catalog.Honest := by
  constructor
  · intro d hd
    obtain ⟨p, hp, hdef⟩ := List.mem_filterMap.mp hd
    cases h p hp with
    | define hparam => exact Option.some.inj hdef ▸ hparam
    | _ => cases hdef
  · intro r hr
    obtain ⟨v, hv, hr⟩ := List.mem_flatMap.mp hr
    obtain ⟨p, hp, hdecl⟩ := List.mem_filterMap.mp hv
    cases h p hp with
    | defineType hvariant =>
      obtain rfl := Option.some.inj hdecl
      cases hvariant with
      | variant hfields => exact hfields r hr
    | _ => cases hdecl

theorem Catalog.honest_predicate : Catalog.predicate.Honest :=
  .proc (fun _ hp => List.mem_singleton.mp hp ▸ .atom) .atom

theorem Catalog.honest_variantEntries (v : Variant) : ∀ e ∈ variantEntries v, e.2.Honest :=
  List.forall_mem_cons.mpr ⟨.named, List.forall_mem_singleton.mpr honest_predicate⟩

theorem Catalog.honest_recordEntries {r : Record} (h : ∀ t ∈ r.fieldTypes, t.Honest) :
    ∀ e ∈ recordEntries r, e.2.Honest :=
  List.forall_mem_cons.mpr ⟨.named, List.forall_mem_cons.mpr
    ⟨honest_predicate, List.forall_mem_singleton.mpr (.proc h .named)⟩⟩

/-- Globals are of honest types when the declarations are. -/
theorem Catalog.Honest.globals {k : Catalog} (h : k.Honest) : k.globals.Honest := by
  refine Env.Honest.bind (fun _ _ hnone => by cases hnone) fun e he => ?_
  rcases List.mem_append.mp he with he | he
  · rcases List.mem_append.mp he with he | he
    · exact Param.honest_entries h.definitions e he
    · obtain ⟨v, -, he⟩ := List.mem_flatMap.mp he
      exact honest_variantEntries v e he
  · obtain ⟨r, hr, he⟩ := List.mem_flatMap.mp he
    exact honest_recordEntries (h.fields r hr) e he

/-! ### Written forms -/

/-- When every member can be dealt with, so can all of them in turn. -/
theorem exists_mapM {ε α β : Type} {f : α → Except ε β} : ∀ {as : List α},
    (∀ a ∈ as, ∃ b, f a = .ok b) → ∃ bs, as.mapM f = .ok bs
  | [], _ => ⟨[], rfl⟩
  | a :: as, h => by
      obtain ⟨b, hb⟩ := h a List.mem_cons_self
      obtain ⟨bs, hbs⟩ := exists_mapM fun c hc => h c (List.mem_cons_of_mem _ hc)
      exact ⟨b :: bs, by rw [List.mapM_cons, hb, hbs]; rfl⟩

theorem Ty.renderEach_eq (ts : List Ty) : Ty.renderEach ts = ts.mapM Ty.render := by
  induction ts with
  | nil => rfl
  | cons t ts ih => rw [Ty.renderEach, List.mapM_cons, ih]

theorem Phrase.unparseEach_eq : ∀ ps : List Phrase,
    Phrase.unparseEach ps = ps.mapM Phrase.unparse
  | [] => rfl
  | p :: ps => by rw [Phrase.unparseEach, List.mapM_cons, Phrase.unparseEach_eq ps]

theorem Binding.unparseEach_eq : ∀ bs : List Binding,
    Binding.unparseEach bs = bs.mapM Binding.unparse
  | [] => rfl
  | b :: bs => by rw [Binding.unparseEach, List.mapM_cons, Binding.unparseEach_eq bs]

theorem Arm.unparseEach_eq : ∀ as : List Arm, Arm.unparseEach as = as.mapM Arm.unparse
  | [] => rfl
  | a :: as => by rw [Arm.unparseEach, List.mapM_cons, Arm.unparseEach_eq as]

/-- An honest type has a written form. -/
theorem Ty.Honest.exists_render {t : Ty} (h : t.Honest) : ∃ text, t.render = .ok text := by
  induction h with
  | @proc ps r _ _ ihps ihr =>
    obtain ⟨params, hparams⟩ := exists_mapM ihps
    obtain ⟨result, hresult⟩ := ihr
    exact ⟨_, by rw [Ty.render, Ty.renderEach_eq, hparams, hresult]; rfl⟩
  | _ => exact ⟨_, rfl⟩

theorem exists_annotated (name : String) {t : Ty} (h : t.Honest) :
    ∃ text, annotated name t = .ok text := by
  obtain ⟨text, htext⟩ := h.exists_render
  exact ⟨_, by rw [annotated, htext]; rfl⟩

theorem Param.exists_unparse {x : Param} (h : x.type.Honest) : ∃ text, x.unparse = .ok text :=
  exists_annotated x.name h

theorem Record.exists_unparse {r : Record} (h : ∀ t ∈ r.fieldTypes, t.Honest) :
    ∃ text, r.unparse = .ok text := by
  obtain ⟨fields, hfields⟩ := exists_mapM (f := fun x : Field => annotated x.name x.type)
    fun x hx => exists_annotated x.name (h x.type (List.mem_map.mpr ⟨x, hx, rfl⟩))
  exact ⟨_, by rw [Record.unparse, hfields]; rfl⟩

end VariantScheme
