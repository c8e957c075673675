import Mathlib.Logic.Function.Basic
import VariantScheme.Proofs.WellFormed

/-!
    New identities for nodes. Wherever a type, a failure or a phrase holds the identity of a node,
    `relabel` puts another in its place. Texts stay as they are, and so does everything that goes by
    name; and where different nodes stay different, different types do (`Ty.relabel_injective`),
    because a way back for the nodes is one for the types as well. -/

namespace VariantScheme

/-! ### Types and failures -/

def Occurrence.relabel (ρ : Nat → Nat) (place : Occurrence) : Occurrence := ⟨ρ place.id, place.text⟩

def Site.relabel (ρ : Nat → Nat) : Site → Site
  | .node place => .node (place.relabel ρ)
  | .unplaced => .unplaced
  | .label text => .label text

mutual

def Field.relabel (ρ : Nat → Nat) : Field → Field
  | ⟨n, t⟩ => ⟨n, t.relabel ρ⟩
termination_by structural f => f

def Field.relabelEach (ρ : Nat → Nat) : List Field → List Field
  | [] => []
  | f :: fs => f.relabel ρ :: Field.relabelEach ρ fs
termination_by structural fs => fs

def Record.relabel (ρ : Nat → Nat) : Record → Record
  | ⟨n, fs⟩ => ⟨n, Field.relabelEach ρ fs⟩
termination_by structural r => r

def Record.relabelEach (ρ : Nat → Nat) : List Record → List Record
  | [] => []
  | r :: rs => r.relabel ρ :: Record.relabelEach ρ rs
termination_by structural rs => rs

def Variant.relabel (ρ : Nat → Nat) : Variant → Variant
  | ⟨n, rs⟩ => ⟨n, Record.relabelEach ρ rs⟩
termination_by structural v => v

/-- The type with the type variables of other nodes. A type of no kind is no node, and stays. -/
def Ty.relabel (ρ : Nat → Nat) : Ty → Ty
  | .atom n => .atom n
  | .quoted => .quoted
  | .var n s => .var n (s.relabel ρ)
  | .proc ps r => .proc (Ty.relabelEach ρ ps) (r.relabel ρ)
  | .named n => .named n
  | .record r => .record (r.relabel ρ)
  | .variant v => .variant (v.relabel ρ)
  | .failure f => .failure (f.relabel ρ)
  | .bare i => .bare i
termination_by structural t => t

def Ty.relabelEach (ρ : Nat → Nat) : List Ty → List Ty
  | [] => []
  | t :: ts => t.relabel ρ :: Ty.relabelEach ρ ts
termination_by structural ts => ts

/-- The failure at another place. -/
def Failure.relabel (ρ : Nat → Nat) : Failure → Failure
  | .incompatible computed expected site =>
      .incompatible (computed.relabel ρ) (expected.relabel ρ) (site.relabel ρ)
  | .notAProcedure type site => .notAProcedure (type.relabel ρ) (site.relabel ρ)
  | .arityMismatch site need got => .arityMismatch (site.relabel ρ) need got
  | .noCommonType types => .noCommonType (Ty.relabelEach ρ types)
  | .letrecRequiresProcedures site => .letrecRequiresProcedures (site.relabel ρ)
  | f => f
termination_by structural f => f

end

section

variable (ρ : Nat → Nat)

theorem Field.relabelEach_eq (fs : List Field) :
    Field.relabelEach ρ fs = fs.map (Field.relabel ρ) := by
  induction fs with
  | nil => rfl
  | cons f fs ih => rw [Field.relabelEach, List.map_cons, ih]

theorem Record.relabelEach_eq (rs : List Record) :
    Record.relabelEach ρ rs = rs.map (Record.relabel ρ) := by
  induction rs with
  | nil => rfl
  | cons r rs ih => rw [Record.relabelEach, List.map_cons, ih]

theorem Ty.relabelEach_eq (ts : List Ty) :
    Ty.relabelEach ρ ts = ts.map (Ty.relabel ρ) := by
  induction ts with
  | nil => rfl
  | cons t ts ih => rw [Ty.relabelEach, List.map_cons, ih]

@[simp] theorem Field.name_relabel (f : Field) : (f.relabel ρ).name = f.name := by
  cases f
  rfl

@[simp] theorem Field.type_relabel (f : Field) : (f.relabel ρ).type = f.type.relabel ρ := by
  cases f
  rfl

@[simp] theorem Record.name_relabel (r : Record) : (r.relabel ρ).name = r.name := by
  cases r
  rfl

@[simp] theorem Record.fields_relabel (r : Record) :
    (r.relabel ρ).fields = r.fields.map (Field.relabel ρ) := by
  cases r
  exact Field.relabelEach_eq ρ _

@[simp] theorem Variant.name_relabel (v : Variant) : (v.relabel ρ).name = v.name := by
  cases v
  rfl

@[simp] theorem Variant.records_relabel (v : Variant) :
    (v.relabel ρ).records = v.records.map (Record.relabel ρ) := by
  cases v
  exact Record.relabelEach_eq ρ _

theorem Record.fieldTypes_relabel (r : Record) :
    (r.relabel ρ).fieldTypes = r.fieldTypes.map (Ty.relabel ρ) := by
  simp [Record.fieldTypes, Function.comp_def]

theorem Variant.fieldTypes_relabel (v : Variant) :
    (v.relabel ρ).fieldTypes = v.fieldTypes.map (Ty.relabel ρ) := by
  simp [Variant.fieldTypes, List.flatMap_map, List.map_flatMap, Record.fieldTypes_relabel]

theorem Variant.recordNames_relabel (v : Variant) : (v.relabel ρ).recordNames = v.recordNames := by
  simp [Variant.recordNames, Function.comp_def]

@[simp] theorem Ty.name?_relabel (t : Ty) : (t.relabel ρ).name? = t.name? := by
  cases t with
  | record r => exact congrArg some (r.name_relabel ρ)
  | variant v => exact congrArg some (v.name_relabel ρ)
  | _ => rfl

@[simp] theorem Ty.isAtomic_relabel (t : Ty) : (t.relabel ρ).isAtomic = t.isAtomic := by
  cases t <;> rfl

@[simp] theorem Ty.isVar_relabel (t : Ty) : (t.relabel ρ).isVar = t.isVar := by
  cases t <;> rfl

end

/-! ### The way back -/

section

variable {ρ σ : Nat → Nat}

theorem Occurrence.relabel_relabel (h : Function.LeftInverse σ ρ) (place : Occurrence) :
    (place.relabel ρ).relabel σ = place := by
  rw [Occurrence.relabel, Occurrence.relabel, h]

theorem Site.relabel_relabel (h : Function.LeftInverse σ ρ) (s : Site) :
    (s.relabel ρ).relabel σ = s := by
  cases s with
  | node place => rw [Site.relabel, Site.relabel, place.relabel_relabel h]
  | _ => rfl

mutual

theorem Field.relabel_relabel (h : Function.LeftInverse σ ρ) : ∀ f : Field,
    (f.relabel ρ).relabel σ = f
  | ⟨_, t⟩ => by rw [Field.relabel, Field.relabel, t.relabel_relabel h]

theorem Field.relabelEach_relabelEach (h : Function.LeftInverse σ ρ) : ∀ fs : List Field,
    Field.relabelEach σ (Field.relabelEach ρ fs) = fs
  | [] => rfl
  | f :: fs => by
      rw [Field.relabelEach, Field.relabelEach, f.relabel_relabel h,
        Field.relabelEach_relabelEach h fs]

theorem Record.relabel_relabel (h : Function.LeftInverse σ ρ) : ∀ r : Record,
    (r.relabel ρ).relabel σ = r
  | ⟨_, fs⟩ => by rw [Record.relabel, Record.relabel, Field.relabelEach_relabelEach h fs]

theorem Record.relabelEach_relabelEach (h : Function.LeftInverse σ ρ) : ∀ rs : List Record,
    Record.relabelEach σ (Record.relabelEach ρ rs) = rs
  | [] => rfl
  | r :: rs => by
      rw [Record.relabelEach, Record.relabelEach, r.relabel_relabel h,
        Record.relabelEach_relabelEach h rs]

theorem Variant.relabel_relabel (h : Function.LeftInverse σ ρ) : ∀ v : Variant,
    (v.relabel ρ).relabel σ = v
  | ⟨_, rs⟩ => by rw [Variant.relabel, Variant.relabel, Record.relabelEach_relabelEach h rs]

theorem Ty.relabel_relabel (h : Function.LeftInverse σ ρ) : ∀ t : Ty, (t.relabel ρ).relabel σ = t
  | .var _ s => by rw [Ty.relabel, Ty.relabel, s.relabel_relabel h]
  | .proc ps r => by
      rw [Ty.relabel, Ty.relabel, Ty.relabelEach_relabelEach h ps, r.relabel_relabel h]
  | .record r => by rw [Ty.relabel, Ty.relabel, r.relabel_relabel h]
  | .variant v => by rw [Ty.relabel, Ty.relabel, v.relabel_relabel h]
  | .failure f => by rw [Ty.relabel, Ty.relabel, f.relabel_relabel h]
  | .atom _ | .quoted | .named _ | .bare _ => rfl

theorem Ty.relabelEach_relabelEach (h : Function.LeftInverse σ ρ) : ∀ ts : List Ty,
    Ty.relabelEach σ (Ty.relabelEach ρ ts) = ts
  | [] => rfl
  | t :: ts => by
      rw [Ty.relabelEach, Ty.relabelEach, t.relabel_relabel h, Ty.relabelEach_relabelEach h ts]

theorem Failure.relabel_relabel (h : Function.LeftInverse σ ρ) : ∀ f : Failure,
    (f.relabel ρ).relabel σ = f
  | .incompatible c e s => by
      rw [Failure.relabel, Failure.relabel, c.relabel_relabel h, e.relabel_relabel h,
        s.relabel_relabel h]
  | .notAProcedure t s => by
      rw [Failure.relabel, Failure.relabel, t.relabel_relabel h, s.relabel_relabel h]
  | .arityMismatch s _ _ => by rw [Failure.relabel, Failure.relabel, s.relabel_relabel h]
  | .noCommonType ts => by
      rw [Failure.relabel, Failure.relabel, Ty.relabelEach_relabelEach h ts]
  | .letrecRequiresProcedures s => by rw [Failure.relabel, Failure.relabel, s.relabel_relabel h]
  | .unboundVariable _ | .notFound _ | .unknownPrimitive _ | .recordMismatch _ | .noBaseCase _
  | .duplicateCase _ | .unknownRecord _ | .unknownType _ | .notACase _ _ | .notExhaustive _ _
  | .unspecified => rfl

end

theorem Ty.relabel_injective (hρ : Function.Injective ρ) : Function.Injective (Ty.relabel ρ) := by
  obtain ⟨σ, hσ⟩ := hρ.hasLeftInverse
  exact Function.LeftInverse.injective (Ty.relabel_relabel hσ)

theorem Record.relabel_injective (hρ : Function.Injective ρ) :
    Function.Injective (Record.relabel ρ) := by
  obtain ⟨σ, hσ⟩ := hρ.hasLeftInverse
  exact Function.LeftInverse.injective (Record.relabel_relabel hσ)

theorem Variant.relabel_injective (hρ : Function.Injective ρ) :
    Function.Injective (Variant.relabel ρ) := by
  obtain ⟨σ, hσ⟩ := hρ.hasLeftInverse
  exact Function.LeftInverse.injective (Variant.relabel_relabel hσ)

end

/-! ### Phrases -/

def Param.relabel (ρ : Nat → Nat) (x : Param) : Param := ⟨x.name, x.type.relabel ρ⟩

mutual

def Binding.relabel (ρ : Nat → Nat) : Binding → Binding
  | ⟨i, x, value⟩ => ⟨ρ i, x.relabel ρ, value.relabel ρ⟩

def Binding.relabelEach (ρ : Nat → Nat) : List Binding → List Binding
  | [] => []
  | b :: bs => b.relabel ρ :: Binding.relabelEach ρ bs

def Arm.relabel (ρ : Nat → Nat) : Arm → Arm
  | ⟨i, record, pattern, body⟩ => ⟨ρ i, record, pattern, body.relabel ρ⟩

def Arm.relabelEach (ρ : Nat → Nat) : List Arm → List Arm
  | [] => []
  | a :: as => a.relabel ρ :: Arm.relabelEach ρ as

def Body.relabel (ρ : Nat → Nat) : Body → Body
  | ⟨init, last⟩ => ⟨Phrase.relabelEach ρ init, last.relabel ρ⟩

/-- The phrase with other identities for all its nodes, and in the types that are written there. -/
def Phrase.relabel (ρ : Nat → Nat) : Phrase → Phrase
  | .literal i value => .literal (ρ i) value
  | .quotation i datum => .quotation (ρ i) datum
  | .operator i op => .operator (ρ i) op
  | .variable i x => .variable (ρ i) x
  | .cond i test thenPart elsePart =>
      .cond (ρ i) (test.relabel ρ) (thenPart.relabel ρ) (elsePart.relabel ρ)
  | .lambda i params result body =>
      .lambda (ρ i) (params.map (Param.relabel ρ)) (result.relabel ρ) (body.relabel ρ)
  | .call i fn args => .call (ρ i) (fn.relabel ρ) (Phrase.relabelEach ρ args)
  | .letIn i bindings body => .letIn (ρ i) (Binding.relabelEach ρ bindings) (body.relabel ρ)
  | .letrec i bindings body => .letrec (ρ i) (Binding.relabelEach ρ bindings) (body.relabel ρ)
  | .define i x value => .define (ρ i) (x.relabel ρ) (value.relabel ρ)
  | .assign i x value => .assign (ρ i) x (value.relabel ρ)
  | .defineType i v => .defineType (ρ i) (v.relabel ρ)
  | .typeCase i type subject arms =>
      .typeCase (ρ i) type (subject.relabel ρ) (Arm.relabelEach ρ arms)
  | .param i x => .param (ρ i) (x.relabel ρ)
  | .binding b => .binding (b.relabel ρ)
  | .arm a => .arm (a.relabel ρ)
  | .program i body => .program (ρ i) (body.relabel ρ)
  | .formless i => .formless (ρ i)
  | .formlessExpression i => .formlessExpression (ρ i)

def Phrase.relabelEach (ρ : Nat → Nat) : List Phrase → List Phrase
  | [] => []
  | p :: ps => p.relabel ρ :: Phrase.relabelEach ρ ps

end

section

variable (ρ : Nat → Nat)

theorem Phrase.relabelEach_eq (ps : List Phrase) :
    Phrase.relabelEach ρ ps = ps.map (Phrase.relabel ρ) := by
  induction ps with
  | nil => rfl
  | cons p ps ih => rw [Phrase.relabelEach, List.map_cons, ih]

theorem Binding.relabelEach_eq (bs : List Binding) :
    Binding.relabelEach ρ bs = bs.map (Binding.relabel ρ) := by
  induction bs with
  | nil => rfl
  | cons b bs ih => rw [Binding.relabelEach, List.map_cons, ih]

theorem Arm.relabelEach_eq (as : List Arm) :
    Arm.relabelEach ρ as = as.map (Arm.relabel ρ) := by
  induction as with
  | nil => rfl
  | cons a as ih => rw [Arm.relabelEach, List.map_cons, ih]

@[simp] theorem Arm.record_relabel (a : Arm) : (a.relabel ρ).record = a.record := by
  cases a
  rfl

@[simp] theorem Binding.param_relabel (b : Binding) : (b.relabel ρ).param = b.param.relabel ρ := by
  cases b
  rfl

@[simp] theorem Binding.value_relabel (b : Binding) : (b.relabel ρ).value = b.value.relabel ρ := by
  cases b
  rfl

theorem Binding.params_relabel (bs : List Binding) :
    (Binding.relabelEach ρ bs).map (·.param) = (bs.map (·.param)).map (Param.relabel ρ) := by
  simp [Binding.relabelEach_eq]

theorem Binding.names_relabel (bs : List Binding) :
    (Binding.relabelEach ρ bs).map (·.param.name) = bs.map (·.param.name) := by
  simp [Binding.relabelEach_eq, Param.relabel]

theorem Body.toList_relabel (b : Body) :
    (b.relabel ρ).toList = b.toList.map (Phrase.relabel ρ) := by
  cases b
  simp [Body.relabel, Body.toList, Phrase.relabelEach_eq]

theorem Phrase.id_relabel (p : Phrase) : (p.relabel ρ).id = ρ p.id := by
  cases p with
  | binding b =>
    cases b
    rfl
  | arm a =>
    cases a
    rfl
  | _ => rfl

/-! ### Texts -/

mutual

theorem Ty.render_relabel : ∀ t : Ty, (t.relabel ρ).render = t.render
  | .proc ps r => by
      rw [Ty.relabel, Ty.render, Ty.render, Ty.renderEach_relabel ps, r.render_relabel]
  | .record r => by rw [Ty.relabel, Ty.render, Ty.render, r.name_relabel]
  | .variant v => by rw [Ty.relabel, Ty.render, Ty.render, v.name_relabel]
  | .failure f => by rw [Ty.relabel, Ty.render, Ty.render, f.describe_relabel]
  | .atom _ | .quoted | .var _ _ | .named _ | .bare _ => rfl

theorem Ty.renderEach_relabel : ∀ ts : List Ty,
    Ty.renderEach (Ty.relabelEach ρ ts) = Ty.renderEach ts
  | [] => rfl
  | t :: ts => by
      rw [Ty.relabelEach, Ty.renderEach, Ty.renderEach, t.render_relabel, Ty.renderEach_relabel ts]

theorem Failure.describe_relabel : ∀ f : Failure, (f.relabel ρ).describe = f.describe
  | .incompatible c e s => by
      rw [Failure.relabel, Failure.describe, Failure.describe, c.render_relabel, e.render_relabel,
        Occurrence.relabel]
  | .notAProcedure t s => by
      rw [Failure.relabel, Failure.describe, Failure.describe, t.render_relabel, Occurrence.relabel]
  | .noCommonType ts => by
      rw [Failure.relabel, Failure.describe, Failure.describe, Ty.renderEach_relabel ts]
  | .arityMismatch _ _ _ | .letrecRequiresProcedures _ | .unboundVariable _ | .notFound _
  | .unknownPrimitive _ | .recordMismatch _ | .noBaseCase _ | .duplicateCase _ | .unknownRecord _
  | .unknownType _ | .notACase _ _ | .notExhaustive _ _ | .unspecified => rfl

end

theorem annotated_relabel (x : String) (t : Ty) : annotated x (t.relabel ρ) = annotated x t := by
  rw [annotated, annotated, t.render_relabel]

theorem Param.unparse_relabel (x : Param) : (x.relabel ρ).unparse = x.unparse :=
  annotated_relabel ρ x.name x.type

/-- A list is written down alike when its members are. -/
theorem mapM_map_of_eq {ε α β : Type} {f : α → Except ε β} {g : α → α} (h : ∀ a, f (g a) = f a) :
    ∀ as : List α, (as.map g).mapM f = as.mapM f
  | [] => rfl
  | a :: as => by rw [List.map_cons, List.mapM_cons, List.mapM_cons, h, mapM_map_of_eq h as]

theorem Record.unparse_relabel (r : Record) : (r.relabel ρ).unparse = r.unparse := by
  have hfield : ∀ f : Field,
      annotated (f.relabel ρ).name (f.relabel ρ).type = annotated f.name f.type := fun f => by
    rw [f.name_relabel, f.type_relabel, annotated_relabel]
  rw [Record.unparse, Record.unparse, r.fields_relabel, r.name_relabel, mapM_map_of_eq hfield]

mutual

theorem Phrase.unparse_relabel : ∀ p : Phrase, (p.relabel ρ).unparse = p.unparse
  | .cond _ test thenPart elsePart => by
      rw [Phrase.relabel, Phrase.unparse, Phrase.unparse, test.unparse_relabel,
        thenPart.unparse_relabel, elsePart.unparse_relabel]
  | .lambda _ params result body => by
      rw [Phrase.relabel, Phrase.unparse, Phrase.unparse, result.render_relabel,
        body.unparse_relabel, mapM_map_of_eq (Param.unparse_relabel ρ)]
  | .call _ fn args => by
      rw [Phrase.relabel, Phrase.unparse, Phrase.unparse, fn.unparse_relabel,
        Phrase.unparseEach_relabel args]
  | .letIn _ bindings body | .letrec _ bindings body => by
      rw [Phrase.relabel, Phrase.unparse, Phrase.unparse, Binding.unparseEach_relabel bindings,
        body.unparse_relabel]
  | .define _ x value => by
      rw [Phrase.relabel, Phrase.unparse, Phrase.unparse, x.unparse_relabel, value.unparse_relabel]
  | .assign _ _ value => by
      rw [Phrase.relabel, Phrase.unparse, Phrase.unparse, value.unparse_relabel]
  | .defineType _ v => by
      rw [Phrase.relabel, Phrase.unparse, Phrase.unparse, Variant.records_relabel,
        Variant.name_relabel, mapM_map_of_eq (Record.unparse_relabel ρ)]
  | .typeCase _ _ subject arms => by
      rw [Phrase.relabel, Phrase.unparse, Phrase.unparse, subject.unparse_relabel,
        Arm.unparseEach_relabel arms]
  | .param _ x => by rw [Phrase.relabel, Phrase.unparse, Phrase.unparse, x.unparse_relabel]
  | .binding b => by rw [Phrase.relabel, Phrase.unparse, Phrase.unparse, b.unparse_relabel]
  | .arm a => by rw [Phrase.relabel, Phrase.unparse, Phrase.unparse, a.unparse_relabel]
  | .program _ body => by
      rw [Phrase.relabel, Phrase.unparse, Phrase.unparse, body.unparse_relabel]
  | .literal .. | .quotation .. | .operator .. | .variable .. | .formless _
  | .formlessExpression _ => rfl

theorem Phrase.unparseEach_relabel : ∀ ps : List Phrase,
    Phrase.unparseEach (Phrase.relabelEach ρ ps) = Phrase.unparseEach ps
  | [] => rfl
  | p :: ps => by
      rw [Phrase.relabelEach, Phrase.unparseEach, Phrase.unparseEach, p.unparse_relabel,
        Phrase.unparseEach_relabel ps]

theorem Body.unparse_relabel : ∀ b : Body, (b.relabel ρ).unparse = b.unparse
  | ⟨init, last⟩ => by
      rw [Body.relabel, Body.unparse, Body.unparse, Phrase.unparseEach_relabel init,
        last.unparse_relabel]

theorem Binding.unparse_relabel : ∀ b : Binding, (b.relabel ρ).unparse = b.unparse
  | ⟨_, x, value⟩ => by
      rw [Binding.relabel, Binding.unparse, Binding.unparse, x.unparse_relabel,
        value.unparse_relabel]

theorem Binding.unparseEach_relabel : ∀ bs : List Binding,
    Binding.unparseEach (Binding.relabelEach ρ bs) = Binding.unparseEach bs
  | [] => rfl
  | b :: bs => by
      rw [Binding.relabelEach, Binding.unparseEach, Binding.unparseEach, b.unparse_relabel,
        Binding.unparseEach_relabel bs]

theorem Arm.unparse_relabel : ∀ a : Arm, (a.relabel ρ).unparse = a.unparse
  | ⟨_, _, _, body⟩ => by rw [Arm.relabel, Arm.unparse, Arm.unparse, body.unparse_relabel]

theorem Arm.unparseEach_relabel : ∀ as : List Arm,
    Arm.unparseEach (Arm.relabelEach ρ as) = Arm.unparseEach as
  | [] => rfl
  | a :: as => by
      rw [Arm.relabelEach, Arm.unparseEach, Arm.unparseEach, a.unparse_relabel,
        Arm.unparseEach_relabel as]

end

/-- As a place, a relabelled phrase is the same text at another node. -/
theorem Phrase.occurrence_relabel (p : Phrase) :
    (p.relabel ρ).occurrence = p.occurrence.relabel ρ := by
  rw [Phrase.occurrence, Phrase.id_relabel, Phrase.unparse_relabel]
  rfl

theorem Failure.explain_relabel (f : Failure) : (f.relabel ρ).explain = f.explain := by
  cases f with
  | incompatible c e s =>
    rw [Failure.relabel, Failure.explain, Failure.explain, Ty.told, Ty.told, Ty.told, Ty.told,
      c.render_relabel, e.render_relabel]
    rfl
  | notAProcedure t s =>
    rw [Failure.relabel, Failure.explain, Failure.explain, Ty.told, Ty.told, t.render_relabel]
    rfl
  | noCommonType ts =>
    have htold : ∀ t : Ty, (t.relabel ρ).told = t.told := fun t => by
      rw [Ty.told, Ty.told, t.render_relabel]
    rw [Failure.relabel, Failure.explain, Failure.explain, Ty.relabelEach_eq, mapM_map_of_eq htold]
  | _ => rfl

end

end VariantScheme
