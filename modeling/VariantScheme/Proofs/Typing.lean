import Mathlib.Tactic.SplitIfs
import VariantScheme.Operator
import VariantScheme.Proofs.CaseAnalysis
import VariantScheme.Proofs.Join
import VariantScheme.Proofs.Scope

/-!
    The typing rules. `HasType k scope p t` says that the phrase `p` has the type `t` where names
    stand for what `scope` says and the catalog `k` holds the declarations of the program. There is
    one rule for each form of expression, and its premises come in no order: nothing is said about
    phrases that have no type. Types here are honest; a failure is not the type of anything. The
    rules have their own tables of literals and of operators, and say themselves what each form
    binds and which declaration of a name counts; that the checker's tables and searches agree with
    these is proved here. -/

namespace VariantScheme

/-- The type of a literal goes by the kind of its value. -/
inductive LiteralType : Datum → Ty → Prop
  | bool {b : Bool} : LiteralType (.bool b) .boolean
  | int {n : Int} : LiteralType (.int n) .number
  | float {x : Float} : LiteralType (.float x) .number
  | text {s : String} : LiteralType (.text s) .string

/-- `Primitive site op params result`: used at `site`, the operator `op` takes arguments of types
    `params` and gives a `result`. A generic slot is a type variable that belongs to the site. -/
inductive Primitive (site : Site) : String → List Ty → Ty → Prop
  | arithmetic {op : String} (mem : op ∈ ["+", "-", "*", "/"]) :
      Primitive site op [.number, .number] .number
  | comparison {op : String} (mem : op ∈ [">", "<", "="]) :
      Primitive site op [.number, .number] .boolean
  | connective {op : String} (mem : op ∈ ["and", "or"]) :
      Primitive site op [.boolean, .boolean] .boolean
  | negation : Primitive site "not" [.boolean] .boolean
  | kindTest {op : String}
      (mem : op ∈ ["number?", "boolean?", "string?", "list?", "pair?", "symbol?"]) :
      Primitive site op [.var "T" site] .boolean
  | equality {op : String} (mem : op ∈ ["eq?", "string=?"]) :
      Primitive site op [.var "T1" site, .var "T2" site] .boolean
  | display : Primitive site "display" [.var "T" site] .void
  | newline : Primitive site "newline" [] .void

/-- Of those in `as` that are called `n`, the first is `a`. -/
def FirstOf {α : Type} (name : α → String) (n : String) (as : List α) (a : α) : Prop :=
  ∃ before after, as = before ++ a :: after ∧ name a = n ∧ ∀ b ∈ before, name b ≠ n

namespace Catalog

/-- The catalog holds what the phrases define and declare themselves, in order. -/
inductive Lists : Catalog → List Phrase → Prop
  | nil : Lists ⟨[], []⟩ []
  | define {i : Nat} {param : Param} {value : Phrase} {ps : List Phrase}
      {definitions : List Param} {variants : List Variant}
      (rest : Lists ⟨definitions, variants⟩ ps) :
      Lists ⟨param :: definitions, variants⟩ (.define i param value :: ps)
  | defineType {i : Nat} {v : Variant} {ps : List Phrase} {definitions : List Param}
      {variants : List Variant} (rest : Lists ⟨definitions, variants⟩ ps) :
      Lists ⟨definitions, v :: variants⟩ (.defineType i v :: ps)
  | other {k : Catalog} {p : Phrase} {ps : List Phrase}
      (undefining : ∀ i param value, p ≠ .define i param value)
      (undeclaring : ∀ i v, p ≠ .defineType i v) (rest : Lists k ps) : Lists k (p :: ps)

/-- An argument of type `t` may stand for the parameter. A type variable, the slot of a generic
    operator, takes anything. -/
inductive Accepts (k : Catalog) : Ty → Ty → Prop
  | slot {n : String} {site : Site} {t : Ty} : Accepts k (.var n site) t
  | fits {param t : Ty} (below : k.Fits t param) : Accepts k param t

/-- The type of an `if` whose branches have types `a` and `b`. -/
inductive Branches (k : Catalog) (a b : Ty) : Ty → Prop
  | fits (below : k.Fits a b) : Branches k a b b
  | joins {t : Ty} (apart : ¬ k.Fits a b) (join : k.Joins [a, b] t) : Branches k a b t

/-- The values of a `letrec` are lambdas. The header of each, which is the type that it announces,
    fits the type declared for it. -/
inductive HeadersFit (k : Catalog) : List Binding → List Ty → Prop
  | nil : HeadersFit k [] []
  | cons {i j : Nat} {param : Param} {params : List Param} {result : Ty} {body : Body}
      {bs : List Binding} {hs : List Ty}
      (fits : k.Fits (.proc (params.map (·.type)) result) param.type)
      (rest : HeadersFit k bs hs) :
      HeadersFit k (⟨i, param, .lambda j params result body⟩ :: bs)
        (.proc (params.map (·.type)) result :: hs)

end Catalog

variable (k : Catalog)

mutual

/-- A phrase has a type. -/
inductive HasType : Scope → Phrase → Ty → Prop
  | literal {scope i value t} : LiteralType value t → HasType scope (.literal i value) t
  | quotation {scope i datum} : HasType scope (.quotation i datum) .quoted
  | operator {scope i op params result} :
      Primitive (.node ⟨i, .ok op⟩) op params result →
      HasType scope (.operator i op) (.proc params result)
  | variable {scope i x t} :
      scope x = some t → t.isFailure = false → HasType scope (.variable i x) t
  | cond {scope i test thenPart elsePart c a b t} :
      HasType scope test c → k.Fits c .boolean →
      HasType scope thenPart a → HasType scope elsePart b → k.Branches a b t →
      HasType scope (.cond i test thenPart elsePart) t
  | lambda {scope i params result body t} :
      BodyHasType (scope.bind (params.map fun x => (x.name, x.type))) body t → k.Fits t result →
      HasType scope (.lambda i params result body) (.proc (params.map (·.type)) result)
  | call {scope i fn args params result} :
      HasType scope fn (.proc params result) → ArgsFit scope args params →
      result.isFailure = false →
      HasType scope (.call i fn args) result
  | letIn {scope i bindings body t} :
      BindingsFit scope bindings →
      BodyHasType (scope.bind (bindings.map fun b => (b.param.name, b.param.type))) body t →
      HasType scope (.letIn i bindings body) t
  | letrec {scope i bindings body hs t} :
      k.HeadersFit bindings hs →
      ValuesHaveTypes (scope.bind ((bindings.map (·.param.name)).zip hs)) bindings hs →
      BodyHasType (scope.bind ((bindings.map (·.param.name)).zip hs)) body t →
      HasType scope (.letrec i bindings body) t
  | define {scope i param value t} :
      HasType (scope.bind [(param.name, param.type)]) value t → k.Fits t param.type →
      HasType scope (.define i param value) .void
  | assign {scope i x value t declared} :
      HasType scope value t → scope x = some declared → k.Fits t declared →
      HasType scope (.assign i x value) .void
  | defineType {scope i v} : k.WellDeclared → HasType scope (.defineType i v) .void
  | typeCase {scope i type v subject arms s ts t} :
      FirstOf Variant.name type k.variants v → k.Covers v arms →
      HasType scope subject s → k.Fits s (.named type) →
      ArmsHaveTypes scope arms ts → k.Joins ts t →
      HasType scope (.typeCase i type subject arms) t

/-- A body has the type of its last member. A definition is in scope for what follows it. -/
inductive BodyHasType : Scope → Body → Ty → Prop
  | last {scope p t} : HasType scope p t → BodyHasType scope ⟨[], p⟩ t
  | define {scope i param value ps last u t} :
      HasType scope (.define i param value) u →
      BodyHasType (scope.bind [(param.name, param.type)]) ⟨ps, last⟩ t →
      BodyHasType scope ⟨.define i param value :: ps, last⟩ t
  | step {scope p ps last u t} :
      (∀ i param value, p ≠ .define i param value) → HasType scope p u →
      BodyHasType scope ⟨ps, last⟩ t → BodyHasType scope ⟨p :: ps, last⟩ t

/-- Arguments match parameters one by one. -/
inductive ArgsFit : Scope → List Phrase → List Ty → Prop
  | nil {scope} : ArgsFit scope [] []
  | cons {scope arg args param params t} :
      HasType scope arg t → k.Accepts param t → ArgsFit scope args params →
      ArgsFit scope (arg :: args) (param :: params)

/-- The values of a `let` fit the types declared for them. -/
inductive BindingsFit : Scope → List Binding → Prop
  | nil {scope} : BindingsFit scope []
  | cons {scope i param value bs t} :
      HasType scope value t → k.Fits t param.type → BindingsFit scope bs →
      BindingsFit scope (⟨i, param, value⟩ :: bs)

/-- The values of a `letrec` have the types that their headers announce. -/
inductive ValuesHaveTypes : Scope → List Binding → List Ty → Prop
  | nil {scope} : ValuesHaveTypes scope [] []
  | cons {scope i param value bs h hs} :
      HasType scope value h → ValuesHaveTypes scope bs hs →
      ValuesHaveTypes scope (⟨i, param, value⟩ :: bs) (h :: hs)

/-- The arms of a case analysis have types, each with names for the fields of its record. -/
inductive ArmsHaveTypes : Scope → List Arm → List Ty → Prop
  | nil {scope} : ArmsHaveTypes scope [] []
  | cons {scope i record pattern body arms r t ts} :
      FirstOf Record.name record (k.variants.flatMap (·.records)) r →
      pattern.length = r.fields.length →
      BodyHasType (scope.bind (pattern.zip (r.fields.map (·.type)))) body t →
      ArmsHaveTypes scope arms ts →
      ArmsHaveTypes scope (⟨i, record, pattern, body⟩ :: arms) (t :: ts)

end

variable {k}

/-! ### Tables -/

/-- The checker's types of literals are those of the rules. -/
theorem Datum.type?_eq_some_iff {d : Datum} {t : Ty} : d.type? = some t ↔ LiteralType d t := by
  constructor
  · intro h
    cases d <;> cases h <;> constructor
  · intro h
    cases h <;> rfl

theorem Primitive.signature?_eq {site : Site} {op : String} {params : List Ty} {result : Ty}
    (h : Primitive site op params result) :
    Operator.signature? op site = some (.proc params result) := by
  -- an operator of a row is one of finitely many, and the table is looked up for each
  cases h with
  | arithmetic mem =>
    simp only [List.mem_cons, List.not_mem_nil, or_false] at mem
    rcases mem with rfl | rfl | rfl | rfl <;> rfl
  | comparison mem =>
    simp only [List.mem_cons, List.not_mem_nil, or_false] at mem
    rcases mem with rfl | rfl | rfl <;> rfl
  | connective mem | equality mem =>
    simp only [List.mem_cons, List.not_mem_nil, or_false] at mem
    rcases mem with rfl | rfl <;> rfl
  | kindTest mem =>
    simp only [List.mem_cons, List.not_mem_nil, or_false] at mem
    rcases mem with rfl | rfl | rfl | rfl | rfl | rfl <;> rfl
  | negation | display | newline => rfl

theorem Operator.primitive_of_fixed? {op : String} {t : Ty} (site : Site)
    (h : Operator.fixed? op = some t) :
    ∃ params result, t = .proc params result ∧ Primitive site op params result := by
  unfold Operator.fixed? at h
  split_ifs at h with h1 h2 h3 h4 h5 <;> cases h
  · exact ⟨_, _, rfl, .arithmetic h1⟩
  · exact ⟨_, _, rfl, .comparison h2⟩
  · exact ⟨_, _, rfl, .connective h3⟩
  · exact h4 ▸ ⟨_, _, rfl, .negation⟩
  · exact h5 ▸ ⟨_, _, rfl, .newline⟩

theorem Operator.primitive_of_generic? {op : String} {names : List String} {result : Ty}
    (site : Site) (h : Operator.generic? op = some (names, result)) :
    Primitive site op (names.map fun n => .var n site) result := by
  unfold Operator.generic? at h
  split_ifs at h with h1 h2 h3 <;> cases h
  · exact .kindTest h1
  · exact .equality h2
  · exact h3 ▸ .display

/-- The checker's signatures of operators are those of the rules. -/
theorem Operator.signature?_eq_some_iff {op : String} {site : Site} {t : Ty} :
    Operator.signature? op site = some t ↔
      ∃ params result, t = .proc params result ∧ Primitive site op params result := by
  constructor
  · intro h
    unfold Operator.signature? at h
    split at h
    · rename_i u hfixed
      exact Option.some.inj h ▸ Operator.primitive_of_fixed? site hfixed
    · rename_i names result _ hgeneric
      exact ⟨_, _, (Option.some.inj h).symm, Operator.primitive_of_generic? site hgeneric⟩
    · cases h
  · rintro ⟨params, result, rfl, h⟩
    exact h.signature?_eq

/-- Signatures are made of atoms, and of type variables for parameters. -/
theorem Operator.signature?_shape {op : String} {s : Site} {t : Ty}
    (h : Operator.signature? op s = some t) :
    ∃ params result, t = .proc params (.atom result) ∧
      ∀ p ∈ params, (∃ n, p = .atom n) ∨ ∃ n, p = .var n s := by
  obtain ⟨params, result, rfl, hprim⟩ := Operator.signature?_eq_some_iff.mp h
  cases hprim <;> refine ⟨_, _, rfl, ?_⟩ <;> simp [Ty.number, Ty.boolean]

theorem Phrase.header?_eq_some_iff {p : Phrase} {h : Ty} : p.header? = some h ↔
    ∃ i params result body, p = .lambda i params result body ∧
      h = .proc (params.map (·.type)) result := by
  constructor
  · intro hp
    cases p <;> cases hp
    exact ⟨_, _, _, _, rfl, rfl⟩
  · rintro ⟨i, params, result, body, rfl, rfl⟩
    rfl

/-! ### Declarations -/

theorem find?_eq_some_iff_firstOf {α : Type} {name : α → String} {n : String} {as : List α}
    {a : α} : (as.find? fun b => name b == n) = some a ↔ FirstOf name n as a := by
  rw [List.find?_eq_some_iff_append, FirstOf]
  constructor
  · rintro ⟨ha, before, after, has, hbefore⟩
    exact ⟨before, after, has, by simpa using ha, fun b hb => by simpa using hbefore b hb⟩
  · rintro ⟨before, after, has, ha, hbefore⟩
    exact ⟨by simpa using ha, before, after, has, fun b hb => by simpa using hbefore b hb⟩

/-- The variant found under a name is the first one declared. -/
theorem Catalog.variant?_eq_some_iff {n : String} {v : Variant} :
    k.variant? n = some v ↔ FirstOf Variant.name n k.variants v :=
  find?_eq_some_iff_firstOf

/-- The record found under a name is the first one declared in any variant. -/
theorem Catalog.record?_eq_some_iff {n : String} {r : Record} :
    k.record? n = some r ↔ FirstOf Record.name n (k.variants.flatMap (·.records)) r :=
  find?_eq_some_iff_firstOf

theorem Phrase.definition?_eq_none_iff {p : Phrase} :
    p.definition? = none ↔ ∀ i param value, p ≠ .define i param value := by
  cases p <;> simp [Phrase.definition?]

theorem Phrase.declaration?_eq_none_iff {p : Phrase} :
    p.declaration? = none ↔ ∀ i v, p ≠ .defineType i v := by
  cases p <;> simp [Phrase.declaration?]

/-- The catalog of some phrases is the one that lists them. -/
theorem Catalog.lists_iff {ps : List Phrase} : k.Lists ps ↔ k = .ofPhrases ps := by
  constructor
  · intro h
    induction h with
    | nil => rfl
    | define _ ih | defineType _ ih =>
      obtain ⟨rfl, rfl⟩ := Catalog.mk.inj ih
      rfl
    | other undefining undeclaring _ ih =>
      rw [ih, ofPhrases, ofPhrases,
        List.filterMap_cons_none (Phrase.definition?_eq_none_iff.mpr undefining),
        List.filterMap_cons_none (Phrase.declaration?_eq_none_iff.mpr undeclaring)]
  · rintro rfl
    induction ps with
    | nil => exact .nil
    | cons p ps ih =>
      cases p with
      | define i param value => exact .define ih
      | defineType i v => exact .defineType ih
      | _ => exact .other (by simp) (by simp) ih

/-! ### Honest types -/

theorem Catalog.Fits.isFailure_eq {a d : Ty} (h : k.Fits a d) (ha : a.isFailure = false) :
    d.isFailure = false := by
  cases d with
  | failure f =>
    cases h with
    | same => exact ha
    | sameName _ right => cases right
    | case _ _ _ _ right => cases right
  | _ => rfl

theorem LiteralType.isFailure_eq {d : Datum} {t : Ty} (h : LiteralType d t) :
    t.isFailure = false := by
  cases h <;> rfl

mutual

/-- What has a type has an honest one. -/
theorem HasType.isFailure_eq {scope : Scope} {p : Phrase} {t : Ty} :
    HasType k scope p t → t.isFailure = false
  | .literal h => h.isFailure_eq
  | .quotation => rfl
  | .operator _ => rfl
  | .variable _ h => h
  | .cond _ _ _ helse hresult => by
      cases hresult with
      | fits => exact helse.isFailure_eq
      | joins _ hjoin => exact hjoin.isFailure_eq
  | .lambda _ _ => rfl
  | .call _ _ h => h
  | .letIn _ hbody => hbody.isFailure_eq
  | .letrec _ _ hbody => hbody.isFailure_eq
  | .define _ _ => rfl
  | .assign _ _ _ => rfl
  | .defineType _ => rfl
  | .typeCase _ _ _ _ _ hjoin => hjoin.isFailure_eq

theorem BodyHasType.isFailure_eq {scope : Scope} {b : Body} {t : Ty} :
    BodyHasType k scope b t → t.isFailure = false
  | .last h => h.isFailure_eq
  | .define _ hrest => hrest.isFailure_eq
  | .step _ _ hrest => hrest.isFailure_eq

end

/-! ### Inversion -/

/-- A lambda has the type that its header announces. -/
theorem HasType.eq_header {scope : Scope} {p : Phrase} {t h : Ty} (ht : HasType k scope p t)
    (hp : p.header? = some h) : t = h := by
  obtain ⟨i, params, result, body, rfl, rfl⟩ := Phrase.header?_eq_some_iff.mp hp
  cases ht
  rfl

/-- The headers of a `letrec` are those of its values, first to last. -/
theorem Catalog.headersFit_cons_iff {b : Binding} {bs : List Binding} {ts : List Ty} :
    k.HeadersFit (b :: bs) ts ↔ ∃ h hs, ts = h :: hs ∧ b.value.header? = some h ∧
      k.Fits h b.param.type ∧ k.HeadersFit bs hs := by
  constructor
  · rintro (_ | ⟨fits, rest⟩)
    exact ⟨_, _, rfl, rfl, fits, rest⟩
  · obtain ⟨i, param, value⟩ := b
    rintro ⟨h, hs, rfl, hvalue, fits, rest⟩
    obtain ⟨j, params, result, body, rfl, rfl⟩ := Phrase.header?_eq_some_iff.mp hvalue
    exact .cons fits rest

theorem Catalog.HeadersFit.length_eq {bs : List Binding} {hs : List Ty}
    (h : k.HeadersFit bs hs) : bs.length = hs.length := by
  induction h with
  | nil => rfl
  | cons _ _ ih => exact congrArg (· + 1) ih

theorem ArgsFit.length_eq {scope : Scope} {args : List Phrase} {params : List Ty} :
    ArgsFit k scope args params → params.length = args.length
  | .nil => rfl
  | .cons _ _ rest => congrArg (· + 1) rest.length_eq

end VariantScheme
