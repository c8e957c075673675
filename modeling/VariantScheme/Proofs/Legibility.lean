import Mathlib.Algebra.Group.Nat.Defs
import VariantScheme.Proofs.WellFormed

/-!
    Code that can be written down. An integer has a written form when it has no more than 4300
    digits, and well-formed code has one when all integers in its literals and quotations do. Then
    every phrase inside the code has one too, so that whatever place a failure points to can be
    shown. -/

namespace VariantScheme

/-! ### Inside a phrase -/

/-- The phrases that a phrase is put together from. -/
def Phrase.parts : Phrase → List Phrase
  | .cond _ test thenPart elsePart => [test, thenPart, elsePart]
  | .call _ fn args => fn :: args
  | .letIn _ bindings body | .letrec _ bindings body => bindings.map .binding ++ body.toList
  | .define _ _ value | .assign _ _ value | .binding ⟨_, _, value⟩ => [value]
  | .typeCase _ _ subject arms => subject :: arms.map .arm
  | .lambda _ _ _ body | .arm ⟨_, _, _, body⟩ | .program _ body => body.toList
  | .literal .. | .quotation .. | .operator .. | .variable .. | .defineType .. | .param ..
  | .formless _ | .formlessExpression _ => []

/-- `p.Contains q`: the phrase `q` is `p` or stands somewhere inside it. -/
inductive Phrase.Contains : Phrase → Phrase → Prop
  | self {p : Phrase} : Contains p p
  | part {p q s : Phrase} (mem : q ∈ p.parts) (inside : Contains q s) : Contains p s

theorem Phrase.Contains.trans {p q s : Phrase} (h : p.Contains q) (hs : q.Contains s) :
    p.Contains s := by
  induction h with
  | self => exact hs
  | part mem _ ih => exact .part mem (ih hs)

/-- Every phrase that stands inside this one is `inside`. -/
def Phrase.Within (inside : Phrase → Prop) (p : Phrase) : Prop := ∀ q, p.Contains q → inside q

section

variable {inside : Phrase → Prop} {p q : Phrase}

theorem Phrase.Within.self (h : p.Within inside) : inside p := h p .self

theorem Phrase.Within.part (h : p.Within inside) (hq : q ∈ p.parts) : q.Within inside :=
  fun s hs => h s (.part hq hs)

theorem Phrase.Within.within (h : p.Within inside) : p.Within fun q => q.Within inside :=
  fun _ hq s hs => h s (hq.trans hs)

theorem Phrase.Within.of_parts (hp : inside p) (hparts : ∀ q ∈ p.parts, q.Within inside) :
    p.Within inside := by
  intro s hs
  cases hs with
  | self => exact hp
  | part hq hs => exact hparts _ hq s hs

theorem Phrase.Within.leaf (hp : inside p) (hparts : p.parts = []) : p.Within inside :=
  .of_parts hp (by simp [hparts])

theorem Phrase.Within.value {b : Binding} (h : (Phrase.binding b).Within inside) :
    b.value.Within inside := by
  obtain ⟨i, param, value⟩ := b
  exact h.part List.mem_cons_self

theorem Phrase.Within.body {a : Arm} (h : (Phrase.arm a).Within inside) :
    ∀ p ∈ a.body.toList, p.Within inside := by
  obtain ⟨i, record, pattern, body⟩ := a
  exact fun p hp => h.part hp

end

/-! ### Data -/

/-- A datum in which every integer has at most 4300 digits. -/
inductive Datum.Prints : Datum → Prop
  | null : Prints .null
  | bool {b : Bool} : Prints (.bool b)
  | int {n : Int} : n.natAbs < 10 ^ 4300 → Prints (.int n)
  | float {x : Float} : Prints (.float x)
  | text {s : String} : Prints (.text s)
  | list {items : List Datum} : (∀ d ∈ items, Prints d) → Prints (.list items)

namespace Datum

theorem inspectEach_eq : ∀ ds : List Datum, inspectEach ds = ds.mapM inspect
  | [] => rfl
  | d :: ds => by rw [inspectEach, List.mapM_cons, inspectEach_eq ds]

theorem asQuotedEach_eq : ∀ ds : List Datum, asQuotedEach ds = ds.mapM asQuoted
  | [] => rfl
  | d :: ds => by rw [asQuotedEach, List.mapM_cons, asQuotedEach_eq ds]

theorem length_toDigits_le_digitLimit_iff {n : Nat} :
    (Nat.toDigits 10 n).length ≤ digitLimit ↔ n < 10 ^ 4300 := by
  -- the exponent stays a variable, so that the power is not computed
  have hdigits : ∀ k, 0 < k → ((Nat.toDigits 10 n).length ≤ k ↔ n < 10 ^ k) := fun k hk =>
    Nat.length_toDigits_le_iff (by decide) hk
  exact hdigits 4300 (by decide)

theorem numeral_eq_ok {n : Int} (h : n.natAbs < 10 ^ 4300) : numeral n = .ok (toString n) :=
  if_pos (length_toDigits_le_digitLimit_iff.mpr h)

theorem numeral_eq_error {n : Int} (h : ¬ (Datum.int n).Prints) : numeral n = .error .numeral :=
  if_neg fun hdigits => h (.int (length_toDigits_le_digitLimit_iff.mp hdigits))

theorem Prints.exists_inspect {d : Datum} (h : d.Prints) : ∃ text, d.inspect = .ok text := by
  induction h with
  | int h => exact ⟨_, by rw [inspect, numeral_eq_ok h]⟩
  | list _ ih =>
    obtain ⟨texts, htexts⟩ := exists_mapM ih
    exact ⟨_, by rw [inspect, inspectEach_eq, htexts]; rfl⟩
  | _ => exact ⟨_, rfl⟩

theorem Prints.exists_asLiteral {d : Datum} (h : d.Prints) : ∃ text, d.asLiteral = .ok text := by
  cases d with
  | bool | text => exact ⟨_, rfl⟩
  | _ => exact h.exists_inspect

theorem Prints.exists_asQuoted {d : Datum} (h : d.Prints) : ∃ text, d.asQuoted = .ok text := by
  induction h with
  | int h => exact (Prints.int h).exists_inspect
  | list _ ih =>
    obtain ⟨texts, htexts⟩ := exists_mapM ih
    exact ⟨_, by rw [asQuoted, asQuotedEach_eq, htexts]; rfl⟩
  | _ => exact ⟨_, rfl⟩

end Datum

/-- The datum that a literal or a quotation holds. -/
def Phrase.datum? : Phrase → Option Datum
  | .literal _ d | .quotation _ d => some d
  | _ => none

/-- All data in the code can be written down. -/
def Phrase.Prints (p : Phrase) : Prop := p.Within fun q => ∀ d, q.datum? = some d → d.Prints

/-- All data in all top-level expressions can be written down. -/
def Body.Prints (program : Program) : Prop := ∀ p ∈ program.toList, p.Prints

/-- An integer of one digit can be written down. -/
theorem Datum.Prints.digit {n : Int} (h : n.natAbs < 10) : (Datum.int n).Prints := by
  have hpow : ∀ k : Nat, k ≠ 0 → n.natAbs < 10 ^ k := fun k hk =>
    Nat.lt_of_lt_of_le h (Nat.le_self_pow hk 10)
  exact .int (hpow 4300 (by decide))

namespace Phrase.Prints

variable {p : Phrase} {i : Nat} {d : Datum}

theorem literal (h : d.Prints) : (Phrase.literal i d).Prints :=
  Within.leaf (fun _ heq => Option.some.inj heq ▸ h) rfl

/-- Code that holds no datum of its own prints when its parts do. -/
theorem of_parts (hdatum : p.datum? = none) (hparts : ∀ q ∈ p.parts, q.Prints) : p.Prints :=
  Within.of_parts (fun _ heq => nomatch hdatum.symm.trans heq) hparts

theorem leaf (hdatum : p.datum? = none) (hparts : p.parts = []) : p.Prints :=
  of_parts hdatum (by simp [hparts])

end Phrase.Prints

/-! ### Phrases -/

/-- A phrase that can be written down. -/
def Phrase.Legible (p : Phrase) : Prop := ∃ text, p.unparse = .ok text

theorem Body.exists_unparse {b : Body} (h : ∀ p ∈ b.toList, p.Legible) :
    ∃ texts, b.unparse = .ok texts := by
  obtain ⟨init, last⟩ := b
  obtain ⟨first, hfirst⟩ := exists_mapM fun p hp => h p (List.mem_append_left _ hp)
  obtain ⟨final, hfinal⟩ := h last (List.mem_append_right _ List.mem_cons_self)
  exact ⟨_, by rw [Body.unparse, Phrase.unparseEach_eq, hfirst, hfinal]; rfl⟩

theorem Binding.exists_unparse {b : Binding} (hparam : b.param.type.Honest)
    (hvalue : b.value.Legible) : ∃ text, b.unparse = .ok text := by
  obtain ⟨i, param, value⟩ := b
  obtain ⟨p, hp⟩ := Param.exists_unparse hparam
  obtain ⟨v, hv⟩ := hvalue
  exact ⟨_, by rw [Binding.unparse, hp, hv]; rfl⟩

theorem Arm.exists_unparse {a : Arm} (h : ∀ p ∈ a.body.toList, p.Legible) :
    ∃ text, a.unparse = .ok text := by
  obtain ⟨i, record, pattern, body⟩ := a
  obtain ⟨texts, htexts⟩ := Body.exists_unparse h
  exact ⟨_, by rw [Arm.unparse, htexts]; rfl⟩

/-- A well-formed phrase can be written down when the phrases that it is put together from can, and
    its datum, if it holds one. -/
theorem Phrase.WellFormed.legible {p : Phrase} (h : p.WellFormed)
    (hdatum : ∀ d, p.datum? = some d → d.Prints) (hparts : ∀ q ∈ p.parts, q.Legible) :
    p.Legible := by
  cases h with
  | literal => exact (hdatum _ rfl).exists_asLiteral
  | quotation =>
    obtain ⟨text, htext⟩ := (hdatum _ rfl).exists_asQuoted
    exact ⟨_, by rw [Phrase.unparse, htext]; rfl⟩
  | operator | «variable» => exact ⟨_, rfl⟩
  | cond =>
    obtain ⟨⟨c, hc⟩, ⟨a, ha⟩, ⟨b, hb⟩, -⟩ := by
      simpa only [Phrase.parts, List.forall_mem_cons] using hparts
    exact ⟨_, by rw [Phrase.unparse, hc, ha, hb]; rfl⟩
  | lambda hparams hresult =>
    obtain ⟨ps, hps⟩ := exists_mapM fun x hx => Param.exists_unparse (hparams x hx)
    obtain ⟨r, hr⟩ := hresult.exists_render
    obtain ⟨b, hb⟩ := Body.exists_unparse hparts
    exact ⟨_, by rw [Phrase.unparse, hps, hr, hb]; rfl⟩
  | call =>
    obtain ⟨⟨f, hf⟩, hargs⟩ := List.forall_mem_cons.mp hparts
    obtain ⟨xs, hxs⟩ := exists_mapM hargs
    exact ⟨_, by rw [Phrase.unparse, hf, Phrase.unparseEach_eq, hxs]; rfl⟩
  | letIn | letrec =>
    obtain ⟨hbindings, hbody⟩ := List.forall_mem_append.mp hparts
    have hlegible := List.forall_mem_map.mp hbindings
    obtain ⟨bs, hbs⟩ := exists_mapM (f := Binding.unparse) hlegible
    obtain ⟨b, hb⟩ := Body.exists_unparse hbody
    exact ⟨_, by rw [Phrase.unparse, Binding.unparseEach_eq, hbs, hb]; rfl⟩
  | define hparam =>
    obtain ⟨x, hx⟩ := Param.exists_unparse hparam
    obtain ⟨v, hv⟩ := hparts _ List.mem_cons_self
    exact ⟨_, by rw [Phrase.unparse, hx, hv]; rfl⟩
  | assign =>
    obtain ⟨v, hv⟩ := hparts _ List.mem_cons_self
    exact ⟨_, by rw [Phrase.unparse, hv]; rfl⟩
  | defineType hvariant =>
    cases hvariant with
    | variant hfields =>
      obtain ⟨cases, hcases⟩ := exists_mapM fun r hr => Record.exists_unparse (hfields r hr)
      exact ⟨_, by rw [Phrase.unparse, hcases]; rfl⟩
  | typeCase =>
    obtain ⟨⟨s, hs⟩, harms⟩ := List.forall_mem_cons.mp hparts
    have hlegible := List.forall_mem_map.mp harms
    obtain ⟨clauses, hclauses⟩ := exists_mapM (f := Arm.unparse) hlegible
    exact ⟨_, by rw [Phrase.unparse, hs, Arm.unparseEach_eq, hclauses]; rfl⟩

theorem Binding.within_legible {b : Binding} (hparam : b.param.type.Honest)
    (hvalue : b.value.Within Phrase.Legible) : (Phrase.binding b).Within Phrase.Legible := by
  refine .of_parts (Binding.exists_unparse hparam hvalue.self) ?_
  obtain ⟨i, param, value⟩ := b
  exact List.forall_mem_singleton.mpr hvalue

theorem Arm.within_legible {a : Arm} (h : ∀ p ∈ a.body.toList, p.Within Phrase.Legible) :
    (Phrase.arm a).Within Phrase.Legible := by
  refine .of_parts (Arm.exists_unparse fun p hp => (h p hp).self) ?_
  obtain ⟨i, record, pattern, body⟩ := a
  exact h

/-- The parts of a local form are the bindings and the members of the body. -/
theorem within_legible_bindings {bindings : List Binding} {body : Body}
    (hparams : ∀ b ∈ bindings, b.param.type.Honest)
    (hvalues : ∀ b ∈ bindings, b.value.Prints → b.value.Within Phrase.Legible)
    (hbody : ∀ p ∈ body.toList, p.Prints → p.Within Phrase.Legible)
    (hprints : ∀ q ∈ bindings.map .binding ++ body.toList, q.Prints) :
    ∀ q ∈ bindings.map .binding ++ body.toList, q.Within Phrase.Legible := by
  intro q hq
  rcases List.mem_append.mp hq with hmem | hmem
  · obtain ⟨b, hb, rfl⟩ := List.mem_map.mp hmem
    exact Binding.within_legible (hparams b hb) (hvalues b hb (hprints _ hq).value)
  · exact hbody q hmem (hprints q hq)

theorem Phrase.WellFormed.within_of_parts {p : Phrase} (h : p.WellFormed) (hprints : p.Prints)
    (hparts : ∀ q ∈ p.parts, q.Within Phrase.Legible) : p.Within Phrase.Legible :=
  .of_parts (h.legible hprints.self fun q hq => (hparts q hq).self) hparts

/-- Where all data can be written down, so can well-formed code and every phrase inside it. -/
theorem Phrase.WellFormed.within_legible {p : Phrase} (h : p.WellFormed) :
    p.Prints → p.Within Phrase.Legible := by
  -- the code is taken apart; bindings and arms are parts that are not well formed by themselves
  induction h with intro hprints
  | literal htype => exact (literal htype).within_of_parts hprints (by simp [Phrase.parts])
  | quotation => exact quotation.within_of_parts hprints (by simp [Phrase.parts])
  | operator => exact operator.within_of_parts hprints (by simp [Phrase.parts])
  | «variable» => exact variable.within_of_parts hprints (by simp [Phrase.parts])
  | defineType hvariant =>
    exact (defineType hvariant).within_of_parts hprints (by simp [Phrase.parts])
  | cond htest hthen helse ihtest ihthen ihelse =>
    refine (cond htest hthen helse).within_of_parts hprints fun q hq => ?_
    have hq' := hprints.part hq
    simp only [Phrase.parts, List.mem_cons, List.not_mem_nil, or_false] at hq
    rcases hq with rfl | rfl | rfl
    · exact ihtest hq'
    · exact ihthen hq'
    · exact ihelse hq'
  | lambda hparams hresult hbody ihbody =>
    exact (lambda hparams hresult hbody).within_of_parts hprints fun q hq =>
      ihbody q hq (hprints.part hq)
  | call hfn hargs ihfn ihargs =>
    refine (call hfn hargs).within_of_parts hprints fun q hq => ?_
    rcases List.mem_cons.mp hq with rfl | hmem
    · exact ihfn (hprints.part hq)
    · exact ihargs q hmem (hprints.part hq)
  | letIn hparams hvalues hbody ihvalues ihbody =>
    exact (letIn hparams hvalues hbody).within_of_parts hprints
      (within_legible_bindings hparams ihvalues ihbody fun q hq => hprints.part hq)
  | letrec hparams hvalues hbody ihvalues ihbody =>
    exact (letrec hparams hvalues hbody).within_of_parts hprints
      (within_legible_bindings hparams ihvalues ihbody fun q hq => hprints.part hq)
  | define hparam hvalue ihvalue =>
    refine (define hparam hvalue).within_of_parts hprints (List.forall_mem_singleton.mpr ?_)
    exact ihvalue (hprints.part List.mem_cons_self)
  | assign hvalue ihvalue =>
    refine (assign hvalue).within_of_parts hprints (List.forall_mem_singleton.mpr ?_)
    exact ihvalue (hprints.part List.mem_cons_self)
  | typeCase hsubject harms ihsubject iharms =>
    refine (typeCase hsubject harms).within_of_parts hprints fun q hq => ?_
    rcases List.mem_cons.mp hq with rfl | hmem
    · exact ihsubject (hprints.part hq)
    · obtain ⟨a, ha, rfl⟩ := List.mem_map.mp hmem
      exact Arm.within_legible fun p hp => iharms a ha p hp ((hprints.part hq).body p hp)

end VariantScheme
