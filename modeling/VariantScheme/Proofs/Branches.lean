import VariantScheme.Proofs.ArmOrder
import VariantScheme.Proofs.Order

/-!
    The branches of an `if`. The rule for them is lopsided: where the first type fits the second one,
    that is the type, and only otherwise are the two joined. Still it comes to the same, up to
    naming, when the branches change places, and it comes to the same as the join, which a case
    analysis takes at once. Both rest on `Fits.joins`: a type and one that it fits are joined at the
    latter. The exception is `any`, which every type fits but which is above itself alone. -/

namespace VariantScheme

theorem Ty.byName_alike (t : Ty) : t.byName.Alike t := by
  cases hn : t.name? with
  | none => exact .inl (by rw [Ty.byName, hn])
  | some n => exact .inr ⟨n, by rw [Ty.byName_of_name? hn, Ty.name?], hn⟩

theorem Ty.hasKind_of_name? {t : Ty} {n : String} (h : t.name? = some n) : t.hasKind = true := by
  cases t with
  | failure | bare => cases h
  | _ => rfl

namespace Catalog

variable {k : Catalog} {a b t u : Ty} {ts : List Ty} {n : String}

/-! ### The join of a type and one that it fits -/

theorem Joins.unique (h : k.Joins ts t) (h' : k.Joins ts u) : t = u :=
  Except.ok.inj ((join_iff.mpr h).1.symm.trans (join_iff.mpr h').1)

/-- Types that have an ancestor in common have a join. -/
theorem AboveAll.exists_joins (h : k.AboveAll ts a) (hne : ts ≠ []) : ∃ t, k.Joins ts t := by
  have hall : ∀ u ∈ ts, ∃ as, k.ancestors u = .ok as :=
    fun u hu => k.exists_ancestors (h u hu).hasKind
  rcases join_of_ancestors hall with hnone | ⟨t, -, ht⟩
  · obtain ⟨-, hempty⟩ := commonAncestors_of_join_failure hall hnone
    obtain ⟨cover, hcover, -, hmem, -⟩ :=
      exists_commonAncestors (k := k) hne fun u hu => (h u hu).hasKind
    obtain rfl := Except.ok.inj (hempty.symm.trans hcover)
    exact absurd ((hmem a).mpr h) List.not_mem_nil
  · exact ⟨t, ht⟩

/-- A variant is its only ancestor. -/
theorem Above.eq_of_variant (h : k.Above t a) (hn : t.name? = some n) (hv : k.DeclaresVariant n) :
    a = .named n := by
  cases h with
  | variant =>
    obtain rfl := Option.some.inj hn
    rfl
  | declared ref => rw [Option.some.inj (hn.symm.trans (Ty.name?_of_reference? ref))]
  | listed ref free =>
    obtain rfl := Option.some.inj (hn.symm.trans (Ty.name?_of_reference? ref))
    exact absurd hv free
  | _ => cases hn

/-- Nothing but `any` has a join with `any`. -/
theorem Joins.eq_any (h : k.Joins [a, .any] t) : a = .any := by
  have ha : k.Above a t := h.aboveAll a (by simp)
  have htop : k.Above .any t := h.aboveAll .any (by simp)
  cases htop with
  | atom => exact ha.eq_any
  | declared ref => cases ref
  | listed ref => cases ref

/-- A type and one that it fits, `any` apart, are joined at the latter. -/
theorem Fits.joins (h : k.Fits a b) (hkind : ∀ t ∈ [a, b], t.hasKind = true)
    (hknown : ∀ t ∈ [a, b], k.Knows t) (hany : b = .any → a = .any) :
    ∃ t, k.Joins [a, b] t ∧ t.Alike b := by
  have hself : ∀ t ∈ [a, b], k.Above t t.byName := fun t ht =>
    Catalog.above_byName (hkind t ht) (hknown t ht)
  by_cases hname : a.byName = b.byName
  · refine ⟨a.byName, .itself fun t ht => ?_, hname ▸ b.byName_alike⟩
    rcases List.mem_pair.mp ht with rfl | rfl
    · exact hself t ht
    · exact hname ▸ hself t ht
  -- under two names, the first is that of a record and the second that of a variant
  cases h with
  | top => exact absurd (congrArg Ty.byName (hany rfl)) hname
  | same => exact absurd rfl hname
  | sameName left right =>
    exact absurd ((Ty.byName_of_name? left).trans (Ty.byName_of_name? right).symm) hname
  | @case _ n v ref record free mem right listed =>
    have hb : k.Above b (.named v.name) := Ty.byName_of_name? right ▸ hself b (by simp)
    have hcommon : k.AboveAll [a, b] (.named v.name) :=
      List.forall_mem_cons.mpr ⟨.listed ref free mem listed, List.forall_mem_singleton.mpr hb⟩
    obtain ⟨t, ht⟩ := hcommon.exists_joins (List.cons_ne_nil _ _)
    have heq : t = .named v.name :=
      (ht.aboveAll b (by simp)).eq_of_variant right ⟨v, mem, rfl⟩
    exact ⟨t, ht, .inr ⟨v.name, by rw [heq, Ty.name?], right⟩⟩

/-- What fits another type, but not the other way round, is a record below a variant. -/
theorem Fits.known_of_not_fits (h : k.Fits a b) (hb : b ≠ .any) (hback : ¬ k.Fits b a) :
    (∀ t ∈ [a, b], t.hasKind = true) ∧ ∀ t ∈ [a, b], k.Knows t := by
  cases h with
  | top => exact absurd rfl hb
  | same => exact absurd .same hback
  | sameName left right => exact absurd (.sameName right left) hback
  | @case _ n v ref record free mem right listed =>
    have left := Ty.name?_of_reference? ref
    have ha : k.Knows a := by
      intro m hm
      obtain rfl := Option.some.inj (left.symm.trans hm)
      exact .inr record
    have hb : k.Knows b := by
      intro m hm
      obtain rfl := Option.some.inj (right.symm.trans hm)
      exact .inl ⟨v, mem, rfl⟩
    simp [Ty.hasKind_of_name? left, Ty.hasKind_of_name? right, ha, hb]

/-! ### The type of two branches -/

theorem Branches.unique (h : k.Branches a b t) (h' : k.Branches a b u) : t = u := by
  cases h with
  | fits below =>
    cases h' with
    | fits => rfl
    | joins apart => exact absurd below apart
  | joins apart join =>
    cases h' with
    | fits below => exact absurd below apart
    | joins _ join' => exact join.unique join'

/-- Either branch fits the type of the whole. -/
theorem Branches.fits_of_mem (h : k.Branches a b t) : ∀ s ∈ [a, b], k.Fits s t := by
  cases h with
  | fits below => exact List.forall_mem_cons.mpr ⟨below, List.forall_mem_singleton.mpr .same⟩
  | joins _ join => exact fun s hs => (join.aboveAll s hs).fits

/-- Branches that change places have a type that is the same up to naming. -/
theorem Branches.swap (h : k.Branches a b t) (hk : k.Agrees) (ha : a ≠ .any) (hb : b ≠ .any) :
    ∃ u, k.Branches b a u ∧ t.Alike u := by
  have hswap : [a, b].Perm [b, a] := List.Perm.swap _ _ _
  cases h with
  | fits below =>
    by_cases hback : k.Fits b a
    · exact ⟨a, .fits hback, hback.antisymm below⟩
    · -- `b` was taken at once; now the two are joined, and that is at `b`
      obtain ⟨hkind, hknown⟩ := below.known_of_not_fits hb hback
      obtain ⟨u, hu, halike⟩ := below.joins hkind hknown fun h => absurd h hb
      exact ⟨u, .joins hback (hu.perm hk hswap), halike.symm⟩
  | joins apart join =>
    by_cases hback : k.Fits b a
    · -- the two were joined, and that at `a`; now `a` is taken at once
      obtain ⟨hkind, hknown⟩ := hback.known_of_not_fits ha apart
      obtain ⟨u, hu, halike⟩ := hback.joins hkind hknown fun h => absurd h ha
      obtain rfl := join.unique (hu.perm hk hswap.symm)
      exact ⟨a, .fits hback, halike⟩
    · exact ⟨t, .joins hback (join.perm hk hswap), .inl rfl⟩

/-- Two branches and their join come to the same, unless the second type alone is `any`. -/
theorem branches_alike_joins (hkind : ∀ t ∈ [a, b], t.hasKind = true)
    (hknown : ∀ t ∈ [a, b], k.Knows t) (hany : b = .any → a = .any) :
    ((∃ t, k.Branches a b t) ↔ ∃ u, k.Joins [a, b] u) ∧
      ∀ t u, k.Branches a b t → k.Joins [a, b] u → t.Alike u := by
  by_cases hfits : k.Fits a b
  · obtain ⟨v, hv, halike⟩ := hfits.joins hkind hknown hany
    refine ⟨⟨fun _ => ⟨v, hv⟩, fun _ => ⟨b, .fits hfits⟩⟩, fun t u ht hu => ?_⟩
    rw [ht.unique (.fits hfits), hu.unique hv]
    exact halike.symm
  · have hsame : ∀ t, k.Branches a b t ↔ k.Joins [a, b] t := by
      intro t
      constructor
      · intro h
        cases h with
        | fits below => exact absurd below hfits
        | joins _ join => exact join
      · exact .joins hfits
    exact ⟨exists_congr hsame, fun t u ht hu => .inl (((hsame t).mp ht).unique hu)⟩

end Catalog

/-! ### The check of an `if` and of a case analysis -/

section

variable {program : Program} {env : Env} {r : Report} {lenient : Bool} {i j : Nat}
  {test x y : Phrase} {a b c t : Ty}

theorem gives_cond_iff (htest : (typeOfExpression test env program r lenient).Gives c)
    (hx : (typeOfExpression x env program r lenient).Gives a)
    (hy : (typeOfExpression y env program r lenient).Gives b) :
    (typeOfExpression (.cond i test x y) env program r lenient).Gives t ↔
      program.catalog.Fits c .boolean ∧ program.catalog.Branches a b t := by
  obtain ⟨htest, hc⟩ := gives_iff.mp htest
  obtain ⟨hx, -⟩ := gives_iff.mp hx
  obtain ⟨hy, hb⟩ := gives_iff.mp hy
  have hhonest : program.catalog.Branches a b t → t.isFailure = false := by
    intro h
    cases h with
    | fits => exact hb
    | joins _ join => exact join.isFailure_eq
  simp only [gives_iff, Checker.check, htest, hx, hy, bind_eq_ok_iff, Except.ok.injEq,
    exists_eq_left', Checker.expect_eq_ok_iff hc, Checker.branches_eq_ok_iff, exists_const]
  exact ⟨And.left, fun h => ⟨h, hhonest h.2⟩⟩

theorem gives_typeCase_iff {type : String} {subject : Phrase} {arms : List Arm} {ts : List Ty}
    (hreaches : Checker.ReachesArms lenient program.catalog env type subject arms)
    (harms : Checker.checkArms ⟨lenient, some program.catalog⟩ arms env = .ok ts) :
    (typeOfExpression (.typeCase i type subject arms) env program r lenient).Gives t ↔
      program.catalog.Joins ts t := by
  rw [gives_iff, Checker.check_typeCase_eq_ok_iff]
  simp only [← Checker.checkArms_eq_ok_iff, harms, Except.ok.injEq, exists_eq_left', hreaches,
    true_and]
  exact ⟨And.left, fun h => ⟨h, h.isFailure_eq⟩⟩

end

/-- Both runs come out with a type or neither does, and the types are the same up to naming. -/
def Run.AgreesWith (run other : Run) : Prop :=
  ((∃ t, run.Gives t) ↔ ∃ u, other.Gives u) ∧ ∀ t u, run.Gives t → other.Gives u → t.Alike u

/-- An `if` has the same type, up to naming, when its branches change places: neither of them is of
    type `any`, and repeated declarations agree. Both branches fit that type. -/
theorem typeOfExpression_cond_swap (program : Program) (env : Env) (r : Report) (lenient : Bool)
    {i j : Nat} {test x y : Phrase} {a b c : Ty} (hagree : program.catalog.redeclared? = none)
    (htest : (typeOfExpression test env program r lenient).Gives c)
    (hx : (typeOfExpression x env program r lenient).Gives a)
    (hy : (typeOfExpression y env program r lenient).Gives b) (ha : a ≠ .any) (hb : b ≠ .any) :
    (typeOfExpression (.cond i test x y) env program r lenient).AgreesWith
        (typeOfExpression (.cond j test y x) env program r lenient) ∧
      ∀ t, (typeOfExpression (.cond i test x y) env program r lenient).Gives t ∨
          (typeOfExpression (.cond j test y x) env program r lenient).Gives t →
        ∀ s ∈ [a, b], ∀ site, program.catalog.Passes site s t := by
  have hk := Catalog.redeclared?_eq_none_iff.mp hagree
  simp only [Run.AgreesWith, gives_cond_iff htest hx hy, gives_cond_iff htest hy hx]
  refine ⟨⟨⟨?_, ?_⟩, ?_⟩, ?_⟩
  · rintro ⟨t, hc, h⟩
    obtain ⟨u, hu, -⟩ := h.swap hk ha hb
    exact ⟨u, hc, hu⟩
  · rintro ⟨u, hc, h⟩
    obtain ⟨t, ht, -⟩ := h.swap hk hb ha
    exact ⟨t, hc, ht⟩
  · rintro t u ⟨-, ht⟩ ⟨-, hu⟩
    obtain ⟨u', hu', halike⟩ := ht.swap hk ha hb
    exact hu.unique hu' ▸ halike
  · intro t h s hs site
    have honest : s.isFailure = false := by
      rcases List.mem_pair.mp hs with rfl | rfl
      · exact hx.2
      · exact hy.2
    rw [Catalog.Passes, Catalog.isFailure_compatible_iff honest]
    rcases h with ⟨-, h⟩ | ⟨-, h⟩
    · exact h.fits_of_mem s hs
    · exact h.fits_of_mem s ((List.Perm.swap _ _ _).mem_iff.mp hs)

/-- The type that is declared first lists both branches. -/
theorem typeOfExpression_cond_swap_garage :
    garage.catalog.redeclared? = none ∧
      (typeOfExpression (.cond 10 (.literal 11 (.bool true)) (.variable 12 "car")
        (.variable 13 "bike")) parked garage {} false).Gives (.named "Wheeled") ∧
      ∃ u, (typeOfExpression (.cond 14 (.literal 11 (.bool true)) (.variable 13 "bike")
        (.variable 12 "car")) parked garage {} false).Gives u ∧ (Ty.named "Wheeled").Alike u := by
  have hagree : garage.catalog.redeclared? = none := by decide
  have htest : (typeOfExpression (.literal 11 (.bool true)) parked garage {} false).Gives .boolean :=
    ⟨rfl, rfl⟩
  have hcar : (typeOfExpression (.variable 12 "car") parked garage {} false).Gives (.named "Car") :=
    ⟨rfl, rfl⟩
  have hbike : (typeOfExpression (.variable 13 "bike") parked garage {} false).Gives
    (.named "Bike") := ⟨rfl, rfl⟩
  have hgives : (typeOfExpression (.cond 10 (.literal 11 (.bool true)) (.variable 12 "car")
      (.variable 13 "bike")) parked garage {} false).Gives (.named "Wheeled") := ⟨rfl, rfl⟩
  obtain ⟨⟨haccepted, halike⟩, -⟩ := typeOfExpression_cond_swap garage parked {} false
    (i := 10) (j := 14) hagree htest hcar hbike (by decide) (by decide)
  obtain ⟨u, hu⟩ := haccepted.mp ⟨_, hgives⟩
  exact ⟨hagree, hgives, u, hu, halike _ u hgives hu⟩

/-! ### An `if` and a case analysis -/

/-- The quick way through an `if` leads where the join leads. Of two types whose names are declared,
    let the first pass for the second: they are joined at the second, up to naming, unless that is
    `any` and the first is not. With this exception, an `if` with branches of two such types and a
    case analysis with arms of these types come to the same. -/
theorem cond_agreesWith_typeCase (program : Program) {a b : Ty}
    (hkind : ∀ t ∈ [a, b], t.hasKind = true) (hknown : ∀ t ∈ [a, b], program.catalog.Knows t) :
    (∀ site, program.catalog.Passes site a b →
      ((∃ t, program.catalog.join [a, b] = .ok t ∧ t.isFailure = false ∧ t.Alike b) ↔
        (b = .any → a = .any))) ∧
    ((b = .any → a = .any) →
      ∀ (env : Env) (r : Report) (lenient : Bool) (i j : Nat) (test x y : Phrase) (c : Ty)
        (type : String) (subject : Phrase) (p q : Arm),
        (typeOfExpression test env program r lenient).Gives c →
        program.catalog.Passes test c .boolean →
        (typeOfExpression x env program r lenient).Gives a →
        (typeOfExpression y env program r lenient).Gives b →
        Checker.ReachesArms lenient program.catalog env type subject [p, q] →
        Checker.checkArms ⟨lenient, some program.catalog⟩ [p, q] env = .ok [a, b] →
        (typeOfExpression (.cond i test x y) env program r lenient).AgreesWith
          (typeOfExpression (.typeCase j type subject [p, q]) env program r lenient)) := by
  constructor
  · intro site hpasses
    have ha : a.isFailure = false := Ty.isFailure_of_hasKind (hkind a (by simp))
    have hfits := (Catalog.isFailure_compatible_iff ha).mp hpasses
    constructor
    · rintro ⟨t, hjoin, ht, -⟩ rfl
      exact (Catalog.join_iff.mp ⟨hjoin, ht⟩).eq_any
    · intro hany
      obtain ⟨t, ht, halike⟩ := hfits.joins hkind hknown hany
      obtain ⟨hjoin, honest⟩ := Catalog.join_iff.mpr ht
      exact ⟨t, hjoin, honest, halike⟩
  · intro hany env r lenient i j test x y c type subject p q htest hbool hx hy hreaches harms
    have hc := (Catalog.isFailure_compatible_iff htest.2).mp hbool
    simp only [Run.AgreesWith, gives_cond_iff htest hx hy, gives_typeCase_iff hreaches harms, hc,
      true_and]
    exact Catalog.branches_alike_joins hkind hknown hany

/-- Two variables more: one for either case, and one for anything at all. -/
def visited : Env := parked.bind [("it", .named "Wheeled"), ("thing", .any)]

/-- What to do with a car, and what with a bike. -/
def eitherArms (x y : Phrase) : List Arm := [⟨15, "Car", [], ⟨[], x⟩⟩, ⟨16, "Bike", [], ⟨[], y⟩⟩]

/-- A car or something wheeled is something wheeled, in either form. -/
theorem cond_agreesWith_typeCase_visited :
    (∃ t, garage.catalog.join [.named "Car", .named "Wheeled"] = .ok t ∧ t.isFailure = false ∧
        t.Alike (.named "Wheeled")) ∧
      (typeOfExpression (.cond 17 (.literal 18 (.bool true)) (.variable 19 "car")
        (.variable 20 "it")) visited garage {} false).Gives (.named "Wheeled") ∧
      (typeOfExpression (.cond 17 (.literal 18 (.bool true)) (.variable 19 "car")
        (.variable 20 "it")) visited garage {} false).AgreesWith
        (typeOfExpression (.typeCase 21 "Wheeled" (.variable 22 "it")
          (eitherArms (.variable 19 "car") (.variable 20 "it"))) visited garage {} false) := by
  have hkind : ∀ t ∈ [Ty.named "Car", .named "Wheeled"], t.hasKind = true := by decide
  have hknown : ∀ t ∈ [Ty.named "Car", .named "Wheeled"], garage.catalog.Knows t := by
    have hcar : garage.catalog.DeclaresRecord "Car" :=
      Catalog.record?_isSome_iff.mp (by decide)
    have hwheeled : garage.catalog.DeclaresVariant "Wheeled" :=
      Catalog.variant?_isSome_iff.mp (by decide)
    simp [Catalog.Knows, Ty.name?, hcar, hwheeled]
  have hany : Ty.named "Wheeled" = .any → Ty.named "Car" = .any := by simp [Ty.any]
  have hreaches : Checker.ReachesArms false garage.catalog visited "Wheeled" (.variable 22 "it")
      (eitherArms (.variable 19 "car") (.variable 20 "it")) :=
    fun _ => ⟨by decide, .named "Wheeled", rfl, by decide⟩
  obtain ⟨hjoin, hagrees⟩ := cond_agreesWith_typeCase garage hkind hknown
  exact ⟨(hjoin (.literal 18 (.bool true)) rfl).mpr hany, ⟨rfl, rfl⟩,
    hagrees hany visited {} false 17 21 _ _ _ .boolean _ _ _ _ ⟨rfl, rfl⟩ rfl ⟨rfl, rfl⟩ ⟨rfl, rfl⟩
      hreaches rfl⟩

/-- Any type passes for `any`, but has no join with it: an `if` takes both, and a case analysis does
    not. -/
theorem number_any_not_joined :
    garage.catalog.Passes (.literal 18 (.bool true)) .number .any ∧
      garage.catalog.join [.number, .any] = .ok (.failure (.noCommonType [.number, .any])) ∧
      (typeOfExpression (.cond 17 (.literal 18 (.bool true)) (.literal 19 (.int 1))
        (.variable 20 "thing")) visited garage {} false).verdict = .ok .any ∧
      (typeOfExpression (.typeCase 21 "Wheeled" (.variable 22 "it")
        (eitherArms (.literal 19 (.int 1)) (.variable 20 "thing"))) visited garage {}
        false).verdict = .ok (.failure (.noCommonType [.number, .any])) :=
  ⟨rfl, rfl, rfl, rfl⟩

end VariantScheme
