import Mathlib.Data.List.Perm.Basic
import VariantScheme.Proofs.Checking
import VariantScheme.Proofs.CommonAncestors

/-!
    The arms of a case analysis may come in any order. Its type is the join of the arms' types, and
    the search for the join follows the ancestors of the first of them, so that it finds the same
    type from every arm only if ancestors are listed in one order throughout. Where repeated
    declarations agree, every list of ancestors has the variants as they are declared first
    (`Agrees.ancestors_sorted`), and the common ancestors are the same list whichever type comes
    first. -/

namespace VariantScheme

namespace Catalog

variable {k : Catalog} {t a : Ty} {ts us : List Ty} {n : String}

/-! ### The order of ancestors -/

/-- Where a type stands among ancestors: the variants come as they are declared, after the rest. -/
def rank (k : Catalog) (t : Ty) : Nat :=
  match t.name? with
  | some n => if (k.variant? n).isSome then (k.variants.map (·.name)).idxOf n + 1 else 0
  | none => 0

theorem rank_of_variant (h : k.DeclaresVariant n) :
    k.rank (.named n) = (k.variants.map (·.name)).idxOf n + 1 :=
  if_pos (variant?_isSome_iff.mpr h)

theorem rank_of_not_variant (h : ¬ k.DeclaresVariant n) : k.rank (.named n) = 0 :=
  if_neg (mt variant?_isSome_iff.mp h)

/-- Which variants list a record is a matter of their names, if the declarations agree. -/
theorem Agrees.parents_names (hk : k.Agrees) (n : String) :
    ∃ p : String → Bool, (k.parents n).map (·.name) = (k.variants.map (·.name)).filter p := by
  refine ⟨fun m => (k.variant? m).any fun v => n ∈ v.recordNames, ?_⟩
  rw [List.filter_map, parents]
  congr 1
  refine List.filter_congr fun v hv => ?_
  simp [hk.variant?_eq hv]

theorem Agrees.lineage_sorted (hk : k.Agrees) (n : String) :
    (k.lineage n).Pairwise fun c d => k.rank (.named c) < k.rank (.named d) := by
  by_cases hv : k.DeclaresVariant n
  · rw [lineage_of_variant hv]
    exact List.pairwise_singleton _ _
  by_cases hr : k.DeclaresRecord n
  · -- the record stands first; all that follow are variants, in the order of declaration
    have hpair := lineage_pairwise (k := k) n
    rw [lineage_of_record hv hr, distinctBy, List.pairwise_cons] at hpair ⊢
    have hrank : ∀ d ∈ (distinctBy id ((k.parents n).map (·.name))).filter (fun d => id d ≠ id n),
        k.rank (.named d) = (k.variants.map (·.name)).idxOf d + 1 :=
      fun d hd => rank_of_variant (hpair.1 d hd).1
    constructor
    · intro d hd
      rw [rank_of_not_variant hv, hrank d hd]
      omega
    · obtain ⟨p, hp⟩ := hk.parents_names n
      have hsorted : (distinctBy id ((k.parents n).map (·.name))).Pairwise fun c d =>
          (k.variants.map (·.name)).idxOf c < (k.variants.map (·.name)).idxOf d := by
        rw [hp, distinctBy_id_filter]
        exact (pairwise_distinctBy_id _).filter p
      refine (hsorted.filter _).imp_of_mem fun hc hd hlt => ?_
      rw [hrank _ hc, hrank _ hd]
      omega
  · rw [lineage_of_undeclared hv hr]
    exact List.Pairwise.nil

/-- Ancestors are listed by rank. -/
theorem Agrees.ancestors_sorted (hk : k.Agrees) {as : List Ty} (h : k.ancestors t = .ok as) :
    as.Pairwise fun c d => k.rank c < k.rank d :=
  ancestors_pairwise_of_lineage hk.lineage_sorted h

/-! ### The join of types in any order -/

theorem AboveAll.perm (h : k.AboveAll ts a) (hperm : ts.Perm us) : k.AboveAll us a :=
  fun u hu => h u (hperm.mem_iff.mpr hu)

theorem Above.hasKind (h : k.Above t a) : t.hasKind = true := by
  obtain ⟨as, has, -⟩ := above_iff.mp h
  cases t with
  | failure | bare => cases has
  | _ => rfl

/-- The intersection of lists that are sorted by rank is sorted by rank. -/
theorem Agrees.commonAncestors_sorted (hk : k.Agrees) (hkind : ∀ t ∈ ts, t.hasKind = true)
    {cover : List Ty} (h : k.commonAncestors ts = .ok cover) :
    cover.Pairwise fun c d => k.rank c < k.rank d := by
  cases ts with
  | nil =>
    obtain rfl := Except.ok.inj h
    exact List.Pairwise.nil
  | cons t ts =>
    obtain ⟨ht, hts⟩ := List.forall_mem_cons.mp hkind
    obtain ⟨as, has⟩ := k.exists_ancestors ht
    obtain ⟨p, -, hcover⟩ := commonAncestors_eq has fun u hu => k.exists_ancestors (hts u hu)
    obtain rfl := Except.ok.inj (hcover.symm.trans h)
    exact (hk.ancestors_sorted has).filter p

/-- The common ancestors do not depend on the order of the types. -/
theorem Agrees.commonAncestors_perm (hk : k.Agrees) (hperm : ts.Perm us)
    (hkind : ∀ t ∈ ts, t.hasKind = true) : k.commonAncestors ts = k.commonAncestors us := by
  by_cases hne : ts = []
  · subst hne
    rw [hperm.nil_eq]
  have hne' : us ≠ [] := by
    rintro rfl
    exact hne hperm.eq_nil
  have hkind' : ∀ u ∈ us, u.hasKind = true := fun u hu => hkind u (hperm.mem_iff.mpr hu)
  obtain ⟨cover, hcover, hnodup, hmem, -⟩ := exists_commonAncestors (k := k) hne hkind
  obtain ⟨cover', hcover', hnodup', hmem', -⟩ := exists_commonAncestors (k := k) hne' hkind'
  have hsame : cover.Perm cover' := by
    rw [List.perm_ext_iff_of_nodup hnodup hnodup']
    intro a
    rw [hmem, hmem']
    exact ⟨fun h => h.perm hperm, fun h => h.perm hperm.symm⟩
  -- one order for both lists, and it is strict
  have heq : cover = cover' := hsame.eq_of_pairwise (fun _ _ _ _ hab hba => by omega)
    (hk.commonAncestors_sorted hkind hcover) (hk.commonAncestors_sorted hkind' hcover')
  rw [hcover, hcover', heq]

theorem Joins.perm (h : k.Joins ts a) (hk : k.Agrees) (hperm : ts.Perm us) : k.Joins us a := by
  obtain ⟨hjoin, ha⟩ := join_iff.mpr h
  have hcommon := hk.commonAncestors_perm hperm fun t ht => (h.aboveAll t ht).hasKind
  rw [← join_iff]
  refine ⟨?_, ha⟩
  rw [join] at hjoin
  rw [join, ← hcommon]
  cases hcover : k.commonAncestors ts with
  | error e =>
    rw [hcover] at hjoin
    cases hjoin
  | ok cover =>
    rw [hcover] at hjoin
    cases cover with
    | nil =>
      cases hjoin
      cases ha
    | cons c cs => exact hjoin

theorem Covers.perm {v : Variant} {arms arms' : List Arm} (h : k.Covers v arms)
    (hperm : arms.Perm arms') : k.Covers v arms' where
  once := (hperm.map _).nodup_iff.mp h.once
  cases_iff n := (hperm.map _).mem_iff.symm.trans (h.cases_iff n)
  shaped arm harm := h.shaped arm (hperm.mem_iff.mpr harm)

end Catalog

namespace Checker

variable {k : Catalog} {lenient : Bool} {env : Env} {type : String} {subject : Phrase}
  {arms arms' : List Arm}

/-! ### The arms of an analysis -/

/-- The arms have types when each of them has one by itself. -/
theorem checkArms_eq_ok_iff {c : Checker} : ∀ {arms : List Arm} {ts : List Ty},
    c.checkArms arms env = .ok ts ↔
      List.Forall₂ (fun arm t => c.checkArm arm env = .ok t) arms ts
  | [], ts => by
      rw [checkArms, List.forall₂_nil_left_iff, Except.ok.injEq, eq_comm]
  | arm :: arms, ts => by
      simp only [checkArms, bind_eq_ok_iff, pure_eq_ok_iff, checkArms_eq_ok_iff,
        List.forall₂_cons_left_iff]
      constructor
      · rintro ⟨t, ht, ts, hts, rfl⟩
        exact ⟨t, ts, ht, hts, rfl⟩
      · rintro ⟨t, ts, ht, hts, rfl⟩
        exact ⟨t, ht, ts, hts, rfl⟩

/-- A check of an analysis goes on to the arms: there is no fault in them, and the subject fits the
    type that is analysed. A lenient check asks for neither. -/
def ReachesArms (lenient : Bool) (k : Catalog) (env : Env) (type : String) (subject : Phrase)
    (arms : List Arm) : Prop :=
  lenient = false → k.caseFault? type arms = none ∧
    ∃ s, (⟨lenient, some k⟩ : Checker).check subject env = .ok s ∧ k.fits s (.named type) = true

theorem ReachesArms.perm (h : ReachesArms lenient k env type subject arms)
    (hperm : arms.Perm arms') : ReachesArms lenient k env type subject arms' := by
  intro hstrict
  obtain ⟨hfault, hsubject⟩ := h hstrict
  obtain ⟨v, hv, hcovers⟩ := Catalog.caseFault?_eq_none_iff.mp hfault
  exact ⟨Catalog.caseFault?_eq_none_iff.mpr ⟨v, hv, hcovers.perm hperm⟩, hsubject⟩

theorem check_typeCase_eq_ok_iff {i : Nat} {t : Ty} :
    (⟨lenient, some k⟩ : Checker).check (.typeCase i type subject arms) env = .ok t ↔
      ReachesArms lenient k env type subject arms ∧
        ∃ ts, List.Forall₂
          (fun arm u => (⟨lenient, some k⟩ : Checker).checkArm arm env = .ok u) arms ts ∧
          k.Joins ts t := by
  cases lenient with
  | true =>
    simp only [check, if_true, bind_eq_ok_iff, checkArms_eq_ok_iff, join_eq_ok_iff, ReachesArms,
      Bool.true_eq_false, false_imp_iff, true_and]
  | false =>
    simp only [check, Bool.false_eq_true, if_false, bind_eq_ok_iff, expectCases_eq_ok_iff,
      ← Catalog.caseFault?_eq_none_iff, checkArms_eq_ok_iff, join_eq_ok_iff, ReachesArms,
      forall_const]
    constructor
    · rintro ⟨_, hfault, s, hs, _, hfits, ts, harms, hjoin⟩
      rw [expect_eq_ok_iff ((check_iff subject).mp hs).isFailure_eq, ← Catalog.fits_iff] at hfits
      exact ⟨⟨hfault, s, hs, hfits⟩, ts, harms, hjoin⟩
    · rintro ⟨⟨hfault, s, hs, hfits⟩, ts, harms, hjoin⟩
      rw [Catalog.fits_iff,
        ← expect_eq_ok_iff (u := ()) ((check_iff subject).mp hs).isFailure_eq] at hfits
      exact ⟨(), hfault, s, hs, (), hfits, ts, harms, hjoin⟩

theorem check_typeCase_perm {i j : Nat} {t : Ty} (hk : k.Agrees) (hperm : arms.Perm arms')
    (h : (⟨lenient, some k⟩ : Checker).check (.typeCase i type subject arms) env = .ok t) :
    (⟨lenient, some k⟩ : Checker).check (.typeCase j type subject arms') env = .ok t := by
  obtain ⟨hreaches, ts, harms, hjoin⟩ := check_typeCase_eq_ok_iff.mp h
  obtain ⟨us, harms', hus⟩ := List.perm_comp_forall₂ hperm.symm harms
  exact check_typeCase_eq_ok_iff.mpr
    ⟨hreaches.perm hperm, us, harms', hjoin.perm hk hus.symm⟩

end Checker

/-! ### The verdict -/

/-- The run comes out with an honest type. -/
def Run.Gives (run : Run) (t : Ty) : Prop := run.verdict = .ok t ∧ t.isFailure = false

theorem gives_iff {e : Phrase} {env : Env} {program : Program} {r : Report} {lenient : Bool}
    {t : Ty} : (typeOfExpression e env program r lenient).Gives t ↔
      (⟨lenient, some program.catalog⟩ : Checker).check e env = .ok t ∧ t.isFailure = false :=
  and_congr_left fun ht => verdict_eq_ok_iff ht

/-- Where repeated declarations agree, the type of a case analysis does not depend on the order of
    its arms, neither in a strict nor in a lenient check. -/
theorem typeOfExpression_typeCase_perm (program : Program) (env : Env) (r : Report)
    (lenient : Bool) {i j : Nat} {type : String} {subject : Phrase} {arms arms' : List Arm} {t : Ty}
    (hagree : program.catalog.redeclared? = none) (hperm : arms.Perm arms')
    (h : (typeOfExpression (.typeCase i type subject arms) env program r lenient).Gives t) :
    (typeOfExpression (.typeCase j type subject arms') env program r lenient).Gives t := by
  obtain ⟨hcheck, ht⟩ := gives_iff.mp h
  have hk := Catalog.redeclared?_eq_none_iff.mp hagree
  exact gives_iff.mpr ⟨Checker.check_typeCase_perm hk hperm hcheck, ht⟩

/-- Two variants that share their cases, the first of them declared twice. -/
def garage : Program :=
  ⟨[.defineType 0 ⟨"Wheeled", [⟨"Car", []⟩, ⟨"Bike", []⟩]⟩,
    .defineType 1 ⟨"Rented", [⟨"Bike", []⟩, ⟨"Car", []⟩]⟩],
    .defineType 2 ⟨"Wheeled", [⟨"Car", []⟩, ⟨"Bike", []⟩]⟩⟩

/-- Variables for one value of each case. -/
def parked : Env := Env.bind [] [("car", .named "Car"), ("bike", .named "Bike")]

/-- The arms of an exchange: the bike for a car, and the car for a bike. -/
def carArm : Arm := ⟨3, "Car", [], ⟨[], .variable 4 "bike"⟩⟩
def bikeArm : Arm := ⟨5, "Bike", [], ⟨[], .variable 6 "car"⟩⟩

/-- Both variants take both arms; the one declared first is the type, in either order. -/
theorem typeOfExpression_typeCase_perm_garage :
    garage.catalog.redeclared? = none ∧
      (typeOfExpression (.typeCase 7 "Rented" (.variable 8 "car") [carArm, bikeArm]) parked garage
        {} false).Gives (.named "Wheeled") ∧
      (typeOfExpression (.typeCase 9 "Rented" (.variable 8 "car") [bikeArm, carArm]) parked garage
        {} false).Gives (.named "Wheeled") := by
  have hagree : garage.catalog.redeclared? = none := by decide
  have hgives : (typeOfExpression (.typeCase 7 "Rented" (.variable 8 "car") [carArm, bikeArm])
      parked garage {} false).Gives (.named "Wheeled") := ⟨rfl, rfl⟩
  exact ⟨hagree, hgives, typeOfExpression_typeCase_perm garage parked {} false hagree
    (List.Perm.swap _ _ _) hgives⟩

end VariantScheme
