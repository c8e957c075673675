import VariantScheme.Proofs.Subtyping

/-!
    The join of several types, declaratively. A type above all of them is wanted, the most specific
    one; among variants, which never lie below one another, that is the one declared first.
    `join_iff` says that intersecting the lists of ancestors and folding over what is left finds
    exactly this type. The fold keeps its first choice, because no ancestor lies below one that
    is listed before it. -/

namespace VariantScheme

/-- A type as it stands among its ancestors: by its name, if it has one. -/
def Ty.byName (t : Ty) : Ty :=
  match t.name? with
  | some n => .named n
  | none => t

namespace Catalog

/-- The type `a` lies above every one of `ts`. -/
def AboveAll (k : Catalog) (ts : List Ty) (a : Ty) : Prop := ∀ t ∈ ts, Above k t a

/-- `Joins k ts a`: the type `a` is the join of `ts`. If the first type is above all the others, it
    is the join; else the first of them is a record, and the join is the first variant that lists
    this record and is above all the others. -/
inductive Joins (k : Catalog) : List Ty → Ty → Prop
  | itself {t : Ty} {ts : List Ty} (common : k.AboveAll (t :: ts) t.byName) :
      Joins k (t :: ts) t.byName
  | variant {t : Ty} {ts : List Ty} {n : String} {v : Variant} {before after : List Variant}
      (ref : t.reference? = some n) (free : ¬ k.DeclaresVariant n)
      (proper : ¬ k.AboveAll ts (.named n))
      (order : k.variants = before ++ v :: after) (case : n ∈ v.recordNames)
      (common : k.AboveAll ts (.named v.name))
      (earliest : ∀ w ∈ before, n ∈ w.recordNames → ¬ k.AboveAll ts (.named w.name)) :
      Joins k (t :: ts) (.named v.name)

variable {k : Catalog} {t : Ty} {ts : List Ty}

/-! ### The intersection -/

theorem narrow_eq {u : Ty} {as : List Ty} (h : k.ancestors u = .ok as) (common : List Ty) :
    k.narrow common u = .ok (common.filter (· ∈ as)) := by
  rw [narrow, h]
  rfl

/-- The rounds together drop every candidate that is not above all of the types. -/
theorem foldlM_narrow : ∀ (ts first : List Ty), (∀ u ∈ ts, ∃ as, k.ancestors u = .ok as) →
    ∃ p : Ty → Bool, (∀ a, p a = true ↔ k.AboveAll ts a) ∧
      ts.foldlM k.narrow first = .ok (first.filter p)
  | [], first, _ => by
      refine ⟨fun _ => true, by simp [AboveAll], ?_⟩
      rw [List.foldlM_nil, List.filter_eq_self.mpr fun _ _ => rfl]
      rfl
  | u :: us, first, h => by
      obtain ⟨as, has⟩ := h u List.mem_cons_self
      obtain ⟨p, hp, hfold⟩ := foldlM_narrow us (first.filter (· ∈ as))
        fun w hw => h w (List.mem_cons_of_mem _ hw)
      refine ⟨fun a => p a && decide (a ∈ as), fun a => ?_, ?_⟩
      · have hu : a ∈ as ↔ Above k u a := by simp [above_iff, has]
        simp [AboveAll, hp a, hu, and_comm]
      · rw [List.foldlM_cons, narrow_eq has, ← List.filter_filter]
        exact hfold

/-- An intersection that comes out took the ancestors of every type. -/
theorem ancestors_of_foldlM : ∀ {ts first cs : List Ty}, ts.foldlM k.narrow first = .ok cs →
    ∀ u ∈ ts, ∃ as, k.ancestors u = .ok as
  | u :: us, first, cs, h, w, hw => by
      rw [List.foldlM_cons] at h
      cases has : k.ancestors u with
      | error e => simp [narrow, has, bind, Except.bind] at h
      | ok as =>
        rw [narrow_eq has] at h
        rcases List.mem_cons.mp hw with rfl | hw
        · exact ⟨as, has⟩
        · exact ancestors_of_foldlM h w hw

theorem commonAncestors_eq {as : List Ty} (ht : k.ancestors t = .ok as)
    (hts : ∀ u ∈ ts, ∃ bs, k.ancestors u = .ok bs) :
    ∃ p : Ty → Bool, (∀ a, p a = true ↔ k.AboveAll ts a) ∧
      k.commonAncestors (t :: ts) = .ok (as.filter p) := by
  obtain ⟨p, hp, hfold⟩ := foldlM_narrow ts as hts
  refine ⟨p, hp, ?_⟩
  rw [commonAncestors, ht]
  exact hfold

/-! ### The fold over what is left -/

/-- Listed after the first, an ancestor is a variant, and none is listed twice. -/
theorem lineage_pairwise (n : String) :
    (k.lineage n).Pairwise fun c d => k.DeclaresVariant d ∧ d ≠ c := by
  by_cases hv : k.DeclaresVariant n
  · rw [lineage_of_variant hv]
    exact List.pairwise_singleton _ _
  · by_cases hr : k.DeclaresRecord n
    · have hvariant : ∀ d ∈ distinctBy id ((k.parents n).map (·.name)), k.DeclaresVariant d := by
        intro d hd
        obtain ⟨v, hv, rfl⟩ := List.mem_map.mp (mem_distinctBy_id.mp hd)
        exact ⟨v, (mem_parents.mp hv).1, rfl⟩
      rw [lineage_of_record hv hr, distinctBy, List.pairwise_cons]
      constructor
      · intro d hd
        rw [List.mem_filter] at hd
        exact ⟨hvariant d hd.1, by simpa using hd.2⟩
      · have hnodup := (nodup_distinctBy_id ((k.parents n).map (·.name))).filter
          fun b => decide (id b ≠ id n)
        refine hnodup.imp_of_mem fun _ hd hne => ⟨?_, hne.symm⟩
        exact hvariant _ (List.mem_filter.mp hd).1
    · rw [lineage_of_undeclared hv hr]
      exact List.Pairwise.nil

/-- What holds along every lineage holds along all ancestors: a type without a name has one only. -/
theorem ancestors_pairwise_of_lineage {R : Ty → Ty → Prop} {as : List Ty}
    (hnames : ∀ n, (k.lineage n).Pairwise fun c d => R (.named c) (.named d))
    (h : k.ancestors t = .ok as) : as.Pairwise R := by
  cases t with
  | named n | record r =>
    obtain rfl := Except.ok.inj h
    rw [List.pairwise_map]
    exact hnames _
  | failure | bare => cases h
  | _ =>
    obtain rfl := Except.ok.inj h
    exact List.pairwise_singleton _ _

/-- No ancestor lies below one that is listed before it. -/
theorem ancestors_pairwise {as : List Ty} (h : k.ancestors t = .ok as) :
    as.Pairwise fun c d => k.isSubtype d c = false := by
  refine ancestors_pairwise_of_lineage (fun n => ?_) h
  refine (lineage_pairwise n).imp fun {c d} ⟨hd, hne⟩ => ?_
  rw [Bool.eq_false_iff, Ne, isSubtype_named rfl rfl]
  rintro (rfl | habove)
  · exact hne rfl
  · rcases mem_lineage.mp ((mem_lineage_of_reference rfl).mpr habove) with ⟨rfl, -⟩ | ⟨hfree, -⟩
    · exact hne rfl
    · exact hfree hd

/-- The fold keeps its first choice when nothing later lies below it. -/
theorem mostSpecific_cons {c : Ty} {cs : List Ty} (h : ∀ d ∈ cs, k.isSubtype d c = false) :
    k.mostSpecific (c :: cs) = c := by
  have hkeep : ∀ ds : List Ty, (∀ d ∈ ds, k.isSubtype d c = false) →
      ds.foldl (fun choice d => if k.isSubtype d choice then d else choice) c = c := by
    intro ds
    induction ds with
    | nil => intro _; rfl
    | cons d ds ih =>
      intro hds
      rw [List.foldl_cons, hds d List.mem_cons_self]
      exact ih fun e he => hds e (List.mem_cons_of_mem _ he)
  have htop : k.isSubtype c .any = true := by simp [isSubtype]
  rw [mostSpecific, List.foldl_cons, if_pos htop, hkeep cs h]

/-! ### The join -/

/-- Where every type has ancestors, the join is the first of the first one's that is common. -/
theorem join_eq {as : List Ty} (ht : k.ancestors t = .ok as)
    (hts : ∀ u ∈ ts, ∃ bs, k.ancestors u = .ok bs) :
    ∃ p : Ty → Bool, (∀ a, p a = true ↔ k.AboveAll ts a) ∧
      k.join (t :: ts) = .ok ((as.find? p).getD (.failure (.noCommonType (t :: ts)))) := by
  obtain ⟨p, hp, hcommon⟩ := commonAncestors_eq ht hts
  refine ⟨p, hp, ?_⟩
  rw [join, hcommon, ← List.head?_filter]
  cases hcs : as.filter p with
  | nil => rfl
  | cons c cs =>
    have hpair : (c :: cs).Pairwise fun c d => k.isSubtype d c = false :=
      hcs ▸ (ancestors_pairwise ht).filter p
    exact congrArg _ (mostSpecific_cons (List.pairwise_cons.mp hpair).1)

theorem joins_unreferenced_iff {a : Ty} (href : t.reference? = none) :
    Joins k (t :: ts) a ↔ a = t.byName ∧ k.AboveAll (t :: ts) a := by
  constructor
  · intro h
    cases h with
    | itself common => exact ⟨rfl, common⟩
    | variant ref => simp [href] at ref
  · rintro ⟨rfl, common⟩
    exact .itself common

theorem find?_itself_iff {p : Ty → Bool} (hp : ∀ a, p a = true ↔ k.AboveAll ts a) {a b : Ty}
    (habove : Above k t b) : [b].find? p = some a ↔ a = b ∧ k.AboveAll (t :: ts) a := by
  simp only [List.find?_cons_eq_some, List.find?_nil, hp, reduceCtorEq, and_false, or_false]
  constructor
  · rintro ⟨common, rfl⟩
    exact ⟨rfl, List.forall_mem_cons.mpr ⟨habove, common⟩⟩
  · rintro ⟨rfl, common⟩
    exact ⟨(List.forall_mem_cons.mp common).2, rfl⟩

/-- The first common one of the variants that list a record. -/
theorem find?_parents_iff {q : String → Bool} {n m : String} :
    ((k.parents n).map (·.name)).find? q = some m ↔
      ∃ before v after, k.variants = before ++ v :: after ∧ v.name = m ∧ n ∈ v.recordNames ∧
        q m = true ∧ ∀ w ∈ before, n ∈ w.recordNames → q w.name = false := by
  rw [List.find?_map, parents, List.find?_filter, Option.map_eq_some_iff]
  constructor
  · rintro ⟨v, hfind, rfl⟩
    obtain ⟨hv, before, after, horder, hbefore⟩ := List.find?_eq_some_iff_append.mp hfind
    have hv' : n ∈ v.recordNames ∧ q v.name = true := by simpa using hv
    refine ⟨before, v, after, horder, rfl, hv'.1, hv'.2, fun w hw hn => ?_⟩
    simpa [hn] using hbefore w hw
  · rintro ⟨before, v, after, horder, rfl, hn, hq, hbefore⟩
    refine ⟨v, List.find?_eq_some_iff_append.mpr ⟨by simp [hn, hq], before, after, horder, ?_⟩, rfl⟩
    intro w hw
    by_cases hwn : n ∈ w.recordNames
    · simp [hbefore w hw hwn]
    · simp [hwn]

/-- Among the names that a reference goes by, the first common one is the join. -/
theorem find?_lineage_iff {p : Ty → Bool} (hp : ∀ a, p a = true ↔ k.AboveAll ts a) {n : String}
    (href : t.reference? = some n) {a : Ty} :
    ((k.lineage n).map Ty.named).find? p = some a ↔ Joins k (t :: ts) a := by
  have hself : t.byName = .named n := by rw [Ty.byName, Ty.name?_of_reference? href]
  by_cases hv : k.DeclaresVariant n
  · rw [lineage_of_variant hv, List.map_singleton, find?_itself_iff hp (.declared href (.inl hv))]
    constructor
    · rintro ⟨rfl, common⟩
      exact hself ▸ .itself (hself ▸ common)
    · intro h
      cases h with
      | itself common => exact ⟨hself, common⟩
      | variant ref free =>
        obtain rfl := Option.some.inj (href.symm.trans ref)
        exact absurd hv free
  by_cases hr : k.DeclaresRecord n
  · have hfind := find?_distinctBy id (fun m => p (.named m)) (n :: (k.parents n).map (·.name))
    have hcons : k.AboveAll (t :: ts) (.named n) ↔ k.AboveAll ts (.named n) := by
      simp [AboveAll, Above.declared href (.inr hr)]
    rw [lineage_of_record hv hr, List.find?_map, Option.map_eq_some_iff]
    simp only [id, Function.comp_def] at hfind ⊢
    rw [hfind]
    simp only [List.find?_cons_eq_some, find?_parents_iff]
    constructor
    · rintro ⟨m, ⟨hn, rfl⟩ | ⟨hn, before, v, after, order, rfl, case, hm, hbefore⟩, rfl⟩
      · exact hself ▸ .itself (hself ▸ hcons.mpr ((hp _).mp hn))
      · refine .variant href hv ?_ order case ((hp _).mp hm) fun w hw hcase => ?_
        · rw [← hp]
          simpa using hn
        · rw [← hp]
          simpa using hbefore w hw hcase
    · intro h
      cases h with
      | itself common =>
        rw [hself] at common ⊢
        exact ⟨n, .inl ⟨(hp _).mpr (hcons.mp common), rfl⟩, rfl⟩
      | @variant _ _ _ v before after ref free proper order case common earliest =>
        obtain rfl := Option.some.inj (href.symm.trans ref)
        refine ⟨v.name, .inr ⟨?_, before, v, after, order, rfl, case, (hp _).mpr common, ?_⟩, rfl⟩
        · simpa [← hp] using proper
        · intro w hw hcase
          simpa [← hp] using earliest w hw hcase
  · simp only [lineage_of_undeclared hv hr, List.map_nil, List.find?_nil, reduceCtorEq, false_iff]
    intro h
    cases h with
    | itself common =>
      have habove := common t List.mem_cons_self
      rw [hself, ← mem_lineage_of_reference href, lineage_of_undeclared hv hr] at habove
      exact List.not_mem_nil habove
    | variant ref free proper order case =>
      obtain rfl := Option.some.inj (href.symm.trans ref)
      exact hr (.of_listed (by simp [order]) case)

theorem find?_ancestors_iff {p : Ty → Bool} (hp : ∀ a, p a = true ↔ k.AboveAll ts a)
    {as : List Ty} (ht : k.ancestors t = .ok as) {a : Ty} :
    as.find? p = some a ↔ Joins k (t :: ts) a := by
  have hplain : k.Above t t.byName → t.reference? = none →
      ([t.byName].find? p = some a ↔ Joins k (t :: ts) a) := by
    intro habove href
    rw [joins_unreferenced_iff href, find?_itself_iff hp habove]
  cases t with
  | named n | record r =>
    obtain rfl := Except.ok.inj ht
    exact find?_lineage_iff hp rfl
  | failure | bare => cases ht
  | atom | quoted | var | proc | variant =>
    obtain rfl := Except.ok.inj ht
    exact hplain (by constructor) rfl

theorem Joins.aboveAll {a : Ty} (h : Joins k ts a) : k.AboveAll ts a := by
  cases h with
  | itself common => exact common
  | variant ref free _ order case common =>
    exact List.forall_mem_cons.mpr ⟨.listed ref free (by simp [order]) case, common⟩

theorem ancestors_of_join {a : Ty} (h : k.join (t :: ts) = .ok a) :
    ∀ u ∈ t :: ts, ∃ as, k.ancestors u = .ok as := by
  cases ht : k.ancestors t with
  | error e => simp [join, commonAncestors, ht, bind, Except.bind] at h
  | ok as =>
    refine List.forall_mem_cons.mpr ⟨⟨as, ht⟩, ?_⟩
    cases hfold : ts.foldlM k.narrow as with
    | error e =>
      have hcommon : k.commonAncestors (t :: ts) = .error e := by
        rw [commonAncestors, ht]
        exact hfold
      rw [join, hcommon] at h
      cases h
    | ok cs => exact ancestors_of_foldlM hfold

/-- Types that have ancestors have a join, or the failure to have one is what comes out. -/
theorem join_of_ancestors (h : ∀ u ∈ ts, ∃ as, k.ancestors u = .ok as) :
    k.join ts = .ok (.failure (.noCommonType ts)) ∨ ∃ a, k.join ts = .ok a ∧ Joins k ts a := by
  cases ts with
  | nil => exact .inl rfl
  | cons t ts =>
    obtain ⟨as, ht⟩ := h t List.mem_cons_self
    obtain ⟨p, hp, hjoin⟩ := join_eq ht fun u hu => h u (List.mem_cons_of_mem _ hu)
    cases hfind : as.find? p with
    | none => exact .inl (by rw [hjoin, hfind]; rfl)
    | some a => exact .inr ⟨a, by rw [hjoin, hfind]; rfl, (find?_ancestors_iff hp ht).mp hfind⟩

/-- The join of some types comes out as an honest type exactly when that type is their join. -/
theorem join_iff {a : Ty} : k.join ts = .ok a ∧ a.isFailure = false ↔ Joins k ts a := by
  constructor
  · rintro ⟨h, ha⟩
    have hall : ∀ u ∈ ts, ∃ as, k.ancestors u = .ok as := by
      cases ts with
      | nil => exact fun u hu => absurd hu List.not_mem_nil
      | cons t ts => exact ancestors_of_join h
    rcases join_of_ancestors hall with hnone | ⟨b, hb, hjoins⟩
    · obtain rfl := Except.ok.inj (h.symm.trans hnone)
      cases ha
    · exact Except.ok.inj (h.symm.trans hb) ▸ hjoins
  · intro h
    have hall : ∀ u ∈ ts, ∃ as, k.ancestors u = .ok as ∧ a ∈ as :=
      fun u hu => above_iff.mp (h.aboveAll u hu)
    cases ts with
    | nil => cases h
    | cons t ts =>
      obtain ⟨as, ht, -⟩ := hall t List.mem_cons_self
      obtain ⟨p, hp, hjoin⟩ := join_eq ht fun u hu =>
        (hall u (List.mem_cons_of_mem _ hu)).imp fun _ => And.left
      rw [hjoin, (find?_ancestors_iff hp ht).mpr h]
      exact ⟨rfl, (h.aboveAll t List.mem_cons_self).isFailure_eq⟩

theorem Joins.isFailure_eq {a : Ty} (h : Joins k ts a) : a.isFailure = false :=
  (join_iff.mpr h).2

/-- Types with ancestors fail to have a join only where no ancestor is common to them. -/
theorem commonAncestors_of_join_failure {f : Failure}
    (h : ∀ u ∈ ts, ∃ as, k.ancestors u = .ok as) (hf : k.join ts = .ok (.failure f)) :
    f = .noCommonType ts ∧ k.commonAncestors ts = .ok [] := by
  cases ts with
  | nil =>
    cases hf
    exact ⟨rfl, rfl⟩
  | cons t ts =>
    obtain ⟨as, ht⟩ := h t List.mem_cons_self
    have hts : ∀ u ∈ ts, ∃ bs, k.ancestors u = .ok bs := fun u hu => h u (List.mem_cons_of_mem _ hu)
    obtain ⟨p, hp, hjoin⟩ := join_eq ht hts
    obtain ⟨q, hq, hcommon⟩ := commonAncestors_eq ht hts
    rw [hjoin] at hf
    cases hfind : as.find? p with
    | some a =>
      rw [hfind] at hf
      obtain rfl := Except.ok.inj hf
      cases ((find?_ancestors_iff hp ht).mp hfind).isFailure_eq
    | none =>
      rw [hfind] at hf
      cases hf
      have hnil : as.filter q = [] := List.filter_eq_nil_iff.mpr fun a ha hqa =>
        List.find?_eq_none.mp hfind a ha ((hp a).mpr ((hq a).mp hqa))
      exact ⟨rfl, by rw [hcommon, hnil]⟩

end Catalog

end VariantScheme
