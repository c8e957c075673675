import Mathlib.Logic.Function.Iterate
import Mathlib.Logic.Relation
import Mathlib.Order.Bounds.Defs
import VariantScheme.Proofs.Declarations

/-!
    What the search for reachable names finds. A name is covered by a search when it has been found
    or stands on the stack. A turn never loses a covered name, covers only names that a covered one
    leads to, and when it finds a name it covers all that this one leads to; so once nothing is
    pending, the names found are the least that include what the variant mentions and what their
    own declarations mention. -/

namespace VariantScheme

/-- Some field of the record is of a type that goes by the name. -/
def Record.Mentions (r : Record) (n : String) : Prop := ∃ f ∈ r.fields, f.type.name? = some n

/-- Some record of the variant mentions the name. -/
def Variant.Mentions (v : Variant) (n : String) : Prop := ∃ r ∈ v.records, r.Mentions n

namespace Catalog

/-- The declaration found under the first name mentions the second. -/
inductive LeadsTo (k : Catalog) (m n : String) : Prop
  | variant {v : Variant} (found : k.variant? m = some v) (mentions : v.Mentions n)
  | record {r : Record} (free : k.variant? m = none) (found : k.record? m = some r)
      (mentions : r.Mentions n)

/-- The name is mentioned by a field of the variant, or reached from one that is. -/
def Reaches (k : Catalog) (v : Variant) (n : String) : Prop :=
  ∃ m, v.Mentions m ∧ Relation.ReflTransGen k.LeadsTo m n

/-- Names that include what the variant mentions and, with each name, what its declaration
    mentions. -/
structure ClosedFrom (k : Catalog) (v : Variant) (names : Set String) : Prop where
  own : ∀ n, v.Mentions n → n ∈ names
  next : ∀ m ∈ names, ∀ n, k.LeadsTo m n → n ∈ names

variable {k : Catalog} {v : Variant} {m n : String}

/-! ### Fields and what they mention -/

theorem exists_mem_record_fieldTypes {r : Record} :
    (∃ t ∈ r.fieldTypes, t.name? = some n) ↔ r.Mentions n := by
  simp [Record.fieldTypes, Record.Mentions]

theorem exists_mem_variant_fieldTypes :
    (∃ t ∈ v.fieldTypes, t.name? = some n) ↔ v.Mentions n := by
  simp only [Variant.fieldTypes, List.mem_flatMap]
  constructor
  · rintro ⟨t, ⟨r, hr, ht⟩, hn⟩
    exact ⟨r, hr, exists_mem_record_fieldTypes.mp ⟨t, ht, hn⟩⟩
  · rintro ⟨r, hr, hmentions⟩
    obtain ⟨t, ht, hn⟩ := exists_mem_record_fieldTypes.mpr hmentions
    exact ⟨t, ⟨r, hr, ht⟩, hn⟩

theorem exists_mem_fieldTypes : (∃ t ∈ k.fieldTypes m, t.name? = some n) ↔ k.LeadsTo m n := by
  cases hv : k.variant? m with
  | some v =>
    rw [fieldTypes, declared?, hv, Option.map_some, Option.some_or, exists_mem_variant_fieldTypes]
    constructor
    · exact .variant hv
    · rintro (⟨found, mentions⟩ | ⟨free, -, -⟩)
      · rwa [Option.some.inj (hv.symm.trans found)]
      · simp [hv] at free
  | none =>
    rw [fieldTypes, declared?, hv, Option.map_none, Option.none_or]
    cases hr : k.record? m with
    | some r =>
      rw [Option.map_some, exists_mem_record_fieldTypes]
      constructor
      · exact .record hv hr
      · rintro (⟨found, -⟩ | ⟨-, found, mentions⟩)
        · simp [hv] at found
        · rwa [Option.some.inj (hr.symm.trans found)]
    | none =>
      rw [Option.map_none]
      constructor
      · simp
      · rintro (⟨found, -⟩ | ⟨-, found, -⟩)
        · simp [hv] at found
        · simp [hr] at found

/-! ### One turn -/

namespace Search

/-- The name has been found, or will be when its turn comes. -/
def Covers (s : Search) (n : String) : Prop := n ∈ s.found ∨ ∃ t ∈ s.pending, t.name? = some n

theorem covers_start : (start v).Covers n ↔ v.Mentions n := by
  simp [Covers, start, exists_mem_variant_fieldTypes]

/-- A type can be dropped when its name, if it has one, was found before. -/
theorem covers_dropped {found : List String} {t : Ty} {rest : List Ty}
    (known : ∀ n, t.name? = some n → n ∈ found) :
    Covers ⟨found, rest⟩ n ↔ Covers ⟨found, t :: rest⟩ n := by
  constructor
  · rintro (hfound | ⟨u, hu, hn⟩)
    · exact .inl hfound
    · exact .inr ⟨u, List.mem_cons_of_mem t hu, hn⟩
  · rintro (hfound | ⟨u, hu, hn⟩)
    · exact .inl hfound
    · rcases List.mem_cons.mp hu with rfl | hu
      · exact .inl (known n hn)
      · exact .inr ⟨u, hu, hn⟩

/-- Where a name is new, what it leads to gets covered, and nothing else. -/
theorem covers_entered {found : List String} {t : Ty} {rest : List Ty} (name : t.name? = some m) :
    Covers ⟨m :: found, (k.fieldTypes m).reverse ++ rest⟩ n ↔
      Covers ⟨found, t :: rest⟩ n ∨ k.LeadsTo m n := by
  have hnew : n = m ↔ t.name? = some n := by rw [name, Option.some.injEq, eq_comm]
  rw [← exists_mem_fieldTypes]
  simp only [Covers, List.mem_cons, List.mem_append, List.mem_reverse, or_and_right, exists_or,
    exists_eq_left, hnew]
  grind

/-- What holds at every stage of a search from a variant. -/
structure Traces (k : Catalog) (v : Variant) (s : Search) : Prop where
  reached : ∀ n, s.Covers n → k.Reaches v n
  own : ∀ n, v.Mentions n → s.Covers n
  next : ∀ m ∈ s.found, ∀ n, k.LeadsTo m n → s.Covers n

theorem traces_start (k : Catalog) (v : Variant) : Traces k v (start v) where
  reached n hn := ⟨n, covers_start.mp hn, .refl⟩
  own _ hn := covers_start.mpr hn
  next _ hm := absurd hm List.not_mem_nil

theorem Traces.turn {s : Search} (h : Traces k v s) : Traces k v (s.turn k) := by
  have hturn := s.turned k
  generalize s.turn k = after at hturn ⊢
  cases hturn with
  | ended => exact h
  | dropped known =>
    exact ⟨fun n hn => h.reached n ((covers_dropped known).mp hn),
      fun n hn => (covers_dropped known).mpr (h.own n hn),
      fun m hm n hmn => (covers_dropped known).mpr (h.next m hm n hmn)⟩
  | @entered found t rest m name new =>
    refine ⟨fun n hn => ?_, fun n hn => (covers_entered name).mpr (.inl (h.own n hn)),
      fun a ha n han => ?_⟩
    · rcases (covers_entered name).mp hn with hn | hmn
      · exact h.reached n hn
      · -- the new name was covered already, by the type that it is the name of
        obtain ⟨first, hfirst, hm⟩ := h.reached m (.inr ⟨t, List.mem_cons_self, name⟩)
        exact ⟨first, hfirst, hm.tail hmn⟩
    · rcases List.mem_cons.mp ha with rfl | ha
      · exact (covers_entered name).mpr (.inr han)
      · exact (covers_entered name).mpr (.inl (h.next a ha n han))

/-! ### Whole searches -/

/-- A search ends, after no more turns than its weight says. -/
theorem exists_turns (k : Catalog) (s : Search) : ∃ turns ≤ s.weight k,
    (turn k)^[turns] s = s.finish k ∧ (s.finish k).pending = [] ∧
      ∀ earlier < turns, ((turn k)^[earlier] s).pending ≠ [] := by
  fun_induction finish k s with
  | case1 s hend =>
    exact ⟨0, Nat.zero_le _, rfl, List.isEmpty_iff.mp hend, fun _ h => absurd h (Nat.not_lt_zero _)⟩
  | case2 s hgoing ih =>
    have hpending : s.pending ≠ [] := by simpa using hgoing
    obtain ⟨turns, hturns, hfinish, hend, hearlier⟩ := ih
    have hlighter := weight_turn_lt k hpending
    refine ⟨turns + 1, by omega, hfinish, hend, fun earlier h => ?_⟩
    cases earlier with
    | zero => exact hpending
    | succ earlier => exact hearlier earlier (by omega)

theorem Traces.finish {s : Search} (h : Traces k v s) : Traces k v (s.finish k) := by
  fun_induction Search.finish k s with
  | case1 => exact h
  | case2 _ _ ih => exact ih h.turn

end Search

/-- The names found when the search has ended include what the variant mentions and what their
    own declarations mention. -/
theorem closedFrom_reachable (k : Catalog) (v : Variant) :
    k.ClosedFrom v {n | n ∈ k.reachable v} := by
  have htraces := (Search.traces_start k v).finish
  obtain ⟨-, -, -, hend, -⟩ := (Search.start v).exists_turns k
  have hfound : ∀ n, ((Search.start v).finish k).Covers n → n ∈ k.reachable v := by
    rintro n (hn | ⟨t, ht, -⟩)
    · exact hn
    · rw [hend] at ht
      exact absurd ht List.not_mem_nil
  exact ⟨fun n hn => hfound n (htraces.own n hn), fun m hm n hmn =>
    hfound n (htraces.next m hm n hmn)⟩

/-- Whatever is closed in this way includes all that the variant reaches. -/
theorem ClosedFrom.mem_of_reaches {names : Set String} (h : k.ClosedFrom v names)
    (hn : k.Reaches v n) : n ∈ names := by
  obtain ⟨first, hfirst, hn⟩ := hn
  induction hn with
  | refl => exact h.own first hfirst
  | tail _ hmn ih => exact h.next _ ih _ hmn

theorem mem_reachable_iff : n ∈ k.reachable v ↔ k.Reaches v n := by
  constructor
  · intro hn
    exact (Search.traces_start k v).finish.reached n (.inl hn)
  · exact (closedFrom_reachable k v).mem_of_reaches

/-- The search from a variant ends: after some number of turns, for which there is a bound, nothing
    is pending for the first time. The names that it has found by then are the least that include
    what the variant mentions and, with each name, what the declaration of that name mentions. -/
theorem reachable_isLeast (k : Catalog) (v : Variant) :
    (∃ turns ≤ (Search.start v).weight k,
        (Search.turn k)^[turns] (Search.start v) = ⟨k.reachable v, []⟩ ∧
        ∀ earlier < turns, ((Search.turn k)^[earlier] (Search.start v)).pending ≠ []) ∧
      IsLeast {names | k.ClosedFrom v names} {n | n ∈ k.reachable v} := by
  refine ⟨?_, closedFrom_reachable k v, ?_⟩
  · obtain ⟨turns, hturns, hfinish, hend, hearlier⟩ := (Search.start v).exists_turns k
    refine ⟨turns, hturns, ?_, hearlier⟩
    rw [hfinish, reachable, ← hend]
  · intro names hnames n hn
    exact hnames.mem_of_reaches (mem_reachable_iff.mp hn)

end Catalog

end VariantScheme
