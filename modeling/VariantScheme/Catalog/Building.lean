import VariantScheme.Catalog.Reach

/-!
    Names that have a value. A survey goes through the variants in the order of their declarations,
    pass after pass. What a pass finds counts at once, for the rest of that pass as well, and raises
    a flag; only when a pass ends with the flag down is there nothing more to find. Each pass but
    the last finds a declared name that was not known, so a survey comes to an end. -/

namespace VariantScheme.Catalog

/-- Can a field of the type be filled with what is known to have a value? A field of a type without
    a name, or of a name that nothing declares, always can. -/
def canFill (k : Catalog) (known : List String) (t : Ty) : Bool :=
  match t.name? with
  | none => true
  | some n => (k.declared? n).isNone || n ∈ known

/-- A survey in progress: the names known to have a value, and the flag. -/
structure Survey where
  known : List String
  progress : Bool

namespace Survey

/-- A survey at its beginning. The flag is up, so that there is a first pass. -/
def start : Survey := ⟨[], true⟩

/-- Finds a name if it is ready and was not known. -/
def consider (s : Survey) (n : String) (ready : Bool) : Survey :=
  if n ∉ s.known ∧ ready then ⟨n :: s.known, true⟩ else s

/-- A record is ready when all its fields can be filled. -/
def visitRecord (k : Catalog) (s : Survey) (r : Record) : Survey :=
  s.consider r.name (r.fieldTypes.all (k.canFill s.known))

/-- A variant is ready when one of its records is known. The records are visited first. -/
def visitVariant (k : Catalog) (s : Survey) (v : Variant) : Survey :=
  let visited := v.records.foldl (visitRecord k) s
  visited.consider v.name (v.recordNames.any (· ∈ visited.known))

/-- One pass over the variants. The flag is lowered first. -/
def pass (k : Catalog) (s : Survey) : Survey :=
  k.variants.foldl (visitVariant k) ⟨s.known, false⟩

/-! ### What a pass can do -/

/-- A value of the name can be built from values of the known names. -/
inductive Ready (k : Catalog) (known : List String) : String → Prop
  | record {r : Record} (mem : r ∈ k.records)
      (fields : ∀ t ∈ r.fieldTypes, k.canFill known t = true) : Ready k known r.name
  | variant {v : Variant} {n : String} (mem : v ∈ k.variants) (listed : n ∈ v.recordNames)
      (built : n ∈ known) : Ready k known v.name

/-- From one stage of a survey to a later one, names are found that are ready at the time. -/
inductive Grows (k : Catalog) (s : Survey) : Survey → Prop
  | refl : Grows k s s
  | found {t : Survey} {n : String} (before : Grows k s t) (ready : Ready k t.known n)
      (new : n ∉ t.known) : Grows k s ⟨n :: t.known, true⟩

variable {k : Catalog} {s t u : Survey} {n : String}

theorem Grows.trans (h : Grows k s t) (h' : Grows k t u) : Grows k s u := by
  induction h' with
  | refl => exact h
  | found _ ready new ih => exact .found ih ready new

theorem grows_consider {ready : Bool} (h : ready = true → Ready k s.known n) :
    Grows k s (s.consider n ready) := by
  rw [consider]
  split
  · rename_i hfind
    exact .found .refl (h hfind.2) hfind.1
  · exact .refl

theorem grows_visitRecord {r : Record} (hr : r ∈ k.records) : Grows k s (s.visitRecord k r) := by
  refine grows_consider fun hready => .record hr ?_
  simpa using hready

/-- Where every step grows, all of them together do. -/
theorem grows_foldl {α : Type} {step : Survey → α → Survey} : ∀ {as : List α} {s : Survey},
    (∀ a ∈ as, ∀ s, Grows k s (step s a)) → Grows k s (as.foldl step s)
  | [], _, _ => .refl
  | a :: _, s, h =>
      (h a List.mem_cons_self s).trans (grows_foldl fun b hb => h b (List.mem_cons_of_mem a hb))

theorem grows_visitRecords {v : Variant} (hv : v ∈ k.variants) :
    Grows k s (v.records.foldl (visitRecord k) s) :=
  grows_foldl fun _ hr _ => grows_visitRecord (List.mem_flatMap.mpr ⟨v, hv, hr⟩)

theorem grows_consider_variant {v : Variant} (hv : v ∈ k.variants) :
    Grows k s (s.consider v.name (v.recordNames.any (· ∈ s.known))) := by
  refine grows_consider fun hready => ?_
  obtain ⟨n, hlisted, hbuilt⟩ := List.any_eq_true.mp hready
  exact .variant hv hlisted (by simpa using hbuilt)

theorem grows_visitVariant {v : Variant} (hv : v ∈ k.variants) :
    Grows k s (s.visitVariant k v) :=
  (grows_visitRecords hv).trans (grows_consider_variant hv)

theorem grows_pass (k : Catalog) (s : Survey) : Grows k ⟨s.known, false⟩ (s.pass k) :=
  grows_foldl fun _ hv _ => grows_visitVariant hv

/-! ### The end of a survey -/

/-- How many declared names are not known. -/
def unknown (k : Catalog) (known : List String) : Nat :=
  (k.declaredNames.filter (· ∉ known)).length

theorem Ready.declared {known : List String} (h : Ready k known n) : n ∈ k.declaredNames := by
  cases h with
  | record mem => exact mem_declaredNames.mpr (.inr ⟨_, mem, rfl⟩)
  | variant mem => exact mem_declaredNames.mpr (.inl ⟨_, mem, rfl⟩)

theorem unknown_cons_lt {known : List String} (hn : n ∈ k.declaredNames) (hnew : n ∉ known) :
    unknown k (n :: known) < unknown k known := by
  have hsplit : k.declaredNames.filter (· ∉ n :: known) =
      (k.declaredNames.filter (· ∉ known)).filter (· ≠ n) := by
    rw [List.filter_filter]
    congr 1
    funext m
    simp
  rw [unknown, unknown, hsplit, List.length_filter_lt_length_iff_exists]
  exact ⟨n, List.mem_filter.mpr ⟨hn, by simpa using hnew⟩, by simp⟩

/-- A survey that grows raises the flag and leaves fewer names unknown. -/
theorem Grows.eq_or_lt (h : Grows k s t) :
    t = s ∨ t.progress = true ∧ unknown k t.known < unknown k s.known := by
  induction h with
  | refl => exact .inl rfl
  | @found t n _ ready new ih =>
    have hless := unknown_cons_lt ready.declared new
    rcases ih with rfl | ⟨-, hbefore⟩
    · exact .inr ⟨rfl, hless⟩
    · exact .inr ⟨rfl, Nat.lt_trans hless hbefore⟩

/-- How many passes there can be at most: one for each name that is not known, and one if the flag
    is up. -/
def weight (k : Catalog) (s : Survey) : Nat := unknown k s.known + s.progress.toNat

theorem weight_pass_lt (k : Catalog) (h : s.progress = true) :
    (s.pass k).weight k < s.weight k := by
  rcases (grows_pass k s).eq_or_lt with hsame | ⟨hflag, hless⟩
  · simp [weight, hsame, h]
  · simpa [weight, hflag, h] using hless

/-- Pass after pass, while the flag is up. Semireducible, so that a survey of a given catalog can be
    evaluated in proofs. -/
@[semireducible] def finish (k : Catalog) (s : Survey) : Survey :=
  if s.progress then (s.pass k).finish k else s
termination_by s.weight k
decreasing_by exact weight_pass_lt k (by assumption)

end Survey

/-- The declared names that have a value. -/
def constructible (k : Catalog) : List String := (Survey.start.finish k).known

end VariantScheme.Catalog
