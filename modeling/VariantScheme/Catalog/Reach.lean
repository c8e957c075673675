import VariantScheme.Catalog.Basic

/-!
    Names reached through fields. A search keeps a stack of types to look at. A type whose name is
    new puts the fields of its declaration on the stack; one without a name, or with a name that was
    found before, is dropped. Declarations may refer to one another in circles, but the fields of
    each are put on the stack only once, so a search comes to an end. -/

namespace VariantScheme

/-- The types of the fields of all of a variant's records, in order. -/
def Variant.fieldTypes (v : Variant) : List Ty := v.records.flatMap Record.fieldTypes

namespace Catalog

/-- The types of the fields in the declaration of a name. -/
def fieldTypes (k : Catalog) (name : String) : List Ty :=
  match k.declared? name with
  | some (.variant v) => v.fieldTypes
  | some (.record r) => r.fieldTypes
  | _ => []

/-- The names that are declared at all. -/
def declaredNames (k : Catalog) : List String :=
  distinctBy id (k.variants.map (·.name) ++ k.records.map (·.name))

theorem mem_declaredNames {k : Catalog} {n : String} : n ∈ k.declaredNames ↔
    (∃ v ∈ k.variants, v.name = n) ∨ ∃ r ∈ k.records, r.name = n := by
  rw [declaredNames, mem_distinctBy_id, List.mem_append, List.mem_map, List.mem_map]

/-- Only declared names have fields. -/
theorem mem_declaredNames_of_fieldTypes {k : Catalog} {n : String} (h : k.fieldTypes n ≠ []) :
    n ∈ k.declaredNames := by
  rw [mem_declaredNames]
  cases hv : k.variant? n with
  | some v =>
    exact .inl ⟨v, List.mem_of_find?_eq_some hv, by simpa using List.find?_some hv⟩
  | none =>
    cases hr : k.record? n with
    | some r =>
      exact .inr ⟨r, List.mem_of_find?_eq_some hr, by simpa using List.find?_some hr⟩
    | none => simp [fieldTypes, declared?, hv, hr] at h

/-- A search in progress: the names found so far, and the stack of types to look at, with the next
    one first. -/
structure Search where
  found : List String
  pending : List Ty

namespace Search

/-- The search for what is reached from a variant, at its beginning. -/
def start (v : Variant) : Search := ⟨[], v.fieldTypes.reverse⟩

/-- One turn of a search, which takes the next type from the stack. -/
def turn (k : Catalog) : Search → Search
  | ⟨found, []⟩ => ⟨found, []⟩
  | ⟨found, t :: rest⟩ =>
      match t.name? with
      | none => ⟨found, rest⟩
      | some n =>
          if n ∈ found then ⟨found, rest⟩
          else ⟨n :: found, (k.fieldTypes n).reverse ++ rest⟩

/-- What one turn can do. -/
inductive Turned (k : Catalog) : Search → Search → Prop
  | ended {found : List String} : Turned k ⟨found, []⟩ ⟨found, []⟩
  | dropped {found : List String} {t : Ty} {rest : List Ty}
      (known : ∀ n, t.name? = some n → n ∈ found) : Turned k ⟨found, t :: rest⟩ ⟨found, rest⟩
  | entered {found : List String} {t : Ty} {rest : List Ty} {n : String}
      (name : t.name? = some n) (new : n ∉ found) :
      Turned k ⟨found, t :: rest⟩ ⟨n :: found, (k.fieldTypes n).reverse ++ rest⟩

theorem turned (k : Catalog) (s : Search) : Turned k s (s.turn k) := by
  obtain ⟨found, pending⟩ := s
  cases pending with
  | nil => exact .ended
  | cons t rest =>
    cases hname : t.name? with
    | none =>
      simp only [turn, hname]
      exact .dropped (by simp [hname])
    | some n =>
      simp only [turn, hname]
      split
      · rename_i hfound
        exact .dropped (by simpa [hname] using hfound)
      · rename_i hnew
        exact .entered hname hnew

/-- How many turns a search can take at most: one for each type on the stack, and one for each
    field that the declarations of names not found yet would add. -/
def weight (k : Catalog) (s : Search) : Nat :=
  s.pending.length + ((k.declaredNames.filter (· ∉ s.found)).flatMap k.fieldTypes).length

/-- What belongs to a name no longer counts once the name is found. -/
theorem length_flatMap_found_le {α : Type} (f : String → List α) {n : String} {found : List String}
    (hn : n ∉ found) : ∀ names : List String,
    (if n ∈ names then (f n).length else 0) + ((names.filter (· ∉ n :: found)).flatMap f).length ≤
      ((names.filter (· ∉ found)).flatMap f).length
  | [] => by simp
  | a :: as => by
      have ih := length_flatMap_found_le f hn as
      grind

/-- Each turn but the one that finds nothing pending leaves less to do. -/
theorem weight_turn_lt (k : Catalog) {s : Search} (h : s.pending ≠ []) :
    (s.turn k).weight k < s.weight k := by
  have hturn := s.turned k
  generalize s.turn k = next at hturn ⊢
  cases hturn with
  | ended => exact absurd rfl h
  | dropped => simp [weight]
  | @entered found t rest n name new =>
    have hless := length_flatMap_found_le k.fieldTypes new k.declaredNames
    have hfields : (k.fieldTypes n).length =
        if n ∈ k.declaredNames then (k.fieldTypes n).length else 0 := by
      split
      · rfl
      · rename_i hnot
        by_cases hnil : k.fieldTypes n = []
        · rw [hnil, List.length_nil]
        · exact absurd (mem_declaredNames_of_fieldTypes hnil) hnot
    simp only [weight, List.length_append, List.length_reverse, List.length_cons]
    omega

/-- Turn after turn, until nothing is pending. Semireducible, so that a search in a given catalog
    can be evaluated in proofs. -/
@[semireducible] def finish (k : Catalog) (s : Search) : Search :=
  if s.pending.isEmpty then s else (s.turn k).finish k
termination_by s.weight k
decreasing_by exact weight_turn_lt k (by simp_all)

end Search

/-- The names that are reached from a variant through fields. -/
def reachable (k : Catalog) (v : Variant) : List String := ((Search.start v).finish k).found

end Catalog

end VariantScheme
