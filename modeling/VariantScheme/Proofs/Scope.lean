import VariantScheme.Env

/-!
    Scopes. What an environment says about names is a partial function; the frames it is made of do
    not show. Entering a frame overrides that function by the first pair for each name, so that
    `lookup?_bind` is all that the rest of the theory has to know about frames. -/

namespace VariantScheme

/-- What each name in scope stands for. -/
abbrev Scope := String → Option Ty

/-- A scope with more names, which hide those of before. The earliest pair for a name counts. -/
def Scope.bind (scope : Scope) (pairs : List (String × Ty)) : Scope :=
  fun x => (pairs.lookup x).or (scope x)

theorem lookup_eq_find? (x : String) : ∀ pairs : List (String × Ty),
    pairs.lookup x = (pairs.find? fun e => x == e.1).map (·.2)
  | [] => rfl
  | e :: es => by
      rw [List.lookup_cons, List.find?_cons, lookup_eq_find? x es]
      cases x == e.1 <;> rfl

theorem Frame.lookup_ofPairs (pairs : List (String × Ty)) (x : String) :
    (Frame.ofPairs pairs).lookup x = pairs.lookup x := by
  rw [lookup_eq_find?, lookup_eq_find?, Frame.ofPairs]
  exact congrArg _ (find?_distinctBy (·.1) (x == ·) pairs)

/-- Entering a frame overrides the scope. -/
theorem Env.lookup?_bind (env : Env) (pairs : List (String × Ty)) :
    (env.bind pairs).lookup? = Scope.bind env.lookup? pairs := by
  funext x
  rw [Env.bind, Env.lookup?, Frame.lookup_ofPairs, Scope.bind]

/-- What holds of all that is in scope holds still when a frame of such things is entered. -/
theorem Env.forall_lookup?_bind {good : Ty → Prop} {env : Env} {pairs : List (String × Ty)}
    (henv : ∀ x t, env.lookup? x = some t → good t) (hpairs : ∀ e ∈ pairs, good e.2) :
    ∀ x t, (env.bind pairs).lookup? x = some t → good t := by
  intro x t h
  rw [Env.lookup?_bind, Scope.bind, Option.or_eq_some_iff] at h
  rcases h with h | ⟨-, h⟩
  · rw [lookup_eq_find?, Option.map_eq_some_iff] at h
    obtain ⟨e, he, rfl⟩ := h
    exact hpairs e (List.mem_of_find?_eq_some he)
  · exact henv x t h

theorem lookup_eq_none_iff {x : String} {pairs : List (String × Ty)} :
    pairs.lookup x = none ↔ x ∉ pairs.map (·.1) := by
  rw [List.lookup_eq_none_iff, List.mem_map]
  constructor
  · rintro h ⟨e, he, rfl⟩
    simpa using h e he
  · intro h e he
    rw [bne_iff_ne]
    rintro rfl
    exact h ⟨e, he, rfl⟩

/-- After entering a frame, a name is unbound when it was before and the frame does not bind it. -/
theorem Env.lookup?_bind_eq_none_iff {env : Env} {pairs : List (String × Ty)} {x : String} :
    (env.bind pairs).lookup? x = none ↔ x ∉ pairs.map (·.1) ∧ env.lookup? x = none := by
  rw [Env.lookup?_bind, Scope.bind, Option.or_eq_none_iff, lookup_eq_none_iff]

theorem Env.lookup_bind (env : Env) (pairs : List (String × Ty)) (x : String) :
    (env.bind pairs).lookup x = (pairs.lookup x).getD (env.lookup x) := by
  rw [Env.lookup, Env.lookup?_bind, Scope.bind]
  cases pairs.lookup x <;> rfl

/-! ### Names that come once -/

/-- Where no name comes twice, a name stands for what its pair says, wherever the pair stands. -/
theorem lookup_eq_some_iff_mem {x : String} {t : Ty} {pairs : List (String × Ty)}
    (hnodup : (pairs.map (·.1)).Nodup) : pairs.lookup x = some t ↔ (x, t) ∈ pairs := by
  induction pairs with
  | nil => simp
  | cons e es ih =>
    obtain ⟨y, u⟩ := e
    rw [List.map_cons, List.nodup_cons] at hnodup
    obtain ⟨hnew, hrest⟩ := hnodup
    rw [List.lookup_cons, List.mem_cons]
    by_cases hxy : x = y
    · subst hxy
      have hlater : (x, t) ∉ es := fun h => hnew (List.mem_map.mpr ⟨_, h, rfl⟩)
      simp [hlater, eq_comm]
    · have hne : (x == y) = false := beq_false_of_ne hxy
      simp [hne, hxy, ih hrest]

theorem lookup_perm {pairs pairs' : List (String × Ty)} (hnodup : (pairs.map (·.1)).Nodup)
    (hperm : pairs.Perm pairs') (x : String) : pairs.lookup x = pairs'.lookup x := by
  have hnodup' : (pairs'.map (·.1)).Nodup := (hperm.map _).nodup_iff.mp hnodup
  refine Option.ext fun t => ?_
  rw [lookup_eq_some_iff_mem hnodup, lookup_eq_some_iff_mem hnodup', hperm.mem_iff]

end VariantScheme
