/-!
    Lists in which only the first of several members with one key is kept. -/

namespace VariantScheme

/-- The members whose key has not occurred before, in order. -/
def distinctBy {α κ : Type} [DecidableEq κ] (key : α → κ) : List α → List α
  | [] => []
  | a :: as => a :: (distinctBy key as).filter fun b => key b ≠ key a

/-- The first member that has occurred before, where `seen` have occurred already. -/
def firstRepeat {α : Type} [DecidableEq α] (seen : List α) : List α → Option α
  | [] => none
  | a :: as => if a ∈ seen then some a else firstRepeat (a :: seen) as

variable {α κ : Type} [DecidableEq κ]

/-- A search that looks at keys only finds what it finds in the whole list: the members that were
    dropped come after one of the same key. -/
theorem find?_distinctBy (key : α → κ) (p : κ → Bool) : ∀ as : List α,
    (distinctBy key as).find? (fun a => p (key a)) = as.find? (fun a => p (key a))
  | [] => rfl
  | a :: as => by
      rw [distinctBy, List.find?_cons, List.find?_cons]
      cases hp : p (key a) with
      | true => rfl
      | false =>
        dsimp only
        rw [List.find?_filter, ← find?_distinctBy key p as]
        congr 1
        funext b
        by_cases hb : key b = key a <;> simp [hb, hp]

theorem mem_distinctBy_id {as : List κ} {a : κ} : a ∈ distinctBy id as ↔ a ∈ as := by
  have hfind : (distinctBy id as).find? (· == a) = as.find? (· == a) :=
    find?_distinctBy id (· == a) as
  have hmem : ∀ bs : List κ, a ∈ bs ↔ (bs.find? (· == a)).isSome := by simp
  rw [hmem, hmem, hfind]

/-- No key is kept twice. -/
theorem nodup_distinctBy_id : ∀ as : List κ, (distinctBy id as).Nodup
  | [] => List.nodup_nil
  | a :: as => by
      rw [distinctBy, List.nodup_cons]
      exact ⟨by simp, (nodup_distinctBy_id as).filter _⟩

/-- Repeats can be dropped before or after other members are. -/
theorem distinctBy_id_filter (p : κ → Bool) : ∀ as : List κ,
    distinctBy id (as.filter p) = (distinctBy id as).filter p
  | [] => rfl
  | a :: as => by
      rw [distinctBy, List.filter_cons, List.filter_cons]
      cases hp : p a with
      | true =>
        rw [if_pos rfl, if_pos rfl, distinctBy, distinctBy_id_filter p as, List.filter_filter,
          List.filter_filter]
        congr 2
        funext b
        rw [Bool.and_comm]
      | false =>
        rw [if_neg Bool.false_ne_true, if_neg Bool.false_ne_true, distinctBy_id_filter p as,
          List.filter_filter]
        congr 1
        funext b
        by_cases hb : b = a <;> simp [hb, hp]

/-- The members that are kept stand in the order in which they first occur. -/
theorem pairwise_distinctBy_id : ∀ as : List κ,
    (distinctBy id as).Pairwise fun a b => as.idxOf a < as.idxOf b
  | [] => List.Pairwise.nil
  | a :: as => by
      have hlater : ∀ b ∈ (distinctBy id as).filter (fun b => id b ≠ id a),
          (a :: as).idxOf b = as.idxOf b + 1 := by
        intro b hb
        have hne : b ≠ a := by simpa using (List.mem_filter.mp hb).2
        rw [List.idxOf_cons, beq_false_of_ne hne.symm, cond_false]
      rw [distinctBy, List.pairwise_cons]
      constructor
      · intro b hb
        rw [List.idxOf_cons_self, hlater b hb]
        omega
      · refine ((pairwise_distinctBy_id as).filter _).imp_of_mem fun hb hc hlt => ?_
        rw [hlater _ hb, hlater _ hc]
        omega

theorem firstRepeat_eq_none_iff : ∀ {seen as : List κ},
    firstRepeat seen as = none ↔ as.Nodup ∧ ∀ a ∈ as, a ∉ seen
  | seen, [] => by simp [firstRepeat]
  | seen, a :: as => by
      rw [firstRepeat]
      split
      · rename_i ha
        simp [ha]
      · rename_i ha
        rw [firstRepeat_eq_none_iff, List.nodup_cons]
        grind

/-- The member that is found is the first that has occurred before: up to it there is no repeat. -/
theorem firstRepeat_eq_some_iff {a : κ} {seen as : List κ} : firstRepeat seen as = some a ↔
    ∃ before after, as = before ++ a :: after ∧ before.Nodup ∧ (∀ b ∈ before, b ∉ seen) ∧
      (a ∈ seen ∨ a ∈ before) := by
  induction as generalizing seen with
  | nil => simp [firstRepeat]
  | cons b bs ih =>
    rw [firstRepeat]
    split
    · rename_i hb
      constructor
      · rintro ⟨⟩
        exact ⟨[], bs, rfl, List.nodup_nil, by simp, .inl hb⟩
      · rintro ⟨before, after, hsplit, -, hnew, -⟩
        rcases List.cons_eq_append_iff.mp hsplit with ⟨-, htail⟩ | ⟨rest, rfl, -⟩
        · rw [(List.cons.inj htail).1]
        · exact absurd hb (hnew b List.mem_cons_self)
    · rename_i hb
      rw [ih]
      constructor
      · rintro ⟨before, after, rfl, hnodup, hnew, hagain⟩
        refine ⟨b :: before, after, rfl, List.nodup_cons.mpr ⟨?_, hnodup⟩, ?_, ?_⟩
        · exact fun hmem => hnew b hmem List.mem_cons_self
        · grind
        · grind
      · rintro ⟨before, after, hsplit, hnodup, hnew, hagain⟩
        rcases List.cons_eq_append_iff.mp hsplit with ⟨rfl, htail⟩ | ⟨rest, rfl, rfl⟩
        · grind
        · exact ⟨rest, after, rfl, (List.nodup_cons.mp hnodup).2, by grind, by grind⟩

end VariantScheme
