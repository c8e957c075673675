import VariantScheme.Ty.Basic

/-!
    Equality of types is decidable: two types are compared part by part. `same_iff` says that the
    comparison finds exactly the equal ones. -/

namespace VariantScheme

mutual

def Field.same : Field → Field → Bool
  | ⟨m, t⟩, ⟨n, u⟩ => m == n && t.same u
termination_by structural f => f

def Field.sameEach : List Field → List Field → Bool
  | [], [] => true
  | f :: fs, g :: gs => f.same g && Field.sameEach fs gs
  | _, _ => false
termination_by structural fs => fs

def Record.same : Record → Record → Bool
  | ⟨m, fs⟩, ⟨n, gs⟩ => m == n && Field.sameEach fs gs
termination_by structural r => r

def Record.sameEach : List Record → List Record → Bool
  | [], [] => true
  | r :: rs, s :: ss => r.same s && Record.sameEach rs ss
  | _, _ => false
termination_by structural rs => rs

def Variant.same : Variant → Variant → Bool
  | ⟨m, rs⟩, ⟨n, ss⟩ => m == n && Record.sameEach rs ss
termination_by structural v => v

def Ty.same : Ty → Ty → Bool
  | .atom m, .atom n => m == n
  | .quoted, .quoted => true
  | .var m s, .var n s' => m == n && s == s'
  | .proc ps r, .proc ps' r' => Ty.sameEach ps ps' && r.same r'
  | .named m, .named n => m == n
  | .record r, .record s => r.same s
  | .variant v, .variant w => v.same w
  | .failure f, .failure g => f.same g
  | .bare i, .bare j => i == j
  | _, _ => false
termination_by structural t => t

def Ty.sameEach : List Ty → List Ty → Bool
  | [], [] => true
  | t :: ts, u :: us => t.same u && Ty.sameEach ts us
  | _, _ => false
termination_by structural ts => ts

def Failure.same : Failure → Failure → Bool
  | .unboundVariable m, .unboundVariable n => m == n
  | .notFound m, .notFound n => m == n
  | .unknownPrimitive m, .unknownPrimitive n => m == n
  | .incompatible c e s, .incompatible c' e' s' => c.same c' && e.same e' && s == s'
  | .notAProcedure t s, .notAProcedure t' s' => t.same t' && s == s'
  | .arityMismatch s m n, .arityMismatch s' m' n' => s == s' && m == m' && n == n'
  | .noCommonType ts, .noCommonType us => Ty.sameEach ts us
  | .recordMismatch m, .recordMismatch n => m == n
  | .noBaseCase m, .noBaseCase n => m == n
  | .duplicateCase m, .duplicateCase n => m == n
  | .unknownRecord m, .unknownRecord n => m == n
  | .unknownType m, .unknownType n => m == n
  | .notACase r t, .notACase r' t' => r == r' && t == t'
  | .notExhaustive t ms, .notExhaustive t' ms' => t == t' && ms == ms'
  | .letrecRequiresProcedures s, .letrecRequiresProcedures s' => s == s'
  | .unspecified, .unspecified => true
  | _, _ => false
termination_by structural f => f

end

mutual

theorem Field.same_refl : ∀ f : Field, f.same f = true
  | ⟨_, t⟩ => by simp [Field.same, t.same_refl]

theorem Field.sameEach_refl : ∀ fs : List Field, Field.sameEach fs fs = true
  | [] => rfl
  | f :: fs => by simp [Field.sameEach, f.same_refl, Field.sameEach_refl fs]

theorem Record.same_refl : ∀ r : Record, r.same r = true
  | ⟨_, fs⟩ => by simp [Record.same, Field.sameEach_refl fs]

theorem Record.sameEach_refl : ∀ rs : List Record, Record.sameEach rs rs = true
  | [] => rfl
  | r :: rs => by simp [Record.sameEach, r.same_refl, Record.sameEach_refl rs]

theorem Variant.same_refl : ∀ v : Variant, v.same v = true
  | ⟨_, rs⟩ => by simp [Variant.same, Record.sameEach_refl rs]

theorem Ty.same_refl : ∀ t : Ty, t.same t = true
  | .atom _ | .quoted | .var _ _ | .named _ | .bare _ => by simp [Ty.same]
  | .proc ps r => by simp [Ty.same, Ty.sameEach_refl ps, r.same_refl]
  | .record r => by simp [Ty.same, r.same_refl]
  | .variant v => by simp [Ty.same, v.same_refl]
  | .failure f => by simp [Ty.same, f.same_refl]

theorem Ty.sameEach_refl : ∀ ts : List Ty, Ty.sameEach ts ts = true
  | [] => rfl
  | t :: ts => by simp [Ty.sameEach, t.same_refl, Ty.sameEach_refl ts]

theorem Failure.same_refl : ∀ f : Failure, f.same f = true
  | .incompatible c e _ => by simp [Failure.same, c.same_refl, e.same_refl]
  | .notAProcedure t _ => by simp [Failure.same, t.same_refl]
  | .noCommonType ts => by simp [Failure.same, Ty.sameEach_refl ts]
  | .unboundVariable _ | .notFound _ | .unknownPrimitive _ | .arityMismatch _ _ _
  | .recordMismatch _ | .noBaseCase _ | .duplicateCase _ | .unknownRecord _ | .unknownType _
  | .notACase _ _ | .notExhaustive _ _ | .letrecRequiresProcedures _ | .unspecified => by
      simp [Failure.same]

end

mutual

theorem Field.eq_of_same (f g : Field) (h : f.same g = true) : f = g := by
  match f, g with
  | ⟨m, t⟩, ⟨n, u⟩ =>
    simp only [Field.same, Bool.and_eq_true, beq_iff_eq] at h
    rw [h.1, t.eq_of_same u h.2]

theorem Field.eq_of_sameEach (fs gs : List Field) (h : Field.sameEach fs gs = true) : fs = gs := by
  match fs, gs with
  | [], [] => rfl
  | [], _ :: _ => simp [Field.sameEach] at h
  | _ :: _, [] => simp [Field.sameEach] at h
  | f :: fs, g :: gs =>
    simp only [Field.sameEach, Bool.and_eq_true] at h
    rw [f.eq_of_same g h.1, Field.eq_of_sameEach fs gs h.2]

theorem Record.eq_of_same (r s : Record) (h : r.same s = true) : r = s := by
  match r, s with
  | ⟨m, fs⟩, ⟨n, gs⟩ =>
    simp only [Record.same, Bool.and_eq_true, beq_iff_eq] at h
    rw [h.1, Field.eq_of_sameEach fs gs h.2]

theorem Record.eq_of_sameEach (rs ss : List Record) (h : Record.sameEach rs ss = true) :
    rs = ss := by
  match rs, ss with
  | [], [] => rfl
  | [], _ :: _ => simp [Record.sameEach] at h
  | _ :: _, [] => simp [Record.sameEach] at h
  | r :: rs, s :: ss =>
    simp only [Record.sameEach, Bool.and_eq_true] at h
    rw [r.eq_of_same s h.1, Record.eq_of_sameEach rs ss h.2]

theorem Variant.eq_of_same (v w : Variant) (h : v.same w = true) : v = w := by
  match v, w with
  | ⟨m, rs⟩, ⟨n, ss⟩ =>
    simp only [Variant.same, Bool.and_eq_true, beq_iff_eq] at h
    rw [h.1, Record.eq_of_sameEach rs ss h.2]

theorem Ty.eq_of_same (t u : Ty) (h : t.same u = true) : t = u := by
  unfold Ty.same at h
  split at h
  case h_1 | h_3 | h_5 | h_9 => simp_all
  case h_2 => rfl
  case h_4 ps r ps' r' =>
    rw [Bool.and_eq_true] at h
    rw [Ty.eq_of_sameEach ps ps' h.1, r.eq_of_same r' h.2]
  case h_6 r s => rw [r.eq_of_same s h]
  case h_7 v w => rw [v.eq_of_same w h]
  case h_8 f g => rw [f.eq_of_same g h]
  case h_10 => contradiction

theorem Ty.eq_of_sameEach (ts us : List Ty) (h : Ty.sameEach ts us = true) : ts = us := by
  match ts, us with
  | [], [] => rfl
  | [], _ :: _ => simp [Ty.sameEach] at h
  | _ :: _, [] => simp [Ty.sameEach] at h
  | t :: ts, u :: us =>
    simp only [Ty.sameEach, Bool.and_eq_true] at h
    rw [t.eq_of_same u h.1, Ty.eq_of_sameEach ts us h.2]

theorem Failure.eq_of_same (f g : Failure) (h : f.same g = true) : f = g := by
  unfold Failure.same at h
  split at h
  case h_4 c e _ c' e' _ =>
    simp only [Bool.and_eq_true, beq_iff_eq] at h
    rw [c.eq_of_same c' h.1.1, e.eq_of_same e' h.1.2, h.2]
  case h_5 t _ t' _ =>
    simp only [Bool.and_eq_true, beq_iff_eq] at h
    rw [t.eq_of_same t' h.1, h.2]
  case h_7 ts us => rw [Ty.eq_of_sameEach ts us h]
  case h_16 => rfl
  case h_17 => contradiction
  all_goals simp_all

end

/-- The comparison finds exactly the equal types. -/
theorem Ty.same_iff (t u : Ty) : t.same u = true ↔ t = u :=
  ⟨t.eq_of_same u, fun h => h ▸ t.same_refl⟩

instance : DecidableEq Ty := fun t u => decidable_of_iff _ (t.same_iff u)

instance : DecidableEq Failure := fun f g =>
  decidable_of_iff (f.same g = true) ⟨f.eq_of_same g, fun h => h ▸ f.same_refl⟩

instance : DecidableEq Field := fun f g =>
  decidable_of_iff (f.same g = true) ⟨f.eq_of_same g, fun h => h ▸ f.same_refl⟩

instance : DecidableEq Record := fun r s =>
  decidable_of_iff (r.same s = true) ⟨r.eq_of_same s, fun h => h ▸ r.same_refl⟩

instance : DecidableEq Variant := fun v w =>
  decidable_of_iff (v.same w = true) ⟨v.eq_of_same w, fun h => h ▸ v.same_refl⟩

end VariantScheme
