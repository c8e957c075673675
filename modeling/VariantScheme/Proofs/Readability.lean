import VariantScheme.Proofs.WellFormed

/-!
    Written types can be read in one way only. The shape of a type keeps the procedure types in it
    and takes every other part for an atom of the same name, which is all that the written form
    shows. `Written` is the grammar of written shapes; a text that begins with one determines the
    shape and where it ends, so types that are written alike have the same shape. -/

namespace VariantScheme

mutual

/-- A type with an atom in place of every part that is no procedure type. -/
def Ty.shape : Ty → Ty
  | .proc params result => .proc (Ty.shapeEach params) result.shape
  | .atom n | .var n _ | .named n => .atom n
  | .quoted => .atom "literal"
  | .record r => .atom r.name
  | .variant v => .atom v.name
  | .failure f => .failure f
  | .bare i => .bare i

/-- The shapes of several types, in order. -/
def Ty.shapeEach : List Ty → List Ty
  | [] => []
  | t :: ts => t.shape :: Ty.shapeEach ts

end

mutual

/-- The names that are written for the parts of a type. -/
def Ty.writtenNames : Ty → List String
  | .proc params result => Ty.writtenNamesEach params ++ result.writtenNames
  | .atom n | .var n _ | .named n => [n]
  | .record r => [r.name]
  | .variant v => [v.name]
  | .quoted | .failure _ | .bare _ => []

/-- The names that are written for several types. -/
def Ty.writtenNamesEach : List Ty → List String
  | [] => []
  | t :: ts => t.writtenNames ++ Ty.writtenNamesEach ts

end

/-- A name that can be told from what stands around it: it has neither spaces nor parentheses, and
    is not the word for no parameters. The stars and arrows between parts may be names as well,
    since it is known where those stand. -/
def IsWord (name : String) : Prop :=
  name ≠ "Empty" ∧ ∀ c ∈ name.toList, c ∉ [' ', '(', ')']

mutual

/-- How a shape is written. -/
inductive Written : Ty → List Char → Prop
  | atom {n : String} (word : IsWord n) : Written (.atom n) n.toList
  | proc {params : List Ty} {result : Ty} {source target : List Char}
      (left : WrittenParams params source) (right : Written result target) :
      Written (.proc params result) ('(' :: (source ++ " -> ".toList ++ target ++ [')']))

/-- How the shapes of parameters are written: with stars between them, if there are any. -/
inductive WrittenParams : List Ty → List Char → Prop
  | none : WrittenParams [] "Empty".toList
  | one {t : Ty} {text : List Char} (only : Written t text) : WrittenParams [t] text
  | more {t u : Ty} {ts : List Ty} {text rest : List Char} (first : Written t text)
      (others : WrittenParams (u :: ts) rest) :
      WrittenParams (t :: u :: ts) (text ++ " * ".toList ++ rest)

end

/-! ### One reading -/

/-- What can stand after a written shape: nothing, a space or a closing parenthesis. -/
inductive Delimited : List Char → Prop
  | nothing : Delimited []
  | space {rest : List Char} : Delimited (' ' :: rest)
  | paren {rest : List Char} : Delimited (')' :: rest)

theorem delimited_arrow (rest : List Char) : Delimited (" -> ".toList ++ rest) := .space

theorem delimited_star (rest : List Char) : Delimited (" * ".toList ++ rest) := .space

/-- After a parameter it shows at once whether another one follows. -/
theorem arrow_ne_star {rest rest' : List Char} :
    " -> ".toList ++ rest ≠ " * ".toList ++ rest' := by
  simp

/-- A name ends where the first delimiter stands. -/
theorem append_inj_of_delimited {a b rest rest' : List Char}
    (ha : ∀ c ∈ a, c ∉ [' ', '(', ')']) (hb : ∀ c ∈ b, c ∉ [' ', '(', ')'])
    (hrest : Delimited rest) (hrest' : Delimited rest') (h : a ++ rest = b ++ rest') :
    a = b ∧ rest = rest' := by
  have hname : ∀ {name end_ : List Char}, (∀ c ∈ name, c ∉ [' ', '(', ')']) → Delimited end_ →
      (name ++ end_).takeWhile (fun c => c ∉ [' ', '(', ')']) = name := by
    intro name end_ hchars hend
    rw [List.takeWhile_append_of_pos (by simpa using hchars)]
    cases hend <;> simp
  have hsame : a = b := by rw [← hname ha hrest, h, hname hb hrest']
  exact ⟨hsame, List.append_cancel_left (hsame ▸ h)⟩

/-- No name starts like a procedure type. -/
theorem IsWord.append_ne_paren {n : String} (hn : IsWord n) {rest text : List Char}
    (hrest : Delimited rest) : n.toList ++ rest ≠ '(' :: text := by
  intro h
  cases hchars : n.toList with
  | nil =>
    rw [hchars, List.nil_append] at h
    rw [h] at hrest
    cases hrest
  | cons c cs =>
    rw [hchars, List.cons_append] at h
    obtain ⟨rfl, -⟩ := List.cons.inj h
    have hc := hn.2 '(' (by simp [hchars])
    simp at hc

/-- What is written for a shape is not the word for no parameters. -/
theorem Written.append_ne_empty {t : Ty} {text : List Char} (h : Written t text)
    {rest rest' : List Char} (hrest : Delimited rest) :
    text ++ rest ≠ "Empty".toList ++ ' ' :: rest' := by
  intro hsame
  cases h with
  | @atom n word =>
    obtain ⟨hn, -⟩ := append_inj_of_delimited word.2 (by simp) hrest .space hsame
    exact word.1 (String.toList_inj.mp hn)
  | proc => simp at hsame

mutual

/-- A text that begins with a written shape determines the shape and where it ends. -/
theorem Written.append_inj {t u : Ty} {text text' rest rest' : List Char} :
    Written t text → Written u text' → Delimited rest → Delimited rest' →
    text ++ rest = text' ++ rest' → t = u ∧ rest = rest'
  | .atom hm, .atom hn, hrest, hrest', h => by
      obtain ⟨hnames, hend⟩ := append_inj_of_delimited hm.2 hn.2 hrest hrest' h
      exact ⟨by rw [String.toList_inj.mp hnames], hend⟩
  | .atom hm, .proc _ _, hrest, _, h => absurd h (hm.append_ne_paren hrest)
  | .proc _ _, .atom hn, _, hrest', h => absurd h.symm (hn.append_ne_paren hrest')
  | .proc hparams hresult, .proc hparams' hresult', _, _, h => by
      simp only [List.cons_append, List.append_assoc, List.nil_append, List.cons.injEq,
        true_and] at h
      obtain ⟨rfl, h⟩ := hparams.append_inj hparams' h
      obtain ⟨rfl, h⟩ := hresult.append_inj hresult' .paren .paren h
      exact ⟨rfl, (List.cons.inj h).2⟩

/-- The same of parameters, which end where the arrow stands. -/
theorem WrittenParams.append_inj {ts us : List Ty} {text text' rest rest' : List Char} :
    WrittenParams ts text → WrittenParams us text' →
    text ++ (" -> ".toList ++ rest) = text' ++ (" -> ".toList ++ rest') → ts = us ∧ rest = rest'
  -- no parameters: the other text would begin with a shape that reads `Empty`
  | .none, .none, h => ⟨rfl, List.append_cancel_left (List.append_cancel_left h)⟩
  | .none, .one only, h => absurd h.symm (only.append_ne_empty (delimited_arrow _))
  | .none, .more first _, h => by
      rw [List.append_assoc, List.append_assoc] at h
      exact absurd h.symm (first.append_ne_empty (delimited_star _))
  | .one only, .none, h => absurd h (only.append_ne_empty (delimited_arrow _))
  | .more first _, .none, h => by
      rw [List.append_assoc, List.append_assoc] at h
      exact absurd h (first.append_ne_empty (delimited_star _))
  -- after the first parameter, both texts have an arrow or both have a star
  | .one only, .one only', h => by
      obtain ⟨rfl, h⟩ := only.append_inj only' (delimited_arrow _) (delimited_arrow _) h
      exact ⟨rfl, List.append_cancel_left h⟩
  | .one only, .more first _, h => by
      rw [List.append_assoc, List.append_assoc] at h
      obtain ⟨-, h⟩ := only.append_inj first (delimited_arrow _) (delimited_star _) h
      exact absurd h arrow_ne_star
  | .more first _, .one only, h => by
      rw [List.append_assoc, List.append_assoc] at h
      obtain ⟨-, h⟩ := first.append_inj only (delimited_star _) (delimited_arrow _) h
      exact absurd h.symm arrow_ne_star
  | .more first others, .more first' others', h => by
      rw [List.append_assoc, List.append_assoc, List.append_assoc, List.append_assoc] at h
      obtain ⟨rfl, h⟩ := first.append_inj first' (delimited_star _) (delimited_star _) h
      obtain ⟨hothers, hrest⟩ := others.append_inj others' (List.append_cancel_left h)
      exact ⟨by rw [hothers], hrest⟩

end

/-! ### Types as they are rendered -/

mutual

/-- The written form shows no more than the shape. -/
theorem Ty.render_shape : ∀ t : Ty, t.shape.render = t.render
  | .proc params result => by
      rw [Ty.shape, Ty.render, Ty.render, Ty.renderEach_shapeEach params, result.render_shape]
  | .atom _ | .var _ _ | .named _ | .quoted | .record _ | .variant _ => rfl
  | .failure _ | .bare _ => rfl

theorem Ty.renderEach_shapeEach : ∀ ts : List Ty,
    Ty.renderEach (Ty.shapeEach ts) = Ty.renderEach ts
  | [] => rfl
  | t :: ts => by
      rw [Ty.shapeEach, Ty.renderEach, Ty.renderEach, t.render_shape, Ty.renderEach_shapeEach ts]

end

theorem Ty.mem_writtenNamesEach {n : String} : ∀ {ts : List Ty},
    n ∈ Ty.writtenNamesEach ts ↔ ∃ t ∈ ts, n ∈ t.writtenNames
  | [] => by simp [Ty.writtenNamesEach]
  | t :: ts => by
      simp [Ty.writtenNamesEach, Ty.mem_writtenNamesEach]

/-- Parameters are rendered as the grammar says, when each of them is. -/
theorem exists_writtenParams : ∀ {t : Ty} {ts : List Ty},
    (∀ u ∈ t :: ts, ∃ text, u.render = .ok text ∧ Written u.shape text.toList) →
    ∃ text texts, Ty.renderEach (t :: ts) = .ok (text :: texts) ∧
      WrittenParams (Ty.shapeEach (t :: ts)) (" * ".intercalate (text :: texts)).toList
  | t, [], h => by
      obtain ⟨text, htext, hwritten⟩ := h t List.mem_cons_self
      refine ⟨text, [], by simp only [Ty.renderEach, htext]; rfl, .one ?_⟩
      simpa using hwritten
  | t, u :: ts, h => by
      obtain ⟨⟨text, htext, hwritten⟩, hothers⟩ := List.forall_mem_cons.mp h
      obtain ⟨next, texts, hnext, hrest⟩ := exists_writtenParams hothers
      refine ⟨text, next :: texts, by rw [Ty.renderEach, htext, hnext]; rfl, ?_⟩
      rw [String.intercalate_cons_cons, String.toList_append, String.toList_append]
      exact .more hwritten hrest

/-- An honest type is rendered as the grammar says, if its names are words. -/
theorem Ty.Honest.exists_written {t : Ty} (ht : t.Honest)
    (hwords : ∀ n ∈ t.writtenNames, IsWord n) :
    ∃ text, t.render = .ok text ∧ Written t.shape text.toList := by
  induction ht with
  | @proc params result _ _ ihparams ihresult =>
    rw [Ty.writtenNames] at hwords
    obtain ⟨hparams, hresult⟩ := List.forall_mem_append.mp hwords
    obtain ⟨target, htarget, hright⟩ := ihresult hresult
    have heach : ∀ p ∈ params, ∃ text, p.render = .ok text ∧ Written p.shape text.toList :=
      fun p hp => ihparams p hp fun n hn => hparams n (Ty.mem_writtenNamesEach.mpr ⟨p, hp, hn⟩)
    cases params with
    | nil =>
      refine ⟨_, by rw [Ty.render, htarget]; rfl, ?_⟩
      simpa [Ty.shape, Ty.shapeEach] using Written.proc .none hright
    | cons p ps =>
      obtain ⟨text, texts, htexts, hleft⟩ := exists_writtenParams heach
      refine ⟨_, by rw [Ty.render, htexts, htarget]; rfl, ?_⟩
      simpa [Ty.shape] using Written.proc hleft hright
  | quoted => exact ⟨_, rfl, .atom (by simp [IsWord])⟩
  | _ => exact ⟨_, rfl, .atom (hwords _ List.mem_cons_self)⟩

/-- Types whose names are words are written alike exactly when they have the same shape: the same
    procedure types, nested in the same way and with equally many parameters, and the same names
    everywhere else. -/
theorem render_eq_iff_shape_eq (t u : Ty) (ht : t.Honest) (hu : u.Honest)
    (htwords : ∀ n ∈ t.writtenNames, IsWord n) (huwords : ∀ n ∈ u.writtenNames, IsWord n) :
    t.render = u.render ↔ t.shape = u.shape := by
  constructor
  · intro h
    obtain ⟨text, htext, hwritten⟩ := ht.exists_written htwords
    obtain ⟨text', htext', hwritten'⟩ := hu.exists_written huwords
    obtain rfl : text = text' := Except.ok.inj (htext.symm.trans (h.trans htext'))
    exact (hwritten.append_inj hwritten' .nothing .nothing rfl).1
  · intro h
    rw [← t.render_shape, h, u.render_shape]

/-- A procedure that takes a thunk and a shape, which is referred to by name. -/
def byReference : Ty := .proc [.proc [] .number, .named "Shape"] (.var "*" .unplaced)

/-- The same with the record in place of the reference, and an atom in place of the variable. -/
def byRecord : Ty :=
  .proc [.proc [] .number, .record ⟨"Shape", [⟨"side", .number⟩]⟩] (.atom "*")

theorem render_eq_iff_shape_eq_references :
    byReference ≠ byRecord ∧ byReference.render = .ok "((Empty -> number) * Shape -> *)" ∧
      byRecord.render = byReference.render ∧ byReference.shape = byRecord.shape := by
  have hthunk : (Ty.proc [] .number).Honest := .proc (by simp) .atom
  have hfields : ∀ t ∈ [Ty.number], t.Honest := List.forall_mem_singleton.mpr .atom
  have hreference : byReference.Honest :=
    .proc (List.forall_mem_cons.mpr ⟨hthunk, List.forall_mem_singleton.mpr .named⟩) .var
  have hrecord : byRecord.Honest :=
    .proc (List.forall_mem_cons.mpr ⟨hthunk, List.forall_mem_singleton.mpr (.record hfields)⟩) .atom
  have hwords : ∀ n ∈ ["number", "Shape", "*"], IsWord n := by simp [IsWord]
  have hsame : byReference.render = byRecord.render := by decide
  exact ⟨by decide, by decide, hsame.symm,
    (render_eq_iff_shape_eq byReference byRecord hreference hrecord hwords hwords).mp hsame⟩

end VariantScheme
