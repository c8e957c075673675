import VariantScheme.Refusal

/-!
    Issues: what a report tells a reader. An issue is an introduction, pieces of code with captions,
    and perhaps closing remarks. Every kind of failure has its explanation. -/

namespace VariantScheme

/-- A piece of code, with what there is to say about it. -/
structure Exhibit where
  text : String
  caption : String

/-- A place in the code as an exhibit, if that place can be written down. -/
def Occurrence.exhibit (place : Occurrence) (caption : String) : Except Refusal Exhibit := do
  return ⟨← place.text.mapError .unprintable, caption⟩

/-- The code, and under it the caption, if there is one. -/
def Exhibit.illustrate (x : Exhibit) : String :=
  if x.caption.isEmpty then "    " ++ x.text
  else "    " ++ x.text ++ "\n      ^ " ++ x.caption

/-- Something to tell the reader. -/
structure Issue where
  intro : String
  exhibits : List Exhibit := []
  footer : List String := []

/-- An issue as lines of text. -/
def Issue.text (i : Issue) : String :=
  "\n".intercalate (i.intro :: i.exhibits.map Exhibit.illustrate ++ i.footer)

/-- A name between apostrophes. -/
def quoted (name : String) : String := "'" ++ name ++ "'"

/-- A type as an explanation writes it. -/
def Ty.told (t : Ty) : Except Refusal String := t.render.mapError .unprintable

/-- What a wrong number of arguments looks like to the reader. The numbers are counts, which stay
    far below the limit that integers in the code are held to, and are written whatever they
    are. -/
def arityCaption (need got : Int) : String :=
  "This takes " ++ toString need ++ " argument" ++ (if need = 1 then "" else "s") ++ ", but got "
    ++ toString got ++ " instead."

/-- A failure explained. -/
def Failure.explain : Failure → Except Refusal Issue
  | .unboundVariable n => .ok ⟨"I don't see what " ++ quoted n ++ " refers to.", [], []⟩
  | .notFound n => .ok ⟨"There is no type or record called " ++ quoted n ++ ".", [], []⟩
  | .unknownPrimitive n => .ok ⟨quoted n ++ " is not a primitive I know about.", [], []⟩
  | .incompatible computed expected site => do
      let c ← computed.told
      let e ← expected.told
      return ⟨"Type-checking found " ++ c ++ " where " ++ e ++ " was expected:",
        [← site.exhibit "in here"], []⟩
  | .notAProcedure type site => do
      let t ← type.told
      return ⟨"Dunno how to call " ++ t ++ " as a procedure.", [← site.exhibit ""], []⟩
  | .arityMismatch site need got => do
      return ⟨"Type-checking found a disagreement over arguments.",
        [← site.exhibit (arityCaption need got)], []⟩
  | .noCommonType types => do
      let names ← types.mapM Ty.told
      return ⟨"These types have nothing in common: " ++ ", ".intercalate names, [],
        ["Branches of a conditional (or arms of a type-case) need a common declared ancestor."]⟩
  | .recordMismatch n =>
      .ok ⟨quoted n ++ " is declared more than once, and the declarations disagree.", [], []⟩
  | .noBaseCase t =>
      .ok ⟨"Every case of " ++ quoted t ++ " refers back to " ++ quoted t ++ ".", [],
        ["A recursive type needs at least one case that does not recur."]⟩
  | .duplicateCase r =>
      .ok ⟨"This type-case has more than one clause for " ++ quoted r ++ ".", [], []⟩
  | .unknownRecord n => .ok ⟨"There's no record called " ++ quoted n ++ ".", [], []⟩
  | .unknownType n => .ok ⟨"There's no user-defined type called " ++ quoted n ++ ".", [], []⟩
  | .notACase r t => .ok ⟨quoted r ++ " is not a case of the type " ++ quoted t ++ ".", [], []⟩
  | .notExhaustive t missing =>
      .ok ⟨"This type-case does not cover all the cases of " ++ quoted t ++ ".", [],
        ["Missing: " ++ ", ".intercalate missing]⟩
  | .letrecRequiresProcedures site => do
      return ⟨"A letrec may only bind procedures.", [← site.exhibit ""], []⟩
  | .unspecified => .error .noExplanation

end VariantScheme
