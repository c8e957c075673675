import VariantScheme.Distinct
import VariantScheme.Refusal

/-!
    Type environments. A frame is one batch of bindings; an environment is a chain of frames,
    innermost first. Extending an environment leaves it as it is, so the arms of a case analysis
    can each extend the same one. -/

namespace VariantScheme

/-- One batch of bindings, each name once. -/
abbrev Frame := List (String × Ty)

/-- Frames, innermost first. -/
abbrev Env := List Frame

/-- Within one frame the earliest binding of a name is the one that counts. -/
def Frame.ofPairs (pairs : List (String × Ty)) : Frame := distinctBy (·.1) pairs

namespace Env

/-- A new innermost frame. -/
def bind (env : Env) (pairs : List (String × Ty)) : Env := Frame.ofPairs pairs :: env

/-- A new innermost frame from names and their types, which have to be equally many. -/
def extend (env : Env) (names : List String) (types : List Ty) : Except Refusal Env :=
  if names.length = types.length then .ok (env.bind (names.zip types))
  else .error (.unequalLengths names.length types.length)

/-- What a name is bound to, in the innermost frame that binds it. -/
def lookup? : Env → String → Option Ty
  | [], _ => none
  | frame :: env, name => (frame.lookup name).or (lookup? env name)

/-- What a name stands for; an unbound one stands for that failure. -/
def lookup (env : Env) (name : String) : Ty :=
  (env.lookup? name).getD (.failure (.unboundVariable name))

/-- The names of the innermost frame. -/
def names : Env → Except Refusal (List String)
  | [] => .error .noFrame
  | frame :: _ => .ok (frame.map (·.1))

/-- An environment by its innermost frame. -/
def summary : Env → Printed
  | [] => .ok "<EmptyEnv>"
  | frame :: _ => do
      let entries ← frame.mapM fun (name, type) => do return name ++ ":" ++ (← type.summary)
      return "<InnerEnv " ++ ", ".intercalate entries ++ ">"

end Env

end VariantScheme
