/-!
    What the report exclaims before it lists its issues: a particle, an oath and a resignation,
    each picked from a list. The picks are given beforehand and used in turn, over and over. -/

namespace VariantScheme

/-- Picks to be made, and how many have been used. -/
structure Picks where
  choices : List Int
  used : Nat := 0

/-- The next pick from some options, counted round and round. -/
def Picks.choose (p : Picks) (options : List String) : String × Picks :=
  let pick := (p.choices[p.used % p.choices.length]?).getD 0
  let index := (pick % (options.length : Int)).toNat
  ((options[index]?).getD "", { p with used := p.used + 1 })

def particles : List String := ["Oh, ", "Well, ", "Hmm. ", "", ""]

def oaths : List String :=
  ["Bother", "Blast", "Drat", "Fiddlesticks", "Gosh", "Good Grief", "Great Scott", "Heavens",
    "Jeepers", "Mercy", "Nuts", "Rats", "Shucks", "Zounds"]

def resignations : List String :=
  ["These types do not add up.", "I cannot vouch for this program.",
    "Something here does not fit.", "I need a second opinion."]

/-- An exclamation, and the picks that are left. -/
def outcry (p : Picks) : String × Picks :=
  let (particle, p) := p.choose particles
  let (oath, p) := p.choose oaths
  let (resignation, p) := p.choose resignations
  (particle ++ oath ++ "! " ++ resignation, p)

end VariantScheme
