namespace NestedPoly

variable {τ : Type}

/-- Looks at the entries from `position` up to `last`, and changes places so that those with the
property come to lie from `count` on. Between `count` and `position` lie entries without it. -/
def gatherFrom (property : τ → Bool) (last : Nat) (entries : Array τ) (count position : Nat) :
    Nat × Array τ :=
  if inside : position < last ∧ position < entries.size then
    if property entries[position] then
      gatherFrom property last (entries.swapIfInBounds count position) (count + 1) (position + 1)
    else gatherFrom property last entries count (position + 1)
  else (count, entries)
termination_by last - position

def gather (property : τ → Bool) (entries : Array τ) : Nat × Array τ :=
  gatherFrom property entries.size entries 0 0

def changeFrom (change : τ → τ) (last : Nat) (entries : Array τ) (position : Nat) : Array τ :=
  if position < last then changeFrom change last (entries.modify position change) (position + 1)
  else entries
termination_by last - position

end NestedPoly
