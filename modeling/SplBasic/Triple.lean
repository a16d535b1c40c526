/-!
# Triples

The language fixes three parameters, three locals and three arguments, so a triple is a type of its
own and not a list of unknown length.
-/

namespace SplBasic

/-- Exactly three things, in order. -/
structure Triple (α : Type) where
  first : α
  second : α
  third : α
  deriving DecidableEq, Repr

namespace Triple

variable {α β σ : Type}

def toList (t : Triple α) : List α :=
  [t.first, t.second, t.third]

def map (f : α → β) (t : Triple α) : Triple β :=
  ⟨f t.first, f t.second, f t.third⟩

/-- Each of the three with the state in which a walk from `s` reaches it. -/
def along (step : σ → α → σ) (s : σ) (t : Triple α) : Triple (σ × α) :=
  ⟨(s, t.first), (step s t.first, t.second), (step (step s t.first) t.second, t.third)⟩

@[simp] theorem toList_map (f : α → β) (t : Triple α) : (t.map f).toList = t.toList.map f := rfl

end Triple

end SplBasic
