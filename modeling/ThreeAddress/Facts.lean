import ThreeAddress.Code

/-!
# What is known about places

While code is swept from front to back, some places are known to hold a constant, and some
temporaries to hold the same as another place. Each place has at most one such fact, and a write to
it replaces the fact.

A copy is followed by one step only, and stays known when the place it was made of is written
again: it is meant for temporaries that are written once.
-/

set_option autoImplicit false

namespace ThreeAddress

/-- What can be known about a place. -/
inductive Fact where
  /-- The place holds this constant. -/
  | holds (value : Number)
  /-- The place is a copy of this one. -/
  | copies (source : Place)

/-- The places that something is known about. -/
structure Facts where
  /-- Each place stands here at most once. -/
  entries : List (Place × Fact)

namespace Facts

def empty : Facts := ⟨[]⟩

def fact? (facts : Facts) (p : Place) : Option Fact :=
  (facts.entries.find? (·.1 = p)).map (·.2)

def forget (facts : Facts) (p : Place) : Facts := ⟨facts.entries.filter (·.1 ≠ p)⟩

/-- Knows this about a place, in the stead of what was known. -/
def learn (facts : Facts) (p : Place) (fact : Fact) : Facts :=
  ⟨(p, fact) :: (facts.forget p).entries⟩

/-! Forgetting and learning touch the one place that they are about. -/

@[simp] theorem fact?_empty (p : Place) : empty.fact? p = none := rfl

theorem fact?_forget (facts : Facts) (p q : Place) :
    (facts.forget p).fact? q = if q = p then none else facts.fact? q := by
  obtain ⟨entries⟩ := facts
  simp only [forget, fact?]
  induction entries with
  | nil => simp
  | cons entry entries ih =>
    by_cases hp : entry.1 = p
    · by_cases hq : q = p
      · simp [hq]
      · simp only [hq, if_false] at ih ⊢
        simpa [hp, Ne.symm hq] using ih
    · by_cases hq : entry.1 = q
      · simp [hq, hq ▸ hp]
      · simpa [hp, hq] using ih

theorem fact?_learn (facts : Facts) (p q : Place) (fact : Fact) :
    (facts.learn p fact).fact? q = if q = p then some fact else facts.fact? q := by
  by_cases hq : q = p
  · simp [learn, fact?, hq]
  · have h := fact?_forget facts p q
    simp only [hq, if_false] at h ⊢
    simpa [learn, fact?, Ne.symm hq] using h

@[simp] theorem fact?_forget_self (facts : Facts) (p : Place) :
    (facts.forget p).fact? p = none := by simp [fact?_forget]

@[simp] theorem fact?_learn_self (facts : Facts) (p : Place) (fact : Fact) :
    (facts.learn p fact).fact? p = some fact := by simp [fact?_learn]

/-- What is known after a constant has been written to a place. -/
def assign (facts : Facts) (p : Place) (value : Number) : Facts := facts.learn p (.holds value)

/-- What is known after a temporary has become a copy. Variables are never linked, as they may be
written many times. -/
def link (facts : Facts) (index : Nat) (source : Place) : Facts :=
  facts.learn (.temp index) (.copies source)

def value? (facts : Facts) (p : Place) : Option Number :=
  match facts.fact? p with
  | some (.holds value) => some value
  | _ => none

def source? (facts : Facts) (p : Place) : Option Place :=
  match facts.fact? p with
  | some (.copies source) => some source
  | _ => none

/-- The most that is known to be the same as an operand: a constant, else the place that a temporary
copies, else the operand itself. The source of a copy is not followed to its own source: it was
resolved itself when the copy was made. -/
def resolve (facts : Facts) : Operand → Operand
  | .const n => .const n
  | .place p =>
    let source := (facts.source? p).getD p
    match facts.value? source with
    | some value => .const value
    | none => .place source

end Facts

end ThreeAddress
