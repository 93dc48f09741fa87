import Mathlib.Data.List.Induction
import Mathlib.Data.List.Nodup
import Mathlib.Logic.Function.Basic
import ThreeAddress.Facts

/-!
# What is known is the latest change

Facts are only ever changed in three ways: a place is assigned a constant, a place is forgotten, or
a temporary is linked to the place that it copies. Whatever changes have been made, and in whatever
order, what is known of a place is what the latest change of that place says (`fact?_after`). Two
facts about one place are never kept beside each other (`nodup_after`), so nothing is known that a
later change has replaced. The same is known when the facts are kept apart by their kinds, and each
change has to clear what the other kind says of its place (`Tables.keeps_after`).

An operand is looked up twice, once for what it copies and once for the value of that. The two
lookups are both of the same time: a copy that was made before its source was written is taken for
what the source holds now.
-/

set_option autoImplicit false

namespace ThreeAddress

namespace Facts

/-- A way to change what is known. All that the sweep ever does to its facts is one of these. -/
inductive Change where
  | assign (place : Place) (value : Number)
  | forget (place : Place)
  | link (index : Nat) (source : Place)

namespace Change

/-- The place that the change is about. -/
def dest : Change → Place
  | assign p _ | forget p => p
  | link index _ => .temp index

def apply (facts : Facts) : Change → Facts
  | assign p value => facts.assign p value
  | forget p => facts.forget p
  | link index source => facts.link index source

/-- What the change says of its place, if it does not forget it. -/
def fact? : Change → Option Fact
  | assign _ value => some (.holds value)
  | forget _ => none
  | link _ source => some (.copies source)

/-- A change is about one place, and says all that is known of it. This is the step from which all
that follows is derived. -/
theorem fact?_apply (facts : Facts) (change : Change) (p : Place) :
    (change.apply facts).fact? p = if p = change.dest then change.fact? else facts.fact? p := by
  cases change with
  | assign q value => exact fact?_learn facts q p (.holds value)
  | forget q => exact fact?_forget facts q p
  | link index source => exact fact?_learn facts (.temp index) p (.copies source)

end Change

/-- The facts after some changes, if nothing is known before. The latest change is the last of the
list. -/
def after (history : List Change) : Facts := history.foldl Change.apply empty

/-- The latest change of a place. -/
def latest? (history : List Change) (p : Place) : Option Change :=
  history.reverse.find? (·.dest = p)

variable {history : List Change} {change : Change} {p q : Place} {value : Number}

theorem after_concat (history : List Change) (change : Change) :
    after (history ++ [change]) = change.apply (after history) := by
  rw [after, List.foldl_append]
  rfl

theorem latest?_concat (history : List Change) (change : Change) (p : Place) :
    latest? (history ++ [change]) p =
      if p = change.dest then some change else latest? history p := by
  rw [latest?, List.reverse_append, List.reverse_singleton, List.singleton_append, List.find?_cons]
  by_cases h : p = change.dest
  · rw [if_pos h, decide_eq_true h.symm]
  · rw [if_neg h, decide_eq_false (Ne.symm h)]
    rfl

theorem dest_of_latest? (h : latest? history p = some change) : change.dest = p := by
  simpa using List.find?_some h

/-- What is known of a place is what the latest change of it says. -/
theorem fact?_after (history : List Change) (p : Place) :
    (after history).fact? p = (latest? history p).bind Change.fact? := by
  -- from the front to the back of the history
  induction history using List.reverseRecOn with
  | nil => rfl
  | append_singleton history change ih =>
    rw [after_concat, Change.fact?_apply, latest?_concat]
    split
    · rfl
    · exact ih

/-! ## One fact for each place

A change takes away what was known of its place before it puts anything in. So among the entries no
place comes twice, though nothing in the type of facts would forbid it. -/

theorem nodup_forget {facts : Facts} (h : (facts.entries.map (·.1)).Nodup) (p : Place) :
    ((facts.forget p).entries.map (·.1)).Nodup :=
  (List.filter_sublist.map _).nodup h

/-- The place is forgotten first, so the new entry is the only one for it. -/
theorem nodup_learn {facts : Facts} (h : (facts.entries.map (·.1)).Nodup) (p : Place)
    (fact : Fact) : ((facts.learn p fact).entries.map (·.1)).Nodup := by
  have hnew : p ∉ (facts.forget p).entries.map (·.1) := by
    simp [forget]
  exact List.nodup_cons.mpr ⟨hnew, nodup_forget h p⟩

theorem Change.nodup_apply {facts : Facts} (h : (facts.entries.map (·.1)).Nodup)
    (change : Change) : ((change.apply facts).entries.map (·.1)).Nodup := by
  cases change with
  | assign p value => exact nodup_learn h p (.holds value)
  | forget p => exact nodup_forget h p
  | link index source => exact nodup_learn h (.temp index) (.copies source)

theorem nodup_after (history : List Change) : ((after history).entries.map (·.1)).Nodup := by
  induction history using List.reverseRecOn with
  | nil => exact List.nodup_nil
  | append_singleton history change ih =>
    rw [after_concat]
    exact change.nodup_apply ih

/-- A place with a value is no copy, as that would be a second fact about it. -/
theorem not_copies_of_holds {source : Place}
    (hholds : (p, .holds value) ∈ (after history).entries) :
    (p, .copies source) ∉ (after history).entries := by
  intro hcopies
  have hsame := List.inj_on_of_nodup_map (nodup_after history) hholds hcopies rfl
  cases hsame

/-! ## Looking up

Values and sources are read off the latest change, by its kind. A change of the other kind, or one
that forgets, gives nothing. -/

theorem value?_after (history : List Change) (p : Place) :
    (after history).value? p =
      match latest? history p with
      | some (.assign _ value) => some value
      | _ => none := by
  rw [value?, fact?_after]
  cases latest? history p with
  | none => rfl
  | some change => cases change <;> rfl

theorem source?_after (history : List Change) (p : Place) :
    (after history).source? p =
      match latest? history p with
      | some (.link _ source) => some source
      | _ => none := by
  rw [source?, fact?_after]
  cases latest? history p with
  | none => rfl
  | some change => cases change <;> rfl

theorem value?_after_eq_some_iff :
    (after history).value? p = some value ↔ latest? history p = some (.assign p value) := by
  rw [value?_after]
  cases hlatest : latest? history p with
  | none => simp
  | some change =>
    cases change with
    | assign q n =>
      obtain rfl : q = p := dest_of_latest? hlatest
      simp
    | forget q => simp
    | link index source => simp

/-- The value of a place, or else the place itself, is told by its latest change. This is what
`resolve` does twice, with the place and with what it copies. -/
theorem lookup_after (history : List Change) (p : Place) :
    (match (after history).value? p with
      | some value => Operand.const value
      | none => .place p) =
      match latest? history p with
      | some (.assign _ value) => .const value
      | _ => .place p := by
  rw [value?_after]
  cases latest? history p with
  | none => rfl
  | some change => cases change <;> rfl

/-- First the latest change of the place is asked. Only if that has made it a copy, the latest
change of the source is, whether it was before or after the copy. -/
theorem resolve_after (history : List Change) (p : Place) :
    (after history).resolve (.place p) =
      match latest? history p with
      | some (.assign _ value) => .const value
      | some (.link _ source) =>
        match latest? history source with
        | some (.assign _ value) => .const value
        | _ => .place source
      | _ => .place p := by
  have hself := lookup_after history p
  rw [resolve, source?_after]
  cases hlatest : latest? history p with
  | none =>
    rw [hlatest] at hself
    exact hself
  | some change =>
    rw [hlatest] at hself
    cases change with
    | assign q value => exact hself
    | forget q => exact hself
    | link index source => exact lookup_after history source

/-! ## Kept in two tables

Values and copies can be kept apart. Then there is nothing about the tables themselves that keeps a
temporary from being in both, and it is for each change to see to that. -/

/-- What is known, with the values of places in one table and in another what temporaries copy. This
is how a table of values and one of copies would be kept side by side. -/
structure Tables where
  values : Place → Option Number
  copies : Nat → Option Place

namespace Tables

def empty : Tables := ⟨fun _ => none, fun _ => none⟩

/-- What temporaries copy, with the place no longer among them. -/
def uncopied (tables : Tables) : Place → Nat → Option Place
  | .temp index => Function.update tables.copies index none
  | .var _ => tables.copies

/-- Changes one table, and clears the place in the other. -/
def apply (tables : Tables) : Change → Tables
  | .assign p value => ⟨Function.update tables.values p (some value), tables.uncopied p⟩
  | .forget p => ⟨Function.update tables.values p none, tables.uncopied p⟩
  | .link index source =>
    ⟨Function.update tables.values (.temp index) none,
      Function.update tables.copies index (some source)⟩

def source? (tables : Tables) : Place → Option Place
  | .temp index => tables.copies index
  | .var _ => none

def resolve (tables : Tables) : Operand → Operand
  | .const n => .const n
  | .place p =>
    let source := (tables.source? p).getD p
    match tables.values source with
    | some value => .const value
    | none => .place source

def after (history : List Change) : Tables := history.foldl apply empty

/-- The tables say of each place what is known of it. The relation is between what is found, as the
facts are a list and the tables are functions. -/
def Keeps (tables : Tables) (facts : Facts) : Prop :=
  ∀ p, tables.values p = facts.value? p ∧ tables.source? p = facts.source? p

variable {tables : Tables} {facts : Facts}

theorem source?_uncopied (tables : Tables) (values : Place → Option Number) (p q : Place) :
    source? ⟨values, tables.uncopied q⟩ p = if p = q then none else tables.source? p := by
  cases p with
  | var name => exact (ite_self none).symm
  | temp index =>
    cases q with
    | var name => rfl
    | temp other => simp [source?, uncopied, Function.update_apply]

theorem source?_update (tables : Tables) (values : Place → Option Number) (p source : Place)
    (index : Nat) : source? ⟨values, Function.update tables.copies index (some source)⟩ p =
      if p = .temp index then some source else tables.source? p := by
  cases p with
  | var name => rfl
  | temp other => simp [source?, Function.update_apply]

/-- A change sets the value of its place or clears it, and leaves the values of all other places. -/
theorem values_apply (tables : Tables) (change : Change) (p : Place) :
    (tables.apply change).values p =
      if p = change.dest then
        match change with
        | .assign _ value => some value
        | _ => none
      else tables.values p := by
  cases change <;> exact Function.update_apply ..

/-- The same of copies. A variable never is one. -/
theorem source?_apply (tables : Tables) (change : Change) (p : Place) :
    (tables.apply change).source? p =
      if p = change.dest then
        match change with
        | .link _ source => some source
        | _ => none
      else tables.source? p := by
  cases change with
  | assign q value | forget q => exact tables.source?_uncopied _ p q
  | link index source => exact tables.source?_update _ p source index

/-- The tables keep up with a change. -/
theorem Keeps.apply (h : tables.Keeps facts) (change : Change) :
    (tables.apply change).Keeps (change.apply facts) := by
  intro p
  obtain ⟨hvalue, hsource⟩ := h p
  rw [values_apply, source?_apply, Facts.value?, Facts.source?, Change.fact?_apply]
  split
  · cases change <;> exact ⟨rfl, rfl⟩
  · exact ⟨hvalue, hsource⟩

theorem keeps_after (history : List Change) : (after history).Keeps (Facts.after history) := by
  induction history using List.reverseRecOn with
  | nil => exact fun p => ⟨rfl, by cases p <;> rfl⟩
  | append_singleton history change ih =>
    rw [after, List.foldl_append, Facts.after_concat]
    exact ih.apply change

/-- What is found in the one table is cleared in the other. -/
theorem Keeps.values_or_copies (h : tables.Keeps facts) (index : Nat) :
    tables.values (.temp index) = none ∨ tables.copies index = none := by
  obtain ⟨hvalue, hsource⟩ := h (.temp index)
  have hcopies : tables.copies index = facts.source? (.temp index) := hsource
  rw [hvalue, hcopies, Facts.value?, Facts.source?]
  rcases facts.fact? (.temp index) with _ | value | source
  · exact .inl rfl
  · exact .inr rfl
  · exact .inl rfl

theorem Keeps.resolve_eq (h : tables.Keeps facts) (operand : Operand) :
    tables.resolve operand = facts.resolve operand := by
  cases operand with
  | const n => rfl
  | place p =>
    cases hvalue : facts.value? ((facts.source? p).getD p) with
    | none => rw [Tables.resolve, Facts.resolve, (h p).2, (h _).1, hvalue]
    | some value => rw [Tables.resolve, Facts.resolve, (h p).2, (h _).1, hvalue]

end Tables

/-- What is known is the history. No place is known both as a constant and as a copy; a place has a
known value just if its latest change has assigned it that; and an operand is resolved by the latest
change of its place, or, if that has made it a copy, by the latest change of what it copies. If the
facts are kept in two tables, no temporary is in both, and the same values are found and the same
operands resolved. The first part is about the entries themselves and the others about what is found
in them. -/
theorem known_of_history (history : List Change) :
    (∀ n value source, (.temp n, .holds value) ∈ (after history).entries →
      (.temp n, .copies source) ∉ (after history).entries) ∧
    (∀ p value, (after history).value? p = some value ↔
      latest? history p = some (.assign p value)) ∧
    (∀ value, (after history).resolve (.const value) = .const value) ∧
    (∀ p, (after history).resolve (.place p) =
      match latest? history p with
      | some (.assign _ value) => .const value
      | some (.link _ source) =>
        match latest? history source with
        | some (.assign _ value) => .const value
        | _ => .place source
      | _ => .place p) ∧
    (∀ n, (Tables.after history).values (.temp n) = none ∨ (Tables.after history).copies n = none) ∧
    (∀ p, (Tables.after history).values p = (after history).value? p) ∧
    ∀ operand, (Tables.after history).resolve operand = (after history).resolve operand := by
  have hkeeps := Tables.keeps_after history
  refine ⟨?_, ?_, ?_, resolve_after history, hkeeps.values_or_copies, ?_, hkeeps.resolve_eq⟩
  · intro n value source hholds
    exact not_copies_of_holds hholds
  · intro p value
    exact value?_after_eq_some_iff
  · intro value
    rfl
  · intro p
    exact (hkeeps p).1

/-- A copy is not undone by a write to its source, and is then taken for the value written. -/
example : (after [.link 0 (.var "x"), .forget (.temp 1), .assign (.var "x") (.int 1)]).resolve
    (.place (.temp 0)) = .const (.int 1) := rfl

end Facts

end ThreeAddress
