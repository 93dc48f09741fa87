import Mathlib.Data.List.Infix
import ThreeAddress.Surface
import ThreeAddress.Proofs.Scanning

/-!
# The normal form of surface text

`normalize` changes a text once, and then there is nothing left to change: what comes out is
`Normal`, and a normal text is what it was (`normalize_normal_form`). So the normal texts are those
that normalizing leaves alone, whatever the target.

Each of the five changes is made once, from left to right, and no place is looked at twice. That is
enough for two reasons. A place that a change leaves out because it overlaps the one before it is no
place any more: for `^` that is `Free`, which reads the text as `expandCarets` does. And no change
makes a place for an earlier one, for all that the later ones put in are stars (`Starred`), an
assignment in front, and blanks around it, and no place that is looked for goes across one of these.
-/

set_option autoImplicit false

namespace ThreeAddress

namespace Surface

/-- There is nothing in the text that `normalize` changes. The five properties speak of the text as
it is, not of what a function does with it, so that anyone can check them by looking. -/
structure Normal (text : String) : Prop where
  assigns : '=' ∈ text.toList
  no_square : '²' ∉ text.toList
  /-- No name has `^` and a number right after it. -/
  no_caret : ∀ name d, IsName name → d.isDigit → ¬name ++ ['^', d] <:+: text.toList
  /-- No digit has a letter right after it. -/
  no_product : ∀ d c, d.isDigit → c.isAlpha → ¬[d, c] <:+: text.toList
  no_parens : ¬[')', '('] <:+: text.toList

/-! ## Carets

What stands before a place matters for `^` alone, and all that matters is the kind of it (`Ahead`).
So the text is read with that as a state, in the definition as in the function, and both are
followed by the same induction. -/

/-- Read on from a place with `ahead` before it, the text has no `^` between a name and a number. It
is a condition on the state before each character, so it can be carried along from left to right. -/
def Free : Ahead → List Char → Prop
  | _, [] => True
  | ahead, c :: rest =>
    (ahead = .name → c = '^' → ∀ d ∈ rest.head?, d.isDigit = false) ∧ Free (ahead.after c) rest

/-! How the state goes on with one character, by the three states. -/

theorem after_nothing (c : Char) :
    Ahead.nothing.after c = if isNameStart c then .name else .nothing := rfl

theorem after_name (c : Char) :
    Ahead.name.after c = if isNameRest c then .name else .nothing := rfl

theorem after_exponent (c : Char) :
    Ahead.exponent.after c = if c.isDigit then .exponent else Ahead.nothing.after c := rfl

theorem after_of_isNameStart {c : Char} (h : isNameStart c) (ahead : Ahead) :
    ahead.after c = .name := by
  cases ahead with
  | nothing => rw [after_nothing, if_pos h]
  | name => rw [after_name, if_pos (isNameRest_of_isNameStart h)]
  | exponent => rw [after_exponent, isDigit_of_isNameStart h, after_nothing, if_pos h]; rfl

theorem after_nothing_of_isDigit {c : Char} (h : c.isDigit) :
    Ahead.nothing.after c = .nothing := by
  rw [after_nothing, if_neg]
  intro hname
  rw [isDigit_of_isNameStart hname] at h
  cases h

/-- What is a name right before a place goes on with the character there, or begins with it. -/
theorem after_eq_name {ahead : Ahead} {c : Char} (h : ahead.after c = .name) :
    isNameStart c ∨ ahead = .name ∧ isNameRest c := by
  cases ahead with
  | nothing =>
    rw [after_nothing] at h
    split at h
    next hc => exact .inl hc
    next => cases h
  | name =>
    rw [after_name] at h
    split at h
    next hc => exact .inr ⟨rfl, hc⟩
    next => cases h
  | exponent =>
    rw [after_exponent, after_nothing] at h
    split at h
    next => cases h
    next =>
      split at h
      next hc => exact .inl hc
      next => cases h

/-- A name begins after an exponent just where one begins after nothing: a digit leaves both states
as they are, and any other character takes both to the same. -/
theorem free_exponent_iff (cs : List Char) : Free .exponent cs ↔ Free .nothing cs := by
  induction cs with
  | nil => exact Iff.rfl
  | cons c rest ih =>
    simp only [Free, reduceCtorEq, false_implies, true_and]
    by_cases hc : c.isDigit
    · rw [after_nothing_of_isDigit hc, after_exponent, if_pos hc, ih]
    · rw [after_exponent, if_neg hc]

/-- After the change no such `^` is left, from any state. The induction is that of the function, so
that in each case the characters just put out are at hand. -/
theorem free_expandCarets (ahead : Ahead) (cs : List Char) :
    Free ahead (expandCarets ahead cs) := by
  fun_induction expandCarets ahead cs with
  | case1 c rest hc ih =>
    -- after the two stars there is nothing, and a digit does not begin a name
    rw [free_exponent_iff] at ih
    refine ⟨by simp, by simp, ?_, ?_⟩
    · rintro hname rfl
      cases hc
    · show Free (Ahead.nothing.after c) _
      rw [after_nothing_of_isDigit hc]
      exact ih
  -- a name and `^`, but no digit after it: the next character is put out as it is
  | case2 c rest hc ih =>
    refine ⟨?_, ih⟩
    intro _ _ d hd
    rw [expandCarets] at hd
    · obtain rfl : c = d := by simpa using hd
      simpa using hc
    · simp
  | case3 ahead c rest hne ih =>
    refine ⟨?_, ih⟩
    rintro rfl rfl d hd
    cases rest with
    | nil => simp [expandCarets] at hd
    | cons c rest => exact (hne c rest rfl rfl rfl).elim
  | case4 => trivial

/-- The rest of a free text is free, read on from the state that its front leads to. -/
theorem Free.append {pre cs : List Char} {ahead : Ahead} (h : Free ahead (pre ++ cs)) :
    Free (pre.foldl (fun ahead c => ahead.after c) ahead) cs := by
  induction pre generalizing ahead with
  | nil => exact h
  | cons c pre ih => exact ih h.2

/-- After a name there is a name before the place, whatever was there first. -/
theorem foldl_after_name {cs : List Char} (h : IsName cs) (ahead : Ahead) :
    cs.foldl (fun ahead c => ahead.after c) ahead = .name := by
  cases cs with
  | nil => exact h.elim
  | cons c rest =>
    rw [List.foldl_cons, after_of_isNameStart h.1]
    have hrest := h.2
    clear h
    induction rest with
    | nil => rfl
    | cons d rest ih =>
      have hd : Ahead.name.after d = .name := if_pos (hrest d List.mem_cons_self)
      rw [List.foldl_cons, hd]
      exact ih fun e he => hrest e (List.mem_cons_of_mem d he)

/-- A text in which no name stands before `^` and a digit is free. What was read so far is carried
along, since the name may have begun there. -/
theorem free_of_forall_not_isInfix (pre : List Char) {cs : List Char} {ahead : Ahead}
    (hahead : ahead = .name → ∃ name, IsName name ∧ name <:+ pre)
    (h : ∀ name d, IsName name → d.isDigit → ¬name ++ ['^', d] <:+: pre ++ cs) :
    Free ahead cs := by
  induction cs generalizing pre ahead with
  | nil => trivial
  | cons c rest ih =>
    constructor
    · rintro rfl rfl d hd
      obtain ⟨name, hname, front, rfl⟩ := hahead rfl
      obtain ⟨back, rfl⟩ := List.head?_eq_some_iff.mp hd
      by_contra hdigit
      exact h name d hname (by simpa using hdigit) ⟨front, back, by simp⟩
    · apply ih (pre ++ [c])
      · intro hafter
        rcases after_eq_name hafter with hc | ⟨rfl, hc⟩
        · exact ⟨[c], ⟨hc, by simp⟩, List.suffix_append pre [c]⟩
        · obtain ⟨name, hname, front, rfl⟩ := hahead rfl
          exact ⟨name ++ [c], hname.concat hc, front, by simp⟩
      · simpa using h

/-- Nothing to expand is what `Free` says from the beginning of a text on. One direction reads on
through the name up to the `^`; the other finds the name in what was read before. -/
theorem free_nothing_iff (cs : List Char) :
    Free .nothing cs ↔ ∀ name d, IsName name → d.isDigit → ¬name ++ ['^', d] <:+: cs := by
  constructor
  · intro hfree name d hname hd hin
    obtain ⟨front, back, rfl⟩ := hin
    rw [show front ++ (name ++ ['^', d]) ++ back = (front ++ name) ++ '^' :: d :: back by simp]
      at hfree
    have hafter := hfree.append
    rw [List.foldl_append, foldl_after_name hname] at hafter
    have := hafter.1 rfl rfl d rfl
    rw [hd] at this
    cases this
  · exact free_of_forall_not_isInfix [] (by simp)

theorem expandCarets_of_free {ahead : Ahead} {cs : List Char} (h : Free ahead cs) :
    expandCarets ahead cs = cs := by
  fun_induction expandCarets ahead cs with
  | case1 c rest hc ih =>
    have := h.1 rfl rfl c rfl
    rw [hc] at this
    cases this
  | case2 c rest hc ih => rw [ih h.2]
  | case3 ahead c rest hne ih => rw [ih h.2]
  | case4 => rfl

theorem expandCarets_cons {c : Char} (hc : c ≠ '^') (ahead : Ahead) (rest : List Char) :
    expandCarets ahead (c :: rest) = c :: expandCarets (ahead.after c) rest := by
  simp [expandCarets, hc]

theorem mem_of_mem_expandCarets {ahead : Ahead} {cs : List Char} {c : Char}
    (h : c ∈ expandCarets ahead cs) : c ∈ cs ∨ c = '*' := by
  fun_induction expandCarets ahead cs with
  | case1 d rest hd ih => grind
  | case2 d rest hd ih => grind
  | case3 ahead d rest hne ih => grind
  | case4 => exact .inl h

/-! ## Stars

Both changes for products, and no other fact about them than this one, are what the places of
earlier changes are defended against: a piece without stars that is there afterwards was there
before. -/

/-- The second text is the first with stars put in. Where the stars are and how many there are is
left open. -/
inductive Starred : List Char → List Char → Prop
  | nil : Starred [] []
  | keep (c : Char) {cs out : List Char} (h : Starred cs out) : Starred (c :: cs) (c :: out)
  | star {cs out : List Char} (h : Starred cs out) : Starred cs ('*' :: out)

variable {cs out w : List Char}

theorem starred_multiplyNames (cs : List Char) : Starred cs (multiplyNames cs) := by
  fun_induction multiplyNames cs with
  | case1 d c rest h ih => exact .keep d (.star ih)
  | case2 d c rest h ih => exact .keep d ih
  | case3 cs hne =>
    match cs, hne with
    | [], _ => exact .nil
    | [c], _ => exact .keep c .nil
    | d :: c :: rest, hne => exact (hne d c rest rfl).elim

theorem starred_multiplyParens (cs : List Char) : Starred cs (multiplyParens cs) := by
  fun_induction multiplyParens cs with
  | case1 rest ih => exact .keep ')' (.star ih)
  | case2 c rest hne ih => exact .keep c ih
  | case3 => exact .nil

theorem Starred.mem (h : Starred cs out) {c : Char} (hc : c ≠ '*') : c ∈ out ↔ c ∈ cs := by
  induction h with
  | nil => exact Iff.rfl
  | keep d h ih => simp only [List.mem_cons, ih]
  | star h ih => simp only [List.mem_cons, hc, ih, false_or]

/-- A front without stars was a front before, as no star can stand in it. -/
theorem Starred.isPrefix (h : Starred cs out) (hw : '*' ∉ w) (hfront : w <+: out) : w <+: cs := by
  induction h generalizing w with
  | nil => exact hfront
  | keep c h ih =>
    rcases List.prefix_cons_iff.mp hfront with rfl | ⟨w, rfl, htail⟩
    · exact List.nil_prefix
    · rw [List.prefix_cons_inj]
      exact ih (fun h => hw (List.mem_cons_of_mem c h)) htail
  | star h ih =>
    rcases List.prefix_cons_iff.mp hfront with rfl | ⟨w, rfl, -⟩
    · exact List.nil_prefix
    · exact (hw List.mem_cons_self).elim

/-- What has no star and is found after stars were put in was there before. The piece may begin
anywhere, so a front is dealt with first (`Starred.isPrefix`). -/
theorem Starred.isInfix (h : Starred cs out) (hw : '*' ∉ w) (hin : w <:+: out) : w <:+: cs := by
  induction h with
  | nil => exact hin
  | keep c h ih =>
    rcases List.infix_cons_iff.mp hin with hfront | hin
    · exact ((Starred.keep c h).isPrefix hw hfront).isInfix
    · exact List.infix_cons (ih hin)
  | star h ih =>
    rcases List.infix_cons_iff.mp hin with hfront | hin
    · exact ((Starred.star h).isPrefix hw hfront).isInfix
    · exact ih hin

theorem head?_multiplyNames (cs : List Char) : (multiplyNames cs).head? = cs.head? := by
  fun_cases multiplyNames cs <;> rfl

theorem head?_multiplyParens (cs : List Char) : (multiplyParens cs).head? = cs.head? := by
  fun_cases multiplyParens cs <;> rfl

/-! ### No product is left

The two changes are alike, and so are the two proofs. A star that was put in cannot be one of the
two characters that are looked for, and what stands after a place is looked at again from its second
character on. -/

/-- A pair in a text stands at its front or further on. -/
theorem pair_infix_cons {a b c : Char} {cs : List Char} (h : [a, b] <:+: c :: cs) :
    (c = a ∧ cs.head? = some b) ∨ [a, b] <:+: cs := by
  rcases List.infix_cons_iff.mp h with hfront | hin
  · obtain ⟨back, hback⟩ := hfront
    injection hback with hc hcs
    subst hc hcs
    exact .inl ⟨rfl, rfl⟩
  · exact .inr hin

theorem multiplyNames_no_product {d c : Char} (hd : d.isDigit) (hc : c.isAlpha)
    (cs : List Char) : ¬[d, c] <:+: multiplyNames cs := by
  have hstar : '*' ≠ d ∧ '*' ≠ c := by
    constructor <;> rintro rfl <;> contradiction
  fun_induction multiplyNames cs with
  | case1 d' c' rest h ih =>
    intro hin
    -- a star stands between the two characters, and is in no pair of this kind
    rcases pair_infix_cons hin with ⟨-, hhead⟩ | hin
    · exact hstar.2 (by simpa using hhead)
    rcases pair_infix_cons hin with ⟨heq, -⟩ | hin
    · exact hstar.1 heq
    · exact ih hin
  | case2 d' c' rest h ih =>
    intro hin
    rcases pair_infix_cons hin with ⟨rfl, hhead⟩ | hin
    -- the pair would be there in the text before, where it was seen to be none
    · rw [head?_multiplyNames] at hhead
      obtain rfl : c' = c := by simpa using hhead
      simp [hd, hc] at h
    · exact ih hin
  | case3 cs hne =>
    rintro ⟨front, back, rfl⟩
    cases front with
    | nil => exact hne d c back rfl
    | cons e front => cases front with
      | nil => exact hne e d (c :: back) rfl
      | cons f front => exact hne e f _ rfl

theorem multiplyNames_of_no_product {cs : List Char}
    (h : ∀ d c, d.isDigit → c.isAlpha → ¬[d, c] <:+: cs) : multiplyNames cs = cs := by
  fun_induction multiplyNames cs with
  | case1 d c rest hdc ih =>
    rw [Bool.and_eq_true] at hdc
    exact (h d c hdc.1 hdc.2 ⟨[], rest, rfl⟩).elim
  | case2 d c rest hdc ih =>
    rw [ih fun d' c' hd hc hin => h d' c' hd hc (List.infix_cons hin)]
  | case3 cs hne => rfl

theorem multiplyParens_cons {c : Char} (hc : c ≠ ')') (rest : List Char) :
    multiplyParens (c :: rest) = c :: multiplyParens rest := by
  simp [multiplyParens, hc]

theorem multiplyParens_no_parens (cs : List Char) : ¬[')', '('] <:+: multiplyParens cs := by
  fun_induction multiplyParens cs with
  | case1 rest ih =>
    intro hin
    rcases pair_infix_cons hin with ⟨-, hhead⟩ | hin
    · cases hhead
    rcases pair_infix_cons hin with ⟨heq, -⟩ | hin
    · cases heq
    · exact ih hin
  | case2 c rest hne ih =>
    intro hin
    rcases pair_infix_cons hin with ⟨rfl, hhead⟩ | hin
    · rw [head?_multiplyParens] at hhead
      obtain ⟨back, rfl⟩ := List.head?_eq_some_iff.mp hhead
      exact hne back rfl rfl
    · exact ih hin
  | case3 => simp

theorem multiplyParens_of_no_parens {cs : List Char} (h : ¬[')', '('] <:+: cs) :
    multiplyParens cs = cs := by
  fun_induction multiplyParens cs with
  | case1 rest ih => exact (h ⟨[], rest, rfl⟩).elim
  | case2 c rest hne ih => rw [ih fun hin => h (List.infix_cons hin)]
  | case3 => rfl

/-! ## The assignment in front

The target, a blank, the sign and a blank are put before the text, and trimming takes something off
both its ends. A place of an earlier change has neither blank nor `=` in it, so it lies within the
target or within the text. -/

theorem trimWhiteSpace_isInfix (cs : List Char) : trimWhiteSpace cs <:+: cs := by
  have hend : ∀ ds : List Char, trimEndWhiteSpace ds <+: ds := by
    intro ds
    rw [← List.reverse_suffix, trimEndWhiteSpace, List.reverse_reverse]
    exact List.dropWhile_suffix isWhiteSpace
  exact (hend _).isInfix.trans (List.dropWhile_suffix isWhiteSpace).isInfix

theorem trimWhiteSpace_eq_self {cs : List Char} (hfirst : ∀ c ∈ cs.head?, isWhiteSpace c = false)
    (hlast : ∀ c ∈ cs.getLast?, isWhiteSpace c = false) : trimWhiteSpace cs = cs := by
  have hdrop {ds : List Char} (h : ∀ c ∈ ds.head?, isWhiteSpace c = false) :
      ds.dropWhile isWhiteSpace = ds :=
    dropWhile_append_of_stop (List.forall_mem_nil _) h
  rw [trimWhiteSpace, hdrop hfirst, trimEndWhiteSpace, hdrop (by rwa [List.head?_reverse]),
    List.reverse_reverse]

/-- What goes across no `x` is on one side of it. Used with a blank or an `=` for `x`, to cut a text
where the assignment was put in. -/
theorem infix_append_cons {w a b : List Char} {x : Char} (hx : x ∉ w) (h : w <:+: a ++ x :: b) :
    w <:+: a ∨ w <:+: b := by
  rcases List.infix_append_iff.mp h with h | h | ⟨l, r, rfl, hl, hr⟩
  · exact .inl h
  · rcases List.infix_cons_iff.mp h with h | h
    · rcases List.prefix_cons_iff.mp h with rfl | ⟨w, rfl, -⟩
      · exact .inl List.nil_infix
      · exact (hx List.mem_cons_self).elim
    · exact .inr h
  · rcases List.prefix_cons_iff.mp hr with rfl | ⟨r, rfl, -⟩
    · rw [List.append_nil]
      exact .inl hl.isInfix
    · exact (hx (by simp)).elim

/-- A piece without blanks and `=` was in the target or in the text. -/
theorem infix_assignBare {target cs w : List Char} (hblank : ' ' ∉ w) (hassign : '=' ∉ w)
    (h : w <:+: assignBare target cs) : w <:+: target ∨ w <:+: cs := by
  unfold assignBare at h
  split at h
  · exact .inr h
  · rw [show target ++ [' ', '=', ' '] ++ trimWhiteSpace cs
        = target ++ ' ' :: ([] ++ '=' :: ([] ++ ' ' :: trimWhiteSpace cs)) by simp] at h
    rcases infix_append_cons hblank h with h | h
    · exact .inl h
    rcases infix_append_cons hassign h with h | h
    · exact .inl (h.trans List.nil_infix)
    rcases infix_append_cons hblank h with h | h
    · exact .inl (h.trans List.nil_infix)
    · exact .inr (h.trans (trimWhiteSpace_isInfix cs))

/-! ## The whole of it

The four properties of the expression are carried past the later changes one by one, and then past
the assignment in front, where the target has to be without places too. -/

theorem square_not_mem_expandSquares (cs : List Char) : '²' ∉ expandSquares cs := by
  simp only [expandSquares, List.mem_flatMap, not_exists, not_and]
  intro c _ hc
  split at hc
  · exact absurd hc (by decide)
  next hne => exact hne (List.mem_singleton.mp hc).symm

theorem expandSquares_of_no_square {cs : List Char} (h : '²' ∉ cs) : expandSquares cs = cs := by
  induction cs with
  | nil => rfl
  | cons c rest ih =>
    have hc : c ≠ '²' := fun heq => h (heq ▸ List.mem_cons_self)
    have hrest := ih fun hmem => h (List.mem_cons_of_mem c hmem)
    rw [expandSquares] at hrest ⊢
    rw [List.flatMap_cons, if_neg hc, hrest]
    rfl

theorem isNameRest_of_isDigit {d : Char} (h : d.isDigit) : isNameRest d := by
  simp [isNameRest, Char.isAlphanum, h]

theorem isNameRest_of_isAlpha {c : Char} (h : c.isAlpha) : isNameRest c := by
  simp [isNameRest, Char.isAlphanum, h]

/-- The places that are to be changed are made of characters of names, apart from `^`. -/
theorem not_mem_power {name : List Char} {d x : Char} (hname : IsName name) (hd : d.isDigit)
    (hrest : ¬isNameRest x) (hcaret : x ≠ '^') : x ∉ name ++ ['^', d] := by
  intro hmem
  simp only [List.mem_append, List.mem_cons, List.not_mem_nil, or_false] at hmem
  rcases hmem with hmem | rfl | rfl
  · exact hrest (hname.isNameRest hmem)
  · exact hcaret rfl
  · exact hrest (isNameRest_of_isDigit hd)

/-- The same of a digit and a letter: a character that no name has is none of the two. -/
theorem not_mem_product {d c x : Char} (hd : d.isDigit) (hc : c.isAlpha)
    (hrest : ¬isNameRest x) : x ∉ [d, c] := by
  intro hmem
  simp only [List.mem_cons, List.not_mem_nil, or_false] at hmem
  rcases hmem with rfl | rfl
  · exact hrest (isNameRest_of_isDigit hd)
  · exact hrest (isNameRest_of_isAlpha hc)

/-- What the first four changes make of a text, at the place of an expression. The fifth, the
assignment in front, is made to the outcome. -/
def multiplied (cs : List Char) : List Char :=
  multiplyParens (multiplyNames (expandCarets .nothing (expandSquares cs)))

/-- A piece that goes across no blank and no `=` comes from the target or from the changed text. -/
theorem infix_normalize {target source : String} {w : List Char} (hblank : ' ' ∉ w)
    (hassign : '=' ∉ w) (h : w <:+: (normalize target source).toList) :
    w <:+: target.toList ∨ w <:+: multiplied source.toList := by
  rw [normalize, String.toList_ofList] at h
  exact infix_assignBare hblank hassign h

theorem multiplied_no_square (cs : List Char) : '²' ∉ multiplied cs := by
  rw [multiplied, (starred_multiplyParens _).mem (by decide),
    (starred_multiplyNames _).mem (by decide)]
  intro hmem
  rcases mem_of_mem_expandCarets hmem with hmem | hmem
  · exact square_not_mem_expandSquares cs hmem
  · exact absurd hmem (by decide)

/-- No place for `^` comes about by putting in stars, as there is no star in such a place. -/
theorem multiplied_no_caret {name : List Char} {d : Char} (hname : IsName name)
    (hd : d.isDigit) (cs : List Char) : ¬name ++ ['^', d] <:+: multiplied cs := by
  intro hin
  have hstar : '*' ∉ name ++ ['^', d] := not_mem_power hname hd (by decide) (by decide)
  have hproducts := (starred_multiplyParens _).isInfix hstar hin
  have hpowers := (starred_multiplyNames _).isInfix hstar hproducts
  exact (free_nothing_iff _).mp (free_expandCarets .nothing _) name d hname hd hpowers

theorem multiplied_no_product {d c : Char} (hd : d.isDigit) (hc : c.isAlpha) (cs : List Char) :
    ¬[d, c] <:+: multiplied cs := by
  intro hin
  have hstar : '*' ∉ [d, c] := not_mem_product hd hc (by decide)
  exact multiplyNames_no_product hd hc _ ((starred_multiplyParens _).isInfix hstar hin)

/-- One pass is enough, if the target of the assignment has nothing in it to change. Were there a
digit with a letter behind it in the name of the target, it would be put in front as it is, and
changed in the next pass. Names of that kind are what `hproduct` excludes. -/
theorem normal_normalize {target : String} (htarget : IsName target.toList)
    (hproduct : ∀ d c, d.isDigit → c.isAlpha → ¬[d, c] <:+: target.toList) (source : String) :
    Normal (normalize target source) := by
  constructor
  case assigns =>
    rw [normalize, String.toList_ofList, assignBare]
    split
    next h => exact List.contains_iff_mem.mp h
    next => simp
  case no_square =>
    rw [← List.singleton_infix_iff]
    intro hin
    rcases infix_normalize (by decide) (by decide) hin with h | h
    · exact absurd (htarget.isNameRest ((List.singleton_infix_iff _ _).mp h)) (by decide)
    · exact multiplied_no_square _ ((List.singleton_infix_iff _ _).mp h)
  case no_caret =>
    intro name d hname hd hin
    rcases infix_normalize (not_mem_power hname hd (by decide) (by decide))
      (not_mem_power hname hd (by decide) (by decide)) hin with h | h
    · have hcaret : '^' ∈ target.toList := h.mem (by simp)
      exact absurd (htarget.isNameRest hcaret) (by decide)
    · exact multiplied_no_caret hname hd _ h
  case no_product =>
    intro d c hd hc hin
    rcases infix_normalize (not_mem_product hd hc (by decide)) (not_mem_product hd hc (by decide))
      hin with h | h
    · exact hproduct d c hd hc h
    · exact multiplied_no_product hd hc _ h
  case no_parens =>
    intro hin
    rcases infix_normalize (by decide) (by decide) hin with h | h
    · have hopen : '(' ∈ target.toList := h.mem (by simp)
      exact absurd (htarget.isNameRest hopen) (by decide)
    · exact multiplyParens_no_parens _ h

/-- Each change by itself finds no place, and so the text is what it was. -/
theorem normalize_of_normal {text : String} (h : Normal text) (target : String) :
    normalize target text = text := by
  rw [normalize, expandSquares_of_no_square h.no_square,
    expandCarets_of_free ((free_nothing_iff _).mpr h.no_caret),
    multiplyNames_of_no_product h.no_product, multiplyParens_of_no_parens h.no_parens, assignBare,
    if_pos (List.contains_iff_mem.mpr h.assigns), String.ofList_toList]

/-- Normalizing reaches the normal form in one pass, and the normal form is what normalizing leaves
as it is, for any target. -/
theorem normalize_normal_form {target : String} (htarget : IsName target.toList)
    (hproduct : ∀ d c, d.isDigit → c.isAlpha → ¬[d, c] <:+: target.toList) (source : String) :
    Normal (normalize target source) ∧
      (∀ text, Normal text → ∀ other, normalize other text = text) ∧
      ∀ other, normalize other (normalize target source) = normalize target source := by
  have hnormal := normal_normalize htarget hproduct source
  exact ⟨hnormal, fun text h => normalize_of_normal h, normalize_of_normal hnormal⟩

/-- Places that overlap: all of them are changed in the one pass. -/
theorem normalize_normal_form_overlapping :
    IsName "x".toList ∧ (∀ d c, d.isDigit → c.isAlpha → ¬[d, c] <:+: "x".toList) ∧
      normalize "x" " a^2b^3)()(1a2b² " = "x = a**2*b**3)*()*(1*a2*b**2" ∧
      Normal (normalize "x" " a^2b^3)()(1a2b² ") := by
  have hname : IsName "x".toList := by decide
  have hproduct : ∀ d c, d.isDigit → c.isAlpha → ¬[d, c] <:+: "x".toList := by
    intro d c _ _ hin
    exact absurd (show 2 ≤ 1 from hin.length_le) (by decide)
  exact ⟨hname, hproduct, rfl, (normalize_normal_form hname hproduct _).1⟩

end Surface

end ThreeAddress
