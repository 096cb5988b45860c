import CallChain.Grammar.Token
import CallChain.Regex

/-!
# The grammar of grammar texts

Which token sequences are grammars, and which regular expression each of them stands for:

```text
union    ::= concat ('|' concat)*
concat   ::= modified modified*
modified ::= atomic ('?' | '*' | '+')*
atomic   ::= '(' union ')' | identifier | '<' identifier '>' | '^' | '/' | '!'
```

Groups are folded away. Two or more operands make one flat choice or sequence, and one operand
stands for itself.

* `DerivesUnion.written`: the expression has a written form.
* `DerivesUnion.identifiedIn`, `DerivesUnion.spelledIn`: its names are among the tokens.
* `DerivesUnion.noGarbage`: no token is garbage.
-/

namespace CallChain

/-- The token of a quantifier. -/
def Quantifier.tokenKind : Quantifier → SyntaxKind
  | star => .star
  | plus => .plus
  | optional => .question

/-- The token of an anchor. -/
def Anchor.tokenKind : Anchor → SyntaxKind
  | start => .caret
  | stop => .bang
  | inner => .slash

/-- One operand stands for itself, and more of them make one expression. -/
def Regex.joined (wrap : List Regex → Regex) (first : Regex) : List Regex → Regex
  | [] => first
  | second :: rest => wrap (first :: second :: rest)

mutual

inductive DerivesUnion : List Token → Regex → Prop where
  | union {ts ts' : List Token} {first : Regex} {rest : List Regex}
      (hfirst : DerivesConcat ts first) (hrest : DerivesBranches ts' rest) :
      DerivesUnion (ts ++ ts') (.joined .alt first rest)

/-- Further operands of a choice, each after its bar. -/
inductive DerivesBranches : List Token → List Regex → Prop where
  | nil : DerivesBranches [] []
  | cons {bar : Token} {ts ts' : List Token} {operand : Regex} {rest : List Regex}
      (hbar : bar.kind = .pipe) (hoperand : DerivesConcat ts operand)
      (hrest : DerivesBranches ts' rest) :
      DerivesBranches (bar :: (ts ++ ts')) (operand :: rest)

inductive DerivesConcat : List Token → Regex → Prop where
  | concat {ts ts' : List Token} {first : Regex} {rest : List Regex}
      (hfirst : DerivesModified ts first) (hrest : DerivesFactors ts' rest) :
      DerivesConcat (ts ++ ts') (.joined .concat first rest)

/-- Further operands of a sequence. -/
inductive DerivesFactors : List Token → List Regex → Prop where
  | nil : DerivesFactors [] []
  | cons {ts ts' : List Token} {operand : Regex} {rest : List Regex}
      (hoperand : DerivesModified ts operand) (hrest : DerivesFactors ts' rest) :
      DerivesFactors (ts ++ ts') (operand :: rest)

/-- Quantifiers wrap what stands before them, from left to right. -/
inductive DerivesModified : List Token → Regex → Prop where
  | modified {ts : List Token} {operand : Regex} {marks : List (Token × Quantifier)}
      (hoperand : DerivesAtomic ts operand)
      (hmarks : ∀ mark ∈ marks, mark.1.kind = mark.2.tokenKind) :
      DerivesModified (ts ++ marks.map (·.1))
        (marks.foldl (fun operand mark => .quantified operand mark.2) operand)

inductive DerivesAtomic : List Token → Regex → Prop where
  | group {opening closing : Token} {ts : List Token} {inside : Regex}
      (hopening : opening.kind = .parenOpen) (hinside : DerivesUnion ts inside)
      (hclosing : closing.kind = .parenClose) :
      DerivesAtomic (opening :: (ts ++ [closing])) inside
  | ident {name : Token} (hname : name.kind = .id) :
      DerivesAtomic [name] (.literal ⟨name.text, name.span⟩)
  | reference {opening name closing : Token} (hopening : opening.kind = .angleOpen)
      (hname : name.kind = .id) (hclosing : closing.kind = .angleClose) :
      DerivesAtomic [opening, name, closing] (.ref ⟨name.text, name.span⟩)
  | anchor {mark : Token} {a : Anchor} (hmark : mark.kind = a.tokenKind) :
      DerivesAtomic [mark] (.anchor a)

end

/-! ### Written expressions -/

namespace Regex

mutual

/-- No operand is made nonempty, and every sequence and every choice has at least two operands. -/
def Written : Regex → Prop
  | literal _ => True
  | ref _ => True
  | anchor _ => True
  | concat operands => 2 ≤ operands.length ∧ WrittenAll operands
  | alt operands => 2 ≤ operands.length ∧ WrittenAll operands
  | quantified operand _ => Written operand
  | nonEmpty _ => False

def WrittenAll : List Regex → Prop
  | [] => True
  | operand :: operands => Written operand ∧ WrittenAll operands

end

/-- All names, those of literals first. -/
def names (expr : Regex) : List Name := expr.literals ++ expr.refs

/-- All names of some expressions, those of literals first. -/
def namesOf (operands : List Regex) : List Name := literalsOf operands ++ refsOf operands

theorem written_joined (wrap : List Regex → Regex) (hwrap : ∀ operands, 2 ≤ operands.length →
    WrittenAll operands → Written (wrap operands)) {first : Regex} {rest : List Regex}
    (hfirst : Written first) (hrest : WrittenAll rest) : Written (joined wrap first rest) := by
  cases rest with
  | nil => exact hfirst
  | cons second rest =>
    refine hwrap _ ?_ ⟨hfirst, hrest⟩
    show 2 ≤ rest.length + 1 + 1
    omega

theorem written_foldl {marks : List (Token × Quantifier)} {operand : Regex}
    (h : Written operand) :
    Written (marks.foldl (fun operand mark => .quantified operand mark.2) operand) := by
  induction marks generalizing operand with
  | nil => exact h
  | cons mark marks ih => exact ih h

theorem names_foldl (marks : List (Token × Quantifier)) (operand : Regex) :
    (marks.foldl (fun operand mark => quantified operand mark.2) operand).names =
      operand.names := by
  induction marks generalizing operand with
  | nil => rfl
  | cons mark marks ih => exact ih (quantified operand mark.2)

theorem mem_names_joined (wrap : List Regex → Regex)
    (hwrap : ∀ operands, (wrap operands).names = namesOf operands) {first : Regex}
    {rest : List Regex} {name : Name} (h : name ∈ (joined wrap first rest).names) :
    name ∈ first.names ∨ name ∈ namesOf rest := by
  cases rest with
  | nil => exact .inl h
  | cons second rest =>
    rw [joined, hwrap, namesOf, literalsOf, refsOf] at h
    rw [names, namesOf]
    simp only [List.mem_append] at h ⊢
    grind

end Regex

mutual

/-- What is derived has a written form. -/
theorem DerivesUnion.written : ∀ {ts : List Token} {expr : Regex},
    DerivesUnion ts expr → expr.Written
  | _, _, .union hfirst hrest =>
    Regex.written_joined .alt (fun _ hlength h => ⟨hlength, h⟩) hfirst.written hrest.written

theorem DerivesBranches.written : ∀ {ts : List Token} {rest : List Regex},
    DerivesBranches ts rest → Regex.WrittenAll rest
  | _, _, .nil => trivial
  | _, _, .cons _ hoperand hrest => ⟨hoperand.written, hrest.written⟩

theorem DerivesConcat.written : ∀ {ts : List Token} {expr : Regex},
    DerivesConcat ts expr → expr.Written
  | _, _, .concat hfirst hrest =>
    Regex.written_joined .concat (fun _ hlength h => ⟨hlength, h⟩) hfirst.written hrest.written

theorem DerivesFactors.written : ∀ {ts : List Token} {rest : List Regex},
    DerivesFactors ts rest → Regex.WrittenAll rest
  | _, _, .nil => trivial
  | _, _, .cons hoperand hrest => ⟨hoperand.written, hrest.written⟩

theorem DerivesModified.written : ∀ {ts : List Token} {expr : Regex},
    DerivesModified ts expr → expr.Written
  | _, _, .modified hoperand _ => Regex.written_foldl hoperand.written

theorem DerivesAtomic.written : ∀ {ts : List Token} {expr : Regex},
    DerivesAtomic ts expr → expr.Written
  | _, _, .group _ hinside _ => hinside.written
  | _, _, .ident _ => trivial
  | _, _, .reference _ _ _ => trivial
  | _, _, .anchor _ => trivial

end

/-- Each name is that of an identifier among some tokens. -/
def IdentifiedIn (ts : List Token) (names : List Name) : Prop :=
  ∀ name ∈ names, ∃ token ∈ ts, token.kind = .id ∧ name = ⟨token.text, token.span⟩

theorem IdentifiedIn.mono {ts ts' : List Token} {names : List Name} (h : IdentifiedIn ts names)
    (hsubset : ∀ token ∈ ts, token ∈ ts') : IdentifiedIn ts' names := by
  intro name hname
  obtain ⟨token, htoken, heq⟩ := h name hname
  exact ⟨token, hsubset token htoken, heq⟩

theorem IdentifiedIn.joined (wrap : List Regex → Regex)
    (hwrap : ∀ operands, (wrap operands).names = Regex.namesOf operands) {ts ts' : List Token}
    {first : Regex} {rest : List Regex} (hfirst : IdentifiedIn ts first.names)
    (hrest : IdentifiedIn ts' (Regex.namesOf rest)) :
    IdentifiedIn (ts ++ ts') (Regex.joined wrap first rest).names := by
  intro name hname
  rcases Regex.mem_names_joined wrap hwrap hname with h | h
  · exact hfirst.mono (fun _ => List.mem_append_left ts') name h
  · exact hrest.mono (fun _ => List.mem_append_right ts) name h

theorem IdentifiedIn.cons {ts ts' : List Token} {operand : Regex} {rest : List Regex}
    (hoperand : IdentifiedIn ts operand.names) (hrest : IdentifiedIn ts' (Regex.namesOf rest)) :
    IdentifiedIn (ts ++ ts') (Regex.namesOf (operand :: rest)) := by
  intro name hname
  have hcases : name ∈ operand.names ∨ name ∈ Regex.namesOf rest := by
    simp only [Regex.namesOf, Regex.names, Regex.literalsOf, Regex.refsOf,
      List.mem_append] at hname ⊢
    grind
  rcases hcases with h | h
  · exact hoperand.mono (fun _ => List.mem_append_left ts') name h
  · exact hrest.mono (fun _ => List.mem_append_right ts) name h

mutual

/-- The names of what is derived are those of identifiers among the tokens. -/
theorem DerivesUnion.identifiedIn : ∀ {ts : List Token} {expr : Regex},
    DerivesUnion ts expr → IdentifiedIn ts expr.names
  | _, _, .union hfirst hrest =>
    IdentifiedIn.joined .alt (fun _ => rfl) hfirst.identifiedIn hrest.identifiedIn

theorem DerivesBranches.identifiedIn : ∀ {ts : List Token} {rest : List Regex},
    DerivesBranches ts rest → IdentifiedIn ts (Regex.namesOf rest)
  | _, _, .nil => fun _ hname => nomatch hname
  | _, _, .cons _ hoperand hrest =>
    (IdentifiedIn.cons hoperand.identifiedIn hrest.identifiedIn).mono
      fun _ => List.mem_cons_of_mem _

theorem DerivesConcat.identifiedIn : ∀ {ts : List Token} {expr : Regex},
    DerivesConcat ts expr → IdentifiedIn ts expr.names
  | _, _, .concat hfirst hrest =>
    IdentifiedIn.joined .concat (fun _ => rfl) hfirst.identifiedIn hrest.identifiedIn

theorem DerivesFactors.identifiedIn : ∀ {ts : List Token} {rest : List Regex},
    DerivesFactors ts rest → IdentifiedIn ts (Regex.namesOf rest)
  | _, _, .nil => fun _ hname => nomatch hname
  | _, _, .cons hoperand hrest => IdentifiedIn.cons hoperand.identifiedIn hrest.identifiedIn

theorem DerivesModified.identifiedIn : ∀ {ts : List Token} {expr : Regex},
    DerivesModified ts expr → IdentifiedIn ts expr.names
  | _, _, .modified hoperand _ => by
    rw [Regex.names_foldl]
    exact hoperand.identifiedIn.mono fun _ => List.mem_append_left _

theorem DerivesAtomic.identifiedIn : ∀ {ts : List Token} {expr : Regex},
    DerivesAtomic ts expr → IdentifiedIn ts expr.names
  | _, _, .group _ hinside _ =>
    hinside.identifiedIn.mono fun _ h => List.mem_cons_of_mem _ (List.mem_append_left _ h)
  | _, _, .ident hkind => fun _ hname =>
    ⟨_, List.mem_singleton_self _, hkind, List.mem_singleton.1 hname⟩
  | _, _, .reference _ hkind _ => fun _ hname =>
    ⟨_, List.mem_cons_of_mem _ List.mem_cons_self, hkind, List.mem_singleton.1 hname⟩
  | _, _, .anchor _ => fun _ hname => nomatch hname

end

/-- Each name is the text of a token, with its span. -/
def SpelledIn (ts : List Token) (names : List Name) : Prop :=
  ∀ name ∈ names, ∃ token ∈ ts, name = ⟨token.text, token.span⟩

theorem DerivesUnion.spelledIn {ts : List Token} {expr : Regex} (h : DerivesUnion ts expr) :
    SpelledIn ts expr.names := by
  intro name hname
  obtain ⟨token, htoken, -, heq⟩ := h.identifiedIn name hname
  exact ⟨token, htoken, heq⟩

/-! ### Tokens of derivations -/

/-- Is no token garbage? -/
def NoGarbage (ts : List Token) : Prop := ∀ token ∈ ts, token.kind ≠ .garbage

theorem NoGarbage.append {ts ts' : List Token} (h : NoGarbage ts) (h' : NoGarbage ts') :
    NoGarbage (ts ++ ts') := List.forall_mem_append.2 ⟨h, h'⟩

theorem NoGarbage.cons {token : Token} {ts : List Token} {kind : SyntaxKind}
    (h : token.kind = kind) (hkind : kind ≠ .garbage) (hts : NoGarbage ts) :
    NoGarbage (token :: ts) := List.forall_mem_cons.2 ⟨h ▸ hkind, hts⟩

theorem noGarbage_nil : NoGarbage [] := fun _ h => nomatch h

mutual

/-- The grammar has no place for garbage. -/
theorem DerivesUnion.noGarbage : ∀ {ts : List Token} {expr : Regex},
    DerivesUnion ts expr → NoGarbage ts
  | _, _, .union hfirst hrest => hfirst.noGarbage.append hrest.noGarbage

theorem DerivesBranches.noGarbage : ∀ {ts : List Token} {rest : List Regex},
    DerivesBranches ts rest → NoGarbage ts
  | _, _, .nil => noGarbage_nil
  | _, _, .cons hbar hoperand hrest =>
    .cons hbar (by decide) (hoperand.noGarbage.append hrest.noGarbage)

theorem DerivesConcat.noGarbage : ∀ {ts : List Token} {expr : Regex},
    DerivesConcat ts expr → NoGarbage ts
  | _, _, .concat hfirst hrest => hfirst.noGarbage.append hrest.noGarbage

theorem DerivesFactors.noGarbage : ∀ {ts : List Token} {rest : List Regex},
    DerivesFactors ts rest → NoGarbage ts
  | _, _, .nil => noGarbage_nil
  | _, _, .cons hoperand hrest => hoperand.noGarbage.append hrest.noGarbage

theorem DerivesModified.noGarbage : ∀ {ts : List Token} {expr : Regex},
    DerivesModified ts expr → NoGarbage ts
  | _, _, .modified hoperand hmarks => by
    refine hoperand.noGarbage.append fun token htoken => ?_
    obtain ⟨mark, hmark, rfl⟩ := List.mem_map.1 htoken
    rw [hmarks mark hmark]
    cases mark.2 <;> decide

theorem DerivesAtomic.noGarbage : ∀ {ts : List Token} {expr : Regex},
    DerivesAtomic ts expr → NoGarbage ts
  | _, _, .group hopening hinside hclosing =>
    .cons hopening (by decide)
      (hinside.noGarbage.append (.cons hclosing (by decide) noGarbage_nil))
  | _, _, .ident hname => .cons hname (by decide) noGarbage_nil
  | _, _, .reference hopening hname hclosing =>
    .cons hopening (by decide) (.cons hname (by decide) (.cons hclosing (by decide) noGarbage_nil))
  | _, _, .anchor (a := a) hmark => .cons hmark (by cases a <;> decide) noGarbage_nil

end

end CallChain
