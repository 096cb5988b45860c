import CallChain.Proofs.Grammar.Complete
import CallChain.Proofs.Grammar.Finishes
import CallChain.Proofs.Grammar.Lockstep

/-!
# The least limit

With a higher limit more texts have a tree, and the trees and reports that there were stay as they
are (`parse_of_le`).

How much room a text needs is seen from its atoms: a level for each group around an atom and for
each quantifier behind it, and one for the atom itself if it is a group (`Atom.HasRoom`).
Quantifiers behind a group do not add to the levels inside of it, as they are read when the group is
closed.

* `AtomsUnion`: the grammar once more, with the atoms of a text.
* `settles_union`: the reader stops exactly where an atom has no room.
* `parse_room`: the least limit of a text.
-/

namespace CallChain

/-! ### Atoms of a text -/

/-- An atomic expression by the groups around it and the quantifiers directly behind it. -/
structure Atom where
  around : Nat
  marks : Nat
  isGroup : Bool
deriving DecidableEq, Repr

namespace Atom

/-- The same atom inside of a group. -/
def deepen (a : Atom) : Atom := { a with around := a.around + 1 }

/-- Is there a level for each group around an atom and for each quantifier behind it, and for the
atom itself if it is a group? -/
def HasRoom (room : Nat) (a : Atom) : Prop :=
  a.around + a.marks ≤ room ∧ (a.isGroup = true → a.around + 1 ≤ room)

theorem hasRoom_deepen {room : Nat} {a : Atom} : a.deepen.HasRoom (room + 1) ↔ a.HasRoom room := by
  simp only [HasRoom, deepen]
  constructor
  all_goals
    rintro ⟨hmarks, hgroup⟩
    exact ⟨by omega, fun h => by have := hgroup h; omega⟩

end Atom

/-- All atoms have room. -/
def AllHaveRoom (room : Nat) (atoms : List Atom) : Prop := ∀ a ∈ atoms, a.HasRoom room

theorem allHaveRoom_append {room : Nat} {atoms atoms' : List Atom} :
    AllHaveRoom room (atoms ++ atoms') ↔ AllHaveRoom room atoms ∧ AllHaveRoom room atoms' :=
  List.forall_mem_append

theorem allHaveRoom_deepen {room : Nat} {atoms : List Atom} :
    AllHaveRoom (room + 1) (atoms.map Atom.deepen) ↔ AllHaveRoom room atoms := by
  rw [AllHaveRoom, List.forall_mem_map]
  exact forall₂_congr fun _ _ => Atom.hasRoom_deepen

mutual

/-- The atoms of a derived text, from left to right, each group before what is inside of it. -/
inductive AtomsUnion : List Token → List Atom → Prop where
  | union {ts ts' : List Token} {first rest : List Atom} (hfirst : AtomsConcat ts first)
      (hrest : AtomsBranches ts' rest) : AtomsUnion (ts ++ ts') (first ++ rest)

inductive AtomsBranches : List Token → List Atom → Prop where
  | nil : AtomsBranches [] []
  | cons {bar : Token} {ts ts' : List Token} {operand rest : List Atom} (hbar : bar.kind = .pipe)
      (hoperand : AtomsConcat ts operand) (hrest : AtomsBranches ts' rest) :
      AtomsBranches (bar :: (ts ++ ts')) (operand ++ rest)

inductive AtomsConcat : List Token → List Atom → Prop where
  | concat {ts ts' : List Token} {first rest : List Atom} (hfirst : AtomsModified ts first)
      (hrest : AtomsFactors ts' rest) : AtomsConcat (ts ++ ts') (first ++ rest)

inductive AtomsFactors : List Token → List Atom → Prop where
  | nil : AtomsFactors [] []
  | cons {ts ts' : List Token} {operand rest : List Atom} (hoperand : AtomsModified ts operand)
      (hrest : AtomsFactors ts' rest) : AtomsFactors (ts ++ ts') (operand ++ rest)

/-- An atom with the quantifiers behind it. -/
inductive AtomsModified : List Token → List Atom → Prop where
  | modified {ts : List Token} {marks : List (Token × Quantifier)} {isGroup : Bool}
      {inside : List Atom} (hoperand : AtomsInside ts isGroup inside)
      (hmarks : ∀ mark ∈ marks, mark.1.kind = mark.2.tokenKind) :
      AtomsModified (ts ++ marks.map (·.1)) (⟨0, marks.length, isGroup⟩ :: inside)

/-- The atoms inside of an atom, which has some only if it is a group. -/
inductive AtomsInside : List Token → Bool → List Atom → Prop where
  | group {opening closing : Token} {ts : List Token} {atoms : List Atom}
      (hopening : opening.kind = .parenOpen) (hinside : AtomsUnion ts atoms)
      (hclosing : closing.kind = .parenClose) :
      AtomsInside (opening :: (ts ++ [closing])) true (atoms.map Atom.deepen)
  | ident {name : Token} (hname : name.kind = .id) : AtomsInside [name] false []
  | reference {opening name closing : Token} (hopening : opening.kind = .angleOpen)
      (hname : name.kind = .id) (hclosing : closing.kind = .angleClose) :
      AtomsInside [opening, name, closing] false []
  | anchor {mark : Token} {a : Anchor} (hmark : mark.kind = a.tokenKind) :
      AtomsInside [mark] false []

end

mutual

/-- Every text that is derived from a regex has atoms. -/
theorem DerivesUnion.exists_atoms : ∀ {ts : List Token} {expr : Regex},
    DerivesUnion ts expr → ∃ atoms, AtomsUnion ts atoms
  | _, _, .union hfirst hrest =>
    have ⟨_, hfirst⟩ := hfirst.exists_atoms
    have ⟨_, hrest⟩ := hrest.exists_atoms
    ⟨_, .union hfirst hrest⟩

theorem DerivesBranches.exists_atoms : ∀ {ts : List Token} {exprs : List Regex},
    DerivesBranches ts exprs → ∃ atoms, AtomsBranches ts atoms
  | _, _, .nil => ⟨_, .nil⟩
  | _, _, .cons hbar hoperand hrest =>
    have ⟨_, hoperand⟩ := hoperand.exists_atoms
    have ⟨_, hrest⟩ := hrest.exists_atoms
    ⟨_, .cons hbar hoperand hrest⟩

theorem DerivesConcat.exists_atoms : ∀ {ts : List Token} {expr : Regex},
    DerivesConcat ts expr → ∃ atoms, AtomsConcat ts atoms
  | _, _, .concat hfirst hrest =>
    have ⟨_, hfirst⟩ := hfirst.exists_atoms
    have ⟨_, hrest⟩ := hrest.exists_atoms
    ⟨_, .concat hfirst hrest⟩

theorem DerivesFactors.exists_atoms : ∀ {ts : List Token} {exprs : List Regex},
    DerivesFactors ts exprs → ∃ atoms, AtomsFactors ts atoms
  | _, _, .nil => ⟨_, .nil⟩
  | _, _, .cons hoperand hrest =>
    have ⟨_, hoperand⟩ := hoperand.exists_atoms
    have ⟨_, hrest⟩ := hrest.exists_atoms
    ⟨_, .cons hoperand hrest⟩

theorem DerivesModified.exists_atoms : ∀ {ts : List Token} {expr : Regex},
    DerivesModified ts expr → ∃ atoms, AtomsModified ts atoms
  | _, _, .modified hoperand hmarks =>
    have ⟨_, _, hoperand⟩ := hoperand.exists_atoms
    ⟨_, .modified hoperand hmarks⟩

theorem DerivesAtomic.exists_atoms : ∀ {ts : List Token} {expr : Regex},
    DerivesAtomic ts expr → ∃ isGroup inside, AtomsInside ts isGroup inside
  | _, _, .group hopening hinside hclosing =>
    have ⟨_, hinside⟩ := hinside.exists_atoms
    ⟨_, _, .group hopening hinside hclosing⟩
  | _, _, .ident hname => ⟨_, _, .ident hname⟩
  | _, _, .reference hopening hname hclosing => ⟨_, _, .reference hopening hname hclosing⟩
  | _, _, .anchor hmark => ⟨_, _, .anchor hmark⟩

end

mutual

/-- Only derived texts have atoms. -/
theorem AtomsUnion.exists_derives : ∀ {ts : List Token} {atoms : List Atom},
    AtomsUnion ts atoms → ∃ expr, DerivesUnion ts expr
  | _, _, .union hfirst hrest =>
    have ⟨_, hfirst⟩ := hfirst.exists_derives
    have ⟨_, hrest⟩ := hrest.exists_derives
    ⟨_, .union hfirst hrest⟩

theorem AtomsBranches.exists_derives : ∀ {ts : List Token} {atoms : List Atom},
    AtomsBranches ts atoms → ∃ exprs, DerivesBranches ts exprs
  | _, _, .nil => ⟨_, .nil⟩
  | _, _, .cons hbar hoperand hrest =>
    have ⟨_, hoperand⟩ := hoperand.exists_derives
    have ⟨_, hrest⟩ := hrest.exists_derives
    ⟨_, .cons hbar hoperand hrest⟩

theorem AtomsConcat.exists_derives : ∀ {ts : List Token} {atoms : List Atom},
    AtomsConcat ts atoms → ∃ expr, DerivesConcat ts expr
  | _, _, .concat hfirst hrest =>
    have ⟨_, hfirst⟩ := hfirst.exists_derives
    have ⟨_, hrest⟩ := hrest.exists_derives
    ⟨_, .concat hfirst hrest⟩

theorem AtomsFactors.exists_derives : ∀ {ts : List Token} {atoms : List Atom},
    AtomsFactors ts atoms → ∃ exprs, DerivesFactors ts exprs
  | _, _, .nil => ⟨_, .nil⟩
  | _, _, .cons hoperand hrest =>
    have ⟨_, hoperand⟩ := hoperand.exists_derives
    have ⟨_, hrest⟩ := hrest.exists_derives
    ⟨_, .cons hoperand hrest⟩

theorem AtomsModified.exists_derives : ∀ {ts : List Token} {atoms : List Atom},
    AtomsModified ts atoms → ∃ expr, DerivesModified ts expr
  | _, _, .modified hoperand hmarks =>
    have ⟨_, hoperand⟩ := hoperand.exists_derives
    ⟨_, .modified hoperand hmarks⟩

theorem AtomsInside.exists_derives : ∀ {ts : List Token} {isGroup : Bool} {inside : List Atom},
    AtomsInside ts isGroup inside → ∃ expr, DerivesAtomic ts expr
  | _, _, _, .group hopening hinside hclosing =>
    have ⟨_, hinside⟩ := hinside.exists_derives
    ⟨_, .group hopening hinside hclosing⟩
  | _, _, _, .ident hname => ⟨_, .ident hname⟩
  | _, _, _, .reference hopening hname hclosing => ⟨_, .reference hopening hname hclosing⟩
  | _, _, _, .anchor hmark => ⟨_, .anchor hmark⟩

end

namespace Parser

open ParseState KindSet

variable {α β : Type} {input : Input} {c d : Prop} {m : Parser α} {g : α → Parser β}
  {s : ParseState} {room fuel : Nat} {ts rest : List Token} {atoms : List Atom}

/-! ### Steps that need no room -/

/-- A step that never stops at the limit. -/
def Roomless (m : Parser α) : Prop := ∀ s, m s ≠ .error .nestingLimit

theorem Roomless.bind (hm : Roomless m) (hg : ∀ a, Roomless (g a)) : Roomless (m >>= g) := by
  intro s
  cases hstep : m s with
  | ok p =>
    rw [bind_of_reads hstep]
    exact hg p.1 p.2
  | error halt =>
    rw [bind_of_error hstep]
    rintro ⟨⟩
    exact hm s hstep

theorem roomless_pure {a : α} : Roomless (pure a : Parser α) := fun _ => nofun

theorem roomless_get : Roomless (get : Parser ParseState) := fun _ => nofun

theorem roomless_look : Roomless look := by
  intro s
  unfold look
  split
  · nofun
  · split <;> nofun

theorem roomless_nextIs {kind : SyntaxKind} : Roomless (nextIs kind) :=
  roomless_look.bind fun _ => roomless_pure

theorem roomless_nextIn {kinds : KindSet} : Roomless (nextIn kinds) :=
  roomless_look.bind fun _ => roomless_pure

theorem roomless_atEnd : Roomless atEnd := roomless_get.bind fun _ => roomless_pure

theorem roomless_nextSpan : Roomless (nextSpan input) := roomless_get.bind fun _ => roomless_pure

theorem roomless_refill : Roomless refill := fun _ => nofun

theorem roomless_flush : Roomless flush := fun _ => nofun

theorem roomless_bump : Roomless bump := by
  intro s
  unfold bump
  split <;> nofun

theorem roomless_eat? {kind : SyntaxKind} : Roomless (eat? kind) := by
  refine roomless_nextIs.bind fun b => ?_
  split
  · exact roomless_bump.bind fun _ => roomless_pure
  · exact roomless_pure

theorem roomless_report {kind : DiagnosticKind} {related : List Related} :
    Roomless (report input kind related) := roomless_nextSpan.bind fun _ _ => nofun

theorem roomless_reportIf {p : Prop} [Decidable p] {kind : DiagnosticKind}
    {related : List Related} {k : Unit → Parser α} (hk : Roomless (k ())) :
    Roomless (if p then report input kind related >>= k else k ()) := by
  split
  · exact roomless_report.bind fun _ => hk
  · exact hk

theorem roomless_leaf {kind : SyntaxKind} : Roomless (leaf kind) :=
  roomless_bump.bind fun _ => roomless_pure

theorem roomless_reference : Roomless (reference input) := by
  refine roomless_nextSpan.bind fun _ => ?_
  refine roomless_bump.bind fun _ => ?_
  refine roomless_eat?.bind fun _ => roomless_reportIf ?_
  exact roomless_eat?.bind fun _ => roomless_reportIf roomless_pure

/-! ### Stopping at the limit -/

/-- A step stops at the limit exactly if a condition fails. -/
def Settles (c : Prop) (m : Parser α) (s : ParseState) : Prop :=
  match m s with
  | .ok _ => c
  | .error .nestingLimit => ¬c
  | .error (.fault _) => True

theorem Settles.congr (h : Settles c m s) (hiff : c ↔ d) : Settles d m s := by
  rwa [← propext hiff]

theorem Roomless.settles (h : Roomless m) (hc : c) : Settles c m s := by
  unfold Settles
  split
  next => exact hc
  next hlimit => exact absurd hlimit (h s)
  next => trivial

theorem Settles.bind (hm : Settles c m s)
    (hg : ∀ a s', Reads m s a s' → Settles d (g a) s') : Settles (c ∧ d) (m >>= g) s := by
  unfold Settles at hm
  cases hstep : m s with
  | error halt =>
    rw [hstep] at hm
    unfold Settles
    rw [bind_of_error hstep]
    cases halt with
    | nestingLimit => exact fun h => hm h.1
    | fault => trivial
  | ok p =>
    rw [hstep] at hm
    have hc : c := hm
    have hnext := (hg p.1 p.2 hstep).congr (and_iff_right hc).symm
    unfold Settles at hnext ⊢
    rwa [bind_of_reads hstep]

/-- What comes after a step that needs no room. -/
theorem Roomless.before (hm : Roomless m)
    (hg : ∀ a s', Reads m s a s' → Settles d (g a) s') : Settles d (m >>= g) s :=
  ((hm.settles trivial).bind hg).congr (iff_of_eq (true_and d))

/-- Afterwards no more room is needed. -/
theorem Settles.after (hm : Settles c m s) (hg : ∀ a, Roomless (g a)) : Settles c (m >>= g) s :=
  (hm.bind fun a _ _ => (hg a).settles trivial).congr (iff_of_eq (and_true c))

/-! ### Quantifiers -/

/-- A level is spent on each quantifier. -/
theorem settles_quantified {marks : List (Token × Quantifier)} {operand : Forest}
    (hready : s.Ready (marks.map (·.1) ++ rest))
    (hmarks : ∀ mark ∈ marks, mark.1.kind = mark.2.tokenKind)
    (hstop : Stops quantifiers.contains rest) :
    Settles (marks.length ≤ room) (quantified room operand) s := by
  induction marks generalizing operand room s with
  | nil =>
    rw [quantified_eq]
    refine roomless_nextIn.before fun b s₁ hnext => ?_
    obtain ⟨rfl, -⟩ := reads_nextIn hnext
    rw [Ready.any_eq_false hready hstop, if_neg Bool.false_ne_true]
    exact roomless_pure.settles (Nat.zero_le room)
  | cons mark marks ih =>
    rw [List.forall_mem_cons] at hmarks
    have hfound : quantifiers.contains mark.1.kind = true :=
      hmarks.1 ▸ contains_quantifier mark.2
    have hready : s.Ready (mark.1 :: (marks.map (·.1) ++ rest)) := hready
    rw [quantified_eq]
    refine roomless_nextIn.before fun b s₁ hnext => ?_
    obtain ⟨rfl, htakes⟩ := reads_nextIn hnext
    rw [hready.next_eq, Option.any_some, if_pos hfound]
    cases room with
    | zero => exact Nat.not_succ_le_zero _
    | succ room =>
      refine roomless_refill.before fun _ s₂ hrefill => ?_
      refine roomless_bump.before fun taken s₃ hbump => ?_
      obtain ⟨token, htakes₃, -⟩ := reads_bump hbump
      have hready₂ := (hready.pass htakes).pass (reads_refill hrefill)
      obtain ⟨-, hready₃⟩ := ready_of_takes htakes₃ hready₂
      refine ((ih hready₃ hmarks.2).after fun _ => ?_).congr Nat.succ_le_succ_iff.symm
      exact roomless_refill.bind fun _ => roomless_pure

/-! ### Groups -/

/-- A level is spent on a group before it is opened. -/
theorem settles_group {opening closing : Token} {inside : List Atom}
    (hready : s.Ready (opening :: (ts ++ closing :: rest))) (hstarts : StartsAtom ts)
    (hinside : ∀ room s, s.Ready (ts ++ closing :: rest) →
      Settles (AllHaveRoom room inside) (union input room (insideOf input room)) s) :
    Settles (1 ≤ room ∧ AllHaveRoom room (inside.map Atom.deepen))
      (group input (insideOf input room)) s := by
  cases room with
  | zero => exact fun h => absurd h.1 (Nat.not_succ_le_zero 0)
  | succ room =>
    refine Settles.congr (c := AllHaveRoom room inside) ?_ ?_
    · refine roomless_refill.before fun _ s₁ hrefill => ?_
      refine roomless_nextSpan.before fun span s₂ hspan => ?_
      refine roomless_bump.before fun bracket s₃ hbump => ?_
      obtain ⟨token, htakes, -⟩ := reads_bump hbump
      have hready₂ := (hready.pass (reads_refill hrefill)).pass (reads_nextSpan hspan)
      obtain ⟨-, hready₃⟩ := ready_of_takes htakes hready₂
      refine roomless_nextIs.before fun closed s₄ hclosed => ?_
      obtain ⟨rfl, htakes₄⟩ := reads_nextIs hclosed
      refine roomless_atEnd.before fun ended s₅ hended => ?_
      obtain ⟨rfl, htakes₅⟩ := reads_atEnd hended
      have hready₅ := (hready₃.pass htakes₄).pass htakes₅
      -- the inside begins with an atom, so the group is neither empty nor the end of the text
      obtain ⟨first, more, rfl, hkind⟩ := hstarts
      have hopen : ¬ s₃.next = some .parenClose := by
        rw [hready₃.next_eq]
        intro heq
        rw [Option.some.inj heq] at hkind
        cases hkind
      have hmore : s₄.words.isEmpty = false := by rw [(hready₃.pass htakes₄).words_eq]; rfl
      rw [decide_eq_false hopen, hmore, if_neg Bool.false_ne_true, if_neg Bool.false_ne_true]
      have hread := hinside room s₅ hready₅
      rw [← regex_eq] at hread
      refine hread.after fun body => roomless_eat?.bind fun _ => roomless_reportIf ?_
      exact roomless_refill.bind fun _ => roomless_pure
    · rw [allHaveRoom_deepen]
      exact (and_iff_right (Nat.succ_le_succ (Nat.zero_le room))).symm

/-! ### Following a derivation -/

theorem settles_stuck : Settles c
    (do throw (.fault (.stuckParser (← (MonadState.get : Parser ParseState)).taken)) : Parser α)
    s := trivial

mutual

/-- Where derived tokens lie ahead, reading stops exactly if an atom has no room. -/
theorem settles_union : ∀ {ts : List Token} {atoms : List Atom}, AtomsUnion ts atoms →
    ∀ {room : Nat} {s : ParseState} {rest : List Token}, s.Ready (ts ++ rest) →
    Stops continuesUnion rest →
    Settles (AllHaveRoom room atoms) (union input room (insideOf input room)) s
  | _, _, .union hfirst hmore => by
    intro hready hstop
    rw [List.append_assoc] at hready
    obtain ⟨expr, hderives⟩ := hfirst.exists_derives
    obtain ⟨exprs, hbranches⟩ := hmore.exists_derives
    have hstop' := stops_branches hbranches hstop
    refine roomless_flush.before fun before s₁ hflush => ?_
    have hready₁ := hready.pass (reads_flush hflush).2
    refine Settles.congr ?_ allHaveRoom_append.symm
    refine (settles_concat hfirst hready₁ hstop').bind fun first s₂ hread => ?_
    obtain ⟨hready₂, -⟩ := means_concat hderives hread hready₁ hstop'
    refine roomless_nextIs.before fun b s₃ hnext => ?_
    obtain ⟨rfl, htakes⟩ := reads_nextIs hnext
    by_cases hbar : s₂.next = some .pipe
    · rw [decide_eq_true hbar, if_pos rfl]
      refine roomless_get.before fun t s₄ hget => ?_
      obtain ⟨rfl, rfl⟩ := reads_get.1 hget
      exact (settles_branches hmore _ (hready₂.pass htakes) hstop).after fun _ => roomless_pure
    · rw [decide_eq_false hbar, if_neg Bool.false_ne_true]
      cases hmore with
      | nil => exact roomless_pure.settles fun _ ha => nomatch ha
      | cons hkind => exact absurd (hready₂.next_eq.trans (congrArg some hkind)) hbar

theorem settles_branches : ∀ {ts : List Token} {atoms : List Atom}, AtomsBranches ts atoms →
    ∀ (fuel : Nat) {room : Nat} {s : ParseState} {rest : List Token}, s.Ready (ts ++ rest) →
    Stops continuesUnion rest →
    Settles (AllHaveRoom room atoms) (branches input room (insideOf input room) fuel) s
  | _, _, .nil => by
    intro fuel room s rest hready hstop
    have hready : s.Ready ([] ++ rest) := hready
    unfold branches
    refine roomless_eat?.before fun o s₁ heat => ?_
    rcases reads_eat? heat with ⟨bar, token, rfl, hkind, htakes, -⟩ | ⟨rfl, -, -⟩
    · exact absurd (htakes.next_eq_some.trans (congrArg some hkind))
        (Ready.next_ne_pipe hready hstop)
    · exact roomless_pure.settles fun _ ha => nomatch ha
  | _, _, .cons hbar hoperand hmore => by
    intro fuel room s rest hready hstop
    rw [List.cons_append, List.append_assoc] at hready
    obtain ⟨expr, hderives⟩ := hoperand.exists_derives
    obtain ⟨exprs, hbranches⟩ := hmore.exists_derives
    have hstop' := stops_branches hbranches hstop
    unfold branches
    refine roomless_eat?.before fun o s₁ heat => ?_
    obtain ⟨hready₁, bar, rfl, -⟩ := ready_of_eat? heat hready hbar
    cases fuel with
    | zero => exact settles_stuck
    | succ fuel =>
      refine Settles.congr ?_ allHaveRoom_append.symm
      refine (settles_concat hoperand hready₁ hstop').bind fun operand s₂ hread => ?_
      obtain ⟨hready₂, -⟩ := means_concat hderives hread hready₁ hstop'
      exact (settles_branches hmore fuel hready₂ hstop).after fun _ => roomless_pure

theorem settles_concat : ∀ {ts : List Token} {atoms : List Atom}, AtomsConcat ts atoms →
    ∀ {room : Nat} {s : ParseState} {rest : List Token}, s.Ready (ts ++ rest) →
    Stops continuesConcat rest →
    Settles (AllHaveRoom room atoms) (concat input room (insideOf input room)) s
  | _, _, .concat hfirst hmore => by
    intro hready hstop
    rw [List.append_assoc] at hready
    obtain ⟨expr, hderives⟩ := hfirst.exists_derives
    obtain ⟨exprs, hfactors⟩ := hmore.exists_derives
    have hstop' := stops_factors hfactors hstop
    refine roomless_nextIn.before fun b s₁ hnext => ?_
    obtain ⟨rfl, htakes⟩ := reads_nextIn hnext
    rw [Ready.startsAtom hready (hderives.startsAtom.append _), if_pos rfl]
    refine roomless_flush.before fun before s₂ hflush => ?_
    have hready₂ := (hready.pass htakes).pass (reads_flush hflush).2
    refine Settles.congr ?_ allHaveRoom_append.symm
    refine (settles_modified hfirst hready₂ hstop').bind fun first s₃ hread => ?_
    obtain ⟨hready₃, -⟩ := means_modified hderives hread hready₂ hstop'
    refine roomless_nextIn.before fun b s₄ hnext => ?_
    obtain ⟨rfl, htakes₄⟩ := reads_nextIn hnext
    split
    · refine roomless_get.before fun t s₅ hget => ?_
      obtain ⟨rfl, rfl⟩ := reads_get.1 hget
      exact (settles_factors hmore _ (hready₃.pass htakes₄) hstop).after fun _ => roomless_pure
    next hlast =>
      cases hmore with
      | nil => exact roomless_pure.settles fun _ ha => nomatch ha
      | cons hoperand =>
        obtain ⟨expr', hoperand'⟩ := hoperand.exists_derives
        exact absurd (Ready.startsAtom hready₃ ((hoperand'.startsAtom.append _).append _)) hlast

theorem settles_factors : ∀ {ts : List Token} {atoms : List Atom}, AtomsFactors ts atoms →
    ∀ (fuel : Nat) {room : Nat} {s : ParseState} {rest : List Token}, s.Ready (ts ++ rest) →
    Stops continuesConcat rest →
    Settles (AllHaveRoom room atoms) (factors input room (insideOf input room) fuel) s
  | _, _, .nil => by
    intro fuel room s rest hready hstop
    have hready : s.Ready ([] ++ rest) := hready
    unfold factors
    refine roomless_nextIn.before fun b s₁ hnext => ?_
    obtain ⟨rfl, htakes⟩ := reads_nextIn hnext
    rw [Ready.any_eq_false hready hstop.atomFirst, if_neg Bool.false_ne_true]
    exact roomless_pure.settles fun _ ha => nomatch ha
  | _, _, .cons hoperand hmore => by
    intro fuel room s rest hready hstop
    rw [List.append_assoc] at hready
    obtain ⟨expr, hderives⟩ := hoperand.exists_derives
    obtain ⟨exprs, hfactors⟩ := hmore.exists_derives
    have hstop' := stops_factors hfactors hstop
    unfold factors
    refine roomless_nextIn.before fun b s₁ hnext => ?_
    obtain ⟨rfl, htakes⟩ := reads_nextIn hnext
    rw [Ready.startsAtom hready (hderives.startsAtom.append _), if_pos rfl]
    have hready₁ := hready.pass htakes
    cases fuel with
    | zero => exact settles_stuck
    | succ fuel =>
      refine Settles.congr ?_ allHaveRoom_append.symm
      refine (settles_modified hoperand hready₁ hstop').bind fun operand s₂ hread => ?_
      obtain ⟨hready₂, -⟩ := means_modified hderives hread hready₁ hstop'
      exact (settles_factors hmore fuel hready₂ hstop).after fun _ => roomless_pure

theorem settles_modified : ∀ {ts : List Token} {atoms : List Atom}, AtomsModified ts atoms →
    ∀ {room : Nat} {s : ParseState} {rest : List Token}, s.Ready (ts ++ rest) →
    Stops quantifiers.contains rest →
    Settles (AllHaveRoom room atoms) (modified input room (insideOf input room)) s
  | _, _, @AtomsModified.modified _ marks isGroup inside hoperand hmarks => by
    intro hready hstop
    rw [List.append_assoc] at hready
    obtain ⟨expr, hderives⟩ := hoperand.exists_derives
    refine roomless_flush.before fun before s₁ hflush => ?_
    have hready₁ := hready.pass (reads_flush hflush).2
    have hall (room : Nat) :
        ((isGroup = true → 1 ≤ room) ∧ AllHaveRoom room inside) ∧ marks.length ≤ room ↔
          AllHaveRoom room (⟨0, marks.length, isGroup⟩ :: inside) := by
      rw [AllHaveRoom, AllHaveRoom, List.forall_mem_cons, Atom.HasRoom, Nat.zero_add, Nat.zero_add]
      tauto
    refine Settles.congr ?_ (hall _)
    -- a group has left its level when its quantifiers are read, so these have all of the room
    refine (settles_atomic hoperand hready₁).bind fun operand s₂ hread => ?_
    obtain ⟨hready₂, -⟩ := means_atomic hderives hread hready₁
    exact (settles_quantified hready₂ hmarks hstop).after fun _ => roomless_pure

theorem settles_atomic : ∀ {ts : List Token} {isGroup : Bool} {inside : List Atom},
    AtomsInside ts isGroup inside →
    ∀ {room : Nat} {s : ParseState} {rest : List Token}, s.Ready (ts ++ rest) →
    Settles ((isGroup = true → 1 ≤ room) ∧ AllHaveRoom room inside)
      (atomic input (insideOf input room)) s
  | _, _, _, .group hopening hinside hclosing => by
    intro hready
    rw [List.cons_append, List.append_assoc] at hready
    obtain ⟨expr, hderives⟩ := hinside.exists_derives
    refine roomless_look.before fun next s₁ hlook => ?_
    obtain ⟨rfl, htakes⟩ := reads_look hlook
    rw [hready.next_eq, hopening]
    refine Settles.congr ?_ (and_congr_left' (forall_prop_of_true rfl).symm)
    refine settles_group (hready.pass htakes) hderives.startsAtom fun room s hready => ?_
    exact settles_union hinside hready (stops_cons (by rw [hclosing]; rfl))
  | _, _, _, .ident hname => by
    intro hready
    refine roomless_look.before fun next s₁ hlook => ?_
    obtain ⟨rfl, htakes⟩ := reads_look hlook
    rw [List.singleton_append] at hready
    rw [hready.next_eq, hname]
    exact roomless_leaf.settles ⟨nofun, fun _ ha => nomatch ha⟩
  | _, _, _, .reference hopening hname hclosing => by
    intro hready
    refine roomless_look.before fun next s₁ hlook => ?_
    obtain ⟨rfl, htakes⟩ := reads_look hlook
    rw [List.cons_append] at hready
    rw [hready.next_eq, hopening]
    exact roomless_reference.settles ⟨nofun, fun _ ha => nomatch ha⟩
  | _, _, _, .anchor (a := a) hmark => by
    intro hready
    refine roomless_look.before fun next s₁ hlook => ?_
    obtain ⟨rfl, htakes⟩ := reads_look hlook
    rw [List.singleton_append] at hready
    rw [hready.next_eq, hmark]
    cases a
    all_goals exact roomless_leaf.settles ⟨nofun, fun _ ha => nomatch ha⟩

end

/-- At the end of a text nothing is left to be set aside. -/
theorem settles_leftovers (hended : s.words = []) :
    Settles True (leftovers input room fuel) s := by
  unfold leftovers
  refine roomless_atEnd.before fun ended s₁ hatEnd => ?_
  obtain ⟨rfl, -⟩ := reads_atEnd hatEnd
  rw [hended, List.isEmpty_nil, if_pos rfl]
  exact roomless_pure.settles trivial

variable (input) in
/-- Reading a derived text stops exactly if an atom has no room. -/
theorem settles_root {limit : Nat} (hready : s.Ready ts) (hatoms : AtomsUnion ts atoms) :
    Settles (AllHaveRoom limit atoms) (root input limit) s := by
  obtain ⟨expr, hderives⟩ := hatoms.exists_derives
  refine roomless_atEnd.before fun ended s₁ hended => ?_
  obtain ⟨rfl, htakes⟩ := reads_atEnd hended
  have hmore : s.words.isEmpty = false := by
    obtain ⟨token, rest, rfl, -⟩ := hderives.startsAtom
    rw [hready.words_eq]
    rfl
  rw [hmore, if_neg Bool.false_ne_true]
  have hready₁ := hready.pass htakes
  rw [← List.append_nil ts] at hready₁
  have hread : Settles (AllHaveRoom limit atoms) (regex input limit) s₁ := by
    rw [regex_eq]
    exact settles_union hatoms hready₁ fun token htoken => nomatch htoken
  refine (hread.bind (d := True) fun first s₂ hfirst => ?_).congr (iff_of_eq (and_true _))
  rw [regex_eq] at hfirst
  obtain ⟨hready₂, -⟩ := means_union hderives hfirst hready₁ fun token htoken => nomatch htoken
  refine roomless_get.before fun t s₃ hget => ?_
  obtain ⟨rfl, rfl⟩ := reads_get.1 hget
  refine (settles_leftovers hready₂.words_eq).after fun others => roomless_pure.bind fun body => ?_
  exact roomless_flush.bind fun _ => roomless_pure

/-! ### More room -/

/-- One step twice, from one state. -/
theorem lockstep_eq (m : Parser α) : Lockstep c Eq m m Eq := by
  rintro s _ rfl
  cases m s with
  | ok r => exact .both rfl rfl
  | error h => exact .halted

/-- The runs on one text, the second one with more room. -/
def roomPairing (input : Input) : Pairing where
  ahead := True
  input
  input' := input
  states := Eq
  spans := Eq
  trees := Eq

variable (input) in
theorem twins_eq : Twins (roomPairing input) where
  length h := congrArg (·.ahead.length) h
  look := lockstep_eq look
  refill := (lockstep_eq refill).mono fun _ _ _ => trivial
  flush := lockstep_eq flush
  bump := lockstep_eq bump
  nextSpan := lockstep_eq (nextSpan input)
  report {kind related related'} h := by
    have hrelated : related = related' := by
      rw [← List.forall₂_eq_eq_eq]
      refine h.imp fun r r' hsame => ?_
      rw [Related.mk.injEq]
      exact hsame
    subst hrelated
    exact (lockstep_eq (report input kind related)).mono fun _ _ _ => trivial
  nil := rfl
  append hf hg := congrArg₂ (· ++ ·) hf hg
  node {kind f f'} hf := congrArg (fun children => [Tree.node kind children]) hf

end Parser

variable {text : String} {source : SourceId} {limit limit' : Nat} {p : Parsed}

/-- A higher limit changes nothing about a text that has a tree. -/
theorem parse_of_le (hle : limit ≤ limit') (h : parse text source limit = .ok p) :
    parse text source limit' = .ok p := by
  have hends := (Parser.twins_eq ⟨source, text.utf8ByteSize⟩).root (.inr ⟨trivial, hle⟩)
    (.ofTokens (tokens text)) _ rfl
  generalize hroot : Parser.root _ limit _ = ends at hends
  generalize hroot' : Parser.root _ limit' _ = ends' at hends
  cases hends with
  | @both tree tree' s s' htree hstate =>
    have htree : tree = tree' := List.singleton_inj.1 htree
    have hstate : s = s' := hstate
    rw [← h, parse_eq_ok_of_root hroot, parse_eq_ok_of_root hroot', htree, hstate]
  | halted | second =>
    rw [parse_eq_error_of_root hroot] at h
    cases h

/-- The least limit for a derived text, by its atoms. -/
theorem exists_parse_iff {atoms : List Atom} (hatoms : AtomsUnion (visible (tokens text)) atoms) :
    (∃ p, parse text source limit = .ok p) ↔ AllHaveRoom limit atoms := by
  have hsettles : Parser.Settles (AllHaveRoom limit atoms)
      (Parser.root ⟨source, text.utf8ByteSize⟩ limit) (.ofTokens (tokens text)) :=
    Parser.settles_root _ (ready_ofTokens (tokens text)) hatoms
  unfold Parser.Settles at hsettles
  rcases Parser.root_cases text source limit with ⟨tree, s, hroot⟩ | hroot
  · rw [hroot] at hsettles
    exact iff_of_true ⟨_, parse_eq_ok_of_root hroot⟩ hsettles
  · rw [hroot] at hsettles
    refine iff_of_false ?_ hsettles
    rintro ⟨p, hparse⟩
    rw [parse_eq_error_of_root hroot] at hparse
    cases hparse

/-- Raising the limit does not change a text that has a tree, and a text without a tree for a limit
has none for a lower one. A text that is derived from a regex has a tree exactly if each of its
atoms has room: the groups around it and the quantifiers directly behind it are no more than the
limit, and for a group the groups around it are less. -/
theorem parse_room (hle : limit ≤ limit') :
    (∀ p, parse text source limit = .ok p → parse text source limit' = .ok p) ∧
    (parse text source limit' = .error .nestingLimit →
      parse text source limit = .error .nestingLimit) ∧
    ((∃ atoms, AtomsUnion (visible (tokens text)) atoms) ↔
      ∃ expr, DerivesUnion (visible (tokens text)) expr) ∧
    ∀ atoms, AtomsUnion (visible (tokens text)) atoms →
      ((∃ p, parse text source limit = .ok p) ↔
        ∀ a ∈ atoms, a.around + a.marks ≤ limit ∧ (a.isGroup = true → a.around + 1 ≤ limit)) := by
  refine ⟨fun p hparse => parse_of_le hle hparse, fun hhalts => ?_, ?_, fun atoms hatoms => ?_⟩
  · refine (parse_cases text source limit).resolve_left ?_
    rintro ⟨p, hparse⟩
    rw [parse_of_le hle hparse] at hhalts
    cases hhalts
  · exact ⟨fun ⟨_, hatoms⟩ => hatoms.exists_derives, fun ⟨_, hderives⟩ => hderives.exists_atoms⟩
  · exact exists_parse_iff hatoms

/-- Two quantifiers behind a group need as much room as one behind an atom in it. -/
theorem parse_room_starredGroup : 2 ≤ 128 ∧ (∃ p, parse "(a b*)**" ⟨0⟩ 2 = .ok p) ∧
    ¬ ∃ p, parse "(a b*)**" ⟨0⟩ 1 = .ok p := by
  have hwords : visible (tokens "(a b*)**") =
      [⟨.parenOpen, 0, "("⟩, ⟨.id, 1, "a"⟩, ⟨.id, 3, "b"⟩, ⟨.star, 4, "*"⟩, ⟨.parenClose, 5, ")"⟩,
        ⟨.star, 6, "*"⟩, ⟨.star, 7, "*"⟩] := by
    decide +kernel
  have hatoms : AtomsUnion (visible (tokens "(a b*)**"))
      [⟨0, 2, true⟩, ⟨1, 0, false⟩, ⟨1, 1, false⟩] := by
    rw [hwords]
    have hone : AtomsModified [⟨.id, 1, "a"⟩] [⟨0, 0, false⟩] :=
      @AtomsModified.modified _ [] _ _ (.ident rfl) nofun
    have hstarred : AtomsModified [⟨.id, 3, "b"⟩, ⟨.star, 4, "*"⟩] [⟨0, 1, false⟩] :=
      @AtomsModified.modified _ [(⟨.star, 4, "*"⟩, .star)] _ _ (.ident rfl) (by simp; rfl)
    have hinside : AtomsUnion [⟨.id, 1, "a"⟩, ⟨.id, 3, "b"⟩, ⟨.star, 4, "*"⟩]
        [⟨0, 0, false⟩, ⟨0, 1, false⟩] :=
      .union (.concat hone (.cons hstarred .nil)) .nil
    have hgroup : AtomsModified _ [⟨0, 2, true⟩, ⟨1, 0, false⟩, ⟨1, 1, false⟩] :=
      @AtomsModified.modified _ [(⟨.star, 6, "*"⟩, .star), (⟨.star, 7, "*"⟩, .star)] _ _
        (@AtomsInside.group ⟨.parenOpen, 0, "("⟩ ⟨.parenClose, 5, ")"⟩ _ _ rfl hinside rfl)
        (by simp; decide)
    exact .union (.concat hgroup .nil) .nil
  have hle : 2 ≤ 128 := by decide
  refine ⟨hle, ((parse_room hle).2.2.2 _ hatoms).2 (by simp), fun h => ?_⟩
  have hroom := ((parse_room (Nat.le_refl 1)).2.2.2 _ hatoms).1 h
  simp at hroom

end CallChain
