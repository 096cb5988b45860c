import CallChain.Proofs.Grammar.Runs
import CallChain.Proofs.Lists
import Mathlib.Tactic.Ring

/-!
# How deep trees are nested

The room of the reader is spent level by level. A group has one level less inside than there is
around it, and every quantifier after an operand takes one of the levels that are left at its own
place; but the levels that the operand has spent inside are there again for the quantifiers behind
it. So the limit bounds, on the way to a token, the groups above a place together with the
quantifiers at that place (`Fits`), and not all groups and quantifiers on the way together.

The same walk through the productions shows that the reader reports syntax errors and nothing else.

* `yields_regex`, `yields_leftovers`: the productions.
* `parse_yields`: whole texts.
* `parse_nesting`: what the limit bounds.
-/

namespace CallChain

/-! ### Ways to the tokens -/

namespace Tree

mutual

/-- The kinds of the nodes on the way to each token of a tree, the outermost first. -/
def paths : Tree → List (List SyntaxKind)
  | leaf _ => [[]]
  | node kind children => (pathsOf children).map (kind :: ·)

def pathsOf : List Tree → List (List SyntaxKind)
  | [] => []
  | tree :: trees => paths tree ++ pathsOf trees

end

@[simp] theorem pathsOf_append (f g : Forest) : pathsOf (f ++ g) = pathsOf f ++ pathsOf g := by
  induction f with
  | nil => rfl
  | cons tree f ih => rw [List.cons_append, pathsOf, pathsOf, ih, List.append_assoc]

@[simp] theorem pathsOf_node (kind : SyntaxKind) (children : Forest) :
    pathsOf [.node kind children] = (pathsOf children).map (kind :: ·) := by
  rw [pathsOf, pathsOf, List.append_nil, paths]

theorem eq_nil_of_mem_pathsOf_leaves {ts : List Token} {path : List SyntaxKind}
    (h : path ∈ pathsOf (ts.map .leaf)) : path = [] := by
  induction ts with
  | nil => cases h
  | cons token ts ih =>
    rcases List.mem_cons.1 h with h | h
    · exact h
    · exact ih h

end Tree

/-- Does a node of this kind take a level of room? -/
def SyntaxKind.nests (k : SyntaxKind) : Bool := k = .group || k = .quantified

/-- A way that has room for `room` levels of groups, and for `left` quantifiers before the first of
them. Within a group there is room for one level less of either. -/
inductive Fits : Nat → Nat → List SyntaxKind → Prop where
  | nil {room left : Nat} : Fits room left []
  | group {room left : Nat} {path : List SyntaxKind} (h : Fits room room path) :
      Fits (room + 1) left (.group :: path)
  | quantified {room left : Nat} {path : List SyntaxKind} (h : Fits room left path) :
      Fits room (left + 1) (.quantified :: path)
  | other {room left : Nat} {kind : SyntaxKind} {path : List SyntaxKind}
      (hkind : kind.nests = false) (h : Fits room left path) : Fits room left (kind :: path)

/-- All ways to the tokens of a forest fit. -/
def Nested (room left : Nat) (f : Forest) : Prop := ∀ path ∈ Tree.pathsOf f, Fits room left path

section Fits

variable {room left room' left' : Nat} {path level above below : List SyntaxKind} {f g : Forest}
  {kind : SyntaxKind}

theorem Fits.mono (h : Fits room left path) (hroom : room ≤ room') (hleft : left ≤ left') :
    Fits room' left' path := by
  induction h generalizing room' left' with
  | nil => exact .nil
  | @group room left path _ ih =>
    obtain ⟨r, rfl⟩ : ∃ r, room' = r + 1 := ⟨room' - 1, by omega⟩
    have hle : room ≤ r := by omega
    exact .group (ih hle hle)
  | @quantified room left path _ ih =>
    obtain ⟨l, rfl⟩ : ∃ l, left' = l + 1 := ⟨left' - 1, by omega⟩
    exact .quantified (ih hroom (by omega))
  | other hkind _ ih => exact .other hkind (ih hroom hleft)

/-- The quantifiers before the first group. -/
theorem Fits.count_quantified_le (h : Fits room left (level ++ below)) (hlevel : .group ∉ level) :
    level.count .quantified ≤ left := by
  induction level generalizing left with
  | nil => exact Nat.zero_le _
  | cons kind level ih =>
    have hrest : .group ∉ level := fun hmem => hlevel (List.mem_cons_of_mem _ hmem)
    cases h with
    | group h => exact absurd List.mem_cons_self hlevel
    | quantified h =>
      rw [List.count_cons_self]
      exact Nat.succ_le_succ (ih h hrest)
    | other hkind h =>
      have hne : kind ≠ .quantified := by
        rintro rfl
        cases hkind
      rw [List.count_cons_of_ne hne]
      exact ih h hrest

/-- The groups above a place and the quantifiers at that place. -/
theorem Fits.count_level_le (h : Fits room left (above ++ level ++ below)) (hle : left ≤ room)
    (hlevel : .group ∉ level) :
    above.count .group + level.count .quantified ≤ room := by
  induction above generalizing room left with
  | nil =>
    rw [List.count_nil, Nat.zero_add]
    exact Nat.le_trans (h.count_quantified_le hlevel) hle
  | cons kind above ih =>
    cases h with
    | @group room _ _ h =>
      rw [List.count_cons_self]
      have := ih h (Nat.le_refl _)
      omega
    | quantified h =>
      rw [List.count_cons_of_ne (by decide)]
      exact ih h (by omega)
    | other hkind h =>
      have hne : kind ≠ .group := by
        rintro rfl
        cases hkind
      rw [List.count_cons_of_ne hne]
      exact ih h hle

/-- All groups and quantifiers on a way: with every group the room for quantifiers begins anew. -/
theorem Fits.countP_nests_le (h : Fits room left path) :
    2 * path.countP SyntaxKind.nests ≤ 2 * left + room * (room + 1) := by
  induction h with
  | nil => exact Nat.zero_le _
  | @group room left path _ ih =>
    rw [List.countP_cons_of_pos (by decide)]
    have hsquare : (room + 1) * (room + 1 + 1) = room * (room + 1) + 2 * (room + 1) := by ring
    omega
  | quantified _ ih =>
    rw [List.countP_cons_of_pos (by decide)]
    omega
  | other hkind _ ih =>
    rw [List.countP_cons_of_neg (by rw [hkind]; decide)]
    exact ih

/-! ### Ways in forests -/

theorem Nested.mono (h : Nested room left f) (hroom : room ≤ room') (hleft : left ≤ left') :
    Nested room' left' f :=
  fun path hpath => (h path hpath).mono hroom hleft

/-- What takes no room fits everywhere. -/
theorem Nested.anywhere (h : Nested 0 0 f) : Nested room left f :=
  h.mono (Nat.zero_le _) (Nat.zero_le _)

theorem nested_nil : Nested room left [] := by
  intro path hpath
  cases hpath

theorem nested_leaves (ts : List Token) : Nested room left (ts.map .leaf) := by
  intro path hpath
  rw [Tree.eq_nil_of_mem_pathsOf_leaves hpath]
  exact .nil

theorem Nested.append (hf : Nested room left f) (hg : Nested room left g) :
    Nested room left (f ++ g) := by
  intro path hpath
  rw [Tree.pathsOf_append] at hpath
  rcases List.mem_append.1 hpath with hpath | hpath
  · exact hf path hpath
  · exact hg path hpath

theorem Nested.node (hkind : kind.nests = false) (h : Nested room left f) :
    Nested room left [.node kind f] := by
  intro path hpath
  rw [Tree.pathsOf_node, List.mem_map] at hpath
  obtain ⟨path, hpath, rfl⟩ := hpath
  exact .other hkind (h path hpath)

theorem Nested.group (h : Nested room room f) : Nested (room + 1) left [.node .group f] := by
  intro path hpath
  rw [Tree.pathsOf_node, List.mem_map] at hpath
  obtain ⟨path, hpath, rfl⟩ := hpath
  exact .group (h path hpath)

theorem Nested.quantified (h : Nested room left f) :
    Nested room (left + 1) [.node .quantified f] := by
  intro path hpath
  rw [Tree.pathsOf_node, List.mem_map] at hpath
  obtain ⟨path, hpath, rfl⟩ := hpath
  exact .quantified (h path hpath)

end Fits

/-! ### What steps yield -/

namespace Parser

variable {α β : Type} {m : Parser α} {post : α → Prop} {last : β → Prop} {input : Input}
  {room left fuel : Nat} {inside : Option (Parser Forest)}

/-- A step that answers what `post` says, and reports syntax errors at most. -/
def Yields (m : Parser α) (post : α → Prop) : Prop :=
  ∀ s a s', Reads m s a s' →
    post a ∧ Grown (fun d => d.kind.isSyntaxError = true) s.reports s'.reports

/-! ### Composing steps -/

theorem Yields.bind {g : α → Parser β} (hm : Yields m post)
    (hg : ∀ a, post a → Yields (g a) last) : Yields (m >>= g) last := by
  intro s b s'' h
  obtain ⟨a, s', ha, hb⟩ := reads_bind.1 h
  obtain ⟨hpost, hgrown⟩ := hm s a s' ha
  obtain ⟨hlast, hgrown'⟩ := hg a hpost s' b s'' hb
  exact ⟨hlast, hgrown.trans hgrown'⟩

theorem yields_pure {a : α} (h : post a) : Yields (pure a) post := by
  intro s b s' hreads
  obtain ⟨rfl, rfl⟩ := reads_pure.1 hreads
  exact ⟨h, .refl _⟩

theorem yields_throw {halt : Halt} : Yields (throw halt : Parser α) post :=
  fun _ _ _ h => absurd h not_reads_throw

/-- A step that reports nothing. -/
theorem yields_of_takes (h : ∀ s a s', Reads m s a s' → s.Takes [] s') :
    Yields m fun _ => True := by
  intro s a s' hreads
  refine ⟨trivial, ?_⟩
  rw [(h s a s' hreads).reports_eq]
  exact .refl _

theorem yields_get : Yields (get : Parser ParseState) fun _ => True := by
  intro s t s' h
  obtain ⟨-, rfl⟩ := reads_get.1 h
  exact ⟨trivial, .refl _⟩

/-! ### Looking and reporting -/

theorem yields_look : Yields look fun _ => True :=
  yields_of_takes fun _ _ _ h => (reads_look h).2

theorem yields_nextIs {kind : SyntaxKind} : Yields (nextIs kind) fun _ => True :=
  yields_of_takes fun _ _ _ h => (reads_nextIs h).2

theorem yields_nextIn {kinds : KindSet} : Yields (nextIn kinds) fun _ => True :=
  yields_of_takes fun _ _ _ h => (reads_nextIn h).2

theorem yields_atEnd : Yields atEnd fun _ => True :=
  yields_of_takes fun _ _ _ h => (reads_atEnd h).2

theorem yields_nextSpan : Yields (nextSpan input) fun _ => True :=
  yields_of_takes fun _ _ _ h => reads_nextSpan h

theorem yields_refill : Yields refill fun _ => True :=
  yields_of_takes fun _ _ _ h => reads_refill h

theorem yields_report {kind : DiagnosticKind} {related : List Related}
    (hkind : kind.isSyntaxError = true) : Yields (report input kind related) fun _ => True := by
  refine yields_nextSpan.bind fun span _ => ?_
  intro s u s' h
  refine ⟨trivial, ?_⟩
  rw [reads_modify.1 h]
  dsimp only
  split
  · exact .refl _
  · apply Grown.append
    intro d hd
    rw [List.mem_singleton.1 hd]
    exact hkind

/-- A report that is made on a condition, before the rest of a production. -/
theorem yields_reportIf {c : Prop} [Decidable c] {kind : DiagnosticKind} {related : List Related}
    {k : Unit → Parser α} (hkind : kind.isSyntaxError = true) (hk : Yields (k ()) post) :
    Yields (if c then report input kind related >>= k else k ()) post := by
  split
  · exact (yields_report hkind).bind fun _ _ => hk
  · exact hk

/-! ### Taking -/

theorem yields_flush : Yields flush (Nested 0 0) := by
  intro s f s' h
  obtain ⟨rfl, htakes⟩ := reads_flush h
  refine ⟨nested_leaves _, ?_⟩
  rw [htakes.reports_eq]
  exact .refl _

theorem yields_bump : Yields bump (Nested 0 0) := by
  intro s f s' h
  unfold Reads bump at h
  split at h
  · cases h
  · cases h
    exact ⟨nested_leaves _, .refl _⟩

theorem yields_eat? {kind : SyntaxKind} :
    Yields (eat? kind) fun o => Nested 0 0 (o.getD []) := by
  refine yields_nextIs.bind fun b _ => ?_
  split
  · exact yields_bump.bind fun f hf => yields_pure hf
  · exact yields_pure nested_nil

/-! ### Productions -/

theorem yields_leaf {kind : SyntaxKind} (hkind : kind.nests = false) :
    Yields (leaf kind) (Nested 0 0) :=
  yields_bump.bind fun _ hf => yields_pure (hf.node hkind)

theorem yields_reference : Yields (reference input) (Nested 0 0) := by
  refine yields_nextSpan.bind fun opening _ => ?_
  refine yields_bump.bind fun bracket hbracket => ?_
  refine yields_eat?.bind fun name hname => ?_
  refine yields_reportIf rfl ?_
  refine yields_eat?.bind fun closing hclosing => ?_
  refine yields_reportIf rfl ?_
  exact yields_pure (((hbracket.append hname).append hclosing).node rfl)

section Inside

variable (hinside : ∀ reader ∈ inside, ∃ inner, room = inner + 1 ∧
  Yields reader (Nested inner inner))

include hinside

/-- A group has one level less inside. -/
theorem yields_group : Yields (group input inside) (Nested room 0) := by
  unfold group
  split
  · exact yields_throw
  next reader =>
    obtain ⟨inner, rfl, hreader⟩ := hinside reader rfl
    refine yields_refill.bind fun _ _ => ?_
    refine yields_nextSpan.bind fun opening _ => ?_
    refine yields_bump.bind fun bracket hbracket => ?_
    refine yields_nextIs.bind fun closed _ => ?_
    refine yields_atEnd.bind fun ended _ => ?_
    -- The three ways to the body meet again behind it.
    have hrest (body : Forest) (hbody : Nested inner inner body) : Yields (do
        let closing ← eat? .parenClose
        if closing.isNone then
          report input .unclosedGroup [⟨"group started here", opening⟩]
        refill
        return [.node .group (bracket ++ body ++ closing.getD [])]) (Nested (inner + 1) 0) := by
      refine yields_eat?.bind fun closing hclosing => ?_
      refine yields_reportIf rfl ?_
      refine yields_refill.bind fun _ _ => ?_
      exact yields_pure ((hbracket.anywhere.append hbody).append hclosing.anywhere).group
    have hempty : Yields (pure []) (Nested inner inner) := yields_pure nested_nil
    split
    · exact (yields_report rfl).bind fun _ _ => hempty.bind hrest
    · split
      · exact hempty.bind hrest
      · exact hreader.bind hrest

theorem yields_atomic : Yields (atomic input inside) (Nested room 0) := by
  have hleaf {kind : SyntaxKind} (hkind : kind.nests = false) :
      Yields (leaf kind) (Nested room 0) :=
    fun s f s' h => (yields_leaf hkind s f s' h).imp_left Nested.anywhere
  refine yields_look.bind fun next _ => ?_
  split
  · exact yields_group hinside
  · exact fun s f s' h => (yields_reference s f s' h).imp_left Nested.anywhere
  · exact hleaf rfl
  · split
    · exact hleaf rfl
    · exact (yields_report rfl).bind fun _ _ => yields_pure nested_nil
  · exact (yields_report rfl).bind fun _ _ => yields_pure nested_nil

omit hinside in
/-- Each quantifier takes one of the levels that are left, whatever its operand has spent inside. -/
theorem yields_quantified {levels : Nat} (operand : Forest) (hoperand : Nested levels left operand)
    (hle : left + room ≤ levels) : Yields (quantified room operand) (Nested levels levels) := by
  have hwhole : Nested levels levels operand := hoperand.mono (Nat.le_refl _) (by omega)
  induction room generalizing left operand with
  | zero =>
    unfold quantified
    refine yields_nextIn.bind fun b _ => ?_
    split
    · exact yields_throw
    · exact yields_pure hwhole
  | succ room ih =>
    unfold quantified
    refine yields_nextIn.bind fun b _ => ?_
    split
    · refine yields_refill.bind fun _ _ => ?_
      refine yields_bump.bind fun quantifier hquantifier => ?_
      have hnode : Nested levels (left + 1) [.node .quantified (operand ++ quantifier)] :=
        (hoperand.append hquantifier.anywhere).quantified
      have hrest := ih [.node .quantified (operand ++ quantifier)] hnode (by omega)
        (hnode.mono (Nat.le_refl _) (by omega))
      exact hrest.bind fun whole h => yields_refill.bind fun _ _ => yields_pure h
    · exact yields_pure hwhole

theorem yields_modified : Yields (modified input room inside) (Nested room room) := by
  refine yields_flush.bind fun before hbefore => ?_
  refine (yields_atomic hinside).bind fun operand hoperand => ?_
  refine (yields_quantified operand hoperand (Nat.le_of_eq (Nat.zero_add room))).bind ?_
  exact fun whole hwhole => yields_pure (hbefore.anywhere.append hwhole)

theorem yields_factors : Yields (factors input room inside fuel) (Nested room room) := by
  induction fuel with
  | zero =>
    unfold factors
    refine yields_nextIn.bind fun b _ => ?_
    split
    · exact yields_get.bind fun _ _ => yields_throw
    · exact yields_pure nested_nil
  | succ fuel ih =>
    unfold factors
    refine yields_nextIn.bind fun b _ => ?_
    split
    · refine (yields_modified hinside).bind fun operand hoperand => ?_
      exact ih.bind fun rest hrest => yields_pure (hoperand.append hrest)
    · exact yields_pure nested_nil

theorem yields_concat : Yields (concat input room inside) (Nested room room) := by
  refine yields_nextIn.bind fun b _ => ?_
  split
  · refine yields_flush.bind fun before hbefore => ?_
    refine (yields_modified hinside).bind fun first hfirst => ?_
    refine yields_nextIn.bind fun b _ => ?_
    split
    · refine yields_get.bind fun s _ => ?_
      refine (yields_factors hinside).bind fun rest hrest => ?_
      exact yields_pure (hbefore.anywhere.append ((hfirst.append hrest).node rfl))
    · exact yields_pure (hbefore.anywhere.append hfirst)
  · exact (yields_report rfl).bind fun _ _ => yields_pure nested_nil

theorem yields_branches : Yields (branches input room inside fuel) (Nested room room) := by
  induction fuel with
  | zero =>
    unfold branches
    refine yields_eat?.bind fun bar hbar => ?_
    cases bar with
    | none => exact yields_pure nested_nil
    | some bar => exact yields_get.bind fun _ _ => yields_throw
  | succ fuel ih =>
    unfold branches
    refine yields_eat?.bind fun bar hbar => ?_
    cases bar with
    | none => exact yields_pure nested_nil
    | some bar =>
      have hbar : Nested room room bar := Nested.anywhere hbar
      refine (yields_concat hinside).bind fun operand hoperand => ?_
      exact ih.bind fun rest hrest => yields_pure ((hbar.append hoperand).append hrest)

theorem yields_union : Yields (union input room inside) (Nested room room) := by
  refine yields_flush.bind fun before hbefore => ?_
  refine (yields_concat hinside).bind fun first hfirst => ?_
  refine yields_nextIs.bind fun b _ => ?_
  split
  · refine yields_get.bind fun s _ => ?_
    refine (yields_branches hinside).bind fun rest hrest => ?_
    exact yields_pure (hbefore.anywhere.append ((hfirst.append hrest).node rfl))
  · exact yields_pure (hbefore.anywhere.append hfirst)

end Inside

/-- A regex at any depth. -/
theorem yields_regex (room : Nat) : Yields (regex input room) (Nested room room) := by
  induction room with
  | zero => exact yields_union fun reader hreader => nomatch hreader
  | succ room ih =>
    refine yields_union fun reader hreader => ?_
    cases hreader
    exact ⟨room, rfl, ih⟩

/-! ### Whole texts -/

theorem yields_setAside : Yields (setAside input) (Nested 0 0) := by
  refine (yields_report rfl).bind fun _ _ => ?_
  refine yields_atEnd.bind fun ended _ => ?_
  split
  · exact yields_pure nested_nil
  · refine yields_flush.bind fun before hbefore => ?_
    exact yields_bump.bind fun word hword => yields_pure (hbefore.append (hword.node rfl))

theorem yields_leftovers : Yields (leftovers input room fuel) (Nested room room) := by
  induction fuel with
  | zero =>
    unfold leftovers
    refine yields_atEnd.bind fun ended _ => ?_
    split
    · exact yields_pure nested_nil
    · exact yields_get.bind fun _ _ => yields_throw
  | succ fuel ih =>
    unfold leftovers
    refine yields_atEnd.bind fun ended _ => ?_
    split
    · exact yields_pure nested_nil
    · refine yields_setAside.bind fun misplaced hmisplaced => ?_
      refine yields_nextIn.bind fun b _ => ?_
      -- Reading goes on in the same way, whether a regex follows the word or not.
      have hrest (more : Forest) (hmore : Nested room room more) : Yields (do
          return misplaced ++ more ++ (← leftovers input room fuel)) (Nested room room) :=
        ih.bind fun rest hrest => yields_pure ((hmisplaced.anywhere.append hmore).append hrest)
      split
      · exact (yields_regex room).bind hrest
      · have hempty : Yields (pure []) (Nested room room) := yields_pure nested_nil
        exact hempty.bind hrest

theorem yields_root :
    Yields (root input room) fun tree => ∀ path ∈ tree.paths, Fits room room path := by
  refine yields_atEnd.bind fun ended _ => ?_
  have hrest (body : Forest) (hbody : Nested room room body) : Yields (do
      return Tree.node .root (body ++ (← flush)))
        fun tree => ∀ path ∈ tree.paths, Fits room room path := by
    refine yields_flush.bind fun blanks hblanks => yields_pure ?_
    have hnode : Nested room room [.node .root (body ++ blanks)] :=
      (hbody.append hblanks.anywhere).node rfl
    intro path hpath
    exact hnode path (List.mem_append_left _ hpath)
  split
  · refine (yields_report rfl).bind fun _ _ => ?_
    have hempty : Yields (pure []) (Nested room room) := yields_pure nested_nil
    exact hempty.bind hrest
  · refine (yields_regex room).bind fun first hfirst => ?_
    refine yields_get.bind fun s _ => ?_
    refine yields_leftovers.bind fun others hothers => ?_
    have hboth : Yields (pure (first ++ others)) (Nested room room) :=
      yields_pure (hfirst.append hothers)
    exact hboth.bind hrest

end Parser

variable {text : String} {source : SourceId} {limit : Nat} {p : Parsed}

/-- The tree of a text fits into the limit, and only syntax errors are reported about it. -/
theorem parse_yields (h : parse text source limit = .ok p) :
    (∀ path ∈ p.root.paths, Fits limit limit path) ∧
      ∀ d ∈ p.diagnostics, d.kind.isSyntaxError = true := by
  unfold parse at h
  split at h
  next tree s hread =>
    cases h
    obtain ⟨hfits, hgrown⟩ := Parser.yields_root _ _ _ hread
    exact ⟨hfits, hgrown.of_nil⟩
  next => cases h

/-- On the way to a token, the groups above a place and the quantifiers at that place, between two
groups, are at most as many as the limit allows. A group takes a level from what is within it and
gives it back to the quantifiers behind it, so all groups and quantifiers on the way can be more
than that. -/
theorem parse_nesting (h : parse text source limit = .ok p) :
    ∀ path ∈ p.root.paths,
      (∀ above level below, path = above ++ level ++ below → .group ∉ level →
        above.count .group + level.count .quantified ≤ limit) ∧
      2 * path.countP SyntaxKind.nests ≤ limit * (limit + 3) := by
  intro path hpath
  have hfits := (parse_yields h).1 path hpath
  constructor
  · rintro above level below rfl hlevel
    exact hfits.count_level_le (Nat.le_refl _) hlevel
  · have hcount := hfits.countP_nests_le
    have hsquare : limit * (limit + 3) = 2 * limit + limit * (limit + 1) := by ring
    omega

/-- Three quantifiers and two groups around one name, where the limit is two. -/
theorem parse_nesting_starredGroups : ∃ p, parse "((a)*)**" ⟨0⟩ 2 = .ok p ∧
    ∃ path ∈ p.root.paths, path.countP SyntaxKind.nests = 5 ∧
      2 * path.countP SyntaxKind.nests ≤ 2 * (2 + 3) := by
  have hpaths : (parse "((a)*)**" ⟨0⟩ 2).toOption.map
      (fun p => p.root.paths.any fun path => path.countP SyntaxKind.nests = 5) = some true := by
    decide +kernel
  obtain ⟨p, hparse, hany⟩ := exists_of_toOption_map hpaths
  obtain ⟨path, hpath, hcount⟩ := List.any_eq_true.1 hany
  exact ⟨p, hparse, path, hpath, of_decide_eq_true hcount, (parse_nesting hparse path hpath).2⟩

/-- A quantifier around a group is two levels deep, and both have room where the limit is one. -/
theorem exists_path_above_limit : ∃ p, parse "(a)*" ⟨0⟩ 1 = .ok p ∧
    ∃ path ∈ p.root.paths, 1 < path.countP SyntaxKind.nests := by
  have hpaths : (parse "(a)*" ⟨0⟩ 1).toOption.map
      (fun p => p.root.paths.any fun path => 1 < path.countP SyntaxKind.nests) = some true := by
    decide +kernel
  obtain ⟨p, hparse, hany⟩ := exists_of_toOption_map hpaths
  obtain ⟨path, hpath, hcount⟩ := List.any_eq_true.1 hany
  exact ⟨p, hparse, path, hpath, of_decide_eq_true hcount⟩

end CallChain
