import CallChain.Proofs.Grammar.Walk

/-!
# Trees keep their texts

The reader places every token once and in order, whatever it reports on the way. Behind each step
the tokens placed so far and those that remain are the tokens of the text (`Places`); a node is made
around trees that stand in their places already, so opening one late moves nothing. Blanks remain
until they are placed, which at the latest happens at the end of the root.

* `Places.bind`: one step after another.
* `walk_places`: the productions.
* `parse_lossless`: the tree of a text.
-/

namespace CallChain

open CallChain.Tree

/-! ### Leaves -/

@[simp] theorem Tree.leavesOf_append (f g : Forest) :
    leavesOf (f ++ g) = leavesOf f ++ leavesOf g := by
  induction f with
  | nil => rfl
  | cons tree f ih => rw [List.cons_append, leavesOf, leavesOf, ih, List.append_assoc]

@[simp] theorem Tree.leavesOf_node (kind : SyntaxKind) (children : Forest) :
    leavesOf [.node kind children] = leavesOf children := by
  rw [leavesOf, leavesOf, List.append_nil, leaves]

@[simp] theorem Tree.leavesOf_leaves (ts : List Token) : leavesOf (ts.map .leaf) = ts := by
  induction ts with
  | nil => rfl
  | cons token ts ih =>
    rw [List.map_cons, leavesOf, ih]
    rfl

/-! ### What remains -/

/-- The tokens that are not placed yet: blanks that have been passed, and the words ahead. -/
def ParseState.remaining (s : ParseState) : List Token :=
  s.pending ++ s.ahead.flatMap fun word => word.token :: word.blanks

/-- At first all tokens remain. -/
theorem ParseState.remaining_ofTokens (ts : List Token) : (ofTokens ts).remaining = ts := by
  show (splitWords ts).1 ++ (splitWords ts).2.flatMap _ = ts
  induction ts with
  | nil => rfl
  | cons token ts ih =>
    unfold splitWords
    dsimp only
    split
    · rw [List.cons_append, ih]
    · rw [List.nil_append, List.flatMap_cons, List.cons_append, ih]

namespace Parser

variable {α β : Type} {m : Parser α} {placed : List Token} {after : α → List Token}
  {input : Input} {room : Nat} {inside : Option (Parser Forest)}

/-- A step behind which the tokens in `after` are placed, if those in `placed` are before it: none
is lost, repeated or moved. -/
def Places (placed : List Token) (m : Parser α) (after : α → List Token) : Prop :=
  ∀ s a s', Reads m s a s' → placed ++ s.remaining = after a ++ s'.remaining

/-- A step that leaves what remains. -/
def Keeps (m : Parser α) : Prop := ∀ s a s', Reads m s a s' → s'.remaining = s.remaining

/-! ### Composing steps -/

theorem Places.bind {g : α → Parser β} {last : β → List Token} (hm : Places placed m after)
    (hg : ∀ a, Places (after a) (g a) last) : Places placed (m >>= g) last := by
  intro s b s'' h
  obtain ⟨a, s', ha, hb⟩ := reads_bind.1 h
  exact (hm s a s' ha).trans (hg a s' b s'' hb)

theorem places_pure {a : α} (h : placed = after a) : Places placed (pure a) after := by
  intro s b s' hreads
  obtain ⟨rfl, rfl⟩ := reads_pure.1 hreads
  rw [h]

theorem places_throw {halt : Halt} : Places placed (throw halt : Parser α) after :=
  fun _ _ _ h => absurd h not_reads_throw

/-- What has been placed further left stays where it is. -/
theorem Places.frame (h : Places placed m after) (left : List Token) :
    Places (left ++ placed) m fun a => left ++ after a := by
  intro s a s' hreads
  rw [List.append_assoc, h s a s' hreads, List.append_assoc]

/-- A step behind what has been placed. -/
theorem Places.behind (h : Places [] m after) (placed : List Token) :
    Places placed m fun a => placed ++ after a := by
  have hframe := h.frame placed
  rwa [List.append_nil] at hframe

theorem Keeps.places (h : Keeps m) : Places placed m fun _ => placed := by
  intro s a s' hreads
  rw [h s a s' hreads]

/-! ### Looking and reporting -/

/-- Idle steps leave what remains. -/
theorem keeps_of_idle (h : ∀ {s a s'}, Reads m s a s' → s.Idle s') : Keeps m := by
  intro s a s' hreads
  rw [h hreads]
  rfl

theorem keeps_nextIs {kind : SyntaxKind} : Keeps (nextIs kind) := keeps_of_idle idle_nextIs

theorem keeps_atEnd : Keeps atEnd := keeps_of_idle idle_atEnd

theorem keeps_refill : Keeps refill := keeps_of_idle idle_refill

theorem keeps_nextSpan : Keeps (nextSpan input) := by
  intro s span s' h
  rw [(reads_nextSpan_eq h).2]

theorem keeps_report {kind : DiagnosticKind} {related : List Related} :
    Keeps (report input kind related) := by
  intro s u s' h
  obtain ⟨span, s₁, hspan, h⟩ := reads_bind.1 h
  obtain ⟨-, rfl⟩ := reads_nextSpan_eq hspan
  rw [reads_modify.1 h]
  -- a report changes the reports alone, whether it is made or not
  dsimp only
  split <;> rfl

/-- A report that is made on a condition, before the rest of a production. -/
theorem places_reportIf {c : Prop} [Decidable c] {kind : DiagnosticKind} {related : List Related}
    {k : Unit → Parser α} (hk : Places placed (k ()) after) :
    Places placed (if c then report input kind related >>= k else k ()) after := by
  split
  · exact keeps_report.places.bind fun _ => hk
  · exact hk

/-! ### Taking -/

theorem places_flush : Places [] flush leavesOf := by
  intro s f s' h
  cases h
  rw [leavesOf_leaves]
  rfl

theorem places_bump : Places [] bump leavesOf := by
  intro s f s' h
  unfold Reads bump at h
  split at h
  · cases h
  next word ahead hahead =>
    cases h
    rw [leavesOf_leaves, ParseState.remaining, hahead]
    simp [ParseState.remaining]

/-- The blanks before a token are placed with it. -/
theorem places_eat? {kind : SyntaxKind} :
    Places [] (eat? kind) fun o => leavesOf (o.getD []) := by
  refine keeps_nextIs.places.bind fun b => ?_
  split
  · exact places_bump.bind fun f => places_pure rfl
  · exact places_pure rfl

/-! ### Productions -/

theorem places_reference : Places [] (reference input) leavesOf := by
  refine keeps_nextSpan.places.bind fun opening => ?_
  refine places_bump.bind fun bracket => ?_
  refine (places_eat?.behind _).bind fun name => ?_
  refine places_reportIf ?_
  refine (places_eat?.behind _).bind fun closing => ?_
  refine places_reportIf ?_
  exact places_pure (by simp)

theorem places_group (hinside : ∀ reader ∈ inside, Places [] reader leavesOf) :
    Places [] (group input inside) leavesOf := by
  unfold group
  split
  · exact places_throw
  next reader =>
    refine keeps_refill.places.bind fun _ => ?_
    refine keeps_nextSpan.places.bind fun opening => ?_
    refine places_bump.bind fun bracket => ?_
    refine keeps_nextIs.places.bind fun closed => ?_
    refine keeps_atEnd.places.bind fun ended => ?_
    -- The three ways to the body meet again behind it.
    have hrest (body : Forest) : Places (leavesOf bracket ++ leavesOf body) (do
        let closing ← eat? .parenClose
        if closing.isNone then
          report input .unclosedGroup [⟨"group started here", opening⟩]
        refill
        return [.node .group (bracket ++ body ++ closing.getD [])]) leavesOf := by
      refine (places_eat?.behind _).bind fun closing => ?_
      refine places_reportIf ?_
      refine keeps_refill.places.bind fun _ => ?_
      exact places_pure (by simp)
    have hempty : Places (leavesOf bracket) (pure [])
        fun body : Forest => leavesOf bracket ++ leavesOf body :=
      places_pure (List.append_nil _).symm
    split
    · exact keeps_report.places.bind fun _ => hempty.bind hrest
    · split
      · exact hempty.bind hrest
      · exact ((hinside reader rfl).behind _).bind hrest

theorem places_setAside : Places [] (setAside input) leavesOf := by
  refine keeps_report.places.bind fun _ => ?_
  refine keeps_atEnd.places.bind fun ended => ?_
  split
  · exact places_pure rfl
  · refine places_flush.bind fun before => ?_
    refine (places_bump.behind _).bind fun word => ?_
    exact places_pure (by simp)

/-- Trees that stand in their places. -/
theorem walk_places : Walk input (fun s f s' => s.remaining = leavesOf f ++ s'.remaining)
    (fun s f s' => s.remaining = leavesOf f ++ s'.remaining) where
  idle h := by
    rw [h]
    rfl
  report h := (keeps_report _ _ _ h).symm
  flush h := places_flush _ _ _ h
  append h h' := by rw [h, h', leavesOf_append, List.append_assoc]
  inner_of h := h
  bump h := places_bump _ _ _ h
  append_inner h h' := by rw [h, h', leavesOf_append, List.append_assoc]
  node _ h := by rwa [leavesOf_node]
  reference _ h := places_reference _ _ _ h
  group hinside _ h := places_group (fun reader hreader _ _ _ h => hinside reader hreader h) _ _ _ h
  setAside h := places_setAside _ _ _ h

/-! ### Whole texts -/

theorem places_root : Places [] (root input room) leaves := by
  intro s tree s' h
  have hplaced := walk_places.root h
  rwa [leavesOf, leavesOf, List.append_nil] at hplaced

variable {s s' : ParseState} {f : Forest} {tree : Tree}

/-- Where the end of the text has been seen, no word is left. -/
theorem words_of_atEnd (h : Reads atEnd s true s') : s'.words = [] := by
  obtain ⟨hnone, htakes⟩ := reads_atEnd h
  have hwords := htakes.words_eq
  rw [List.isEmpty_iff.1 hnone.symm] at hwords
  exact hwords.symm

/-- Setting words aside goes on to the end of the text. -/
theorem words_of_leftovers (h : LeftoversSteps input room s f s') : s'.words = [] := by
  induction h with
  | stop hended => exact words_of_atEnd hended
  | round _ _ _ _ ih => exact ih

theorem remaining_of_flush (h : Reads flush s f s') (hwords : s.words = []) :
    s'.remaining = [] := by
  cases h
  show [] ++ s.ahead.flatMap _ = []
  rw [List.map_eq_nil_iff.1 hwords]
  rfl

/-- Nothing remains behind the root. -/
theorem remaining_of_root (h : Reads (root input room) s tree s') : s'.remaining = [] := by
  cases rootSteps h with
  | empty hended hreport hflush =>
    refine remaining_of_flush hflush ?_
    have hwords := (reads_report hreport).1.words_eq
    rw [words_of_atEnd hended] at hwords
    exact hwords.symm
  | read _ _ hrest hflush => exact remaining_of_flush hflush (words_of_leftovers hrest)

end Parser

/-- The text of a tree is that of its leaves. -/
theorem Tree.toList_text (tree : Tree) :
    tree.text.toList = tree.leaves.flatMap (·.text.toList) := by
  rw [Tree.text, String.toList_join, List.flatMap_map]

/-- The leaves of a tree are the tokens of its text. -/
theorem leaves_of_parse {text : String} {source : SourceId} {limit : Nat} {p : Parsed}
    (h : parse text source limit = .ok p) : p.root.leaves = tokens text := by
  unfold parse at h
  split at h
  next tree s hread =>
    cases h
    have hplaced := Parser.places_root _ _ _ hread
    rw [Parser.remaining_of_root hread, ParseState.remaining_ofTokens, List.append_nil] at hplaced
    exact hplaced.symm
  next => cases h

theorem text_of_parse {text : String} {source : SourceId} {limit : Nat} {p : Parsed}
    (h : parse text source limit = .ok p) : p.root.text = text := by
  apply String.toList_inj.1
  rw [Tree.toList_text, leaves_of_parse h, text_tokens]

/-- The leaves of a tree are the tokens of its text, so the tree has the whole text, whatever was
reported about it. -/
theorem parse_lossless {text : String} {source : SourceId} {limit : Nat} {p : Parsed}
    (h : parse text source limit = .ok p) :
    p.root.leaves = tokens text ∧ p.root.text = text :=
  ⟨leaves_of_parse h, text_of_parse h⟩

/-- A group that is not closed, a second bar, and a character that starts no token. -/
theorem parse_lossless_malformed : ∃ p, parse " (a |) | # <b " ⟨0⟩ 128 = .ok p ∧
    p.diagnostics ≠ [] ∧ p.root.text = " (a |) | # <b " := by
  have hdirty : (parse " (a |) | # <b " ⟨0⟩ 128).toOption.map (·.diagnostics.isEmpty) =
      some false := by decide +kernel
  cases hparse : parse " (a |) | # <b " ⟨0⟩ 128 with
  | error halt =>
    rw [hparse] at hdirty
    cases hdirty
  | ok p =>
    rw [hparse] at hdirty
    refine ⟨p, rfl, ?_, (parse_lossless hparse).2⟩
    intro hnone
    have hclean : p.diagnostics.isEmpty = false := Option.some.inj hdirty
    rw [hnone] at hclean
    cases hclean

end CallChain
