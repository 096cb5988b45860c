import CallChain.Proofs.Grammar.Complete
import CallChain.Proofs.Grammar.Finishes
import CallChain.Proofs.Grammar.Lockstep
import CallChain.Proofs.Grammar.Reports
import CallChain.Proofs.Grammar.Writing
import CallChain.Regex.Lowering

/-!
# Blanks do not matter

Two texts with the same words, blanks apart, are read in lockstep. Offsets differ, and with them
the places of reports; but whether the last report was about the next word does not, since the words
of a text start further and further right (`Alike`). So the same words are reported in both texts,
and the trees differ in blanks and offsets alone (`Tree.unspacedOf`), which an outline does not show
and which have no meaning.

* `outlineOf_unspacedOf`, `meaningsOf_unspacedOf`: what is seen of a tree without its blanks.
* `twins_alike`: the steps of the reader on texts with the same words.
* `parse_blanks`: whole texts.
-/

namespace CallChain

/-! ### Trees without blanks -/

/-- What a token is, wherever it stands. -/
def Token.spelling (token : Token) : SyntaxKind × String := (token.kind, token.text)

/-- The token at the start of a text. -/
def Token.unplaced (token : Token) : Token := { token with start := 0 }

theorem Token.unplaced_eq_of_spelling_eq {token token' : Token}
    (h : token.spelling = token'.spelling) : token.unplaced = token'.unplaced := by
  obtain ⟨hkind, htext⟩ := Prod.mk.inj h
  rw [unplaced, unplaced, hkind, htext]

namespace Tree

mutual

/-- A tree without its blanks, and nothing for a blank; no token is at a particular place. -/
def unspaced : Tree → List Tree
  | leaf token => if token.kind.isTrivia then [] else [leaf token.unplaced]
  | node kind children => [node kind (unspacedOf children)]

def unspacedOf : List Tree → List Tree
  | [] => []
  | tree :: trees => unspaced tree ++ unspacedOf trees

end

variable {f g : Forest} {ts : List Token} {token : Token}

@[simp] theorem unspacedOf_append : unspacedOf (f ++ g) = unspacedOf f ++ unspacedOf g := by
  induction f with
  | nil => rfl
  | cons tree f ih => rw [List.cons_append, unspacedOf, unspacedOf, ih, List.append_assoc]

@[simp] theorem unspacedOf_node (kind : SyntaxKind) (children : Forest) :
    unspacedOf [node kind children] = [node kind (unspacedOf children)] := rfl

theorem unspacedOf_blanks (h : ∀ b ∈ ts, b.kind.isTrivia = true) :
    unspacedOf (ts.map leaf) = [] := by
  induction ts with
  | nil => rfl
  | cons token ts ih =>
    rw [List.forall_mem_cons] at h
    rw [List.map_cons, unspacedOf, unspaced, if_pos h.1, ih h.2]
    rfl

/-- Of a word that is taken with the blanks before it, the word is left. -/
theorem unspacedOf_word (h : ∀ b ∈ ts, b.kind.isTrivia = true)
    (hword : token.kind.isTrivia = false) :
    unspacedOf ((ts ++ [token]).map leaf) = [leaf token.unplaced] := by
  rw [List.map_append, unspacedOf_append, unspacedOf_blanks h]
  show unspaced (leaf token) ++ [] = _
  rw [unspaced, if_neg (by simp [hword]), List.append_nil]

/-! ### Outlines -/

theorem outlineOf_append (raw : Bool) (depth : Nat) (f g : Forest) :
    outlineOf raw depth (f ++ g) = outlineOf raw depth f ++ outlineOf raw depth g := by
  induction f with
  | nil => rw [List.nil_append, outlineOf, String.empty_append]
  | cons tree f ih =>
    rw [List.cons_append, outlineOf, outlineOf, ih, String.append_assoc]

mutual

/-- An outline shows no blanks and no offsets. -/
theorem outlineOf_unspaced (depth : Nat) : ∀ tree : Tree,
    outlineOf false depth tree.unspaced = outlineAt false depth tree
  | leaf token => by
    rw [unspaced]
    split
    next hblank =>
      have hkind : token.kind = .whitespace := of_decide_eq_true hblank
      rw [outlineAt, hkind]
      rfl
    next =>
      show outlineAt false depth (leaf token.unplaced) ++ "" = _
      rw [String.append_empty]
      rfl
  | node kind children => by
    show outlineAt false depth (node kind (unspacedOf children)) ++ "" = _
    rw [String.append_empty, outlineAt, outlineAt, outlineOf_unspacedOf (depth + 1) children]

theorem outlineOf_unspacedOf (depth : Nat) : ∀ trees : Forest,
    outlineOf false depth (unspacedOf trees) = outlineOf false depth trees
  | [] => rfl
  | tree :: trees => by
    rw [unspacedOf, outlineOf_append, outlineOf_unspaced depth tree,
      outlineOf_unspacedOf depth trees, outlineOf]

end

/-! ### Meanings -/

/-- What a token is found as, if it passes a test. -/
theorem firstToken?_cons_leaf {test : SyntaxKind → Bool} :
    firstToken? (leaf token :: f) test =
      if test token.kind then some token else firstToken? f test := by
  rw [firstToken?, List.findSome?_cons]
  dsimp only
  by_cases hfound : test token.kind = true
  · rw [if_pos hfound, if_pos hfound]
  · rw [if_neg hfound, if_neg hfound]
    rfl

/-- The same token is found, if not at the same place. -/
theorem firstToken?_unspacedOf {test : SyntaxKind → Bool} (htest : test .whitespace = false) :
    firstToken? (unspacedOf f) test = (firstToken? f test).map Token.unplaced := by
  induction f with
  | nil => rfl
  | cons tree f ih =>
    cases tree with
    | node kind children => exact ih
    | leaf token =>
      rw [firstToken?_cons_leaf, unspacedOf, unspaced]
      by_cases hblank : token.kind.isTrivia = true
      · have hkind : token.kind = .whitespace := of_decide_eq_true hblank
        rw [if_pos hblank, hkind, htest, if_neg Bool.false_ne_true]
        exact ih
      · rw [if_neg hblank]
        show firstToken? (leaf token.unplaced :: unspacedOf f) test = _
        rw [firstToken?_cons_leaf, ih]
        show (if test token.kind then some token.unplaced else _) = _
        split <;> rfl

end Tree

namespace Regex

open CallChain.Tree

/-- Meanings apart from where names stand. -/
def unplacedMeanings (meanings : List (Option Regex)) : List (Option Regex) :=
  meanings.map (Option.map withoutSpans)

theorem withoutSpansAll_eq_map (operands : List Regex) :
    withoutSpansAll operands = operands.map withoutSpans := by
  induction operands with
  | nil => rfl
  | cons operand operands ih => rw [withoutSpansAll, ih, List.map_cons]

theorem mapM_unplacedMeanings (meanings : List (Option Regex)) :
    (unplacedMeanings meanings).mapM (fun operand => operand) =
      (meanings.mapM fun operand => operand).map withoutSpansAll := by
  induction meanings with
  | nil => rfl
  | cons meaning meanings ih =>
    rw [unplacedMeanings, List.map_cons, List.mapM_cons, List.mapM_cons, ← unplacedMeanings, ih]
    cases meaning with
    | none => rfl
    | some operand =>
      show ((meanings.mapM fun operand => operand).map withoutSpansAll).bind _ =
        ((meanings.mapM fun operand => operand).bind _).map withoutSpansAll
      cases meanings.mapM fun operand => operand with
      | none => rfl
      | some operands => rfl

theorem operands?_unplacedMeanings (meanings : List (Option Regex)) :
    operands? (unplacedMeanings meanings) = (operands? meanings).map withoutSpansAll := by
  rw [operands?, operands?, mapM_unplacedMeanings]
  cases meanings.mapM fun operand => operand with
  | none => rfl
  | some operands =>
    show (if (withoutSpansAll operands).length < 2 then none else some _) =
      (if operands.length < 2 then none else some operands).map withoutSpansAll
    rw [withoutSpansAll_eq_map, List.length_map]
    split
    · rfl
    · rw [Option.map_some, withoutSpansAll_eq_map]

theorem single?_unplacedMeanings (meanings : List (Option Regex)) :
    (single? (unplacedMeanings meanings)).join = (single? meanings).join.map withoutSpans := by
  match meanings with
  | [] => rfl
  | [meaning] => rfl
  | _ :: _ :: _ => rfl

theorem nameIn?_unspacedOf (f : Forest) :
    (nameIn? (unspacedOf f)).map Name.text = (nameIn? f).map Name.text := by
  rw [nameIn?, nameIn?, firstToken?_unspacedOf (by decide), Option.map_map, Option.map_map,
    Option.map_map]
  rfl

theorem quantify?_unspacedOf (f : Forest) (meanings : List (Option Regex)) :
    quantify? (unspacedOf f) meanings = quantify? f meanings := by
  rw [quantify?, quantify?, firstToken?_unspacedOf (by decide)]
  cases firstToken? f KindSet.quantifiers.contains with
  | none => rfl
  | some token => rfl

theorem quantify?_unplacedMeanings (f : Forest) (meanings : List (Option Regex)) :
    quantify? f (unplacedMeanings meanings) = (quantify? f meanings).map withoutSpans := by
  rw [quantify?, quantify?]
  rcases meanings with - | ⟨- | operand, meanings⟩
  · rfl
  · rfl
  · cases firstToken? f KindSet.quantifiers.contains with
    | none => rfl
    | some token => rfl

/-- A node means the same without its blanks, apart from where names stand. -/
theorem ofNode?_unspacedOf (kind : SyntaxKind) (f : Forest)
    (meanings meanings' : List (Option Regex))
    (h : unplacedMeanings meanings' = unplacedMeanings meanings) :
    (ofNode? kind (unspacedOf f) meanings').map withoutSpans =
      (ofNode? kind f meanings).map withoutSpans := by
  have hjoined (wrap : List Regex → Regex)
      (hwrap : ∀ operands, (wrap operands).withoutSpans = wrap (withoutSpansAll operands)) :
      ((operands? meanings').map wrap).map withoutSpans =
        ((operands? meanings).map wrap).map withoutSpans := by
    have hcomp : withoutSpans ∘ wrap = wrap ∘ withoutSpansAll := funext hwrap
    rw [Option.map_map, Option.map_map, hcomp, ← Option.map_map, ← Option.map_map,
      ← operands?_unplacedMeanings, ← operands?_unplacedMeanings, h]
  have hnamed (wrap : Name → Regex)
      (hwrap : ∀ name, (wrap name).withoutSpans = wrap ⟨name.text, .unplaced⟩) :
      ((nameIn? (unspacedOf f)).map wrap).map withoutSpans =
        ((nameIn? f).map wrap).map withoutSpans := by
    have hcomp : withoutSpans ∘ wrap = (fun text => wrap ⟨text, .unplaced⟩) ∘ Name.text :=
      funext hwrap
    rw [Option.map_map, Option.map_map, hcomp, ← Option.map_map, ← Option.map_map,
      nameIn?_unspacedOf]
  cases kind with
  | alt => exact hjoined .alt fun _ => rfl
  | concat => exact hjoined .concat fun _ => rfl
  | quantified =>
    show (quantify? (unspacedOf f) meanings').map withoutSpans =
      (quantify? f meanings).map withoutSpans
    rw [quantify?_unspacedOf, ← quantify?_unplacedMeanings, h, quantify?_unplacedMeanings]
  | group =>
    show (single? meanings').join.map withoutSpans = (single? meanings).join.map withoutSpans
    rw [← single?_unplacedMeanings, ← single?_unplacedMeanings, h]
  | ident => exact hnamed .literal fun _ => rfl
  | subExprRef => exact hnamed .ref fun _ => rfl
  | anchor =>
    show ((firstToken? (unspacedOf f) KindSet.anchors.contains).map _).map withoutSpans =
      ((firstToken? f KindSet.anchors.contains).map _).map withoutSpans
    rw [firstToken?_unspacedOf (by decide)]
    cases firstToken? f KindSet.anchors.contains with
    | none => rfl
    | some token => rfl
  | _ => rfl

mutual

/-- Blanks and offsets have no meaning, apart from where names stand. -/
theorem meaningsOf_unspaced : ∀ tree : Tree,
    unplacedMeanings (meaningsOf tree.unspaced) = unplacedMeanings (meaningsOf [tree])
  | .leaf token => by
    rw [unspaced]
    split <;> rfl
  | .node kind children => by
    have hchildren := meaningsOf_unspacedOf children
    show [(ofNode? kind (unspacedOf children) (meaningsOf (unspacedOf children))).map _] =
      [(ofNode? kind children (meaningsOf children)).map _]
    rw [ofNode?_unspacedOf kind children _ _ hchildren]

theorem meaningsOf_unspacedOf : ∀ trees : Forest,
    unplacedMeanings (meaningsOf (unspacedOf trees)) = unplacedMeanings (meaningsOf trees)
  | [] => rfl
  | tree :: trees => by
    have hboth : meaningsOf (tree :: trees) = meaningsOf [tree] ++ meaningsOf trees :=
      meaningsOf_append [tree] trees
    rw [unspacedOf, meaningsOf_append, hboth]
    show (meaningsOf tree.unspaced ++ _).map _ = (meaningsOf [tree] ++ _).map _
    rw [List.map_append, List.map_append]
    exact congrArg₂ (· ++ ·) (meaningsOf_unspaced tree) (meaningsOf_unspacedOf trees)

end

end Regex

/-- Trees that differ in blanks and offsets alone have the same outline, and the same meaning apart
from where names stand. -/
theorem Tree.same_of_unspacedOf_eq {tree tree' : Tree}
    (h : unspacedOf [tree] = unspacedOf [tree']) :
    tree.outline false = tree'.outline false ∧
      (Regex.ofRoot? tree).map Regex.withoutSpans =
        (Regex.ofRoot? tree').map Regex.withoutSpans := by
  constructor
  · have hlines (t : Tree) : outlineOf false 0 (unspacedOf [t]) = t.outline false := by
      rw [outlineOf_unspacedOf]
      exact String.append_empty
    rw [← hlines, h, hlines]
  · have hroot (kind : SyntaxKind) (children : Forest) :
        (Regex.ofRoot? (node kind children)).map Regex.withoutSpans =
          (Regex.single?
            (Regex.unplacedMeanings (Regex.meaningsOf (unspacedOf children)))).join := by
      rw [Regex.meaningsOf_unspacedOf, Regex.single?_unplacedMeanings]
      rfl
    -- of a leaf nothing is left if it is a blank, and a leaf if it is a word
    have hleaf (token : Token) (kind : SyntaxKind) (children : Forest) :
        unspacedOf [leaf token] ≠ unspacedOf [node kind children] := by
      rw [unspacedOf_node, unspacedOf, unspaced, unspacedOf]
      split <;> simp
    match tree, tree', h with
    | leaf _, leaf _, _ => rfl
    | leaf _, node _ _, h => exact absurd h (hleaf _ _ _)
    | node _ _, leaf _, h => exact absurd h.symm (hleaf _ _ _)
    | node kind children, node kind' children', h =>
      rw [unspacedOf_node, unspacedOf_node, List.cons.injEq, Tree.node.injEq] at h
      rw [hroot, hroot, h.1.2]

open ParseState

/-! ### Reading both texts -/

/-- What a diagnostic says, apart from where. -/
def Diagnostic.gist (d : Diagnostic) : DiagnosticKind × Option String × List String :=
  (d.kind, d.detail, d.related.map (·.message))

/-- States of two runs with the same words ahead, apart from blanks. -/
structure Alike (input input' : Parser.Input) (s s' : ParseState) : Prop where
  ordered : s.Ordered input
  ordered' : s'.Ordered input'
  words : s.words.map Token.spelling = s'.words.map Token.spelling
  seen : ∀ token ∈ s.words, token.kind.isTrivia = false
  looks : s.looks = s'.looks
  /-- The last report is about the next word in both runs, or in none. -/
  fresh : s.lastReport = some (s.place input) ↔ s'.lastReport = some (s'.place input')
  reports : s.reports.map Diagnostic.gist = s'.reports.map Diagnostic.gist

namespace Alike

variable {input input' : Parser.Input} {s s' t t' : ParseState}

/-- The same word is next in both texts, or none is. -/
theorem ahead_cases (h : Alike input input' s s') : s.ahead = [] ∧ s'.ahead = [] ∨
    ∃ word rest word' rest', s.ahead = word :: rest ∧ s'.ahead = word' :: rest' ∧
      word.token.spelling = word'.token.spelling := by
  have hwords := h.words
  rw [ParseState.words, ParseState.words] at hwords
  cases hahead : s.ahead with
  | nil =>
    cases hahead' : s'.ahead with
    | nil => exact .inl ⟨rfl, rfl⟩
    | cons word' rest' => simp [hahead, hahead'] at hwords
  | cons word rest =>
    cases hahead' : s'.ahead with
    | nil => simp [hahead, hahead'] at hwords
    | cons word' rest' =>
      rw [hahead, hahead'] at hwords
      exact .inr ⟨word, rest, word', rest', rfl, rfl, (List.cons.inj hwords).1⟩

/-- Steps that do nothing but look. -/
theorem idle (h : Alike input input' s s') (hidle : s.Idle t) (hidle' : s'.Idle t')
    (hlooks : t.looks = t'.looks) : Alike input input' t t' where
  ordered := (Parser.told_idle h.ordered hidle).ordered
  ordered' := (Parser.told_idle h.ordered' hidle').ordered
  words := by rw [hidle.words_eq, hidle'.words_eq, h.words]
  seen := by
    rw [hidle.words_eq]
    exact h.seen
  looks := hlooks
  fresh := by
    rw [hidle, hidle']
    exact h.fresh
  reports := by
    rw [hidle, hidle']
    exact h.reports

/-- A diagnostic says the same about the same word. -/
theorem gist_diagnosis {kind : DiagnosticKind} {related related' : List Related}
    (h : Alike input input' s s')
    (hrelated : related.map (·.message) = related'.map (·.message)) :
    (s.diagnosis input kind related).gist = (s'.diagnosis input' kind related').gist := by
  have hdetail : s.words.head?.map (·.text) = s'.words.head?.map (·.text) := by
    have hhead := congrArg (fun ws => ws.head?.map Prod.snd) h.words
    simp only [List.head?_map, Option.map_map] at hhead
    exact hhead
  rw [Diagnostic.gist, Diagnostic.gist, diagnosis, diagnosis, hrelated, hdetail]

/-- The same is reported in both texts, or nothing in either. -/
theorem reported {kind : DiagnosticKind} {related related' : List Related}
    (h : Alike input input' s s')
    (hrelated : related.map (·.message) = related'.map (·.message)) :
    Alike input input' (s.reported input kind related) (s'.reported input' kind related') := by
  refine ⟨h.ordered.reported, h.ordered'.reported, ?_, ?_, ?_, ?_, ?_⟩
  · rw [words_reported, words_reported, h.words]
  · rw [words_reported]
    exact h.seen
  · unfold ParseState.reported
    split <;> split <;> exact h.looks
  · -- the next word has been reported now
    rw [lastReport_reported, lastReport_reported, place_reported, place_reported]
    exact iff_of_true rfl rfl
  · unfold ParseState.reported
    by_cases hlast : s.lastReport = some (s.place input)
    · rw [if_pos hlast, if_pos (h.fresh.1 hlast)]
      exact h.reports
    · rw [if_neg hlast, if_neg (mt h.fresh.2 hlast)]
      show (s.reports ++ [_]).map _ = (s'.reports ++ [_]).map _
      rw [List.map_append, List.map_append, h.reports, List.map_singleton, List.map_singleton,
        h.gist_diagnosis hrelated]

end Alike

namespace Parser

/-- The runs on two texts: trees are the same apart from blanks. -/
def blankPairing (input input' : Input) : Pairing where
  ahead := False
  input
  input'
  states := Alike input input'
  spans _ _ := True
  trees f f' := Tree.unspacedOf f = Tree.unspacedOf f'

variable {input input' : Input}

/-! ### Steps -/

theorem alike_look : (blankPairing input input').Locked look look (· = ·) := by
  intro s s' h
  rcases h.ahead_cases with ⟨hahead, hahead'⟩ | ⟨word, rest, word', rest', hahead, hahead', hsame⟩
  · unfold look
    rw [hahead, hahead']
    exact .both rfl h
  · have hkind : word.token.kind = word'.token.kind := congrArg Prod.fst hsame
    obtain ⟨pending, ahead, taken, looks, last, reports⟩ := s
    obtain ⟨pending', ahead', taken', looks', last', reports'⟩ := s'
    obtain rfl : looks = looks' := h.looks
    subst hahead hahead'
    cases looks with
    | zero => exact .halted
    | succ looks => exact .both (congrArg some hkind) (h.idle rfl rfl rfl)

theorem alike_flush : (blankPairing input input').Locked flush flush
    (blankPairing input input').trees := by
  intro s s' h
  have htold := told_flush h.ordered rfl
  have htold' := told_flush h.ordered' rfl
  refine .both ?_ ⟨htold.ordered, htold'.ordered, h.words, h.seen, h.looks, h.fresh, h.reports⟩
  show Tree.unspacedOf _ = Tree.unspacedOf _
  rw [Tree.unspacedOf_blanks h.ordered.pending, Tree.unspacedOf_blanks h.ordered'.pending]

/-- Behind the word that is taken nothing has been reported in either text. -/
theorem alike_bump : (blankPairing input input').Locked bump bump
    (blankPairing input input').trees := by
  intro s s' h
  rcases h.ahead_cases with ⟨hahead, hahead'⟩ | ⟨word, rest, word', rest', hahead, hahead', hsame⟩
  · unfold bump
    rw [hahead, hahead']
    exact .halted
  · have hbump : Reads bump s ((s.pending ++ [word.token]).map .leaf)
        { s with
          pending := word.blanks, ahead := rest, taken := s.taken + 1, looks := lookLimit } := by
      rw [Reads, bump, hahead]
    have hbump' : Reads bump s' ((s'.pending ++ [word'.token]).map .leaf)
        { s' with
          pending := word'.blanks, ahead := rest', taken := s'.taken + 1, looks := lookLimit } := by
      rw [Reads, bump, hahead']
    rw [hbump, hbump']
    have hkind : word.token.kind = word'.token.kind := congrArg Prod.fst hsame
    have hwords : s.words = word.token :: rest.map (·.token) := by rw [words, hahead]; rfl
    have hwords' : s'.words = word'.token :: rest'.map (·.token) := by rw [words, hahead']; rfl
    have hseen := h.seen
    rw [hwords, List.forall_mem_cons] at hseen
    refine .both ?_ ⟨(told_bump h.ordered hbump).ordered, (told_bump h.ordered' hbump').ordered,
      ?_, hseen.2, rfl, ?_, h.reports⟩
    · show Tree.unspacedOf _ = Tree.unspacedOf _
      rw [Tree.unspacedOf_word h.ordered.pending hseen.1,
        Tree.unspacedOf_word h.ordered'.pending (hkind ▸ hseen.1),
        Token.unplaced_eq_of_spelling_eq hsame]
    · have hspelled := h.words
      rw [hwords, hwords'] at hspelled
      exact (List.cons.inj hspelled).2
    · -- no report is further right than the word taken, but the next word is
      exact iff_of_false (fresh_of_bump h.ordered hbump) (fresh_of_bump h.ordered' hbump')

theorem alike_nextSpan : (blankPairing input input').Locked (nextSpan input) (nextSpan input')
    (blankPairing input input').spans := fun _ _ h => .both trivial h

theorem alike_report {kind : DiagnosticKind} {related related' : List Related}
    (hrelated : (blankPairing input input').Relates related related') :
    (blankPairing input input').Locked (report input kind related) (report input' kind related')
      fun _ _ => True := by
  intro s s' h
  have hmessages : related.map (·.message) = related'.map (·.message) := by
    induction hrelated with
    | nil => rfl
    | cons hfirst _ ih => rw [List.map_cons, List.map_cons, hfirst.1, ih]
  rw [report_eq, report_eq]
  exact .both trivial (h.reported hmessages)

/-- The steps of the reader on two texts with the same words. -/
theorem twins_alike : Twins (blankPairing input input') where
  length h := by
    have hlength := congrArg List.length h.words
    rwa [List.length_map, List.length_map, words, words, List.length_map,
      List.length_map] at hlength
  look := alike_look
  refill _ _ h := .both trivial (h.idle rfl rfl rfl)
  flush := alike_flush
  bump := alike_bump
  nextSpan := alike_nextSpan
  report := alike_report
  nil := rfl
  append {f f' g g'} hf hg := by
    show Tree.unspacedOf _ = Tree.unspacedOf _
    rw [Tree.unspacedOf_append, Tree.unspacedOf_append, hf, hg]
  node {kind f f'} hf := by
    show Tree.unspacedOf _ = Tree.unspacedOf _
    rw [Tree.unspacedOf_node, Tree.unspacedOf_node, hf]

/-- At first both readers see the same words. -/
theorem alike_ofTokens {text text' : String} (source source' : SourceId)
    (h : (visible (tokens text)).map Token.spelling =
      (visible (tokens text')).map Token.spelling) :
    Alike ⟨source, text.utf8ByteSize⟩ ⟨source', text'.utf8ByteSize⟩ (.ofTokens (tokens text))
      (.ofTokens (tokens text')) := by
  obtain ⟨hordered, hwords⟩ := ordered_ofTokens text source
  obtain ⟨hordered', hwords'⟩ := ordered_ofTokens text' source'
  refine ⟨hordered, hordered', by rw [hwords, hwords', h], ?_, rfl, ?_, rfl⟩
  · rw [hwords]
    intro token htoken
    have hseen := (List.mem_filter.1 htoken).2
    simpa using hseen
  · exact iff_of_false nofun nofun

end Parser

/-! ### Whole texts -/

/-- Whitespace does not change what is read. Of two texts with the same words, both are nested too
deeply or both have a tree; the trees have one outline and, apart from where names stand, one
meaning, and the same is reported about them, one diagnostic after the other. -/
theorem parse_blanks {text text' : String} (source source' : SourceId) (limit : Nat)
    (h : (visible (tokens text)).map Token.spelling =
      (visible (tokens text')).map Token.spelling) :
    (parse text source limit = .error .nestingLimit ∧
      parse text' source' limit = .error .nestingLimit) ∨
    ∃ p p', parse text source limit = .ok p ∧ parse text' source' limit = .ok p' ∧
      p.root.outline false = p'.root.outline false ∧
      (Regex.ofRoot? p.root).map Regex.withoutSpans =
        (Regex.ofRoot? p'.root).map Regex.withoutSpans ∧
      List.Forall₂
        (fun d d' => d.kind = d'.kind ∧ d.detail = d'.detail ∧ d.message = d'.message)
        p.diagnostics p'.diagnostics := by
  have hends := Parser.twins_alike.root (.inl (Eq.refl limit)) _ _
    (Parser.alike_ofTokens source source' h)
  generalize hroot : Parser.root _ _ _ = ends at hends
  generalize hroot' : Parser.root _ _ _ = ends' at hends
  cases hends with
  | halted => exact .inl ⟨parse_eq_error_of_root hroot, parse_eq_error_of_root hroot'⟩
  | second hahead => exact hahead.elim
  | both htrees hstates =>
    obtain ⟨houtline, hmeaning⟩ := Tree.same_of_unspacedOf_eq htrees
    refine .inr ⟨_, _, parse_eq_ok_of_root hroot, parse_eq_ok_of_root hroot', houtline, hmeaning,
      ?_⟩
    have hgists := hstates.reports
    rw [← List.forall₂_eq_eq_eq, List.forall₂_map_left_iff, List.forall₂_map_right_iff] at hgists
    refine hgists.imp fun d d' hgist => ?_
    have hkind : d.kind = d'.kind := congrArg Prod.fst hgist
    have hdetail : d.detail = d'.detail := congrArg (·.2.1) hgist
    exact ⟨hkind, hdetail, by rw [Diagnostic.message, Diagnostic.message, hkind, hdetail]⟩

theorem parse_blanks_unclosed :
    (visible (tokens "a|(b")).map Token.spelling =
      (visible (tokens " a |\n( b ")).map Token.spelling ∧
    ∃ p p', parse "a|(b" ⟨0⟩ 128 = .ok p ∧ parse " a |\n( b " ⟨0⟩ 128 = .ok p' ∧
      p.root.outline false = p'.root.outline false ∧
      p.diagnostics.map (·.message) = p'.diagnostics.map (·.message) := by
  have hwords : (visible (tokens "a|(b")).map Token.spelling =
      (visible (tokens " a |\n( b ")).map Token.spelling := by decide +kernel
  have hfits : (parse "a|(b" ⟨0⟩ 128).isOk = true := by decide +kernel
  rcases parse_blanks ⟨0⟩ ⟨0⟩ 128 hwords with ⟨hhalts, -⟩ | ⟨p, p', hp, hp', houtline, -, hreports⟩
  · rw [hhalts] at hfits
    cases hfits
  · refine ⟨hwords, p, p', hp, hp', houtline, ?_⟩
    rw [← List.forall₂_eq_eq_eq, List.forall₂_map_left_iff, List.forall₂_map_right_iff]
    exact hreports.imp fun d d' hsame => hsame.2.2

end CallChain
