import CallChain.Proofs.Compile.Scan
import CallChain.Proofs.Grammar.Derivation

/-!
# Names in order

The names of a derived expression stand in it in the order of their tokens, so they start at
different places of the text.

* `DerivesUnion.mentions_sublist`: names and tokens.
* `DerivesUnion.nodup_names`: the places of names.
-/

namespace CallChain

/-- The name that is written in a token. -/
def Token.name (token : Token) : Name := ⟨token.text, token.span⟩

def Mention.name : Mention → Name
  | action name => name
  | body name => name

namespace Regex

theorem mentions_joined (wrap : List Regex → Regex)
    (hwrap : ∀ operands, (wrap operands).mentions = mentionsOf operands) (first : Regex)
    (rest : List Regex) :
    (joined wrap first rest).mentions = first.mentions ++ mentionsOf rest := by
  cases rest with
  | nil => simp [joined, mentionsOf]
  | cons second rest => rw [joined, hwrap, mentionsOf]

theorem mentions_foldl (marks : List (Token × Quantifier)) (operand : Regex) :
    (marks.foldl (fun operand mark => quantified operand mark.2) operand).mentions =
      operand.mentions := by
  induction marks generalizing operand with
  | nil => rfl
  | cons mark marks ih => exact ih (quantified operand mark.2)

/-- Literals and references are the mentions, if not in this order. -/
theorem names_perm (expr : Regex) : expr.names.Perm (expr.mentions.map Mention.name) := by
  rw [names, ← filterMap_action_mentions, ← filterMap_body_mentions]
  induction expr.mentions with
  | nil => exact .nil
  | cons mention mentions ih =>
    cases mention with
    | action name => exact ih.cons name
    | body name => exact List.perm_middle.trans (ih.cons name)

end Regex

/-- The names of an expression are written in some of the tokens, in their order. -/
def NamedBy (ts : List Token) (mentions : List Mention) : Prop :=
  (mentions.map Mention.name).Sublist (ts.map Token.name)

theorem NamedBy.append {ts ts' : List Token} {mentions mentions' : List Mention}
    (h : NamedBy ts mentions) (h' : NamedBy ts' mentions') :
    NamedBy (ts ++ ts') (mentions ++ mentions') := by
  rw [NamedBy, List.map_append, List.map_append]
  exact List.Sublist.append h h'

theorem NamedBy.cons (token : Token) {ts : List Token} {mentions : List Mention}
    (h : NamedBy ts mentions) : NamedBy (token :: ts) mentions :=
  List.Sublist.cons token.name h

theorem NamedBy.before {ts : List Token} {mentions : List Mention} (h : NamedBy ts mentions)
    (ts' : List Token) : NamedBy (ts ++ ts') mentions := by
  rw [NamedBy, List.map_append]
  exact List.Sublist.trans h (List.sublist_append_left _ _)

mutual

theorem DerivesUnion.mentions_sublist : ∀ {ts : List Token} {expr : Regex},
    DerivesUnion ts expr → NamedBy ts expr.mentions
  | _, _, .union hfirst hrest => by
    rw [Regex.mentions_joined .alt fun _ => rfl]
    exact hfirst.mentions_sublist.append hrest.mentions_sublist

theorem DerivesBranches.mentions_sublist : ∀ {ts : List Token} {rest : List Regex},
    DerivesBranches ts rest → NamedBy ts (Regex.mentionsOf rest)
  | _, _, .nil => .slnil
  | _, _, .cons _ hoperand hrest =>
    (hoperand.mentions_sublist.append hrest.mentions_sublist).cons _

theorem DerivesConcat.mentions_sublist : ∀ {ts : List Token} {expr : Regex},
    DerivesConcat ts expr → NamedBy ts expr.mentions
  | _, _, .concat hfirst hrest => by
    rw [Regex.mentions_joined .concat fun _ => rfl]
    exact hfirst.mentions_sublist.append hrest.mentions_sublist

theorem DerivesFactors.mentions_sublist : ∀ {ts : List Token} {rest : List Regex},
    DerivesFactors ts rest → NamedBy ts (Regex.mentionsOf rest)
  | _, _, .nil => .slnil
  | _, _, .cons hoperand hrest => hoperand.mentions_sublist.append hrest.mentions_sublist

theorem DerivesModified.mentions_sublist : ∀ {ts : List Token} {expr : Regex},
    DerivesModified ts expr → NamedBy ts expr.mentions
  | _, _, .modified hoperand _ => by
    rw [Regex.mentions_foldl]
    exact hoperand.mentions_sublist.before _

theorem DerivesAtomic.mentions_sublist : ∀ {ts : List Token} {expr : Regex},
    DerivesAtomic ts expr → NamedBy ts expr.mentions
  | _, _, .group _ hinside _ => (hinside.mentions_sublist.before _).cons _
  | _, _, .ident _ => List.Sublist.refl [_]
  | _, _, .reference _ _ _ => .cons _ (.cons_cons _ (List.nil_sublist _))
  | _, _, .anchor _ => List.nil_sublist _

end

/-- The names of an expression start at different places. -/
theorem DerivesUnion.nodup_names {ts : List Token} {expr : Regex} (h : DerivesUnion ts expr)
    (hts : ts.Pairwise (·.start < ·.start)) : (expr.names.map (·.span.start)).Nodup := by
  have htokens : ((ts.map Token.name).map (·.span.start)).Nodup := by
    rw [List.map_map, List.Nodup, List.pairwise_map]
    exact hts.imp Nat.ne_of_lt
  have hmentions := htokens.sublist (List.Sublist.map (·.span.start) h.mentions_sublist)
  exact ((expr.names_perm.map (·.span.start)).nodup_iff).2 hmentions

end CallChain
