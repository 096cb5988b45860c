import CallChain.Proofs.Grammar.Complete
import CallChain.Proofs.Grammar.Finishes
import CallChain.Proofs.Grammar.Writing

/-!
# Reading what was written

The written form of an expression is read back as the expression, apart from where its names stand:
the reader finishes, its tokens are derived from the expression, and it reports nothing about tokens
that are derived.

* `exists_derives_print`, `plain_of_derives_print`: what a written form is derived from.
* `parse_print`: reading a written form.
-/

namespace CallChain

open Regex

section Reading

variable {text : String} {source : SourceId} {limit : Nat} {p : Parsed} {expr : Regex}

/-- Nothing is reported about a text that is derived, and its tree means what is derived. -/
theorem ofRoot?_of_derives (h : parse text source limit = .ok p)
    (hderives : DerivesUnion (visible (tokens text)) expr) :
    p.diagnostics = [] ∧ Regex.ofRoot? p.root = some expr := by
  unfold parse at h
  split at h
  next tree s hread =>
    cases h
    exact Parser.means_root hread (ready_ofTokens (tokens text)) hderives
  next => cases h

/-- A text about which nothing is reported is derived. -/
theorem exists_derives_of_clean (h : parse text source limit = .ok p)
    (hclean : p.diagnostics = []) :
    ∃ expr, DerivesUnion (visible (tokens text)) expr := by
  unfold parse at h
  split at h
  next tree s hread =>
    cases h
    have hready := ready_ofTokens (tokens text)
    rw [← hready.words_eq]
    exact Parser.derived_root hread hready.sane hclean
  next => cases h

/-- The words of a written form are derived from the expression, its names in their places. -/
theorem exists_derives_print (hbranching : expr.Branching) (hplain : expr.Plain)
    (hnames : ∀ name ∈ expr.names, isIdentifier name.text = true) :
    ∃ expr', DerivesUnion (visible (tokens expr.print)) expr' ∧
      expr'.withoutSpans = expr.withoutSpans := by
  have hwritten := (written_iff expr).2 ⟨hbranching, hplain⟩
  obtain ⟨expr', hderives, hsame⟩ := (scans_print expr hwritten hnames).visible_tokens
  exact ⟨expr', hderives.of_le (Nat.zero_le _), hsame⟩

/-- A written form without brackets is all that is derived. -/
theorem plain_of_derives_print {expr' : Regex}
    (h : DerivesUnion (visible (tokens expr.print)) expr') : expr.Plain := by
  apply Classical.byContradiction
  intro hplain
  exact not_noGarbage_of_bracket (bracket_mem_printAt expr hplain 0) h.noGarbage

end Reading

/-- Reading undoes writing. With names that are identifiers, and with at least two operands in every
sequence and choice, the written form of an expression is read without a report exactly if no
operand is made nonempty, and then as the same expression, apart from where its names stand. So what
a text means that is read without a report is written to a text that means the same and is written
in the same way. The limit is large enough if it allows a level for each character. -/
theorem parse_print :
    (∀ expr : Regex, expr.Branching → (∀ name ∈ expr.names, isIdentifier name.text = true) →
      ∀ source limit, expr.print.length ≤ limit →
        ∃ p, parse expr.print source limit = .ok p ∧ (p.diagnostics = [] ↔ expr.Plain) ∧
          (expr.Plain → ∃ expr', Regex.ofRoot? p.root = some expr' ∧
            expr'.withoutSpans = expr.withoutSpans)) ∧
      ∀ text source limit p, parse text source limit = .ok p → p.diagnostics = [] →
        ∃ expr, Regex.ofRoot? p.root = some expr ∧
          ∀ source' limit', expr.print.length ≤ limit' →
            ∃ p' expr', parse expr.print source' limit' = .ok p' ∧ p'.diagnostics = [] ∧
              Regex.ofRoot? p'.root = some expr' ∧ expr'.withoutSpans = expr.withoutSpans ∧
              expr'.print = expr.print := by
  have hexists (expr : Regex) (source : SourceId) (limit : Nat) (h : expr.print.length ≤ limit) :
      ∃ p, parse expr.print source limit = .ok p :=
    -- each level takes a word, and there are no more words than characters
    exists_parse_eq_ok _ source (Nat.le_trans (length_visible_tokens_le _) h)
  refine ⟨fun expr hbranching hnames source limit hlimit => ?_,
    fun text source limit p hparse hclean => ?_⟩
  · obtain ⟨p, hp⟩ := hexists expr source limit hlimit
    refine ⟨p, hp, ⟨fun hclean => ?_, fun hplain => ?_⟩, fun hplain => ?_⟩
    · obtain ⟨expr', hderives⟩ := exists_derives_of_clean hp hclean
      exact plain_of_derives_print hderives
    · obtain ⟨expr', hderives, -⟩ := exists_derives_print hbranching hplain hnames
      exact (ofRoot?_of_derives hp hderives).1
    · obtain ⟨expr', hderives, hsame⟩ := exists_derives_print hbranching hplain hnames
      exact ⟨expr', (ofRoot?_of_derives hp hderives).2, hsame⟩
  · obtain ⟨expr, hderives⟩ := exists_derives_of_clean hparse hclean
    refine ⟨expr, (ofRoot?_of_derives hparse hderives).2, fun source' limit' hlimit => ?_⟩
    obtain ⟨hbranching, hplain⟩ := (written_iff expr).1 hderives.written
    have hnames : ∀ name ∈ expr.names, isIdentifier name.text = true := by
      intro name hname
      obtain ⟨token, htoken, hkind, rfl⟩ := hderives.identifiedIn name hname
      exact isIdentifier_of_mem_tokens (List.mem_filter.1 htoken).1 hkind
    obtain ⟨p', hp'⟩ := hexists expr source' limit' hlimit
    obtain ⟨expr', hderives', hsame⟩ := exists_derives_print hbranching hplain hnames
    obtain ⟨hclean', hroot'⟩ := ofRoot?_of_derives hp' hderives'
    exact ⟨p', expr', hp', hclean', hroot', hsame, print_eq_of_withoutSpans_eq hsame⟩

/-- The expression of `(a | <b>)* c`. -/
def starredGroup : Regex :=
  .concat [.quantified (.alt [.literal ⟨"a", .unplaced⟩, .ref ⟨"b", .unplaced⟩]) .star,
    .literal ⟨"c", .unplaced⟩]

theorem parse_print_starredGroup : starredGroup.print = "(a | <b>)* c" ∧
    ∃ p expr, parse "(a | <b>)* c" ⟨0⟩ 128 = .ok p ∧ p.diagnostics = [] ∧
      Regex.ofRoot? p.root = some expr ∧ expr.withoutSpans = starredGroup ∧
      ∃ p', parse expr.print ⟨0⟩ 128 = .ok p' ∧ p'.diagnostics = [] := by
  have hprint : starredGroup.print = "(a | <b>)* c" := by decide
  have hbranching : starredGroup.Branching :=
    ⟨by decide, ⟨by decide, trivial, trivial, trivial⟩, trivial, trivial⟩
  have hplain : starredGroup.Plain := ⟨⟨trivial, trivial, trivial⟩, trivial, trivial⟩
  have hlength : starredGroup.print.length ≤ 128 := by
    rw [hprint]
    decide
  obtain ⟨p, hp, hclean, hmeans⟩ :=
    parse_print.1 starredGroup hbranching (by decide) ⟨0⟩ 128 hlength
  obtain ⟨expr, hroot, hsame⟩ := hmeans hplain
  obtain ⟨expr', hroot', hagain⟩ := parse_print.2 _ _ _ p hp (hclean.2 hplain)
  rw [hroot] at hroot'
  cases hroot'
  rw [hprint] at hp
  refine ⟨hprint, p, expr, hp, hclean.2 hplain, hroot, hsame, ?_⟩
  have hshort : expr.print.length ≤ 128 := by
    rw [print_eq_of_withoutSpans_eq hsame]
    exact hlength
  obtain ⟨p', -, hp', hclean', -⟩ := hagain ⟨0⟩ 128 hshort
  exact ⟨p', hp', hclean'⟩

end CallChain
