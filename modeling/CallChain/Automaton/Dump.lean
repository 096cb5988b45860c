import CallChain.Automaton.Numbering

/-!
# Automata as text

One line per reachable state, in the order of the canonical numbers:

```text
S0: add → S1, to → ⊤
S1: days → S2
```

`⊤` marks the end of the chain, `∅` a state without transitions, and `…` after a label a
transition that may be offered as a variadic method.
-/

namespace CallChain

/-- Control sequences around the parts of a dump: state numbers blue, the end of the chain green,
arrows and the mark of an empty state dim. -/
structure Palette where
  blue : String
  green : String
  dim : String
  reset : String

namespace Palette

def plain : Palette := ⟨"", "", "", ""⟩

def colored : Palette := ⟨"\x1b[34m", "\x1b[32m", "\x1b[2m", "\x1b[0m"⟩

def ofFlag (isColored : Bool) : Palette := if isColored then colored else plain

end Palette

namespace Automaton

variable (a : Automaton) (p : Palette)

/-- A canonical state number. -/
def stateText (k : Nat) : String := p.blue ++ "S" ++ toString k ++ p.reset

def successorText (n : Numbering) : Successor → Except Fault String
  | .terminal => .ok (p.green ++ "⊤" ++ p.reset)
  | .state target => (n.number target).map (stateText p)

def transitionText (n : Numbering) (t : Transition) : Except Fault String := do
  let label ← a.table.label t.action
  let mark := if ← a.isVarargsApplicable t then "…" else ""
  return label ++ mark ++ " " ++ p.dim ++ "→" ++ p.reset ++ " " ++ (← successorText p n t.successor)

/-- The line of a state with its canonical number. -/
def stateLine (n : Numbering) (entry : StateId × Nat) : Except Fault String := do
  let transitions ← a.transitions entry.1
  if transitions.isEmpty then
    return stateText p entry.2 ++ ": " ++ p.dim ++ "∅" ++ p.reset ++ "\n"
  let texts ← transitions.mapM (a.transitionText p n)
  return stateText p entry.2 ++ ": " ++ ", ".intercalate texts ++ "\n"

/-- All lines. -/
def dump : Except Fault String := do
  let n ← a.numbering
  return String.join (← n.order.zipIdx.mapM (a.stateLine p n))

end Automaton
end CallChain
