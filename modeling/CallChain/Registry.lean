import CallChain.Regex
import CallChain.Source

/-!
# Named grammar fragments

A registry holds the root grammar and the subexpressions it may refer to, in definition order and
one per name. The root has no name and always opens a scope of its own.
-/

namespace CallChain

/-- What a body is in its registry. -/
inductive Role where
  | root
  /-- A named fragment; `ownScope` tells whether its anchors are resolved within it. -/
  | named (name : String) (ownScope : Bool)
deriving DecidableEq, Repr

structure SubExpression where
  role : Role
  body : Regex
  source : SourceId
  /-- Extent of the body text. -/
  span : Span
deriving Repr

namespace SubExpression

/-- A body that was not read from a text. -/
def unplaced (role : Role) (body : Regex) : SubExpression := ⟨role, body, ⟨0⟩, .unplaced⟩

variable (s : SubExpression)

/-- None for the root grammar. -/
def name : Option String :=
  match s.role with
  | .root => none
  | .named name _ => some name

def isRoot : Bool := s.role = .root

/-- Are the anchors of the body resolved within it? Those of the root always are. -/
def ownScope : Bool :=
  match s.role with
  | .root => true
  | .named _ ownScope => ownScope

end SubExpression

/-! ### Definitions by name -/

/-- Puts a definition in the place of the one with its name, or at the end. -/
def replaceNamed (name : String) (s : SubExpression) :
    List (String × SubExpression) → List (String × SubExpression)
  | [] => [(name, s)]
  | (n, old) :: rest =>
    if n = name then (name, s) :: rest else (n, old) :: replaceNamed name s rest

/-- The name that is defined has the new definition, and the others keep theirs. -/
theorem lookup_replaceNamed (name : String) (s : SubExpression)
    (defs : List (String × SubExpression)) (other : String) :
    (replaceNamed name s defs).lookup other =
      if other = name then some s else defs.lookup other := by
  induction defs with
  | nil => simp only [replaceNamed, List.lookup_cons]; grind
  | cons d defs ih =>
    unfold replaceNamed
    split <;> simp only [List.lookup_cons] <;> grind

theorem mem_replaceNamed {name : String} {s : SubExpression}
    {defs : List (String × SubExpression)} {p : String × SubExpression}
    (h : p ∈ replaceNamed name s defs) : p = (name, s) ∨ p ∈ defs := by
  induction defs with
  | nil => simpa [replaceNamed] using h
  | cons d defs ih =>
    unfold replaceNamed at h
    split at h <;> grind

theorem nodup_replaceNamed {name : String} {s : SubExpression}
    {defs : List (String × SubExpression)} (h : (defs.map (·.1)).Nodup) :
    ((replaceNamed name s defs).map (·.1)).Nodup := by
  induction defs with
  | nil => simp [replaceNamed]
  | cons d defs ih =>
    obtain ⟨n, old⟩ := d
    simp only [List.map_cons, List.nodup_cons, List.mem_map, not_exists] at h
    unfold replaceNamed
    split
    · rename_i hn
      subst hn
      simpa only [List.map_cons, List.nodup_cons, List.mem_map, not_exists] using h
    · rename_i hn
      simp only [List.map_cons, List.nodup_cons, List.mem_map, not_exists]
      refine ⟨fun p hp => ?_, ih h.2⟩
      rcases mem_replaceNamed hp.1 with rfl | hmem
      · exact hn hp.2.symm
      · exact h.1 p ⟨hmem, hp.2⟩

theorem names_agree_nil : ∀ p ∈ ([] : List (String × SubExpression)), p.2.name = some p.1 := by
  simp

structure Registry where
  root : SubExpression
  /-- In definition order, each with its name. -/
  named : List (String × SubExpression)
  root_role : root.role = .root
  names_agree : ∀ p ∈ named, p.2.name = some p.1
  names_nodup : (named.map (·.1)).Nodup

namespace Registry

/-- A registry without subexpressions; a root with a name is refused. -/
def ofRoot? (root : SubExpression) : Except Fault Registry :=
  if h : root.role = .root then
    .ok ⟨root, [], h, names_agree_nil, List.nodup_nil⟩
  else
    .error .namedRoot

variable (r : Registry)

def find? (name : String) : Option SubExpression := r.named.lookup name

def contains (name : String) : Bool := (r.find? name).isSome

def size : Nat := r.named.length

def isEmpty : Bool := r.named.isEmpty

/-- The names in definition order. -/
def names : List String := r.named.map (·.1)

/-- Adds a subexpression, or puts it in the place of the one with its name, which is answered too.
A subexpression without a name is refused. -/
def define (s : SubExpression) : Except Fault (Option SubExpression × Registry) :=
  match h : s.name with
  | none => .error .unnamedDefinition
  | some name =>
    .ok (r.find? name,
      { r with
        named := replaceNamed name s r.named
        names_agree := fun p hp => by
          rcases mem_replaceNamed hp with rfl | hmem
          · exact h
          · exact r.names_agree p hmem
        names_nodup := nodup_replaceNamed r.names_nodup })

end Registry
end CallChain
