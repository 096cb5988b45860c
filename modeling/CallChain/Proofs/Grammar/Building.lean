import CallChain.Grammar.Parse

/-!
# Building trees by calls

A builder of trees is given one token after the other and told where nodes start and finish. A node
around what has been built already is started at a checkpoint that was set before it.

What calls build is told by `Builds`: each node starts once and finishes once, around what is built
in between, and when a node is started at a checkpoint, everything that has been started since is
finished.

* `Builds.balanced`, `Builds.validCheckpoints`: what this says about the calls one by one.
* `Built`, `Since`: calls that go on after others.
-/

namespace CallChain

/-- A call to the builder of a tree. A checkpoint is named by the number of calls before it. -/
inductive BuilderCall where
  | start (kind : SyntaxKind)
  | checkpoint
  /-- Starts a node in front of what has been built since a checkpoint. -/
  | startAt (checkpoint : Nat) (kind : SyntaxKind)
  | token (token : Token)
  /-- Finishes the innermost node that is open. -/
  | finish
deriving DecidableEq, Repr

/-! ### What calls build -/

/-- The calls from the `n`-th one on that build some trees. -/
inductive Builds : Nat → List BuilderCall → Forest → Prop where
  | nil {n : Nat} : Builds n [] []
  | token {n : Nat} {token : Token} : Builds n [.token token] [.leaf token]
  | checkpoint {n : Nat} : Builds n [.checkpoint] []
  | node {n : Nat} {kind : SyntaxKind} {cs : List BuilderCall} {f : Forest}
      (h : Builds (n + 1) cs f) : Builds n (.start kind :: (cs ++ [.finish])) [.node kind f]
  /-- A node is started at a checkpoint, around what has been built since and what is built then. -/
  | wrap {n : Nat} {kind : SyntaxKind} {cs cs' : List BuilderCall} {f g : Forest}
      (h : Builds n (.checkpoint :: cs) f) (h' : Builds (n + cs.length + 2) cs' g) :
      Builds n (.checkpoint :: cs ++ .startAt n kind :: (cs' ++ [.finish])) [.node kind (f ++ g)]
  | append {n : Nat} {cs cs' : List BuilderCall} {f g : Forest} (h : Builds n cs f)
      (h' : Builds (n + cs.length) cs' g) : Builds n (cs ++ cs') (f ++ g)

namespace BuilderCall

/-- Does a call start a node? -/
def isStart : BuilderCall → Bool
  | start _ | startAt _ _ => true
  | checkpoint | token _ | finish => false

/-- The number of nodes that some calls start. -/
def starts (cs : List BuilderCall) : Nat := cs.countP isStart

/-- The number of nodes that some calls finish. -/
def finishes (cs : List BuilderCall) : Nat := cs.count .finish

/-- Each node that is started is finished once, and none that was started before. -/
structure Balanced (cs : List BuilderCall) : Prop where
  finishes_le : ∀ before, before <+: cs → finishes before ≤ starts before
  finishes_eq : finishes cs = starts cs

/-- Where a node is started at a checkpoint, this has been set, and the nodes that have been started
since are finished, and no others. The calls are those from the `n`-th one on. -/
def ValidCheckpoints (n : Nat) (cs : List BuilderCall) : Prop :=
  ∀ before after c kind, cs = before ++ startAt c kind :: after →
    ∃ earlier since, before = earlier ++ checkpoint :: since ∧ c = n + earlier.length ∧
      Balanced since

variable {n : Nat} {cs cs' : List BuilderCall} {c : BuilderCall}

theorem starts_append : starts (cs ++ cs') = starts cs + starts cs' := List.countP_append

theorem finishes_append : finishes (cs ++ cs') = finishes cs + finishes cs' := List.count_append

/-! ### Balanced calls -/

theorem balanced_nil : Balanced [] where
  finishes_le before hprefix := by
    rw [List.prefix_nil.1 hprefix]
    exact Nat.le_refl 0
  finishes_eq := rfl

theorem Balanced.append (h : Balanced cs) (h' : Balanced cs') : Balanced (cs ++ cs') where
  finishes_le before hprefix := by
    obtain ⟨after, heq⟩ := hprefix
    rcases List.append_eq_append_iff.1 heq with ⟨rest, hcs, -⟩ | ⟨later, hbefore, hcs'⟩
    · exact h.finishes_le before ⟨rest, hcs.symm⟩
    · have hle := h'.finishes_le later ⟨after, hcs'.symm⟩
      have hleft := h.finishes_eq
      rw [hbefore, starts_append, finishes_append]
      omega
  finishes_eq := by rw [starts_append, finishes_append, h.finishes_eq, h'.finishes_eq]

/-- A call that neither starts nor finishes a node. -/
theorem balanced_singleton (hstart : c.isStart = false) (hfinish : c ≠ .finish) :
    Balanced [c] where
  finishes_le before hprefix := by
    rcases List.prefix_cons_iff.1 hprefix with rfl | ⟨rest, rfl, hrest⟩
    · exact Nat.le_refl 0
    · rw [List.prefix_nil.1 hrest]
      simp [finishes, hfinish]
  finishes_eq := by simp [finishes, starts, hstart, hfinish]

/-- What follows a checkpoint in balanced calls is balanced. -/
theorem Balanced.of_checkpoint (h : Balanced (checkpoint :: cs)) : Balanced cs where
  finishes_le before hprefix :=
    h.finishes_le (checkpoint :: before) ((List.prefix_cons_inj checkpoint).2 hprefix)
  finishes_eq := h.finishes_eq

theorem Balanced.node (hstart : c.isStart = true) (h : Balanced cs) :
    Balanced (c :: (cs ++ [finish])) := by
  have hfinish : c ≠ finish := by
    rintro rfl
    cases hstart
  have hstarts (ds : List BuilderCall) : starts (c :: ds) = starts ds + 1 :=
    List.countP_cons_of_pos hstart
  have hfinishes (ds : List BuilderCall) : finishes (c :: ds) = finishes ds :=
    List.count_cons_of_ne hfinish
  have hwhole : finishes (cs ++ [finish]) = starts (cs ++ [finish]) + 1 := by
    rw [finishes_append, starts_append, h.finishes_eq]
    rfl
  refine ⟨fun before hprefix => ?_, by rw [hfinishes, hstarts, hwhole]⟩
  rcases List.prefix_cons_iff.1 hprefix with rfl | ⟨rest, rfl, hrest⟩
  · exact Nat.le_refl 0
  · rw [hfinishes, hstarts]
    rcases List.prefix_concat_iff.1 hrest with rfl | hrest
    · exact Nat.le_of_eq hwhole
    · exact Nat.le_succ_of_le (h.finishes_le rest hrest)

/-! ### Valid checkpoints -/

theorem validCheckpoints_of_not_mem (h : ∀ c kind, startAt c kind ∉ cs) :
    ValidCheckpoints n cs := by
  rintro before after c kind rfl
  exact absurd (List.mem_append_right before List.mem_cons_self) (h c kind)

theorem ValidCheckpoints.append (h : ValidCheckpoints n cs)
    (h' : ValidCheckpoints (n + cs.length) cs') : ValidCheckpoints n (cs ++ cs') := by
  intro before after c kind heq
  rcases List.append_eq_append_iff.1 heq with ⟨later, rfl, hcs'⟩ | ⟨rest, hcs, hafter⟩
  · -- the node is started in the second part
    obtain ⟨earlier, since, rfl, rfl, hsince⟩ := h' later after c kind hcs'
    refine ⟨cs ++ earlier, since, (List.append_assoc ..).symm, ?_, hsince⟩
    rw [List.length_append, Nat.add_assoc]
  · cases rest with
    | nil =>
      -- it is the first call of the second part
      obtain ⟨earlier, since, hnil, -, -⟩ := h' [] after c kind hafter.symm
      cases earlier <;> cases hnil
    | cons first rest =>
      obtain ⟨rfl, -⟩ := List.cons.inj hafter
      exact h before rest c kind hcs

/-- A node that is started at the last checkpoint of balanced calls. -/
theorem ValidCheckpoints.startAt {kind : SyntaxKind} (h : ValidCheckpoints n (checkpoint :: cs))
    (hcs : Balanced cs) : ValidCheckpoints n (checkpoint :: cs ++ [.startAt n kind]) := by
  intro before after c kind' heq
  rcases List.append_eq_append_iff.1 heq with ⟨later, rfl, hlast⟩ | ⟨rest, hleft, hafter⟩
  · cases later with
    | nil =>
      obtain ⟨hsame, -⟩ := List.cons.inj hlast
      cases hsame
      exact ⟨[], cs, List.append_nil _, rfl, hcs⟩
    | cons first later =>
      obtain ⟨-, hnil⟩ := List.cons.inj hlast
      cases later <;> cases hnil
  · cases rest with
    | nil =>
      obtain ⟨hsame, -⟩ := List.cons.inj hafter
      cases hsame
      refine ⟨[], cs, ?_, rfl, hcs⟩
      rw [hleft, List.append_nil, List.nil_append]
    | cons first rest =>
      obtain ⟨rfl, -⟩ := List.cons.inj hafter
      exact h before rest c kind' hleft

end BuilderCall

namespace Builds

open BuilderCall

variable {n : Nat} {cs : List BuilderCall} {f : Forest}

/-- Calls that build trees finish each node that they start. -/
theorem balanced (h : Builds n cs f) : Balanced cs := by
  induction h with
  | nil => exact balanced_nil
  | token => exact balanced_singleton rfl nofun
  | checkpoint => exact balanced_singleton rfl nofun
  | node _ ih => exact ih.node rfl
  | wrap _ _ ih ih' => exact ih.append (ih'.node rfl)
  | append _ _ ih ih' => exact ih.append ih'

/-- Calls that build trees start nodes at valid checkpoints only. -/
theorem validCheckpoints (h : Builds n cs f) : ValidCheckpoints n cs := by
  have hfinish (k : Nat) : ValidCheckpoints k [finish] :=
    validCheckpoints_of_not_mem fun _ _ => by simp
  induction h with
  | nil => exact validCheckpoints_of_not_mem fun _ _ => List.not_mem_nil
  | token => exact validCheckpoints_of_not_mem fun _ _ => by simp
  | checkpoint => exact validCheckpoints_of_not_mem fun _ _ => by simp
  | @node n kind cs f _ ih =>
    have hstart : ValidCheckpoints n [start kind] :=
      validCheckpoints_of_not_mem fun _ _ => by simp
    exact hstart.append (ih.append (hfinish _))
  | @wrap n kind cs cs' f g h h' ih ih' =>
    have hnode := @ValidCheckpoints.startAt _ _ kind ih h.balanced.of_checkpoint
    have hlength : n + (.checkpoint :: cs ++ [BuilderCall.startAt n kind]).length =
        n + cs.length + 2 := by
      rw [List.length_append, List.length_cons, List.length_singleton]
      omega
    have hrest := ih'.append (hfinish _)
    rw [← hlength] at hrest
    have hwhole := hnode.append hrest
    rwa [List.append_assoc] at hwhole
  | append _ _ ih ih' => exact ih.append ih'

end Builds

/-! ### Calls behind others -/

/-- The calls `b` go on after the calls `a` and build some trees there. -/
def Built (a : List BuilderCall) (f : Forest) (b : List BuilderCall) : Prop :=
  ∃ cs, b = a ++ cs ∧ Builds a.length cs f

/-- The calls `b` set a checkpoint behind the calls `a` and have built some trees since. -/
def Since (a : List BuilderCall) (f : Forest) (b : List BuilderCall) : Prop :=
  ∃ cs, b = a ++ .checkpoint :: cs ∧ Builds a.length (.checkpoint :: cs) f

section Calls

variable {a b c : List BuilderCall} {f g : Forest} {kind : SyntaxKind}

theorem Built.refl : Built a [] a := ⟨[], (List.append_nil a).symm, .nil⟩

theorem Built.append (h : Built a f b) (h' : Built b g c) : Built a (f ++ g) c := by
  obtain ⟨cs, rfl, hcs⟩ := h
  obtain ⟨cs', rfl, hcs'⟩ := h'
  rw [List.length_append] at hcs'
  exact ⟨cs ++ cs', List.append_assoc .., hcs.append hcs'⟩

theorem built_token (token : Token) : Built a [.leaf token] (a ++ [.token token]) :=
  ⟨_, rfl, .token⟩

theorem built_tokens (ts : List Token) : Built a (ts.map .leaf) (a ++ ts.map .token) := by
  induction ts generalizing a with
  | nil =>
    rw [List.map_nil, List.map_nil, List.append_nil]
    exact .refl
  | cons token ts ih =>
    have hboth := (built_token token).append (@ih (a ++ [.token token]))
    rwa [List.append_assoc] at hboth

theorem Built.node (h : Built (a ++ [.start kind]) f b) :
    Built a [.node kind f] (b ++ [.finish]) := by
  obtain ⟨cs, rfl, hcs⟩ := h
  rw [List.length_append] at hcs
  refine ⟨.start kind :: (cs ++ [.finish]), ?_, .node hcs⟩
  simp only [List.append_assoc, List.cons_append, List.nil_append]

theorem since_checkpoint : Since a [] (a ++ [.checkpoint]) := ⟨[], rfl, .checkpoint⟩

theorem Since.append (h : Since a f b) (h' : Built b g c) : Since a (f ++ g) c := by
  obtain ⟨cs, rfl, hcs⟩ := h
  obtain ⟨cs', rfl, hcs'⟩ := h'
  rw [List.length_append] at hcs'
  exact ⟨cs ++ cs', List.append_assoc .., hcs.append hcs'⟩

theorem Since.built (h : Since a f b) : Built a f b := by
  obtain ⟨cs, rfl, hcs⟩ := h
  exact ⟨_, rfl, hcs⟩

/-- A node around what has been built since the checkpoint. -/
theorem Since.wrap (h : Since a f b) (h' : Built (b ++ [.startAt a.length kind]) g c) :
    Since a [.node kind (f ++ g)] (c ++ [.finish]) := by
  obtain ⟨cs, rfl, hcs⟩ := h
  obtain ⟨cs', rfl, hcs'⟩ := h'
  have hlength : (a ++ .checkpoint :: cs ++ [BuilderCall.startAt a.length kind]).length =
      a.length + cs.length + 2 := by
    simp only [List.length_append, List.length_cons, List.length_nil]
    omega
  rw [hlength] at hcs'
  have hnode := @Builds.wrap _ kind _ _ _ _ hcs hcs'
  rw [List.cons_append] at hnode
  refine ⟨_, ?_, hnode⟩
  simp only [List.append_assoc, List.cons_append, List.nil_append]

end Calls

end CallChain
