import Lambcalc.Anf.Around

/-!
# A-normal forms are well formed

What is in a converted term: one node for each node of the source, each temporary bound once, the
jumps of an `if` inside the rest of its join, and the free variables of the source. All of it is
read off `Exp.around`, so it does not matter when the frames of the loop were popped.
-/

namespace Lambcalc

/-! ## Nodes -/

/-- The nodes of A-normal forms that come from a node of the source. -/
inductive Anf.NodeKind where
  | funExp (params : List Anf.Var)
  | appExp
  | bopExp (bop : Ast.Bop)
  | joinIf
  | tupleExp
  | projExp
  deriving DecidableEq, Repr

open Anf

/-- What each node of `e` is converted to. -/
def Ast.Exp.nodes : Ast.Exp → List NodeKind
  | .intExp _ => []
  | .varExp _ => []
  | .lamExp param body => .funExp [param] :: body.nodes
  | .appExp fn arg => .appExp :: (fn.nodes ++ arg.nodes)
  | .bopExp bop arg1 arg2 => .bopExp bop :: (arg1.nodes ++ arg2.nodes)
  | .ifExp cond then_ els => .joinIf :: (cond.nodes ++ then_.nodes ++ els.nodes)

namespace Anf

/-- The nodes of `t`. A `Join` is counted with the `If` behind it. -/
def Exp.nodes : Exp → List NodeKind
  | .haltExp _ => []
  | .funExp _ params body rest => .funExp params :: (body.nodes ++ rest.nodes)
  | .joinExp _ _ body rest => .joinIf :: (body.nodes ++ rest.nodes)
  | .jumpExp _ _ => []
  | .appExp _ _ _ rest => .appExp :: rest.nodes
  | .bopExp _ bop _ _ rest => .bopExp bop :: rest.nodes
  | .ifExp _ thenBranch elseBranch => thenBranch.nodes ++ elseBranch.nodes
  | .tupleExp _ _ rest => .tupleExp :: rest.nodes
  | .projExp _ _ _ rest => .projExp :: rest.nodes

/-- The converted term has the nodes the tree asks for, kind by kind. -/
theorem nodes_around (e : Ast.Exp) (c d : Nat) (tk : Exp) :
    (e.around c d tk).nodes.Perm (e.nodes ++ tk.nodes) := by
  rw [List.perm_iff_count]
  induction e generalizing c d tk with
  | intExp value => exact fun kind => rfl
  | varExp name => exact fun kind => rfl
  | lamExp param body ih =>
    intro kind
    have inBody := ih c 0 (.haltExp (body.value c)) kind
    simp only [Ast.Exp.around, Exp.nodes, Ast.Exp.nodes, List.count_append, List.count_cons,
      List.count_nil] at inBody ⊢
    omega
  | appExp fn arg ihFn ihArg =>
    intro kind
    simp only [Ast.Exp.around, ihFn, ihArg, Exp.nodes, Ast.Exp.nodes, List.count_append,
      List.count_cons]
    omega
  | bopExp bop arg1 arg2 ih1 ih2 =>
    intro kind
    simp only [Ast.Exp.around, ih1, ih2, Exp.nodes, Ast.Exp.nodes, List.count_append,
      List.count_cons]
    omega
  | ifExp cond then_ els ihCond ihThen ihEls =>
    intro kind
    simp only [Ast.Exp.around, ihCond, ihThen, ihEls, Exp.nodes, Ast.Exp.nodes,
      List.count_append, List.count_cons, List.count_nil]
    omega

/-! ## Introduced names -/

/-- The names `t` binds, apart from parameters. -/
def Exp.introduced : Exp → List Var
  | .haltExp _ => []
  | .funExp name _ body rest => name :: (body.introduced ++ rest.introduced)
  | .joinExp name slot body rest => name :: (slot.toList ++ body.introduced ++ rest.introduced)
  | .jumpExp _ _ => []
  | .appExp name _ _ rest => name :: rest.introduced
  | .bopExp name _ _ _ rest => name :: rest.introduced
  | .ifExp _ thenBranch elseBranch => thenBranch.introduced ++ elseBranch.introduced
  | .tupleExp name _ rest => name :: rest.introduced
  | .projExp name _ _ rest => name :: rest.introduced

/-- The converted term introduces the temporaries drawn for the tree, each once. -/
theorem introduced_around (e : Ast.Exp) (c d : Nat) (tk : Exp) :
    (e.around c d tk).introduced.Perm ((e.numbers c d).map tmp ++ tk.introduced) := by
  rw [List.perm_iff_count]
  induction e generalizing c d tk with
  | intExp value => exact fun x => rfl
  | varExp name => exact fun x => rfl
  | lamExp param body ih =>
    intro x
    have inBody := ih c 0 (.haltExp (body.value c)) x
    simp only [Ast.Exp.around, Exp.introduced, Ast.Exp.numbers, List.count_append,
      List.count_cons, List.map_append, List.map_cons, List.map_nil, List.count_nil] at inBody ⊢
    omega
  | appExp fn arg ihFn ihArg =>
    intro x
    simp only [Ast.Exp.around, ihFn, ihArg, Exp.introduced, Ast.Exp.numbers, List.count_append,
      List.count_cons, List.map_append, List.map_cons, List.map_nil, List.count_nil]
    omega
  | bopExp bop arg1 arg2 ih1 ih2 =>
    intro x
    simp only [Ast.Exp.around, ih1, ih2, Exp.introduced, Ast.Exp.numbers, List.count_append,
      List.count_cons, List.map_append, List.map_cons, List.map_nil, List.count_nil]
    omega
  | ifExp cond then_ els ihCond ihThen ihEls =>
    intro x
    simp only [Ast.Exp.around, ihCond, ihThen, ihEls, Exp.introduced, Ast.Exp.numbers,
      List.count_append, List.count_cons, List.map_append, List.map_cons, List.map_nil,
      List.count_nil, Option.toList_some]
    omega

/-- As many numbers as names are drawn. -/
theorem length_numbers (e : Ast.Exp) (c d : Nat) : (e.numbers c d).length = e.draws := by
  induction e generalizing c d with
  | intExp value => rfl
  | varExp name => rfl
  | lamExp param body ih => simp [Ast.Exp.numbers, Ast.Exp.draws, ih]
  | appExp fn arg ihFn ihArg => simp [Ast.Exp.numbers, Ast.Exp.draws, ihFn, ihArg, Nat.add_assoc]
  | bopExp bop arg1 arg2 ih1 ih2 =>
    simp [Ast.Exp.numbers, Ast.Exp.draws, ih1, ih2, Nat.add_assoc]
  | ifExp cond then_ els ihCond ihThen ihEls =>
    simp only [Ast.Exp.numbers, Ast.Exp.draws, List.length_append, ihCond, ihThen, ihEls,
      List.length_cons, List.length_nil]
    omega

/-- A conversion draws the numbers from where it starts on, each once. -/
theorem numbers_perm (e : Ast.Exp) (c : Nat) :
    (e.numbers c 0).Perm (List.range' c e.draws) := by
  have within : e.numbers c 0 ⊆ List.range' c e.draws := by
    intro i member
    have range := e.numbers_range c 0 i member
    have le := e.lead_le_draws
    unfold Ast.Exp.InRange at range
    rw [List.mem_range'_1]
    omega
  have enough : (List.range' c e.draws).length ≤ (e.numbers c 0).length := by
    rw [length_numbers, List.length_range']
  exact (List.subperm_of_subset (e.nodup_numbers c 0) within).perm_of_length_le enough

/-! ## Joins and jumps -/

/-- Every `Join` has a slot and an `If` for its rest, and every `If` is there for a `Join`. Every
`Jump` carries a value, and is in the rest of the `Join` it names, in the same function. -/
def Exp.Joined : List Var → Exp → Prop
  | _, .haltExp _ => True
  | joins, .funExp _ _ body rest => Joined [] body ∧ Joined joins rest
  | joins, .joinExp name slot body (.ifExp _ thenBranch elseBranch) =>
    slot.isSome ∧ Joined joins body ∧ Joined (name :: joins) thenBranch ∧
      Joined (name :: joins) elseBranch
  | _, .joinExp _ _ _ _ => False
  | joins, .jumpExp joinName slotValue => slotValue.isSome ∧ joinName ∈ joins
  | joins, .appExp _ _ _ rest => Joined joins rest
  | joins, .bopExp _ _ _ _ rest => Joined joins rest
  | _, .ifExp _ _ _ => False
  | joins, .tupleExp _ _ rest => Joined joins rest
  | joins, .projExp _ _ _ rest => Joined joins rest

/-- Around a term with joins in order, a converted tree has them in order. -/
theorem joined_around (e : Ast.Exp) (c d : Nat) {joins : List Var} {tk : Exp}
    (joined : tk.Joined joins) : (e.around c d tk).Joined joins := by
  induction e generalizing c d joins tk with
  | intExp value => exact joined
  | varExp name => exact joined
  | lamExp param body ih => exact ⟨ih c 0 trivial, joined⟩
  | appExp fn arg ihFn ihArg => exact ihFn _ _ (ihArg _ _ joined)
  | bopExp bop arg1 arg2 ih1 ih2 => exact ih1 _ _ (ih2 _ _ joined)
  | ifExp cond then_ els ihCond ihThen ihEls =>
    refine ihCond _ _ ⟨rfl, joined, ihThen _ _ ?_, ihEls _ _ ?_⟩
    · exact ⟨rfl, List.mem_cons_self⟩
    · exact ⟨rfl, List.mem_cons_self⟩

/-! ## Free variables -/

/-- The names a conversion binds over the term of its continuation. -/
def spine : Ast.Exp → Nat → List Var
  | .intExp _, _ => []
  | .varExp _, _ => []
  | .lamExp _ body, c => [tmp (c + body.draws)]
  | .appExp fn arg, c => spine fn c ++ spine arg (c + fn.lead) ++ [tmp (c + fn.lead + arg.lead)]
  | .bopExp _ arg1 arg2, c =>
    spine arg1 c ++ spine arg2 (c + arg1.lead) ++ [tmp (c + arg1.lead + arg2.lead)]
  | .ifExp cond _ _, c => spine cond c ++ [tmp (c + cond.lead + 1)]

/-- A value is a free variable of the expression, or a name its conversion has bound. -/
theorem value_spine (e : Ast.Exp) (c : Nat) :
    ∀ x ∈ (e.value c).names, x ∈ e.free ∨ x ∈ spine e c := by
  intro x member
  cases e with
  | intExp value => cases member
  | varExp name => exact .inl (Finset.mem_singleton.mpr (List.mem_singleton.mp member))
  | lamExp param body => exact .inr member
  | appExp fn arg => exact .inr (List.mem_append_right _ member)
  | bopExp bop arg1 arg2 => exact .inr (List.mem_append_right _ member)
  | ifExp cond then_ els => exact .inr (List.mem_append_right _ member)

section Named

variable {bop : Ast.Bop} {e1 e2 e3 : Ast.Exp}

theorem named_appExp (named : (Ast.Exp.appExp e1 e2).appliesInt = false) :
    e1.appliesInt = false ∧ e2.appliesInt = false := by
  simp only [Ast.Exp.appliesInt, Bool.or_eq_false_iff] at named
  exact ⟨named.1.2, named.2⟩

theorem named_bopExp (named : (Ast.Exp.bopExp bop e1 e2).appliesInt = false) :
    e1.appliesInt = false ∧ e2.appliesInt = false := Bool.or_eq_false_iff.mp named

theorem named_ifExp (named : (Ast.Exp.ifExp e1 e2 e3).appliesInt = false) :
    e1.appliesInt = false ∧ e2.appliesInt = false ∧ e3.appliesInt = false := by
  simp only [Ast.Exp.appliesInt, Bool.or_eq_false_iff] at named
  exact ⟨named.1.1, named.1.2, named.2⟩

end Named

/-- The term of two operands reads what they and the continuation read, less what they bind. -/
theorem operands_subset {e1 e2 : Ast.Exp} {c d : Nat} {node tk : Exp} {x : Var}
    (operands : Operands (e1.value c) (e2.value (c + e1.lead)) (tmp (c + e1.lead + e2.lead))
      node tk)
    (free1 : ∀ {tk}, x ∈ (e1.around c (e2.draws + (1 + d)) tk).free →
      x ∈ e1.free ∨ (x ∈ tk.free ∧ x ∉ spine e1 c))
    (free2 : ∀ {tk}, x ∈ (e2.around (c + e1.lead) (1 + d) tk).free →
      x ∈ e2.free ∨ (x ∈ tk.free ∧ x ∉ spine e2 (c + e1.lead)))
    (member : x ∈ (e1.around c (e2.draws + (1 + d))
      (e2.around (c + e1.lead) (1 + d) node)).free) :
    x ∈ e1.free ∪ e2.free ∨ (x ∈ tk.free ∧ x ∉ spine e1 c ++ spine e2 (c + e1.lead) ++
      [tmp (c + e1.lead + e2.lead)]) := by
  have value1 := value_spine e1 c x
  have value2 := value_spine e2 (c + e1.lead) x
  simp only [Finset.mem_union, List.mem_append, List.mem_singleton]
  rcases free1 member with first | ⟨inside, not1⟩
  · exact .inl (.inl first)
  · rcases free2 inside with second | ⟨inNode, not2⟩
    · exact .inl (.inr second)
    · rcases (operands x).mp inNode with (isFirst | isSecond) | ⟨later, ne⟩
      · exact .inl (.inl ((value1 isFirst).resolve_right not1))
      · exact .inl (.inr ((value2 isSecond).resolve_right not2))
      · grind

/-- A converted term reads no more than the source does: what it introduces, it only uses where it
is bound. -/
theorem free_around_subset {e : Ast.Exp} (named : e.appliesInt = false) {c d : Nat} {tk : Exp}
    {x : Var} (member : x ∈ (e.around c d tk).free) :
    x ∈ e.free ∨ (x ∈ tk.free ∧ x ∉ spine e c) := by
  induction e generalizing c d tk with
  | intExp value => exact .inr ⟨member, List.not_mem_nil⟩
  | varExp name => exact .inr ⟨member, List.not_mem_nil⟩
  | lamExp param body ih =>
    rcases Finset.mem_union.mp member with inBody | later
    · obtain ⟨occurs, notParam⟩ := Finset.mem_sdiff.mp inBody
      refine .inl (Finset.mem_erase.mpr ⟨fun eq => notParam (by simp [eq]), ?_⟩)
      rcases ih named occurs with free | ⟨ends, notSpine⟩
      · exact free
      · exact (value_spine body c x (List.mem_toFinset.mp ends)).resolve_right notSpine
    · obtain ⟨occurs, notName⟩ := Finset.mem_sdiff.mp later
      exact .inr ⟨occurs, fun eq => notName (Finset.mem_singleton.mpr (List.mem_singleton.mp eq))⟩
  | appExp fn arg ihFn ihArg =>
    obtain ⟨named1, named2⟩ := named_appExp named
    exact operands_subset (operands_appExp named c _ _ tk) (ihFn named1) (ihArg named2) member
  | bopExp bop arg1 arg2 ih1 ih2 =>
    obtain ⟨named1, named2⟩ := named_bopExp named
    exact operands_subset (operands_bopExp bop _ _ _ tk) (ih1 named1) (ih2 named2) member
  | ifExp cond then_ els ihCond ihThen ihEls =>
    obtain ⟨named1, named2, named3⟩ := named_ifExp named
    have branch : ∀ {e' : Ast.Exp} {m : Nat}, (x ∈ (e'.around m 0 (.jumpExp (tmp (c + cond.lead))
        (some (e'.value m)))).free → x ∈ e'.free ∨
          (x ∈ (Exp.jumpExp (tmp (c + cond.lead)) (some (e'.value m))).free ∧ x ∉ spine e' m)) →
        x ∈ (e'.around m 0 (.jumpExp (tmp (c + cond.lead)) (some (e'.value m)))).free →
        x ∈ e'.free := by
      intro e' m subset occurs
      rcases subset occurs with free | ⟨jumps, notSpine⟩
      · exact free
      · exact (value_spine e' m x (by simpa [Exp.free] using jumps)).resolve_right notSpine
    simp only [Ast.Exp.free, Finset.mem_union, spine, List.mem_append, List.mem_singleton]
    rcases ihCond named1 member with free | ⟨inside, notSpine⟩
    · exact .inl (.inl (.inl free))
    · simp only [Exp.free, Finset.mem_union, Finset.mem_sdiff, Option.toList_some,
        List.mem_toFinset, List.mem_singleton] at inside
      rcases inside with ⟨later, ne⟩ | (ends | inThen) | inEls
      · exact .inr ⟨later, fun either => either.elim notSpine ne⟩
      · exact .inl (.inl (.inl ((value_spine cond c x ends).resolve_right notSpine)))
      · exact .inl (.inl (.inr (branch (ihThen named2) inThen)))
      · exact .inl (.inr (branch (ihEls named3) inEls))

/-- The name is none of the temporaries with these numbers. -/
def NotDrawn (numbers : List Nat) (x : Var) : Prop := ∀ i ∈ numbers, x ≠ tmp i

theorem NotDrawn.mono {numbers numbers' : List Nat} {x : Var} (notDrawn : NotDrawn numbers x)
    (sub : numbers' ⊆ numbers) : NotDrawn numbers' x := fun i member => notDrawn i (sub member)

/-- A value is a name of the source, or a temporary that is drawn for it. -/
theorem value_numbers (e : Ast.Exp) (c d : Nat) :
    ∀ x ∈ (e.value c).names, x ∈ e.names ∨ ∃ i ∈ e.numbers c d, x = tmp i := by
  intro x member
  cases e with
  | intExp value => cases member
  | varExp name => exact .inl member
  | lamExp param body => exact .inr ⟨_, by simp [Ast.Exp.numbers], List.mem_singleton.mp member⟩
  | appExp fn arg => exact .inr ⟨_, by simp [Ast.Exp.numbers], List.mem_singleton.mp member⟩
  | bopExp bop arg1 arg2 => exact .inr ⟨_, by simp [Ast.Exp.numbers], List.mem_singleton.mp member⟩
  | ifExp cond then_ els => exact .inr ⟨_, by simp [Ast.Exp.numbers], List.mem_singleton.mp member⟩

/-- Source names are not hidden: what `e` and the term of the continuation read, the converted term
reads. -/
def Keeps (e : Ast.Exp) (c d : Nat) : Prop :=
  ∀ {tk : Exp}, (∀ y ∈ (e.value c).names, y ∈ tk.free) → ∀ x,
    (x ∈ e.free ∨ (x ∈ tk.free ∧ NotDrawn (e.numbers c d) x)) → x ∈ (e.around c d tk).free

/-- The step for two operands: the second is converted around the node, the first around both. -/
theorem operands_superset {e1 e2 : Ast.Exp} {c d : Nat} {node tk : Exp} {x : Var}
    (operands : Operands (e1.value c) (e2.value (c + e1.lead)) (tmp (c + e1.lead + e2.lead))
      node tk)
    (apart : ∀ y ∈ e1.names ++ e2.names, NotDrawn (e1.numbers c (e2.draws + (1 + d)) ++
      e2.numbers (c + e1.lead) (1 + d) ++ [c + e1.lead + e2.lead]) y)
    (keeps1 : Keeps e1 c (e2.draws + (1 + d))) (keeps2 : Keeps e2 (c + e1.lead) (1 + d))
    (occurs : x ∈ e1.free ∪ e2.free ∨ (x ∈ tk.free ∧ NotDrawn (e1.numbers c (e2.draws + (1 + d)) ++
      e2.numbers (c + e1.lead) (1 + d) ++ [c + e1.lead + e2.lead]) x)) :
    x ∈ (e1.around c (e2.draws + (1 + d)) (e2.around (c + e1.lead) (1 + d) node)).free := by
  have left : e1.numbers c (e2.draws + (1 + d)) ⊆ e1.numbers c (e2.draws + (1 + d)) ++
      e2.numbers (c + e1.lead) (1 + d) ++ [c + e1.lead + e2.lead] := by simp
  have right : e2.numbers (c + e1.lead) (1 + d) ⊆ e1.numbers c (e2.draws + (1 + d)) ++
      e2.numbers (c + e1.lead) (1 + d) ++ [c + e1.lead + e2.lead] := by simp
  have used2 : ∀ y ∈ (e2.value (c + e1.lead)).names, y ∈ node.free := fun y member =>
    (operands y).mpr (.inl (.inr member))
  have inside :
      ∀ y, (y ∈ e2.free ∨ (y ∈ node.free ∧ NotDrawn (e2.numbers (c + e1.lead) (1 + d)) y)) →
      y ∈ (e2.around (c + e1.lead) (1 + d) node).free := keeps2 used2
  -- the first operand's value is no name that the second operand's conversion binds
  have used1 : ∀ y ∈ (e1.value c).names, y ∈ (e2.around (c + e1.lead) (1 + d) node).free := by
    intro y member
    refine inside y (.inr ⟨(operands y).mpr (.inl (.inl member)), ?_⟩)
    rcases value_numbers e1 c (e2.draws + (1 + d)) y member with source | ⟨i, drawn, rfl⟩
    · exact (apart y (List.mem_append_left _ source)).mono right
    · intro j member' eq
      have disjoint := (List.nodup_append'.mp (List.nodup_append'.mp
        (Ast.Exp.nodup_operands e1 e2 c d (e1.nodup_numbers ..) (e2.nodup_numbers ..))).1).2.2
      exact disjoint drawn (tmp_injective eq ▸ member')
  refine keeps1 used1 x ?_
  rcases occurs with source | ⟨later, notDrawn⟩
  · rcases Finset.mem_union.mp source with first | second
    · exact .inl first
    · refine .inr ⟨inside x (.inl second), ?_⟩
      exact (apart x (List.mem_append_right _ (e2.free_subset x second))).mono left
  · refine .inr ⟨inside x (.inr ⟨(operands x).mpr (.inr ⟨later, ?_⟩), notDrawn.mono right⟩),
      notDrawn.mono left⟩
    exact notDrawn _ (List.mem_append_right _ List.mem_cons_self)

/-- On a tree whose names are apart from the temporaries drawn for it, nothing is hidden. By
induction on the tree: an operation keeps what its operands do. -/
theorem keeps_around (e : Ast.Exp) (named : e.appliesInt = false) (c d : Nat)
    (apart : ∀ y ∈ e.names, NotDrawn (e.numbers c d) y) : Keeps e c d := by
  induction e generalizing c d with
  | intExp value =>
    intro tk used x occurs
    exact (occurs.resolve_left (Finset.notMem_empty x)).1
  | varExp name =>
    intro tk used x occurs
    rcases occurs with source | ⟨later, -⟩
    · exact used x (List.mem_singleton.mpr (Finset.mem_singleton.mp source))
    · exact later
  | lamExp param body ih =>
    intro tk used x occurs
    have keeps : Keeps body c 0 := ih named c 0 fun y member =>
      (apart y (List.mem_cons_of_mem _ member)).mono (List.subset_append_left ..)
    rcases occurs with source | ⟨later, notDrawn⟩
    · obtain ⟨ne, inBody⟩ := Finset.mem_erase.mp source
      refine Finset.mem_union_left _ (Finset.mem_sdiff.mpr ⟨?_, by simpa using ne⟩)
      have ends : ∀ y ∈ (body.value c).names, y ∈ (Exp.haltExp (body.value c)).free :=
        fun y member => List.mem_toFinset.mpr member
      exact keeps ends x (.inl inBody)
    · refine Finset.mem_union_right _ (Finset.mem_sdiff.mpr ⟨later, fun eq => ?_⟩)
      exact notDrawn _ (List.mem_append_right _ List.mem_cons_self) (Finset.mem_singleton.mp eq)
  | appExp fn arg ihFn ihArg =>
    intro tk used x occurs
    obtain ⟨named1, named2⟩ := named_appExp named
    refine operands_superset (operands_appExp named c _ _ tk) apart (ihFn named1 _ _ ?_)
      (ihArg named2 _ _ ?_) occurs
    · exact fun y member => (apart y (List.mem_append_left _ member)).mono fun i drawn => by
        simp [Ast.Exp.numbers, drawn]
    · exact fun y member => (apart y (List.mem_append_right _ member)).mono fun i drawn => by
        simp [Ast.Exp.numbers, drawn]
  | bopExp bop arg1 arg2 ih1 ih2 =>
    intro tk used x occurs
    obtain ⟨named1, named2⟩ := named_bopExp named
    refine operands_superset (operands_bopExp bop _ _ _ tk) apart (ih1 named1 _ _ ?_)
      (ih2 named2 _ _ ?_) occurs
    · exact fun y member => (apart y (List.mem_append_left _ member)).mono fun i drawn => by
        simp [Ast.Exp.numbers, drawn]
    · exact fun y member => (apart y (List.mem_append_right _ member)).mono fun i drawn => by
        simp [Ast.Exp.numbers, drawn]
  | ifExp cond then_ els ihCond ihThen ihEls =>
    intro tk used x occurs
    obtain ⟨named1, named2, named3⟩ := named_ifExp named
    have sub1 : cond.numbers c (2 + d + then_.draws + els.draws) ⊆
        (Ast.Exp.ifExp cond then_ els).numbers c d := fun i drawn => by
      simp [Ast.Exp.numbers, drawn]
    have keeps1 : Keeps cond c (2 + d + then_.draws + els.draws) := ihCond named1 _ _
      fun y member => (apart y (List.mem_append_left _ (List.mem_append_left _ member))).mono sub1
    have keeps2 : Keeps then_ (c + cond.lead + 2 + d) 0 := ihThen named2 _ _ fun y member =>
      (apart y (List.mem_append_left _ (List.mem_append_right _ member))).mono fun i drawn => by
        simp [Ast.Exp.numbers, drawn]
    have keeps3 : Keeps els (c + cond.lead + 2 + d + then_.draws) 0 :=
      ihEls named3 _ _ fun y member =>
      (apart y (List.mem_append_right _ member)).mono fun i drawn => by
        simp [Ast.Exp.numbers, drawn]
    have ends : ∀ {e : Ast.Exp} {i : Nat} {j : Var}, ∀ y ∈ (e.value i).names,
        y ∈ (Exp.jumpExp j (some (e.value i))).free := by
      intro e i j y member
      simpa [Exp.free] using member
    refine keeps1 (fun y member => ?_) x ?_
    · simp only [Exp.free, Finset.mem_union, List.mem_toFinset]
      exact .inr (.inl (.inl member))
    · simp only [Ast.Exp.free, Finset.mem_union] at occurs
      simp only [Exp.free, Finset.mem_union, Finset.mem_sdiff, Option.toList_some,
        List.mem_toFinset, List.mem_singleton]
      rcases occurs with ((source | source) | source) | ⟨later, notDrawn⟩
      · exact .inl source
      · refine .inr ⟨.inr (.inl (.inr (keeps2 ends x (.inl source)))), ?_⟩
        exact (apart x (List.mem_append_left _ (List.mem_append_right _
          (then_.free_subset x source)))).mono sub1
      · refine .inr ⟨.inr (.inr (keeps3 ends x (.inl source))), ?_⟩
        exact (apart x (List.mem_append_right _ (els.free_subset x source))).mono sub1
      · refine .inr ⟨.inl ⟨later, notDrawn _ (by simp [Ast.Exp.numbers])⟩, notDrawn.mono sub1⟩

/-! ## Converted terms -/

section Converted

variable {e : Ast.Exp} {n m : Nat} {t : Exp}

/-- The converted term introduces the temporaries from the counter on, each once. -/
theorem introduced_convert (converts : convert e n = .ok (t, m)) :
    t.introduced.Perm ((List.range' n (m - n)).map tmp) := by
  have drawn : m = n + e.draws := convert_draws e _ _ _ converts
  rw [convert_around converts, drawn, Nat.add_sub_cancel_left]
  have perm := introduced_around e n 0 (.haltExp (e.value n))
  simp only [Exp.introduced, List.append_nil] at perm
  exact perm.trans ((numbers_perm e n).map tmp)

/-- No name is introduced twice. -/
theorem nodup_introduced_convert (converts : convert e n = .ok (t, m)) : t.introduced.Nodup :=
  (introduced_convert converts).nodup_iff.mpr
    ((List.nodup_range' ..).map fun _ _ => tmp_injective)

/-- The nodes of the converted term are those the tree asks for. -/
theorem nodes_convert (converts : convert e n = .ok (t, m)) : t.nodes.Perm e.nodes := by
  have perm := nodes_around e n 0 (.haltExp (e.value n))
  rwa [← convert_around converts, Exp.nodes, List.append_nil] at perm

/-- Every jump is inside its join. -/
theorem joined_convert (converts : convert e n = .ok (t, m)) : t.Joined [] :=
  convert_around converts ▸ joined_around e n 0 trivial

/-- What is converted applies no literal. -/
theorem named_of_convert (converts : convert e n = .ok (t, m)) : e.appliesInt = false := by
  by_contra applies
  obtain ⟨error, threw⟩ := convert_eq_error.mpr ((Bool.not_eq_false _).mp applies)
  cases threw.symm.trans converts

/-- Conversion makes no new free variables. -/
theorem free_convert_subset (converts : convert e n = .ok (t, m)) : t.free ⊆ e.free := by
  have named : e.appliesInt = false := named_of_convert converts
  intro x member
  rw [convert_around converts] at member
  rcases free_around_subset named member with source | ⟨ends, notSpine⟩
  · exact source
  · exact (value_spine e n x (List.mem_toFinset.mp ends)).resolve_right notSpine

end Converted

/-- On an expression that is converted, the names from `tmp n` on are introduced, each once; there
is one node for each node of the source; every join has a slot, and every jump carries a value and
is in the rest of its join; no introduced name is used out of its scope; and where no name of the
source is introduced, the free variables are those of the source. -/
theorem convertDefunc_wellFormed {e : Ast.Exp} {n m : Nat} {t : Exp}
    (ran : convertDefunc e n = .ok (t, m)) :
    t.introduced.Perm ((List.range' n (m - n)).map tmp) ∧ t.introduced.Nodup ∧
      t.nodes.Perm e.nodes ∧ t.Joined [] ∧ t.free ⊆ e.free ∧
      ((∀ x ∈ e.names, ∀ i, n ≤ i → i < m → x ≠ tmp i) →
        t.free = e.free ∧ ∀ i, n ≤ i → i < m → tmp i ∉ t.free) := by
  have converts : convert e n = .ok (t, m) := convertDefunc_eq_ok.mp ran
  have drawn : m = n + e.draws := convert_draws e _ _ _ converts
  have around : t = e.around n 0 (.haltExp (e.value n)) := convert_around converts
  have named : e.appliesInt = false := named_of_convert converts
  have subset : t.free ⊆ e.free := free_convert_subset converts
  refine ⟨introduced_convert converts, nodup_introduced_convert converts, nodes_convert converts,
    joined_convert converts, subset, fun apart => ?_⟩
  have superset : e.free ⊆ t.free := by
    intro x source
    have keeps : Keeps e n 0 := keeps_around e named n 0 fun y member i isDrawn => by
      have range := List.mem_range'_1.mp ((numbers_perm e n).mem_iff.mp isDrawn)
      exact apart y member i range.1 (by omega)
    have ends : ∀ y ∈ (e.value n).names, y ∈ (Exp.haltExp (e.value n)).free :=
      fun y member => List.mem_toFinset.mpr member
    exact around ▸ keeps ends x (.inl source)
  refine ⟨Finset.Subset.antisymm subset superset, fun i ge lt free => ?_⟩
  exact apart _ (e.free_subset _ (subset free)) i ge lt rfl

/-- A function with an `if` in it, of a free variable. -/
theorem convertDefunc_wellFormed_if :
    let t : Exp := .funExp "tmp3" ["x"]
      (.joinExp "tmp0" (some "tmp1") (.appExp "tmp2" "f" [.varValue "tmp1"]
        (.haltExp (.varValue "tmp2")))
        (.ifExp (.varValue "x") (.jumpExp "tmp0" (some (.intValue 1)))
          (.jumpExp "tmp0" (some (.varValue "x")))))
      (.haltExp (.varValue "tmp3"))
    let e : Ast.Exp := .lamExp "x" (.appExp (.varExp "f")
      (.ifExp (.varExp "x") (.intExp 1) (.varExp "x")))
    t.introduced.Perm ((List.range' 0 4).map tmp) ∧ t.introduced.Nodup ∧
      t.nodes.Perm e.nodes ∧ t.Joined [] ∧ t.free ⊆ e.free ∧
      ((∀ x ∈ e.names, ∀ i, 0 ≤ i → i < 4 → x ≠ tmp i) →
        t.free = e.free ∧ ∀ i, 0 ≤ i → i < 4 → tmp i ∉ t.free) :=
  convertDefunc_wellFormed (convertDefunc_eq_ok.mpr (by rfl))

end Anf

end Lambcalc
