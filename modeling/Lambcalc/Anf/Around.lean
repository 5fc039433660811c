import Lambcalc.Anf.DefuncCorrect
import Lambcalc.Anf.Draws
import Lambcalc.Anf.Preservation
import Lambcalc.Ast.RenameCorrect
import Lambcalc.Convert.FreeVars

/-!
# The converted term as a function of what follows it

A conversion puts the term of its continuation into a context that depends on the expression
and the counter alone. `Exp.around` is that context, so what a converted term binds, reads and
contains can be computed without the monad.
-/

namespace Lambcalc

open Anf

/-- The value of `e` that its continuation is given, if the conversion starts at `c`. -/
def Ast.Exp.value : Ast.Exp → Nat → Value
  | .intExp value, _ => .intValue value
  | .varExp name, _ => .varValue name
  | .lamExp _ body, c => .varValue (tmp (c + body.draws))
  | .appExp fn arg, c => .varValue (tmp (c + fn.lead + arg.lead))
  | .bopExp _ arg1 arg2, c => .varValue (tmp (c + arg1.lead + arg2.lead))
  | .ifExp cond _ _, c => .varValue (tmp (c + cond.lead + 1))

/-- The name an operand consists of. -/
def Anf.Value.name : Value → Var
  | .intValue _ => ""
  | .varValue var => var
  | .globValue glob => glob

/-- The conversion of `e`, started at `c`, around the term of a continuation that draws `d`
names. -/
def Ast.Exp.around : Ast.Exp → (c d : Nat) → Anf.Exp → Anf.Exp
  | .intExp _, _, _, tk => tk
  | .varExp _, _, _, tk => tk
  | .lamExp param body, c, _, tk =>
    .funExp (tmp (c + body.draws)) [param] (body.around c 0 (.haltExp (body.value c))) tk
  | .appExp fn arg, c, d, tk =>
    fn.around c (arg.draws + (1 + d)) (arg.around (c + fn.lead) (1 + d)
      (.appExp (tmp (c + fn.lead + arg.lead)) (fn.value c).name [arg.value (c + fn.lead)] tk))
  | .bopExp bop arg1 arg2, c, d, tk =>
    arg1.around c (arg2.draws + (1 + d)) (arg2.around (c + arg1.lead) (1 + d)
      (.bopExp (tmp (c + arg1.lead + arg2.lead)) bop (arg1.value c)
        (arg2.value (c + arg1.lead)) tk))
  | .ifExp cond then_ els, c, d, tk =>
    let j := c + cond.lead
    let m := j + 2 + d
    cond.around c (2 + d + then_.draws + els.draws) (.joinExp (tmp j) (some (tmp (j + 1))) tk
      (.ifExp (cond.value c) (then_.around m 0 (.jumpExp (tmp j) (some (then_.value m))))
        (els.around (m + then_.draws) 0
          (.jumpExp (tmp j) (some (els.value (m + then_.draws)))))))

namespace Anf

theorem stringValue_name {lit : String} {value : Value} {g : Var → FreshM Exp} {c : Nat}
    {result : Exp × Nat} (ran : (stringValue lit value >>= g) c = .ok result) :
    g value.name c = .ok result := by
  obtain ⟨name, rfl | rfl, ran⟩ := stringValue_bind_ok ran
  · exact ran
  · exact ran

/-- A conversion calls its continuation with the value of the expression, and builds its term
around the one the continuation returns. -/
theorem convertWith_around (e : Ast.Exp) {k : Cont} {c c' d : Nat} {t : Exp}
    (ran : convertWith e k c = .ok (t, c')) (draws : ∀ value, (k value).Draws d) :
    ∃ tk m, k (e.value c) (c + e.lead) = .ok (tk, m) ∧ t = e.around c d tk := by
  induction e generalizing k c c' d t with
  | intExp value => exact ⟨t, c', ran, rfl⟩
  | varExp name => exact ⟨t, c', ran, rfl⟩
  | lamExp param body ih =>
    obtain ⟨code, m, rest, ranBody, ranRest, rfl⟩ := convertWith_lamExp.mp ran
    obtain rfl : m = c + body.draws := convert_draws body _ _ _ ranBody
    obtain ⟨tk, m, ranHalt, rfl⟩ := ih ranBody (fun _ => .pure _)
    cases ranHalt
    exact ⟨rest, c', ranRest, rfl⟩
  | appExp fn arg ihFn ihArg =>
    rw [convertWith_appExp] at ran
    obtain ⟨tk₁, m₁, ran₁, rfl⟩ := ihFn ran fun fnValue =>
      ((stringValue_draws _ fnValue).bind fun _ =>
        convertWith_draws (buildApp_draws draws _) arg).of_eq (Nat.zero_add _)
    obtain ⟨tk₂, m₂, ran₂, rfl⟩ := ihArg (stringValue_name ran₁) (buildApp_draws draws _)
    obtain ⟨rest, ranRest, rfl⟩ := buildApp_ok.mp ran₂
    have total : c + fn.lead + arg.lead + 1 = c + (Ast.Exp.appExp fn arg).lead := by
      simp only [Ast.Exp.lead]
      omega
    rw [total] at ranRest
    exact ⟨rest, m₂, ranRest, rfl⟩
  | bopExp bop arg1 arg2 ih1 ih2 =>
    rw [convertWith_bopExp] at ran
    obtain ⟨tk₁, m₁, ran₁, rfl⟩ := ih1 ran fun arg1Value =>
      convertWith_draws (buildBop_draws draws _ _) arg2
    obtain ⟨tk₂, m₂, ran₂, rfl⟩ := ih2 ran₁ (buildBop_draws draws _ _)
    obtain ⟨rest, ranRest, rfl⟩ := buildBop_ok.mp ran₂
    have total : c + arg1.lead + arg2.lead + 1 = c + (Ast.Exp.bopExp bop arg1 arg2).lead := by
      simp only [Ast.Exp.lead]
      omega
    rw [total] at ranRest
    exact ⟨rest, m₂, ranRest, rfl⟩
  | ifExp cond then_ els ihCond ihThen ihEls =>
    rw [convertWith_ifExp] at ran
    obtain ⟨tk₁, m₁, ran₁, rfl⟩ := ihCond ran (buildIf_draws draws then_ els)
    obtain ⟨body, m, thenBranch, m', elseBranch, ranBody, ranThen, ranElse, rfl⟩ :=
      buildIf_ok.mp ran₁
    obtain rfl := draws _ _ _ _ ranBody
    obtain rfl := convertWith_draws (fun _ => .pure _) then_ _ _ _ ranThen
    obtain ⟨_, _, ranJump, rfl⟩ := ihThen ranThen (fun _ => .pure _)
    cases ranJump
    obtain ⟨_, _, ranJump, rfl⟩ := ihEls ranElse (fun _ => .pure _)
    cases ranJump
    exact ⟨body, _, ranBody, rfl⟩

/-- What a tree is converted to, written without the counter monad. -/
theorem convert_around {e : Ast.Exp} {c c' : Nat} {t : Exp} (ran : convert e c = .ok (t, c')) :
    t = e.around c 0 (.haltExp (e.value c)) := by
  obtain ⟨tk, m, ranHalt, rfl⟩ := convertWith_around e ran (fun _ => .pure _)
  cases ranHalt
  rfl

end Anf

/-! ## Free variables -/

/-- The source names of `e` are no temporaries, and no integer is applied in `e`. -/
structure Ast.Exp.Apart (e : Ast.Exp) : Prop where
  names : ∀ x ∈ e.names, ∀ i, x ≠ tmp i
  named : e.appliesInt = false

section Parts

open Ast

variable {param : String} {bop : Bop} {e e1 e2 e3 : Ast.Exp}

theorem Ast.Exp.Apart.body (apart : (lamExp param e).Apart) : e.Apart :=
  ⟨fun x member => apart.names x (List.mem_cons_of_mem _ member), apart.named⟩

theorem Ast.Exp.Apart.fn (apart : (appExp e1 e2).Apart) : e1.Apart := by
  refine ⟨fun x member => apart.names x (List.mem_append_left _ member), ?_⟩
  have named := apart.named
  simp only [appliesInt, Bool.or_eq_false_iff] at named
  exact named.1.2

theorem Ast.Exp.Apart.arg (apart : (appExp e1 e2).Apart) : e2.Apart := by
  refine ⟨fun x member => apart.names x (List.mem_append_right _ member), ?_⟩
  have named := apart.named
  simp only [appliesInt, Bool.or_eq_false_iff] at named
  exact named.2

/-- A function that is no integer has a name for its value. -/
theorem Ast.Exp.fn_value (named : (appExp e1 e2).appliesInt = false) (c : Nat) :
    (e1.value c).names = [(e1.value c).name] := by
  cases e1 with
  | intExp value => cases named
  | varExp name => rfl
  | lamExp param body => rfl
  | appExp fn arg => rfl
  | bopExp bop arg1 arg2 => rfl
  | ifExp cond then_ els => rfl

theorem Ast.Exp.Apart.arg1 (apart : (bopExp bop e1 e2).Apart) : e1.Apart :=
  ⟨fun x member => apart.names x (List.mem_append_left _ member),
    (Bool.or_eq_false_iff.mp apart.named).1⟩

theorem Ast.Exp.Apart.arg2 (apart : (bopExp bop e1 e2).Apart) : e2.Apart :=
  ⟨fun x member => apart.names x (List.mem_append_right _ member),
    (Bool.or_eq_false_iff.mp apart.named).2⟩

theorem Ast.Exp.Apart.cond (apart : (ifExp e1 e2 e3).Apart) : e1.Apart :=
  ⟨fun x member => apart.names x (List.mem_append_left _ (List.mem_append_left _ member)),
    (Bool.or_eq_false_iff.mp (Bool.or_eq_false_iff.mp apart.named).1).1⟩

theorem Ast.Exp.Apart.then_ (apart : (ifExp e1 e2 e3).Apart) : e2.Apart :=
  ⟨fun x member => apart.names x (List.mem_append_left _ (List.mem_append_right _ member)),
    (Bool.or_eq_false_iff.mp (Bool.or_eq_false_iff.mp apart.named).1).2⟩

theorem Ast.Exp.Apart.els (apart : (ifExp e1 e2 e3).Apart) : e3.Apart :=
  ⟨fun x member => apart.names x (List.mem_append_right _ member),
    (Bool.or_eq_false_iff.mp apart.named).2⟩

end Parts

/-- Free variables are names of the tree. -/
theorem Ast.Exp.free_subset (e : Ast.Exp) : ∀ x ∈ e.free, x ∈ e.names := by
  induction e with
  | intExp value => exact fun x member => absurd member (Finset.notMem_empty x)
  | varExp name => exact fun x member => List.mem_singleton.mpr (Finset.mem_singleton.mp member)
  | lamExp param body ih =>
    exact fun x member => List.mem_cons_of_mem _ (ih x (Finset.mem_of_mem_erase member))
  | appExp fn arg ihFn ihArg =>
    intro x member
    rcases Finset.mem_union.mp member with member | member
    · exact List.mem_append_left _ (ihFn x member)
    · exact List.mem_append_right _ (ihArg x member)
  | bopExp bop arg1 arg2 ih1 ih2 =>
    intro x member
    rcases Finset.mem_union.mp member with member | member
    · exact List.mem_append_left _ (ih1 x member)
    · exact List.mem_append_right _ (ih2 x member)
  | ifExp cond then_ els ihCond ihThen ihEls =>
    intro x member
    rcases Finset.mem_union.mp member with member | member
    · rcases Finset.mem_union.mp member with member | member
      · exact List.mem_append_left _ (List.mem_append_left _ (ihCond x member))
      · exact List.mem_append_left _ (List.mem_append_right _ (ihThen x member))
    · exact List.mem_append_right _ (ihEls x member)

/-- Parameters are names of the tree. -/
theorem Ast.Exp.params_subset (e : Ast.Exp) : e.params ⊆ e.names := by
  induction e with
  | intExp value => exact List.Subset.refl _
  | varExp name => exact List.nil_subset _
  | lamExp param body ih => exact List.cons_subset_cons _ ih
  | appExp fn arg ihFn ihArg =>
    exact List.append_subset.mpr ⟨List.subset_append_of_subset_left _ ihFn,
      List.subset_append_of_subset_right _ ihArg⟩
  | bopExp bop arg1 arg2 ih1 ih2 =>
    exact List.append_subset.mpr ⟨List.subset_append_of_subset_left _ ih1,
      List.subset_append_of_subset_right _ ih2⟩
  | ifExp cond then_ els ihCond ihThen ihEls =>
    refine List.append_subset.mpr ⟨List.append_subset.mpr ⟨?_, ?_⟩, ?_⟩
    · exact List.subset_append_of_subset_left _ (List.subset_append_of_subset_left _ ihCond)
    · exact List.subset_append_of_subset_left _ (List.subset_append_of_subset_right _ ihThen)
    · exact List.subset_append_of_subset_right _ ihEls

/-- No temporary is free in a tree that is apart from them. -/
theorem Ast.Exp.Apart.free {e : Ast.Exp} (apart : e.Apart) (i : Nat) : tmp i ∉ e.free :=
  fun occurs => apart.names _ (e.free_subset _ occurs) i rfl

namespace Anf

/-- `x` is one of the `n` temporaries from `c` on. -/
def Drawn (c n : Nat) (x : Var) : Prop := ∃ i, c ≤ i ∧ i < c + n ∧ x = tmp i

@[simp] theorem drawn_tmp {c n i : Nat} : Drawn c n (tmp i) ↔ c ≤ i ∧ i < c + n := by
  constructor
  · intro drawn
    obtain ⟨j, low, high, eq⟩ := drawn
    cases tmp_injective eq
    exact ⟨low, high⟩
  · exact fun range => ⟨i, range.1, range.2, rfl⟩

@[simp] theorem not_drawn_zero {c : Nat} {x : Var} : ¬ Drawn c 0 x := by
  intro drawn
  obtain ⟨i, low, high, -⟩ := drawn
  omega

/-- A drawn temporary is none of the free variables. -/
theorem Drawn.not_mem {e : Ast.Exp} (apart : e.Apart) {c n : Nat} {x : Var}
    (drawn : Drawn c n x) : x ∉ e.free := by
  obtain ⟨i, -, -, rfl⟩ := drawn
  exact apart.free i

/-- A value is a literal, a free variable or a temporary drawn for it. -/
theorem value_names (e : Ast.Exp) (c : Nat) :
    ∀ x ∈ (e.value c).names, x ∈ e.free ∨ Drawn c e.lead x := by
  cases e with
  | intExp value => exact fun x member => nomatch member
  | varExp name =>
    exact fun x member => .inl (Finset.mem_singleton.mpr (List.mem_singleton.mp member))
  | lamExp param body =>
    intro x member
    obtain rfl := List.mem_singleton.mp member
    refine .inr (drawn_tmp.mpr ?_)
    simp only [Ast.Exp.lead]
    omega
  | appExp fn arg =>
    intro x member
    obtain rfl := List.mem_singleton.mp member
    refine .inr (drawn_tmp.mpr ?_)
    simp only [Ast.Exp.lead]
    omega
  | bopExp bop arg1 arg2 =>
    intro x member
    obtain rfl := List.mem_singleton.mp member
    refine .inr (drawn_tmp.mpr ?_)
    simp only [Ast.Exp.lead]
    omega
  | ifExp cond then_ els =>
    intro x member
    obtain rfl := List.mem_singleton.mp member
    refine .inr (drawn_tmp.mpr ?_)
    simp only [Ast.Exp.lead]
    omega

/-- A term that uses `value`, and otherwise no temporary from `c` on. -/
structure Fits (value : Value) (c : Nat) (tk : Exp) : Prop where
  used : ∀ x ∈ value.names, x ∈ tk.free
  outer : ∀ i, tmp i ∈ tk.free → i < c ∨ tmp i ∈ value.names

theorem Fits.haltExp (value : Value) (c : Nat) : Fits value c (.haltExp value) :=
  ⟨fun _ member => List.mem_toFinset.mpr member, fun _ member => .inr (List.mem_toFinset.mp member)⟩

theorem Fits.jumpExp (joinName : Var) (value : Value) (c : Nat) :
    Fits value c (.jumpExp joinName (some value)) := by
  constructor
  · intro x member
    simpa [Exp.free] using member
  · intro i member
    exact .inr (by simpa [Exp.free] using member)

/-- The term of an operator, or of an application, is around a term with these free names. -/
def Operands (value1 value2 : Value) (name : Var) (node tk : Exp) : Prop :=
  ∀ x, x ∈ node.free ↔ (x ∈ value1.names ∨ x ∈ value2.names) ∨ (x ∈ tk.free ∧ x ≠ name)

/-- The operands of an application are the function and the argument. -/
theorem operands_appExp {e1 e2 : Ast.Exp} (named : (Ast.Exp.appExp e1 e2).appliesInt = false)
    (c : Nat)
    (value2 : Value) (name : Var) (tk : Exp) :
    Operands (e1.value c) value2 name (.appExp name (e1.value c).name [value2] tk) tk := by
  intro x
  simp [Exp.free, Ast.Exp.fn_value named, or_assoc]

/-- The operands of an operation. -/
theorem operands_bopExp (bop : Ast.Bop) (value1 value2 : Value) (name : Var) (tk : Exp) :
    Operands value1 value2 name (.bopExp name bop value1 value2 tk) tk := by
  intro x
  simp [Exp.free, or_assoc]

section Operands

variable {e1 e2 : Ast.Exp} {c d : Nat} {node tk : Exp}

/-- The node of an operation can follow its second operand. -/
theorem Operands.second (apart1 : e1.Apart)
    (operands : Operands (e1.value c) (e2.value (c + e1.lead)) (tmp (c + e1.lead + e2.lead))
      node tk)
    (fits : Fits (.varValue (tmp (c + e1.lead + e2.lead))) c tk) :
    Fits (e2.value (c + e1.lead)) (c + e1.lead) node := by
  constructor
  · exact fun x member => (operands x).mpr (.inl (.inr member))
  · intro i member
    rcases (operands _).mp member with (isFirst | isSecond) | ⟨later, ne⟩
    · rcases value_names e1 c _ isFirst with free | drawn
      · exact absurd free (apart1.free i)
      · exact .inl (drawn_tmp.mp drawn).2
    · exact .inr isSecond
    · rcases fits.outer i later with lt | eq
      · exact .inl (by omega)
      · exact absurd (List.mem_singleton.mp eq) ne

/-- The conversion of the second operand, with the node, can follow the first operand. -/
theorem Operands.first (apart1 : e1.Apart) (apart2 : e2.Apart)
    (operands : Operands (e1.value c) (e2.value (c + e1.lead)) (tmp (c + e1.lead + e2.lead))
      node tk)
    (fits : Fits (.varValue (tmp (c + e1.lead + e2.lead))) c tk)
    (free2 : ∀ x, x ∈ (e2.around (c + e1.lead) (1 + d) node).free ↔
      x ∈ e2.free ∨ (x ∈ node.free ∧ ¬ Drawn (c + e1.lead) e2.lead x)) :
    Fits (e1.value c) c (e2.around (c + e1.lead) (1 + d) node) := by
  constructor
  · intro x member
    refine (free2 x).mpr (.inr ⟨(operands x).mpr (.inl (.inl member)), fun drawn2 => ?_⟩)
    obtain ⟨i, low, high, rfl⟩ := drawn2
    rcases value_names e1 c _ member with free | drawn
    · exact apart1.free i free
    · have := (drawn_tmp.mp drawn).2
      omega
  · intro i member
    rcases (free2 _).mp member with free | ⟨inNode, notDrawn⟩
    · exact absurd free (apart2.free i)
    · rcases (operands _).mp inNode with (isFirst | isSecond) | ⟨later, ne⟩
      · exact .inr isFirst
      · rcases value_names e2 _ _ isSecond with free | drawn
        · exact absurd free (apart2.free i)
        · exact absurd drawn notDrawn
      · rcases fits.outer i later with lt | eq
        · exact .inl lt
        · exact absurd (List.mem_singleton.mp eq) ne

/-- What two operands and their node draw is what each of them draws. -/
theorem drawn_operands {n1 n2 : Nat} {x : Var} :
    Drawn c (n1 + n2 + 1) x ↔ Drawn c n1 x ∨ Drawn (c + n1) n2 x ∨ x = tmp (c + n1 + n2) := by
  constructor
  · intro drawn
    obtain ⟨i, low, high, rfl⟩ := drawn
    rw [drawn_tmp, drawn_tmp]
    by_cases eq : i = c + n1 + n2
    · exact .inr (.inr (eq ▸ rfl))
    · omega
  · intro either
    rcases either with ⟨i, low, high, rfl⟩ | ⟨i, low, high, rfl⟩ | rfl <;>
      exact drawn_tmp.mpr (by omega)

/-- The free variables of an operation: those of the operands, and those of the continuation less
what the operands and the node draw. -/
theorem Operands.free (apart2 : e2.Apart)
    (operands : Operands (e1.value c) (e2.value (c + e1.lead)) (tmp (c + e1.lead + e2.lead))
      node tk)
    {t inner : Exp} (free1 : ∀ x, x ∈ t.free ↔ x ∈ e1.free ∨ (x ∈ inner.free ∧ ¬ Drawn c e1.lead x))
    (free2 : ∀ x, x ∈ inner.free ↔
      x ∈ e2.free ∨ (x ∈ node.free ∧ ¬ Drawn (c + e1.lead) e2.lead x)) (x : Var) :
    x ∈ t.free ↔ x ∈ e1.free ∪ e2.free ∨ (x ∈ tk.free ∧ ¬ Drawn c (e1.lead + e2.lead + 1) x) := by
  have value1 := value_names e1 c x
  have value2 := value_names e2 (c + e1.lead) x
  have source2 : Drawn c e1.lead x → x ∉ e2.free := fun drawn => drawn.not_mem apart2
  rw [free1, free2, operands x, drawn_operands, Finset.mem_union]
  grind

end Operands

/-- The term of an `if`, after its condition, is around a term with these free names. -/
def Branching (value : Value) (e2 e3 : Ast.Exp) (slot : Var) (node tk : Exp) : Prop :=
  ∀ x, x ∈ node.free ↔
    (x ∈ value.names ∨ x ∈ e2.free ∨ x ∈ e3.free) ∨ (x ∈ tk.free ∧ x ≠ slot)

/-- An `If` is converted to a branching: the join of the continuation and the two branches. -/
theorem branching_joinExp {e2 e3 : Ast.Exp} {thenBranch elseBranch : Exp}
    (free2 : ∀ x, x ∈ thenBranch.free ↔ x ∈ e2.free)
    (free3 : ∀ x, x ∈ elseBranch.free ↔ x ∈ e3.free) (value : Value) (joinName slot : Var)
    (tk : Exp) : Branching value e2 e3 slot
      (.joinExp joinName (some slot) tk (.ifExp value thenBranch elseBranch)) tk := by
  intro x
  simp only [Exp.free, Finset.mem_union, Finset.mem_sdiff, free2, free3, List.mem_toFinset,
    Option.toList_some, List.mem_singleton]
  tauto

/-- The branching can follow the condition. -/
theorem Branching.first {e1 e2 e3 : Ast.Exp} {c : Nat} {node tk : Exp} (apart2 : e2.Apart)
    (apart3 : e3.Apart)
    (branching : Branching (e1.value c) e2 e3 (tmp (c + e1.lead + 1)) node tk)
    (fits : Fits (.varValue (tmp (c + e1.lead + 1))) c tk) : Fits (e1.value c) c node := by
  constructor
  · exact fun x member => (branching x).mpr (.inl (.inl member))
  · intro i member
    rcases (branching _).mp member with (isFirst | free2 | free3) | ⟨later, ne⟩
    · exact .inr isFirst
    · exact absurd free2 (apart2.free i)
    · exact absurd free3 (apart3.free i)
    · rcases fits.outer i later with lt | eq
      · exact .inl lt
      · exact absurd (List.mem_singleton.mp eq) ne

/-- A term that ends in the value of `e` reads the free variables of `e`. -/
theorem free_of_end {e : Ast.Exp} {c : Nat} {t : Exp} {x : Var}
    (free : x ∈ t.free ↔ x ∈ e.free ∨ (x ∈ (e.value c).names ∧ ¬ Drawn c e.lead x)) :
    x ∈ t.free ↔ x ∈ e.free := by
  rw [free, or_iff_left_iff_imp]
  exact fun ends => (value_names e c x ends.1).resolve_right ends.2

/-- A conversion binds the temporaries it draws before its continuation, and reads the free
variables of the expression. -/
theorem mem_free_around (e : Ast.Exp) (apart : e.Apart) {c d : Nat} {tk : Exp}
    (fits : Fits (e.value c) c tk) (x : Var) :
    x ∈ (e.around c d tk).free ↔ x ∈ e.free ∨ (x ∈ tk.free ∧ ¬ Drawn c e.lead x) := by
  induction e generalizing c d tk x with
  | intExp value => simp [Ast.Exp.around, Ast.Exp.free, Ast.Exp.lead]
  | varExp name =>
    have used := fits.used name (List.mem_singleton_self name)
    simp only [Ast.Exp.around, Ast.Exp.free, Ast.Exp.lead, not_drawn_zero, Finset.mem_singleton]
    grind
  | lamExp param body ih =>
    have free : ∀ x, x ∈ (body.around c 0 (.haltExp (body.value c))).free ↔ x ∈ body.free := by
      intro x
      apply free_of_end (c := c)
      simpa [Exp.free] using ih apart.body (Fits.haltExp (body.value c) c) x (d := 0)
    -- the name of the function is the only one of its temporaries that is read later
    have later : x ∈ tk.free → (Drawn c (body.draws + 1) x ↔ x = tmp (c + body.draws)) := by
      intro occurs
      constructor
      · intro drawn
        obtain ⟨i, low, -, rfl⟩ := drawn
        exact List.mem_singleton.mp ((fits.outer i occurs).resolve_left (by omega))
      · intro eq
        exact eq ▸ drawn_tmp.mpr (by omega)
    simp only [Ast.Exp.around, Exp.free, Ast.Exp.free, Ast.Exp.lead, Finset.mem_union,
      Finset.mem_sdiff, free, Finset.mem_erase, Finset.mem_singleton, List.toFinset_cons,
      List.toFinset_nil, Finset.insert_empty]
    grind
  | appExp fn arg ihFn ihArg =>
    have operands := operands_appExp apart.named c (arg.value (c + fn.lead))
      (tmp (c + fn.lead + arg.lead)) tk
    have free2 := ihArg apart.arg (d := 1 + d) (operands.second apart.fn fits)
    exact operands.free apart.arg (ihFn apart.fn (operands.first apart.fn apart.arg fits free2))
      free2 x
  | bopExp bop arg1 arg2 ih1 ih2 =>
    have operands := operands_bopExp bop (arg1.value c) (arg2.value (c + arg1.lead))
      (tmp (c + arg1.lead + arg2.lead)) tk
    have free2 := ih2 apart.arg2 (d := 1 + d) (operands.second apart.arg1 fits)
    exact operands.free apart.arg2 (ih1 apart.arg1 (operands.first apart.arg1 apart.arg2 fits
      free2)) free2 x
  | ifExp cond then_ els ihCond ihThen ihEls =>
    have freeThen : ∀ m x, x ∈ (then_.around m 0 (.jumpExp (tmp (c + cond.lead))
        (some (then_.value m)))).free ↔ x ∈ then_.free := by
      intro m x
      apply free_of_end (c := m)
      simpa [Exp.free] using ihThen apart.then_ (Fits.jumpExp _ (then_.value m) m) x (d := 0)
    have freeEls : ∀ m x, x ∈ (els.around m 0 (.jumpExp (tmp (c + cond.lead))
        (some (els.value m)))).free ↔ x ∈ els.free := by
      intro m x
      apply free_of_end (c := m)
      simpa [Exp.free] using ihEls apart.els (Fits.jumpExp _ (els.value m) m) x (d := 0)
    have branching := branching_joinExp (freeThen (c + cond.lead + 2 + d))
      (freeEls (c + cond.lead + 2 + d + then_.draws)) (cond.value c) (tmp (c + cond.lead))
      (tmp (c + cond.lead + 1)) tk
    have free := ihCond apart.cond (d := 2 + d + then_.draws + els.draws)
      (branching.first apart.then_ apart.els fits) x
    have value := value_names cond c x
    have source2 : Drawn c cond.lead x → x ∉ then_.free := fun drawn => drawn.not_mem apart.then_
    have source3 : Drawn c cond.lead x → x ∉ els.free := fun drawn => drawn.not_mem apart.els
    -- the number of the join is not the one of a value
    have later : x ∈ tk.free → (Drawn c (cond.lead + 2) x ↔
        Drawn c cond.lead x ∨ x = tmp (c + cond.lead + 1)) := by
      intro occurs
      constructor
      · intro drawn
        obtain ⟨i, low, -, rfl⟩ := drawn
        exact .inr (List.mem_singleton.mp ((fits.outer i occurs).resolve_left (by omega)))
      · intro either
        rcases either with ⟨i, low, high, rfl⟩ | rfl
        · exact drawn_tmp.mpr (by omega)
        · exact drawn_tmp.mpr (by omega)
    rw [Ast.Exp.around, free, branching x, Ast.Exp.lead, Ast.Exp.free, Finset.mem_union,
      Finset.mem_union]
    grind

/-- A function body reads the free variables of the expression. -/
theorem mem_free_haltExp {e : Ast.Exp} (apart : e.Apart) (c : Nat) (x : Var) :
    x ∈ (e.around c 0 (.haltExp (e.value c))).free ↔ x ∈ e.free := by
  apply free_of_end (c := c)
  simpa [Exp.free] using mem_free_around e apart (Fits.haltExp (e.value c) c) x (d := 0)

/-- And so does a branch. -/
theorem mem_free_jumpExp {e : Ast.Exp} (apart : e.Apart) (joinName : Var) (c : Nat) (x : Var) :
    x ∈ (e.around c 0 (.jumpExp joinName (some (e.value c)))).free ↔ x ∈ e.free := by
  apply free_of_end (c := c)
  simpa [Exp.free] using mem_free_around e apart (Fits.jumpExp joinName (e.value c) c) x (d := 0)

/-! ## Bound names -/

end Anf

/-- The numbers the conversion of `e` draws when it starts at `c` and its continuation draws
`d` names, in the order of their binders. -/
def Ast.Exp.numbers : Ast.Exp → (c d : Nat) → List Nat
  | .intExp _, _, _ => []
  | .varExp _, _, _ => []
  | .lamExp _ body, c, _ => body.numbers c 0 ++ [c + body.draws]
  | .appExp fn arg, c, d =>
    fn.numbers c (arg.draws + (1 + d)) ++ arg.numbers (c + fn.lead) (1 + d) ++
      [c + fn.lead + arg.lead]
  | .bopExp _ arg1 arg2, c, d =>
    arg1.numbers c (arg2.draws + (1 + d)) ++ arg2.numbers (c + arg1.lead) (1 + d) ++
      [c + arg1.lead + arg2.lead]
  | .ifExp cond then_ els, c, d =>
    let m := c + cond.lead + 2 + d
    cond.numbers c (2 + d + then_.draws + els.draws) ++ [c + cond.lead, c + cond.lead + 1] ++
      then_.numbers m 0 ++ els.numbers (m + then_.draws) 0

/-- The names drawn before the continuation are among those drawn. -/
theorem Ast.Exp.lead_le_draws (e : Ast.Exp) : e.lead ≤ e.draws := by
  induction e with
  | intExp value => exact le_rfl
  | varExp name => exact le_rfl
  | lamExp param body ih => exact le_rfl
  | appExp fn arg ihFn ihArg =>
    simp only [lead, draws]
    omega
  | bopExp bop arg1 arg2 ih1 ih2 =>
    simp only [lead, draws]
    omega
  | ifExp cond then_ els ihCond ihThen ihEls =>
    simp only [lead, draws]
    omega

/-- `i` is drawn by the conversion, before its continuation or after it. -/
def Ast.Exp.InRange (e : Ast.Exp) (c d i : Nat) : Prop :=
  (c ≤ i ∧ i < c + e.lead) ∨ (c + e.lead + d ≤ i ∧ i < c + e.draws + d)

/-- The numbers drawn for a tree lie in the ranges the conversion leaves to it. -/
theorem Ast.Exp.numbers_range (e : Ast.Exp) (c d : Nat) : ∀ i ∈ e.numbers c d, e.InRange c d i := by
  unfold InRange
  induction e generalizing c d with
  | intExp value => exact fun i member => nomatch member
  | varExp name => exact fun i member => nomatch member
  | lamExp param body ih =>
    intro i member
    simp only [numbers, List.mem_append, List.mem_singleton] at member
    simp only [lead, draws]
    rcases member with member | rfl
    · have := ih c 0 i member
      have := body.lead_le_draws
      omega
    · omega
  | appExp fn arg ihFn ihArg =>
    intro i member
    have := arg.lead_le_draws
    have := fn.lead_le_draws
    simp only [numbers, List.mem_append, List.mem_singleton] at member
    simp only [lead, draws]
    rcases member with (member | member) | rfl
    · have := ihFn _ _ i member
      omega
    · have := ihArg _ _ i member
      omega
    · omega
  | bopExp bop arg1 arg2 ih1 ih2 =>
    intro i member
    have := arg1.lead_le_draws
    have := arg2.lead_le_draws
    simp only [numbers, List.mem_append, List.mem_singleton] at member
    simp only [lead, draws]
    rcases member with (member | member) | rfl
    · have := ih1 _ _ i member
      omega
    · have := ih2 _ _ i member
      omega
    · omega
  | ifExp cond then_ els ihCond ihThen ihEls =>
    intro i member
    have := cond.lead_le_draws
    have := then_.lead_le_draws
    have := els.lead_le_draws
    simp only [numbers, List.mem_append, List.mem_cons, List.not_mem_nil, or_false] at member
    simp only [lead, draws]
    rcases member with ((member | rfl | rfl) | member) | member
    · have := ihCond _ _ i member
      omega
    · omega
    · omega
    · have := ihThen _ _ i member
      omega
    · have := ihEls _ _ i member
      omega

/-- Two operands and the node draw different numbers. -/
theorem Ast.Exp.nodup_operands (e1 e2 : Ast.Exp) (c d : Nat)
    (nodup1 : (e1.numbers c (e2.draws + (1 + d))).Nodup)
    (nodup2 : (e2.numbers (c + e1.lead) (1 + d)).Nodup) :
    (e1.numbers c (e2.draws + (1 + d)) ++ e2.numbers (c + e1.lead) (1 + d) ++
      [c + e1.lead + e2.lead]).Nodup := by
  have le1 := e1.lead_le_draws
  have le2 := e2.lead_le_draws
  refine List.nodup_append'.mpr ⟨List.nodup_append'.mpr ⟨nodup1, nodup2, ?_⟩,
    List.nodup_singleton _, ?_⟩
  · intro i left right
    have range1 := e1.numbers_range _ _ i left
    have range2 := e2.numbers_range _ _ i right
    unfold InRange at range1 range2
    omega
  · intro i member isName
    cases List.mem_singleton.mp isName
    rcases List.mem_append.mp member with member | member
    · have range1 := e1.numbers_range _ _ _ member
      unfold InRange at range1
      omega
    · have range2 := e2.numbers_range _ _ _ member
      unfold InRange at range2
      omega

/-- No number is drawn twice. -/
theorem Ast.Exp.nodup_numbers (e : Ast.Exp) (c d : Nat) : (e.numbers c d).Nodup := by
  induction e generalizing c d with
  | intExp value => exact .nil
  | varExp name => exact .nil
  | lamExp param body ih =>
    refine List.nodup_append'.mpr ⟨ih c 0, List.nodup_singleton _, fun i member isName => ?_⟩
    cases List.mem_singleton.mp isName
    have range := body.numbers_range _ _ _ member
    have le := body.lead_le_draws
    unfold InRange at range
    omega
  | appExp fn arg ihFn ihArg => exact nodup_operands fn arg c d (ihFn ..) (ihArg ..)
  | bopExp bop arg1 arg2 ih1 ih2 => exact nodup_operands arg1 arg2 c d (ih1 ..) (ih2 ..)
  | ifExp cond then_ els ihCond ihThen ihEls =>
    have le1 := cond.lead_le_draws
    have le2 := then_.lead_le_draws
    have le3 := els.lead_le_draws
    have own : [c + cond.lead, c + cond.lead + 1].Nodup := by simp
    refine List.nodup_append'.mpr ⟨List.nodup_append'.mpr ⟨List.nodup_append'.mpr
      ⟨ihCond .., own, ?_⟩, ihThen .., ?_⟩, ihEls .., ?_⟩
    · intro i left right
      have range := cond.numbers_range _ _ i left
      simp only [List.mem_cons, List.not_mem_nil, or_false] at right
      unfold InRange at range
      omega
    · intro i left right
      have range2 := then_.numbers_range _ _ i right
      unfold InRange at range2
      rcases List.mem_append.mp left with left | left
      · have range := cond.numbers_range _ _ i left
        unfold InRange at range
        omega
      · simp only [List.mem_cons, List.not_mem_nil, or_false] at left
        omega
    · intro i left right
      have range3 := els.numbers_range _ _ i right
      unfold InRange at range3
      rcases List.mem_append.mp left with left | left
      · rcases List.mem_append.mp left with left | left
        · have range := cond.numbers_range _ _ i left
          unfold InRange at range
          omega
        · simp only [List.mem_cons, List.not_mem_nil, or_false] at left
          omega
      · have range2 := then_.numbers_range _ _ i left
        unfold InRange at range2
        omega

namespace Anf

/-- A conversion binds the parameters of the expression and the temporaries it draws. -/
theorem boundNames_around (e : Ast.Exp) (c d : Nat) (tk : Exp) :
    (e.around c d tk).boundNames.Perm (e.params ++ (e.numbers c d).map tmp ++ tk.boundNames) := by
  rw [List.perm_iff_count]
  induction e generalizing c d tk with
  | intExp value => exact fun x => rfl
  | varExp name => exact fun x => rfl
  | lamExp param body ih =>
    intro x
    have inBody := ih c 0 (.haltExp (body.value c)) x
    simp only [Ast.Exp.around, Exp.boundNames, Ast.Exp.params, Ast.Exp.numbers, List.count_append,
      List.count_cons, List.map_append, List.map_cons, List.map_nil, List.count_nil] at inBody ⊢
    omega
  | appExp fn arg ihFn ihArg =>
    intro x
    simp only [Ast.Exp.around, ihFn, ihArg, Exp.boundNames, Ast.Exp.params, Ast.Exp.numbers,
      List.count_append, List.count_cons, List.map_append, List.map_cons, List.map_nil,
      List.count_nil]
    omega
  | bopExp bop arg1 arg2 ih1 ih2 =>
    intro x
    simp only [Ast.Exp.around, ih1, ih2, Exp.boundNames, Ast.Exp.params, Ast.Exp.numbers,
      List.count_append, List.count_cons, List.map_append, List.map_cons, List.map_nil,
      List.count_nil]
    omega
  | ifExp cond then_ els ihCond ihThen ihEls =>
    intro x
    simp only [Ast.Exp.around, ihCond, ihThen, ihEls, Exp.boundNames, Ast.Exp.params,
      Ast.Exp.numbers, List.count_append, List.count_cons, List.map_append, List.map_cons,
      List.map_nil, List.count_nil, Option.toList_some]
    omega

/-- The A-normal form of a closed expression with distinct parameters, none of them a
temporary, is tidy. -/
theorem tidy_around {e : Ast.Exp} (closed : e.Closed) (apart : e.Apart)
    (distinct : e.params.Nodup) (c : Nat) :
    (e.around c 0 (.haltExp (e.value c))).Tidy := by
  have bound := boundNames_around e c 0 (.haltExp (e.value c))
  rw [Exp.boundNames, List.append_nil] at bound
  constructor
  · refine bound.nodup_iff.mpr (List.nodup_append'.mpr ⟨distinct, ?_, fun x isParam isTmp => ?_⟩)
    · exact (e.nodup_numbers c 0).map fun i j eq => tmp_injective eq
    · obtain ⟨i, -, rfl⟩ := List.mem_map.mp isTmp
      exact apart.names _ (e.params_subset isParam) i rfl
  · intro x occurs
    have free := (mem_free_haltExp apart c x).mp occurs
    rw [closed] at free
    cases free

end Anf

end Lambcalc
