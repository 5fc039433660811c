import Lambcalc.Anf.DefuncCorrect
import Lambcalc.Anf.Draws
import Lambcalc.Ast.Alpha

/-!
# Temporaries and renamed parameters

`rename` and the converter name things independently of each other, the one by a suffix that
counts from zero in every program, the other by a suffix that never restarts. This module
says when the two meet.

Which occurrence of the converted term stands for which source variable is read off the
conversion of `marked e`, the tree with the parameter of the lambda visited `i`-th replaced
by `mark i`, a name that neither the lexer nor a pass makes: the converter goes the same way
on both trees. `Resolves` compares the two terms binder by binder.
-/

namespace Lambcalc

namespace Anf

open Ast (suffixed)

/-! ## Marked programs -/

/-- The mark of the lambda visited `i`-th. -/
def mark (i : Nat) : String := "#" ++ toString i

theorem mark_injective {i j : Nat} (eq : mark i = mark j) : i = j :=
  Lib.append_toString_injective eq

theorem mark_ne_tmp (i j : Nat) : mark i ≠ tmp j := by
  intro eq
  have heads := congrArg (fun s : String => s.toList.head?) eq
  simp [mark, tmp] at heads

/-- `e` with every parameter replaced by the mark of its lambda. -/
def marked (e : Ast.Exp) : Ast.Exp := e.relabel (fun _ i => mark i) id 0

/-- Marking changes nothing but the names: every variable of `marked e` bears the mark of the
lambda that bound it in `e`. -/
theorem alphaEq_marked {e : Ast.Exp} (closed : e.Closed) : Ast.AlphaEq [] e (marked e) := by
  refine Ast.alphaEq_relabel ?_ (List.disjoint_nil_left _) ?_
  · intro x member
    rw [closed] at member
    cases member
  · have marks : (fun x : String × Nat => mark x.2) = mark ∘ Prod.snd := rfl
    rw [Ast.Exp.visited_relabel, marks, ← List.map_map, List.zipIdx_map_snd]
    exact (List.nodup_range' ..).map fun _ _ => mark_injective

/-! ## What should hold of the converted term -/

/-- The innermost binder of `x` in `scope` is paired with `x'`. The first component of a pair
is the binder in the marked term. -/
def BoundTo : List (Var × Var) → Var → Var → Prop
  | [], _, _ => False
  | (b', b) :: scope, x', x => if x = b then x' = b' else BoundTo scope x' x

/-- If `x'` is a mark, then `x` refers to the parameter this mark stands for. -/
def Refers (scope : List (Var × Var)) (x' x : Var) : Prop :=
  ∀ i, x' = mark i → BoundTo scope x' x

/-- `Refers` for operands. -/
def Value.Refers (scope : List (Var × Var)) : Value → Value → Prop
  | .varValue x', .varValue x => Anf.Refers scope x' x
  | .intValue m, .intValue n => m = n
  | .globValue g', .globValue g => g' = g
  | _, _ => False

/-- The term `t` has the shape of the marked term `t'`, and wherever `t'` has the mark of a
lambda, the name in `t` refers to the parameter of the function made of that lambda. -/
def Resolves : List (Var × Var) → (t' t : Exp) → Prop
  | scope, .haltExp v', .haltExp v => v'.Refers scope v
  | scope, .funExp f' params' body' rest', .funExp f params body rest =>
    params'.length = params.length ∧ Resolves (params'.zip params ++ scope) body' body ∧
      Resolves ((f', f) :: scope) rest' rest
  | scope, .joinExp _ slot' body' rest', .joinExp _ slot body rest =>
    Resolves (slot'.toList.zip slot.toList ++ scope) body' body ∧ Resolves scope rest' rest
  | scope, .jumpExp _ value', .jumpExp _ value =>
    List.Forall₂ (Value.Refers scope) value'.toList value.toList
  | scope, .appExp x' f' args' rest', .appExp x f args rest =>
    Refers scope f' f ∧ List.Forall₂ (Value.Refers scope) args' args ∧
      Resolves ((x', x) :: scope) rest' rest
  | scope, .bopExp x' bop' a' b' rest', .bopExp x bop a b rest =>
    bop' = bop ∧ a'.Refers scope a ∧ b'.Refers scope b ∧ Resolves ((x', x) :: scope) rest' rest
  | scope, .ifExp v' then' else', .ifExp v then_ else_ =>
    v'.Refers scope v ∧ Resolves scope then' then_ ∧ Resolves scope else' else_
  | scope, .tupleExp x' values' rest', .tupleExp x values rest =>
    List.Forall₂ (Value.Refers scope) values' values ∧ Resolves ((x', x) :: scope) rest' rest
  | scope, .projExp x' tuple' i' rest', .projExp x tuple i rest =>
    Refers scope tuple' tuple ∧ i' = i ∧ Resolves ((x', x) :: scope) rest' rest
  | _, _, _ => False

/-- No function binds a value, at any depth, under the name of one of its parameters. -/
def ParamsApart : Exp → Prop
  | .haltExp _ => True
  | .funExp _ params body rest =>
    (∀ param ∈ params, param ∉ body.valueNames) ∧ ParamsApart body ∧ ParamsApart rest
  | .joinExp _ _ body rest => ParamsApart body ∧ ParamsApart rest
  | .jumpExp _ _ => True
  | .appExp _ _ _ rest => ParamsApart rest
  | .bopExp _ _ _ _ rest => ParamsApart rest
  | .ifExp _ thenBranch elseBranch => ParamsApart thenBranch ∧ ParamsApart elseBranch
  | .tupleExp _ _ rest => ParamsApart rest
  | .projExp _ _ _ rest => ParamsApart rest

/-! ## The conditions on the source -/

/-- The occurrence of `x` under the lambdas of `scope`, each with its number, keeps its binder:
no lambda between the two is renamed to the name the binder of `x` is. -/
def Uncaptured : List (String × Nat) → String → Prop
  | [], _ => True
  | (q, j) :: scope, x =>
    q = x ∨ (∀ i, scope.lookup x = some i → ¬ Lib.Overlap (Ast.data x) i (Ast.data q) j) ∧
      Uncaptured scope x

end Anf

/-- `Uncaptured` for all occurrences of `e`, whose first visited lambda has number `i`. -/
def Ast.Exp.NoCapture : Ast.Exp → List (String × Nat) → Nat → Prop
  | .intExp _, _, _ => True
  | .varExp name, scope, _ => Anf.Uncaptured scope name
  | .lamExp param body, scope, i => body.NoCapture ((param, i) :: scope) (i + 1)
  | .appExp fn arg, scope, i => fn.NoCapture scope (i + arg.lambdas) ∧ arg.NoCapture scope i
  | .bopExp _ arg1 arg2, scope, i =>
    arg1.NoCapture scope (i + arg2.lambdas) ∧ arg2.NoCapture scope i
  | .ifExp cond then_ els, scope, i =>
    cond.NoCapture scope (i + els.lambdas + then_.lambdas) ∧
      then_.NoCapture scope (i + els.lambdas) ∧ els.NoCapture scope i

/-- No lambda of `e` is renamed to a temporary drawn for a value of its own body. The first
visited lambda has number `i`, the conversion starts at `c` and its continuation draws `d`
names. -/
def Ast.Exp.KeepsTemps : Ast.Exp → (i c d : Nat) → Prop
  | .intExp _, _, _, _ => True
  | .varExp _, _, _, _ => True
  | .lamExp param body, i, c, _ =>
    (∀ j ∈ body.valueDraws c 0, ¬ Lib.Overlap (Ast.data param) i "tmp" j) ∧
      body.KeepsTemps (i + 1) c 0
  | .appExp fn arg, i, c, d =>
    fn.KeepsTemps (i + arg.lambdas) c (arg.draws + (1 + d)) ∧
      arg.KeepsTemps i (c + fn.lead) (1 + d)
  | .bopExp _ arg1 arg2, i, c, d =>
    arg1.KeepsTemps (i + arg2.lambdas) c (arg2.draws + (1 + d)) ∧
      arg2.KeepsTemps i (c + arg1.lead) (1 + d)
  | .ifExp cond then_ els, i, c, d =>
    let m := c + cond.lead + 2 + d
    cond.KeepsTemps (i + els.lambdas + then_.lambdas) c (2 + d + then_.draws + els.draws) ∧
      then_.KeepsTemps (i + els.lambdas) m 0 ∧ els.KeepsTemps i (m + then_.draws) 0

namespace Anf

open Ast (suffixed)

/-! ## Parameters and the temporaries of their bodies -/

section Relabelling

variable (label : String → Nat → String) (e : Ast.Exp) (σ : String → String) (i : Nat)

/-- How much is drawn does not depend on names. -/
@[simp] theorem draws_relabel : (e.relabel label σ i).draws = e.draws := by
  induction e generalizing σ i with
  | intExp => rfl
  | varExp => rfl
  | lamExp param body ih => simp only [Ast.Exp.relabel, Ast.Exp.draws, ih]
  | appExp fn arg ihFn ihArg => simp only [Ast.Exp.relabel, Ast.Exp.draws, ihFn, ihArg]
  | bopExp bop arg1 arg2 ih1 ih2 => simp only [Ast.Exp.relabel, Ast.Exp.draws, ih1, ih2]
  | ifExp cond then_ els ihCond ihThen ihEls =>
    simp only [Ast.Exp.relabel, Ast.Exp.draws, ihCond, ihThen, ihEls]

@[simp] theorem lead_relabel : (e.relabel label σ i).lead = e.lead := by
  induction e generalizing σ i with
  | intExp => rfl
  | varExp => rfl
  | lamExp param body ih => simp only [Ast.Exp.relabel, Ast.Exp.lead, draws_relabel]
  | appExp fn arg ihFn ihArg => simp only [Ast.Exp.relabel, Ast.Exp.lead, ihFn, ihArg]
  | bopExp bop arg1 arg2 ih1 ih2 => simp only [Ast.Exp.relabel, Ast.Exp.lead, ih1, ih2]
  | ifExp cond then_ els ihCond ihThen ihEls =>
    simp only [Ast.Exp.relabel, Ast.Exp.lead, ihCond]

/-- Which numbers are drawn for values does not depend on names. -/
@[simp] theorem valueDraws_relabel (c d : Nat) :
    (e.relabel label σ i).valueDraws c d = e.valueDraws c d := by
  induction e generalizing σ i c d with
  | intExp => rfl
  | varExp => rfl
  | lamExp param body ih => simp only [Ast.Exp.relabel, Ast.Exp.valueDraws, draws_relabel, ih]
  | appExp fn arg ihFn ihArg =>
    simp only [Ast.Exp.relabel, Ast.Exp.valueDraws, draws_relabel, lead_relabel, ihFn, ihArg]
  | bopExp bop arg1 arg2 ih1 ih2 =>
    simp only [Ast.Exp.relabel, Ast.Exp.valueDraws, draws_relabel, lead_relabel, ih1, ih2]
  | ifExp cond then_ els ihCond ihThen ihEls =>
    simp only [Ast.Exp.relabel, Ast.Exp.valueDraws, draws_relabel, lead_relabel, ihCond, ihThen,
      ihEls]

end Relabelling

/-- When a renamed parameter is a temporary. -/
theorem suffixed_eq_tmp_iff {param : String} {i j : Nat} :
    suffixed param i = tmp j ↔ Lib.Overlap (Ast.data param) i "tmp" j :=
  Lib.append_toString_eq_iff_of_last (c := 'p') (by decide) (by decide)

/-- The parameters of a converted tree are apart exactly if each lambda's renamed parameter is
none of the temporaries its body draws, and the continuation's term has them apart. -/
theorem paramsApart_convertWith (e : Ast.Exp) {k : Cont} {σ : String → String} {i c c' d : Nat}
    {t : Exp} (ran : convertWith (e.relabel suffixed σ i) k c = .ok (t, c'))
    (draws : ∀ value, (k value).Draws d) :
    ∃ value tk m, k value (c + e.lead) = .ok (tk, m) ∧
      (ParamsApart t ↔ e.KeepsTemps i c d ∧ ParamsApart tk) := by
  induction e generalizing k σ i c c' d t with
  | intExp value => exact ⟨_, t, c', ran, fun apart => ⟨trivial, apart⟩, And.right⟩
  | varExp name => exact ⟨_, t, c', ran, fun apart => ⟨trivial, apart⟩, And.right⟩
  | lamExp param body ih =>
    obtain ⟨code, m, rest, ranBody, ranRest, rfl⟩ := convertWith_lamExp.mp ran
    obtain rfl : m = c + body.draws := by simpa using convert_draws _ _ _ _ ranBody
    refine ⟨_, rest, c', ranRest, ?_⟩
    obtain ⟨_, _, _, ranHalt, apart⟩ := ih ranBody (fun _ => .pure _)
    cases ranHalt
    obtain ⟨_, _, _, ranHalt, names⟩ := convertWith_lands _ ranBody (fun _ => .pure _)
    cases ranHalt
    have drawn : ∀ x, x ∈ code.valueNames ↔ ∃ j ∈ body.valueDraws c 0, tmp j = x := by
      intro x
      rw [names.mem_iff]
      simp [Exp.valueNames]
    have misses : (∀ p ∈ [suffixed param i], p ∉ code.valueNames) ↔
        ∀ j ∈ body.valueDraws c 0, ¬ Lib.Overlap (Ast.data param) i "tmp" j := by
      simp only [List.forall_mem_singleton, drawn, not_exists, not_and, ← suffixed_eq_tmp_iff]
      exact forall₂_congr fun _ _ => not_congr eq_comm
    rw [ParamsApart, misses, apart, Ast.Exp.KeepsTemps]
    simp only [ParamsApart, and_true, and_assoc]
  | appExp fn arg ihFn ihArg =>
    rw [Ast.Exp.relabel, convertWith_appExp] at ran
    obtain ⟨fnValue, tk₁, m₁, ran₁, apart₁⟩ := ihFn ran fun fnValue =>
      ((stringValue_draws _ fnValue).bind fun _ =>
        convertWith_draws (buildApp_draws draws _) _).of_eq (Nat.zero_add _)
    obtain ⟨fnName, -, ran₁⟩ := stringValue_bind_ok ran₁
    obtain ⟨argValue, tk₂, m₂, ran₂, apart₂⟩ := ihArg ran₁ (buildApp_draws draws _)
    obtain ⟨rest, ranRest, rfl⟩ := buildApp_ok.mp ran₂
    refine ⟨.varValue _, rest, m₂, by simpa only [Ast.Exp.lead, Nat.add_assoc] using ranRest, ?_⟩
    rw [apart₁, apart₂, draws_relabel, Ast.Exp.KeepsTemps, ParamsApart, and_assoc]
  | bopExp bop arg1 arg2 ih1 ih2 =>
    rw [Ast.Exp.relabel, convertWith_bopExp] at ran
    obtain ⟨arg1Value, tk₁, m₁, ran₁, apart₁⟩ := ih1 ran fun arg1Value =>
      convertWith_draws (buildBop_draws draws _ _) _
    obtain ⟨arg2Value, tk₂, m₂, ran₂, apart₂⟩ := ih2 ran₁ (buildBop_draws draws _ _)
    obtain ⟨rest, ranRest, rfl⟩ := buildBop_ok.mp ran₂
    refine ⟨.varValue _, rest, m₂, by simpa only [Ast.Exp.lead, Nat.add_assoc] using ranRest, ?_⟩
    rw [apart₁, apart₂, draws_relabel, Ast.Exp.KeepsTemps, ParamsApart, and_assoc]
  | ifExp cond then_ els ihCond ihThen ihEls =>
    rw [Ast.Exp.relabel, convertWith_ifExp] at ran
    obtain ⟨condValue, tk₁, m₁, ran₁, apart₁⟩ := ihCond ran (buildIf_draws draws _ _)
    obtain ⟨body, m, thenBranch, m', elseBranch, ranBody, ranThen, ranElse, rfl⟩ :=
      buildIf_ok.mp ran₁
    obtain rfl := draws _ _ _ _ ranBody
    obtain rfl : m' = c + cond.lead + 2 + d + then_.draws := by
      simpa using convertWith_draws (fun _ => .pure _) _ _ _ _ ranThen
    obtain ⟨_, _, _, ranJump, apartThen⟩ := ihThen ranThen (fun _ => .pure _)
    cases ranJump
    obtain ⟨_, _, _, ranJump, apartElse⟩ := ihEls ranElse (fun _ => .pure _)
    cases ranJump
    refine ⟨_, body, _, ranBody, ?_⟩
    rw [apart₁, draws_relabel, draws_relabel, ParamsApart, ParamsApart, apartThen, apartElse,
      Ast.Exp.KeepsTemps]
    simp only [ParamsApart, and_true]
    tauto

/-! ## Where occurrences point -/

/-- What the two terms call the lambdas of a scope. -/
def binders (scope : List (String × Nat)) : List (Var × Var) :=
  scope.map fun (p, i) => (mark i, suffixed p i)

theorem BoundTo.mem {S : List (Var × Var)} {x' x : Var} (bound : BoundTo S x' x) :
    (x', x) ∈ S := by
  induction S with
  | nil => cases bound
  | cons pair S ih =>
    obtain ⟨b', b⟩ := pair
    rw [BoundTo] at bound
    split at bound
    · next same => exact List.mem_cons.mpr (.inl (by rw [bound, same]))
    · exact List.mem_cons_of_mem _ (ih bound)

/-- The lambdas of `scope` are numbered upwards from the outermost one, all below `i`. -/
def Numbered (scope : List (String × Nat)) (i : Nat) : Prop :=
  (scope.Pairwise fun inner outer => outer.2 < inner.2) ∧ ∀ entry ∈ scope, entry.2 < i

theorem Numbered.mono {scope : List (String × Nat)} {i j : Nat} (numbered : Numbered scope i)
    (le : i ≤ j) : Numbered scope j :=
  ⟨numbered.1, fun entry member => (numbered.2 entry member).trans_le le⟩

/-- Entering a lambda with the next number. -/
theorem Numbered.cons {scope : List (String × Nat)} {i : Nat} (param : String)
    (numbered : Numbered scope i) : Numbered ((param, i) :: scope) (i + 1) := by
  refine ⟨List.pairwise_cons.mpr ⟨numbered.2, numbered.1⟩, ?_⟩
  intro entry member
  rcases List.mem_cons.mp member with rfl | member
  · exact Nat.lt_succ_self i
  · exact (numbered.2 entry member).trans (Nat.lt_succ_self i)

theorem mem_of_lookup {scope : List (String × Nat)} {x : String} {i : Nat}
    (found : scope.lookup x = some i) : (x, i) ∈ scope := by
  obtain ⟨before, after, split, -⟩ := List.lookup_eq_some_iff.mp found
  simp [split]

/-- The renamed occurrence of a variable points to its binder exactly if it is uncaptured. -/
theorem boundTo_binders_iff {scope : List (String × Nat)} {x : String} {i j : Nat}
    (numbered : Numbered scope j) (found : scope.lookup x = some i) :
    BoundTo (binders scope) (mark i) (suffixed x i) ↔ Uncaptured scope x := by
  induction scope generalizing j with
  | nil => cases found
  | cons entry scope ih =>
    obtain ⟨q, n⟩ := entry
    obtain ⟨⟨inner, sorted⟩, below⟩ := And.imp_left List.pairwise_cons.mp numbered
    rw [binders, List.map_cons, BoundTo, Uncaptured]
    by_cases same : x = q
    · subst same
      obtain rfl : n = i := by simpa using found
      simp
    · have found' : scope.lookup x = some i := by
        rwa [List.lookup_cons, beq_false_of_ne same] at found
      have lt : i < n := inner _ (mem_of_lookup found')
      have names : suffixed x i = suffixed q n ↔ Lib.Overlap (Ast.data x) i (Ast.data q) n :=
        Lib.append_toString_eq_iff_of_le lt.le
      have ne : mark i ≠ mark n := fun eq => lt.ne (mark_injective eq)
      have tail := ih ⟨sorted, fun entry member => inner entry member⟩ found'
      by_cases overlap : Lib.Overlap (Ast.data x) i (Ast.data q) n
      · rw [if_pos (names.mpr overlap)]
        refine iff_of_false ne ?_
        rintro (same' | ⟨apart, -⟩)
        · exact same same'.symm
        · exact apart i found' overlap
      · rw [if_neg fun eq => overlap (names.mp eq)]
        refine tail.trans ⟨fun rest => .inr ⟨?_, rest⟩, ?_⟩
        · intro i' found''
          cases found'.symm.trans found''
          exact overlap
        · rintro (same' | ⟨-, rest⟩)
          · exact absurd same'.symm same
          · exact rest

/-- The scope of the terms resolves names for marks as that of the lambdas does. -/
def Agrees (S : List (Var × Var)) (scope : List (String × Nat)) : Prop :=
  ∀ i x, BoundTo S (mark i) x ↔ BoundTo (binders scope) (mark i) x

/-- Binding a parameter in the terms and in the scope. -/
theorem Agrees.param {S : List (Var × Var)} {scope : List (String × Nat)}
    (agrees : Agrees S scope) (param : String) (i : Nat) :
    Agrees ((mark i, suffixed param i) :: S) ((param, i) :: scope) := by
  intro n x
  rw [binders, List.map_cons, BoundTo, BoundTo]
  split
  · rfl
  · exact agrees n x

/-- Binding a temporary that is no parameter in scope changes nothing for the parameters. -/
theorem Agrees.temp {S : List (Var × Var)} {scope : List (String × Nat)} {m m' : Nat}
    (agrees : Agrees S scope) (fresh : tmp m ∉ (binders scope).map Prod.snd) :
    Agrees ((tmp m', tmp m) :: S) scope := by
  intro n x
  rw [BoundTo]
  split
  · next same =>
    refine iff_of_false (mark_ne_tmp n m') fun bound => fresh ?_
    exact same ▸ List.mem_map_of_mem bound.mem
  · exact agrees n x

theorem Agrees.refers {S : List (Var × Var)} {scope : List (String × Nat)}
    (agrees : Agrees S scope) (x' x : Var) : Refers S x' x ↔ Refers (binders scope) x' x := by
  constructor
  · intro refers i eq
    subst eq
    exact (agrees i x).mp (refers i rfl)
  · intro refers i eq
    subst eq
    exact (agrees i x).mpr (refers i rfl)

/-- Values refer alike where the scopes agree. -/
theorem Agrees.valueRefers {S : List (Var × Var)} {scope : List (String × Nat)}
    (agrees : Agrees S scope) (v' v : Value) :
    v'.Refers S v ↔ v'.Refers (binders scope) v := by
  cases v' <;> cases v <;> first | rfl | exact agrees.refers ..

/-- A temporary on the left stands for no parameter and refers to anything. -/
theorem refers_tmp (S : List (Var × Var)) (m : Nat) (x : Var) : Refers S (tmp m) x :=
  fun i eq => absurd eq.symm (mark_ne_tmp i m)

/-- The operands a continuation is given for one source expression: equal literals, or two
names. -/
def Value.Corresponds : Value → Value → Prop
  | .intValue m, .intValue n => m = n
  | .varValue _, .varValue _ => True
  | _, _ => False

theorem Value.corresponds_var (x' x : Var) :
    (Value.varValue x').Corresponds (.varValue x) := trivial

/-- The terms of two continuations resolve exactly if the operand they are given does and
`Q` holds. -/
def ContResolves (k' k : Cont) (scope : List (String × Nat)) (Q : Prop) : Prop :=
  ∀ {S : List (Var × Var)} {v' v : Value} {c' c m' m : Nat} {t' t : Exp},
    Agrees S scope → v'.Corresponds v → k' v' c' = .ok (t', m') → k v c = .ok (t, m) →
    (∀ x ∈ t.valueNames, x ∉ (binders scope).map Prod.snd) → ParamsApart t →
    (Resolves S t' t ↔ v'.Refers S v ∧ Q)

theorem ContResolves.halt (scope : List (String × Nat)) :
    ContResolves haltCont haltCont scope True := by
  rintro S v' v c' c m' m t' t agrees corresponds ⟨⟩ ⟨⟩ fresh apart
  exact (iff_of_eq (and_true _)).symm

theorem ContResolves.jump (scope : List (String × Nat)) (join' join : Var) :
    ContResolves (jumpCont join') (jumpCont join) scope True := by
  rintro S v' v c' c m' m t' t agrees corresponds ⟨⟩ ⟨⟩ fresh apart
  simp [Resolves]

section Building

variable {k' k : Cont} {scope : List (String × Nat)} {Q : Prop}

/-- An application resolves if its function does and what follows does. -/
theorem ContResolves.buildApp (conts : ContResolves k' k scope Q) (f' f : Var) :
    ContResolves (buildApp k' f') (buildApp k f) scope (Refers (binders scope) f' f ∧ Q) := by
  intro S v' v c' c m' m t' t agrees corresponds ran' ran fresh apart
  obtain ⟨rest', ranRest', rfl⟩ := buildApp_ok.mp ran'
  obtain ⟨rest, ranRest, rfl⟩ := buildApp_ok.mp ran
  have agrees' : Agrees ((tmp c', tmp c) :: S) scope :=
    agrees.temp (fresh _ List.mem_cons_self)
  have rests := conts agrees' (Value.corresponds_var ..) ranRest' ranRest
    (fun x member => fresh x (List.mem_cons_of_mem _ member)) apart
  rw [Resolves, rests, agrees.refers]
  have operand := refers_tmp ((tmp c', tmp c) :: S) c' (tmp c)
  simp only [List.forall₂_cons, List.Forall₂.nil, and_true, Value.Refers, operand, true_and]
  tauto

/-- An operation resolves if its first operand does and what follows does. -/
theorem ContResolves.buildBop (conts : ContResolves k' k scope Q) (bop : Ast.Bop)
    (a' a : Value) : ContResolves (buildBop k' bop a') (buildBop k bop a) scope
      (a'.Refers (binders scope) a ∧ Q) := by
  intro S v' v c' c m' m t' t agrees corresponds ran' ran fresh apart
  obtain ⟨rest', ranRest', rfl⟩ := buildBop_ok.mp ran'
  obtain ⟨rest, ranRest, rfl⟩ := buildBop_ok.mp ran
  have agrees' : Agrees ((tmp c', tmp c) :: S) scope :=
    agrees.temp (fresh _ List.mem_cons_self)
  have rests := conts agrees' (Value.corresponds_var ..) ranRest' ranRest
    (fun x member => fresh x (List.mem_cons_of_mem _ member)) apart
  have result := refers_tmp ((tmp c', tmp c) :: S) c' (tmp c)
  rw [Resolves, rests, agrees.valueRefers a']
  simp only [Value.Refers, result, true_and]
  tauto

end Building

/-- `σ'` and `σ` name the variables of `dom` as the two trees name their binders. -/
def Names (scope : List (String × Nat)) (dom : Finset String) (σ' σ : String → String) : Prop :=
  ∀ x ∈ dom, ∃ i, scope.lookup x = some i ∧ σ' x = mark i ∧ σ x = suffixed x i

theorem Names.mono {scope : List (String × Nat)} {dom dom' : Finset String}
    {σ' σ : String → String} (names : Names scope dom σ' σ) (sub : dom' ⊆ dom) :
    Names scope dom' σ' σ :=
  fun x member => names x (sub member)

/-- In the body, the parameter is known under its mark and its new name. -/
theorem Names.body {scope : List (String × Nat)} {param : String} {body : Ast.Exp} {i : Nat}
    {σ' σ : String → String} (names : Names scope (Ast.Exp.lamExp param body).free σ' σ) :
    Names ((param, i) :: scope) body.free (Function.update σ' param (mark i))
      (Function.update σ param (suffixed param i)) := by
  intro x member
  by_cases eq : x = param
  · subst eq
    exact ⟨i, by simp, by simp, by simp⟩
  · rw [Function.update_of_ne eq, Function.update_of_ne eq, List.lookup_cons, beq_false_of_ne eq]
    exact names x (Finset.mem_erase.mpr ⟨eq, member⟩)

/-- The marked conversion and the real one, of the same expression, resolve exactly if none of
its occurrences is captured and the terms of the continuations resolve. -/
theorem resolves_convertWith (e : Ast.Exp) {k' k : Cont} {scope : List (String × Nat)} {Q : Prop}
    {σ' σ : String → String} {i c' c m' m : Nat} {t' t : Exp} {S : List (Var × Var)}
    (conts : ContResolves k' k scope Q) (names : Names scope e.free σ' σ)
    (numbered : Numbered scope i) (agrees : Agrees S scope)
    (ran' : convertWith (e.relabel (fun _ i => mark i) σ' i) k' c' = .ok (t', m'))
    (ran : convertWith (e.relabel suffixed σ i) k c = .ok (t, m))
    (fresh : ∀ x ∈ t.valueNames, x ∉ (binders scope).map Prod.snd) (apart : ParamsApart t) :
    Resolves S t' t ↔ e.NoCapture scope i ∧ Q := by
  induction e generalizing k' k scope Q σ' σ i c' c m' m t' t S with
  | intExp value =>
    have corresponds : (Value.intValue value).Corresponds (.intValue value) := rfl
    rw [conts agrees corresponds ran' ran fresh apart]
    exact and_congr_left fun _ => iff_of_true rfl trivial
  | varExp name =>
    obtain ⟨n, found, eq', eq⟩ := names name (Finset.mem_singleton_self name)
    rw [Ast.Exp.relabel, convertWith, eq'] at ran'
    rw [Ast.Exp.relabel, convertWith, eq] at ran
    rw [conts agrees (Value.corresponds_var ..) ran' ran fresh apart]
    refine and_congr_left fun _ => ?_
    rw [Ast.Exp.NoCapture, ← boundTo_binders_iff numbered found, ← agrees n]
    exact ⟨fun refers => refers n rfl, fun bound j eq => mark_injective eq ▸ bound⟩
  | lamExp param body ih =>
    obtain ⟨code', n', rest', ranBody', ranRest', rfl⟩ := convertWith_lamExp.mp ran'
    obtain ⟨code, n, rest, ranBody, ranRest, rfl⟩ := convertWith_lamExp.mp ran
    obtain ⟨missing, apartBody, apartRest⟩ := apart
    have freshRest : ∀ x ∈ rest.valueNames, x ∉ (binders scope).map Prod.snd := fun x member =>
      fresh x (List.mem_cons_of_mem _ (List.mem_append_right _ member))
    have freshBody : ∀ x ∈ code.valueNames,
        x ∉ (binders ((param, i) :: scope)).map Prod.snd := by
      intro x member bound
      rcases List.mem_cons.mp bound with rfl | bound
      · exact missing _ (List.mem_singleton_self _) member
      · exact fresh x (List.mem_cons_of_mem _ (List.mem_append_left _ member)) bound
    have bodies := ih (ContResolves.halt _) names.body (numbered.cons param) (agrees.param param i)
      ranBody'
      ranBody freshBody apartBody
    have agrees' : Agrees ((tmp n', tmp n) :: S) scope := agrees.temp (fresh _ List.mem_cons_self)
    have rests := conts agrees' (Value.corresponds_var ..) ranRest' ranRest freshRest apartRest
    have result := refers_tmp ((tmp n', tmp n) :: S) n' (tmp n)
    rw [Resolves, rests, List.zip_cons_cons, List.zip_nil_left, List.singleton_append, bodies]
    simp only [Value.Refers, result, List.length_singleton, true_and, and_true]
    rfl
  | appExp fn arg ihFn ihArg =>
    rw [Ast.Exp.relabel, convertWith_appExp] at ran' ran
    refine (ihFn (Q := arg.NoCapture scope i ∧ Q) ?_ (names.mono Finset.subset_union_left)
      (numbered.mono (Nat.le_add_right ..)) agrees ran' ran fresh apart).trans and_assoc.symm
    -- both conversions go on with the names of their operands
    intro S v' v c' c m' m t' t agrees corresponds ran' ran fresh apart
    obtain ⟨f', operand', ran'⟩ := stringValue_bind_ok ran'
    obtain ⟨f, operand, ran⟩ := stringValue_bind_ok ran
    have operands : v'.Refers S v ↔ Refers (binders scope) f' f := by
      rw [agrees.valueRefers]
      rcases operand' with rfl | rfl <;> rcases operand with rfl | rfl <;> cases corresponds
      rfl
    rw [ihArg (conts.buildApp f' f) (names.mono Finset.subset_union_right) numbered agrees ran' ran
      fresh apart, operands]
    tauto
  | bopExp bop arg1 arg2 ih1 ih2 =>
    rw [Ast.Exp.relabel, convertWith_bopExp] at ran' ran
    refine (ih1 (Q := arg2.NoCapture scope i ∧ Q) ?_ (names.mono Finset.subset_union_left)
      (numbered.mono (Nat.le_add_right ..)) agrees ran' ran fresh apart).trans and_assoc.symm
    intro S v' v c' c m' m t' t agrees corresponds ran' ran fresh apart
    rw [ih2 (conts.buildBop bop v' v) (names.mono Finset.subset_union_right) numbered agrees ran'
      ran fresh apart, agrees.valueRefers]
    tauto
  | ifExp cond then_ els ihCond ihThen ihEls =>
    rw [Ast.Exp.relabel, convertWith_ifExp] at ran' ran
    have below : Numbered scope (i + els.lambdas) := numbered.mono (Nat.le_add_right ..)
    refine (ihCond (Q := then_.NoCapture scope (i + els.lambdas) ∧ els.NoCapture scope i ∧ Q) ?_
      (names.mono (Finset.subset_union_left.trans Finset.subset_union_left))
      (below.mono (Nat.le_add_right ..)) agrees ran' ran fresh apart).trans ?_
    · intro S v' v c' c m' m t' t agrees corresponds ran' ran fresh apart
      obtain ⟨body', _, then', _, else', ranBody', ranThen', ranElse', rfl⟩ := buildIf_ok.mp ran'
      obtain ⟨body, _, thenBranch, _, elseBranch, ranBody, ranThen, ranElse, rfl⟩ :=
        buildIf_ok.mp ran
      obtain ⟨apartBody, apartThen, apartElse⟩ := apart
      simp only [Exp.valueNames, Option.toList, List.mem_append, List.mem_singleton] at fresh
      have agrees' : Agrees ((tmp (c' + 1), tmp (c + 1)) :: S) scope :=
        agrees.temp (fresh _ (.inl (.inl rfl)))
      have bodies := conts agrees' (Value.corresponds_var ..) ranBody' ranBody
        (fun x member => fresh x (.inl (.inr member))) apartBody
      have thens := ihThen (ContResolves.jump scope _ _)
        (names.mono (Finset.subset_union_right.trans Finset.subset_union_left)) below agrees
        ranThen' ranThen (fun x member => fresh x (.inr (.inl member))) apartThen
      have elses := ihEls (ContResolves.jump scope _ _) (names.mono Finset.subset_union_right)
        numbered agrees
        ranElse' ranElse (fun x member => fresh x (.inr (.inr member))) apartElse
      have slot := refers_tmp ((tmp (c' + 1), tmp (c + 1)) :: S) (c' + 1) (tmp (c + 1))
      rw [Resolves, Resolves, thens, elses]
      simp only [Option.toList, List.zip_cons_cons, List.zip_nil_left, List.singleton_append,
        bodies, Value.Refers, slot, true_and, and_true]
      tauto
    · rw [Ast.Exp.NoCapture]
      tauto

/-! ## Whole programs -/

/-- What is renamed and then converted, with the counter at any value `n`, has every occurrence
of a source variable refer to the parameter of the lambda that bound it, and binds no
temporary under a parameter of the same name, exactly if no renamed parameter captures an
occurrence and no lambda is renamed to a temporary its body draws. -/
theorem convert_respects_binders_iff (e : Ast.Exp) (n n' : Nat) (closed : e.Closed)
    (e' : Ast.Exp) (ρ : Ast.RenameMap) (renamed : Ast.rename e = some (.returned e' ρ)) (t : Exp)
    (ran : convertDefunc e' n = .ok (t, n')) :
    ∃ t', convertDefunc (marked e) n = .ok (t', n') ∧
      ((Resolves [] t' t ∧ ParamsApart t) ↔ e.NoCapture [] 0 ∧ e.KeepsTemps 0 n 0) := by
  cases (Ast.rename_eq_relabel closed).symm.trans renamed
  rw [convertDefunc_eq_ok] at ran
  have named : e.appliesInt = false := by
    by_contra applies
    obtain ⟨error, threw⟩ : ∃ error, convert (e.relabel suffixed id 0) n = .error error :=
      convert_eq_error.mpr (by simpa using applies)
    cases threw.symm.trans ran
  obtain ⟨⟨t', m⟩, ran'⟩ := convertWith_returns (e := marked e) (k := haltCont)
    (by rw [marked, Ast.Exp.appliesInt_relabel, named]) (fun _ _ => .pure _) n
  obtain rfl : m = n' := by
    rw [convert_draws _ _ _ _ ran', convert_draws _ _ _ _ ran, marked, draws_relabel,
      draws_relabel]
  refine ⟨t', convertDefunc_eq_ok.mpr ran', ?_⟩
  obtain ⟨_, _, _, ranHalt, apart⟩ := paramsApart_convertWith e ran (fun _ => .pure _)
  cases ranHalt
  have apartIff : ParamsApart t ↔ e.KeepsTemps 0 n 0 := by simpa [ParamsApart] using apart
  rw [← apartIff]
  refine and_congr_left fun apart => ?_
  have names : Names [] e.free id id := by
    intro x member
    rw [closed] at member
    cases member
  have resolves := resolves_convertWith e (ContResolves.halt []) names
    ⟨.nil, fun _ member => nomatch member⟩
    (fun _ _ => .rfl) ran' ran (fun _ _ member => nomatch member) apart
  exact resolves.trans (iff_of_eq (and_true _))

/-- What `nested` is converted to. -/
def nestedTerm : Exp :=
  .funExp "tmp4" ["x0"]
    (.funExp "tmp1" ["y1"]
      (.bopExp "tmp0" .plus (.varValue "x0") (.varValue "y1") (.haltExp (.varValue "tmp0")))
      (.bopExp "tmp2" .plus (.varValue "x0") (.intValue 2)
        (.appExp "tmp3" "tmp1" [.varValue "tmp2"] (.haltExp (.varValue "tmp3")))))
    (.appExp "tmp5" "tmp4" [.intValue 3] (.haltExp (.varValue "tmp5")))

theorem convertDefunc_nested :
    convertDefunc (Ast.nested.relabel suffixed id 0) 0 = .ok (nestedTerm, 6) := by
  decide

theorem convert_respects_binders_iff_nested :
    ∃ t', convertDefunc (marked Ast.nested) 0 = .ok (t', 6) ∧
      Resolves [] t' nestedTerm ∧ ParamsApart nestedTerm := by
  rcases convert_respects_binders_iff Ast.nested 0 6 (by decide) _ _
    (Ast.rename_eq_relabel (by decide)) _ convertDefunc_nested with ⟨t', ran, respects⟩
  have apart : ∀ p ∈ Ast.nested.params, ∀ q i j, Ast.data p ≠ q →
      ¬ Lib.Overlap (Ast.data p) i q j := fun p isParam q i j ne overlap =>
    ne (overlap.of_letters (Ast.letters_data Ast.nested_letters isParam)).1
  have x_apart := apart "x" (by decide)
  have y_apart := apart "y" (by decide)
  refine ⟨t', ran, respects.mpr ⟨?_, ?_⟩⟩
  · have inner : Uncaptured [("y", 1), ("x", 0)] "x" :=
      .inr ⟨fun i _ => x_apart _ _ _ (by decide), .inl rfl⟩
    exact ⟨⟨⟨inner, .inl rfl⟩, .inl rfl, trivial⟩, trivial⟩
  · exact ⟨⟨fun j _ => x_apart _ _ _ (by decide),
      ⟨fun j _ => y_apart _ _ _ (by decide), trivial, trivial⟩, trivial, trivial⟩, trivial⟩

/-- `fn tmp => (1 + 2) + tmp`. -/
def tmpParam : Ast.Exp :=
  .lamExp "tmp" (.bopExp .plus (.bopExp .plus (.intExp 1) (.intExp 2)) (.varExp "tmp"))

/-- The parameter becomes `tmp0`, which is also the name of `1 + 2`, and the variable reads
the sum. -/
theorem tmpParam_captured : tmpParam.Closed ∧ (∀ x ∈ tmpParam.names, Ast.isIdentifier x) ∧
    ∃ e' t t', Ast.rename tmpParam = some (.returned e' fun _ => none) ∧
      convertDefunc e' 0 = .ok (t, 3) ∧ convertDefunc (marked tmpParam) 0 = .ok (t', 3) ∧
      ¬ Resolves [] t' t ∧ ¬ ParamsApart t := by
  refine ⟨by decide, by decide, _, .funExp "tmp2" ["tmp0"] (.bopExp "tmp0" .plus (.intValue 1)
    (.intValue 2) (.bopExp "tmp1" .plus (.varValue "tmp0") (.varValue "tmp0")
    (.haltExp (.varValue "tmp1")))) (.haltExp (.varValue "tmp2")),
    .funExp "tmp2" ["#0"] (.bopExp "tmp0" .plus (.intValue 1)
    (.intValue 2) (.bopExp "tmp1" .plus (.varValue "tmp0") (.varValue "#0")
    (.haltExp (.varValue "tmp1")))) (.haltExp (.varValue "tmp2")),
    Ast.rename_eq_relabel (by decide), by decide, by decide, ?_, ?_⟩
  · rintro ⟨-, ⟨-, -, -, -, -, refers, -⟩, -⟩
    have bound : BoundTo [("tmp0", "tmp0"), ("#0", "tmp0")] "#0" "tmp0" := refers 0 (by decide)
    rw [BoundTo, if_pos rfl] at bound
    exact absurd bound (by decide)
  · rintro ⟨apart, -⟩
    exact apart "tmp0" (List.mem_singleton_self _) (by decide)

end Anf

end Lambcalc
