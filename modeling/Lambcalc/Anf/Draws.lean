import Lambcalc.Anf.Convert
import Mathlib.Data.List.Basic

/-!
# Which counter values a conversion draws

The conversion of `e` with a continuation enters the continuation once, after it has drawn
`e.lead` names; the branches of an `if` on the way are converted after the continuation, so
their names come after its. `convertWith_lands` gives the call of the continuation and the
names the term binds, counted from where the conversion starts.
-/

namespace Lambcalc

/-! ## Counting in the source -/

/-- The names the conversion of `e` draws, apart from those its continuation draws. -/
def Ast.Exp.draws : Ast.Exp → Nat
  | .intExp _ => 0
  | .varExp _ => 0
  | .lamExp _ body => body.draws + 1
  | .appExp fn arg => fn.draws + arg.draws + 1
  | .bopExp _ arg1 arg2 => arg1.draws + arg2.draws + 1
  | .ifExp cond then_ els => cond.draws + then_.draws + els.draws + 2

/-- The names it draws before its continuation is entered. -/
def Ast.Exp.lead : Ast.Exp → Nat
  | .intExp _ => 0
  | .varExp _ => 0
  | .lamExp _ body => body.draws + 1
  | .appExp fn arg => fn.lead + arg.lead + 1
  | .bopExp _ arg1 arg2 => arg1.lead + arg2.lead + 1
  | .ifExp cond _ _ => cond.lead + 2

/-- The counter values it draws for names of values, not of joins, when it starts at `c` and
its continuation draws `d` names. -/
def Ast.Exp.valueDraws : Ast.Exp → (c d : Nat) → List Nat
  | .intExp _, _, _ => []
  | .varExp _, _, _ => []
  | .lamExp _ body, c, _ => (c + body.draws) :: body.valueDraws c 0
  | .appExp fn arg, c, d =>
    fn.valueDraws c (arg.draws + (1 + d)) ++ arg.valueDraws (c + fn.lead) (1 + d) ++
      [c + fn.lead + arg.lead]
  | .bopExp _ arg1 arg2, c, d =>
    arg1.valueDraws c (arg2.draws + (1 + d)) ++ arg2.valueDraws (c + arg1.lead) (1 + d) ++
      [c + arg1.lead + arg2.lead]
  | .ifExp cond then_ els, c, d =>
    let m := c + cond.lead + 2 + d
    cond.valueDraws c (2 + d + then_.draws + els.draws) ++ [c + cond.lead + 1] ++
      then_.valueDraws m 0 ++ els.valueDraws (m + then_.draws) 0

namespace Anf

/-- The names `t` binds to values: of functions, let-bound results and slots. -/
def Exp.valueNames : Exp → List Var
  | .haltExp _ => []
  | .funExp name _ body rest => name :: (body.valueNames ++ rest.valueNames)
  | .joinExp _ slot body rest => slot.toList ++ body.valueNames ++ rest.valueNames
  | .jumpExp _ _ => []
  | .appExp name _ _ rest => name :: rest.valueNames
  | .bopExp name _ _ _ rest => name :: rest.valueNames
  | .ifExp _ thenBranch elseBranch => thenBranch.valueNames ++ elseBranch.valueNames
  | .tupleExp name _ rest => name :: rest.valueNames
  | .projExp name _ _ rest => name :: rest.valueNames

/-! ## Computations that draw a known number of names -/

/-- `x` draws `d` names whenever it returns. -/
def FreshM.Draws {α : Type} (x : FreshM α) (d : Nat) : Prop :=
  ∀ c a c', x c = .ok (a, c') → c' = c + d

theorem FreshM.Draws.pure {α : Type} (a : α) : (pure a : FreshM α).Draws 0 := by
  rintro c _ _ ⟨⟩
  rfl

/-- One after the other. -/
theorem FreshM.Draws.bind {α β : Type} {x : FreshM α} {g : α → FreshM β} {m n : Nat}
    (draws : x.Draws m) (next : ∀ a, (g a).Draws n) : (x >>= g).Draws (m + n) := by
  intro c b c'' ran
  obtain ⟨a, c', ranX, ranG⟩ := FreshM.bind_eq_ok.mp ran
  rw [next a _ _ _ ranG, draws _ _ _ ranX, Nat.add_assoc]

theorem FreshM.Draws.of_eq {α : Type} {x : FreshM α} {m n : Nat} (draws : x.Draws m)
    (eq : m = n) : x.Draws n := eq ▸ draws

theorem fresh_draws : fresh.Draws 1 := by
  rintro c _ _ ⟨⟩
  rfl

/-- Finding the name of a value draws nothing. -/
theorem stringValue_draws (lit : String) (value : Value) : (stringValue lit value).Draws 0 := by
  cases value with
  | intValue value => exact fun _ _ _ ran => nomatch ran
  | varValue var => exact .pure var
  | globValue glob => exact .pure glob

section Building

variable {k : Cont} {d : Nat}

/-- A conversion draws for the tree and then for the continuation. -/
theorem convertWith_draws (draws : ∀ value, (k value).Draws d) (e : Ast.Exp) :
    (convertWith e k).Draws (e.draws + d) := by
  induction e generalizing k d with
  | intExp value => exact (draws _).of_eq (Nat.zero_add d).symm
  | varExp name => exact (draws _).of_eq (Nat.zero_add d).symm
  | lamExp param body ih =>
    have total : (Ast.Exp.lamExp param body).draws + d = body.draws + 0 + (1 + (d + 0)) := by
      simp only [Ast.Exp.draws]
      omega
    rw [total]
    exact (ih fun _ => .pure _).bind fun _ => fresh_draws.bind fun _ => (draws _).bind fun _ =>
      .pure _
  | appExp fn arg ihFn ihArg =>
    have total : (Ast.Exp.appExp fn arg).draws + d =
        fn.draws + (0 + (arg.draws + (1 + (d + 0)))) := by
      simp only [Ast.Exp.draws]
      omega
    rw [total]
    exact ihFn fun _ => (stringValue_draws _ _).bind fun _ => ihArg fun _ =>
      fresh_draws.bind fun _ => (draws _).bind fun _ => .pure _
  | bopExp bop arg1 arg2 ih1 ih2 =>
    have total : (Ast.Exp.bopExp bop arg1 arg2).draws + d =
        arg1.draws + (arg2.draws + (1 + (d + 0))) := by
      simp only [Ast.Exp.draws]
      omega
    rw [total]
    exact ih1 fun _ => ih2 fun _ => fresh_draws.bind fun _ => (draws _).bind fun _ => .pure _
  | ifExp cond then_ els ihCond ihThen ihEls =>
    have total : (Ast.Exp.ifExp cond then_ els).draws + d =
        cond.draws + (1 + (1 + (d + (then_.draws + 0 + (els.draws + 0 + 0))))) := by
      simp only [Ast.Exp.draws]
      omega
    rw [total]
    exact ihCond fun _ => fresh_draws.bind fun _ => fresh_draws.bind fun _ =>
      (draws _).bind fun _ => (ihThen fun _ => .pure _).bind fun _ =>
      (ihEls fun _ => .pure _).bind fun _ => .pure _

/-- An application draws one name. -/
theorem buildApp_draws (draws : ∀ value, (k value).Draws d) (fnName : Var) (argValue : Value) :
    (buildApp k fnName argValue).Draws (1 + d) :=
  fresh_draws.bind fun _ => (draws _).bind fun _ => .pure _

/-- An operation draws one name. -/
theorem buildBop_draws (draws : ∀ value, (k value).Draws d) (bop : Ast.Bop)
    (arg1Value arg2Value : Value) : (buildBop k bop arg1Value arg2Value).Draws (1 + d) :=
  fresh_draws.bind fun _ => (draws _).bind fun _ => .pure _

/-- An `If` draws a join and a slot, and what its branches draw. -/
theorem buildIf_draws (draws : ∀ value, (k value).Draws d) (then_ els : Ast.Exp)
    (condValue : Value) :
    (buildIf k then_ els condValue).Draws (2 + d + then_.draws + els.draws) := by
  have total : 2 + d + then_.draws + els.draws =
      1 + (1 + (d + (then_.draws + 0 + (els.draws + 0 + 0)))) := by omega
  rw [total]
  exact fresh_draws.bind fun _ => fresh_draws.bind fun _ => (draws _).bind fun _ =>
    (convertWith_draws (fun _ => .pure _) then_).bind fun _ =>
    (convertWith_draws (fun _ => .pure _) els).bind fun _ => .pure _

end Building

/-- The names `convert` draws can be counted on the tree. -/
theorem convert_draws (e : Ast.Exp) : (convert e).Draws e.draws :=
  convertWith_draws (fun _ => .pure _) e

/-- A conversion that goes on with the name of an operand was given a name. -/
theorem stringValue_bind_ok {α : Type} {lit : String} {value : Value} {g : Var → FreshM α}
    {c : Nat} {result : α × Nat} (ran : (stringValue lit value >>= g) c = .ok result) :
    ∃ name, (value = .varValue name ∨ value = .globValue name) ∧ g name c = .ok result := by
  cases value with
  | intValue value => cases ran
  | varValue var => exact ⟨var, .inl rfl, ran⟩
  | globValue glob => exact ⟨glob, .inr rfl, ran⟩

/-! ## The names a conversion binds -/

/-- A conversion enters its continuation once, at the counter `lead` names on. The values its
term binds are those it draws names for, and those bound in the term of the continuation. -/
theorem convertWith_lands (e : Ast.Exp) {k : Cont} {c c' d : Nat} {t : Exp}
    (ran : convertWith e k c = .ok (t, c')) (draws : ∀ value, (k value).Draws d) :
    ∃ value tk m, k value (c + e.lead) = .ok (tk, m) ∧
      t.valueNames.Perm ((e.valueDraws c d).map tmp ++ tk.valueNames) := by
  induction e generalizing k c c' d t with
  | intExp value => exact ⟨_, t, c', ran, .refl _⟩
  | varExp name => exact ⟨_, t, c', ran, .refl _⟩
  | lamExp param body ih =>
    obtain ⟨code, m, rest, ranBody, ranRest, rfl⟩ := convertWith_lamExp.mp ran
    obtain rfl : m = c + body.draws := convert_draws body _ _ _ ranBody
    refine ⟨_, rest, c', ranRest, ?_⟩
    obtain ⟨value, tk, m', ranHalt, names⟩ := ih ranBody (fun _ => .pure _)
    cases ranHalt
    simp only [Exp.valueNames, List.append_nil] at names
    exact .cons _ (names.append_right _)
  | appExp fn arg ihFn ihArg =>
    rw [convertWith_appExp] at ran
    obtain ⟨fnValue, tk₁, m₁, ran₁, names₁⟩ := ihFn ran fun fnValue =>
      ((stringValue_draws _ fnValue).bind fun _ =>
        convertWith_draws (buildApp_draws draws _) arg).of_eq (Nat.zero_add _)
    obtain ⟨fnName, -, ran₁⟩ := stringValue_bind_ok ran₁
    obtain ⟨argValue, tk₂, m₂, ran₂, names₂⟩ := ihArg ran₁ (buildApp_draws draws _)
    obtain ⟨rest, ranRest, rfl⟩ := buildApp_ok.mp ran₂
    refine ⟨.varValue _, rest, m₂, by simpa only [Ast.Exp.lead, Nat.add_assoc] using ranRest, ?_⟩
    refine names₁.trans ?_
    rw [Ast.Exp.valueDraws, List.append_assoc, List.map_append, List.map_append, List.append_assoc,
      List.append_assoc]
    exact .append_left _ names₂
  | bopExp bop arg1 arg2 ih1 ih2 =>
    rw [convertWith_bopExp] at ran
    obtain ⟨arg1Value, tk₁, m₁, ran₁, names₁⟩ := ih1 ran fun arg1Value =>
      convertWith_draws (buildBop_draws draws _ _) arg2
    obtain ⟨arg2Value, tk₂, m₂, ran₂, names₂⟩ := ih2 ran₁ (buildBop_draws draws _ _)
    obtain ⟨rest, ranRest, rfl⟩ := buildBop_ok.mp ran₂
    refine ⟨.varValue _, rest, m₂, by simpa only [Ast.Exp.lead, Nat.add_assoc] using ranRest, ?_⟩
    refine names₁.trans ?_
    rw [Ast.Exp.valueDraws, List.append_assoc, List.map_append, List.map_append, List.append_assoc,
      List.append_assoc]
    exact .append_left _ names₂
  | ifExp cond then_ els ihCond ihThen ihEls =>
    rw [convertWith_ifExp] at ran
    obtain ⟨condValue, tk₁, m₁, ran₁, names₁⟩ := ihCond ran (buildIf_draws draws then_ els)
    obtain ⟨body, m, thenBranch, m', elseBranch, ranBody, ranThen, ranElse, rfl⟩ :=
      buildIf_ok.mp ran₁
    obtain rfl := draws _ _ _ _ ranBody
    obtain rfl := convertWith_draws (fun _ => .pure _) then_ _ _ _ ranThen
    obtain ⟨_, _, _, ranJump, namesThen⟩ := ihThen ranThen (fun _ => .pure _)
    cases ranJump
    obtain ⟨_, _, _, ranJump, namesElse⟩ := ihEls ranElse (fun _ => .pure _)
    cases ranJump
    refine ⟨_, body, _, ranBody, names₁.trans ?_⟩
    simp only [Exp.valueNames, List.append_nil] at names₁ namesThen namesElse ⊢
    simp only [Ast.Exp.valueDraws, Option.toList, List.map_append, List.map_singleton,
      List.append_assoc]
    refine .append_left _ (.append_left _ (List.perm_append_comm.trans ?_))
    rw [← List.append_assoc (List.map _ _)]
    exact .append_right _ (namesThen.append namesElse)

end Anf

end Lambcalc
