import Lambcalc.Anf.Env

/-!
# Semantics of closure-converted code

The meaning of the output of closure conversion. Functions are plain code: a `FunExp` makes
no value, its label is a value as a global, and a call runs the code of a label under the
parameters alone. `Tuple` allocates a record and `Proj` reads one of its cells. `Join` still
binds a continuation with its slot.

A cell also remembers the operand it was filled from. Nothing reads it: it serves to say, in
`Faithful`, which variable's value a projection gets back.
-/

namespace Lambcalc.Convert

open Anf

/-- Values of closure-converted code: integers, addresses of records and code labels. -/
inductive Val where
  | int (n : Word)
  | addr (a : Nat)
  | label (name : Var)
  deriving DecidableEq

namespace Val

def asInt : Val → Option Word
  | int n => some n
  | _ => none

def asAddr : Val → Option Nat
  | addr a => some a
  | _ => none

def asLabel : Val → Option Var
  | label name => some name
  | _ => none

@[simp] theorem asInt_eq_some {v : Val} {n : Word} : v.asInt = some n ↔ v = int n := by
  cases v <;> simp [asInt]

@[simp] theorem asAddr_eq_some {v : Val} {a : Nat} : v.asAddr = some a ↔ v = addr a := by
  cases v <;> simp [asAddr]

@[simp] theorem asLabel_eq_some {v : Val} {name : Var} :
    v.asLabel = some name ↔ v = label name := by
  cases v <;> simp [asLabel]

end Val

/-- A record: its cells, each with the operand it was filled from. -/
abbrev Record := List (Value × Val)

/-- Records by address. An allocation appends. -/
abbrev Heap := List Record

/-- The parameters and the body of a label. -/
abbrev Code := Var → Option (List Var × Exp)

/-- The value of an operand. -/
def read (ρ : Env Val) : Value → Option Val
  | .intValue value => some (.int (.ofLiteral value))
  | .varValue var => ρ var
  | .globValue glob => some (.label glob)

/-- The label a call goes to. A name that is no variable is a label itself. -/
def callee (ρ : Env Val) (funName : Var) : Option Var :=
  match ρ funName with
  | some v => v.asLabel
  | none => some funName

theorem callee_of_label {ρ : Env Val} {funName label : Var}
    (found : ρ funName = some (.label label)) : callee ρ funName = some label := by
  rw [callee, found]
  rfl

/-- The cell a `Tuple` fills from an operand. -/
def cell (ρ : Env Val) (value : Value) : Option (Value × Val) := (read ρ value).map (value, ·)

/-- The value `t` returns, and the heap it leaves. -/
def run (code : Code) : Nat → Env Val → List (JoinPoint Val) → Heap → Exp → Option (Val × Heap)
  | 0, _, _, _, _ => none
  | _ + 1, ρ, _, H, .haltExp value => (read ρ value).map (·, H)
  | fuel + 1, ρ, joins, H, .funExp _ _ _ rest => run code fuel ρ joins H rest
  | fuel + 1, ρ, joins, H, .joinExp name slot body rest =>
    run code fuel ρ (⟨name, slot, ρ, body⟩ :: joins) H rest
  | fuel + 1, ρ, joins, H, .jumpExp joinName slotValue => do
    let (join, outer) ← findJoin joins joinName
    let value ← slotValue.mapM (read ρ)
    let inner ← passSlot join.env join.slot value
    run code fuel inner outer H join.body
  | fuel + 1, ρ, joins, H, .appExp name funName paramValues rest => do
    let (params, body) ← code (← callee ρ funName)
    let args ← paramValues.mapM (read ρ)
    let inner ← Env.bind (fun _ => none) params args
    let (v, H) ← run code fuel inner [] H body
    run code fuel (ρ.set name v) joins H rest
  | fuel + 1, ρ, joins, H, .bopExp name bop param1 param2 rest => do
    let m ← (← read ρ param1).asInt
    let n ← (← read ρ param2).asInt
    run code fuel (ρ.set name (.int (bop.eval m n))) joins H rest
  | fuel + 1, ρ, joins, H, .ifExp cond thenBranch elseBranch => do
    let n ← (← read ρ cond).asInt
    run code fuel ρ joins H (if n = 0 then elseBranch else thenBranch)
  | fuel + 1, ρ, joins, H, .tupleExp name values rest => do
    let cells ← values.mapM (cell ρ)
    run code fuel (ρ.set name (.addr H.length)) joins (H ++ [cells]) rest
  | fuel + 1, ρ, joins, H, .projExp name tuple index rest => do
    let cells ← H[← (← ρ tuple).asAddr]?
    let (_, v) ← cells[index]?
    run code fuel (ρ.set name v) joins H rest

/-- The functions of `t`, at any depth, with their parameters and bodies. -/
def functions : Exp → List (Var × List Var × Exp)
  | .haltExp _ => []
  | .funExp name params body rest => (name, params, body) :: (functions body ++ functions rest)
  | .joinExp _ _ body rest => functions body ++ functions rest
  | .jumpExp _ _ => []
  | .appExp _ _ _ rest => functions rest
  | .bopExp _ _ _ _ rest => functions rest
  | .ifExp _ thenBranch elseBranch => functions thenBranch ++ functions elseBranch
  | .tupleExp _ _ rest => functions rest
  | .projExp _ _ _ rest => functions rest

/-- The labels a program defines. -/
def codeOf (t : Exp) : Code := fun name => (functions t).lookup name

theorem lookup_of_mem {α : Type} {entries : List (Var × α)} {entry : Var × α}
    (nodup : (entries.map Prod.fst).Nodup) (member : entry ∈ entries) :
    entries.lookup entry.1 = some entry.2 := by
  induction entries with
  | nil => cases member
  | cons head entries ih =>
    obtain ⟨notMem, nodupTail⟩ := List.nodup_cons.mp nodup
    rcases List.mem_cons.mp member with rfl | member
    · rw [List.lookup_cons, beq_self_eq_true]
    · have ne : entry.1 ≠ head.1 := fun eq => notMem (eq ▸ List.mem_map_of_mem member)
      rw [List.lookup_cons, beq_false_of_ne ne]
      exact ih nodupTail member

/-- The whole program `t` returns the integer `n`. -/
def Yields (t : Exp) (n : Word) : Prop :=
  ∃ fuel H, run (codeOf t) fuel (fun _ => none) [] [] t = some (.int n, H)

/-! ## One node -/

section Nodes

variable {code : Code} {fuel : Nat} {ρ : Env Val} {joins : List (JoinPoint Val)} {H : Heap}
  {name : Var} {rest : Exp} {w : Val × Heap}

attribute [local simp] run

theorem run_jumpExp {joinName : Var} {slotValue : Option Value} :
    run code (fuel + 1) ρ joins H (.jumpExp joinName slotValue) = some w ↔
      ∃ join outer value inner, findJoin joins joinName = some (join, outer) ∧
        slotValue.mapM (read ρ) = some value ∧ passSlot join.env join.slot value = some inner ∧
        run code fuel inner outer H join.body = some w := by
  simp only [run, Option.bind_eq_bind, Option.bind_eq_some_iff, Prod.exists]
  grind

theorem run_appExp {funName : Var} {paramValues : List Value} :
    run code (fuel + 1) ρ joins H (.appExp name funName paramValues rest) = some w ↔
      ∃ label params body args inner v H', callee ρ funName = some label ∧
        code label = some (params, body) ∧ paramValues.mapM (read ρ) = some args ∧
        Env.bind (fun _ => none) params args = some inner ∧
        run code fuel inner [] H body = some (v, H') ∧
        run code fuel (ρ.set name v) joins H' rest = some w := by
  simp only [run, Option.bind_eq_bind, Option.bind_eq_some_iff, Prod.exists]
  grind

theorem run_bopExp {bop : Ast.Bop} {param1 param2 : Value} :
    run code (fuel + 1) ρ joins H (.bopExp name bop param1 param2 rest) = some w ↔
      ∃ m n, read ρ param1 = some (.int m) ∧ read ρ param2 = some (.int n) ∧
        run code fuel (ρ.set name (.int (bop.eval m n))) joins H rest = some w := by
  simp only [run, Option.bind_eq_bind, Option.bind_eq_some_iff, Val.asInt_eq_some]
  grind

theorem run_ifExp {cond : Value} {thenBranch elseBranch : Exp} :
    run code (fuel + 1) ρ joins H (.ifExp cond thenBranch elseBranch) = some w ↔
      ∃ n, read ρ cond = some (.int n) ∧
        run code fuel ρ joins H (if n = 0 then elseBranch else thenBranch) = some w := by
  simp only [run, Option.bind_eq_bind, Option.bind_eq_some_iff, Val.asInt_eq_some]
  grind

theorem run_tupleExp {values : List Value} :
    run code (fuel + 1) ρ joins H (.tupleExp name values rest) = some w ↔
      ∃ cells, values.mapM (cell ρ) = some cells ∧
        run code fuel (ρ.set name (.addr H.length)) joins (H ++ [cells]) rest = some w := by
  simp only [run, Option.bind_eq_bind, Option.bind_eq_some_iff]

theorem run_projExp {tuple : Var} {index : Nat} :
    run code (fuel + 1) ρ joins H (.projExp name tuple index rest) = some w ↔
      ∃ a cells operand v, ρ tuple = some (.addr a) ∧ H[a]? = some cells ∧
        cells[index]? = some (operand, v) ∧
        run code fuel (ρ.set name v) joins H rest = some w := by
  simp only [run, Option.bind_eq_bind, Option.bind_eq_some_iff, Prod.exists, Val.asAddr_eq_some]
  grind

end Nodes

theorem exists_succ_of_run {code : Code} {fuel : Nat} {ρ : Env Val} {joins : List (JoinPoint Val)}
    {H : Heap} {t : Exp} {w : Val × Heap} (ran : run code fuel ρ joins H t = some w) :
    ∃ n, fuel = n + 1 := by
  cases fuel with
  | zero => cases ran
  | succ n => exact ⟨n, rfl⟩

/-- More fuel does not change a result. -/
theorem run_succ {code : Code} {fuel : Nat} {ρ : Env Val} {joins : List (JoinPoint Val)} {H : Heap}
    {t : Exp} {w : Val × Heap} (ran : run code fuel ρ joins H t = some w) :
    run code (fuel + 1) ρ joins H t = some w := by
  induction fuel generalizing ρ joins H t w with
  | zero => cases ran
  | succ fuel ih =>
    cases t with
    | haltExp value => exact ran
    | funExp name params body rest => exact ih ran
    | joinExp name slot body rest => exact ih ran
    | jumpExp joinName slotValue =>
      obtain ⟨join, outer, value, inner, found, passed, entered, ran⟩ := run_jumpExp.mp ran
      exact run_jumpExp.mpr ⟨join, outer, value, inner, found, passed, entered, ih ran⟩
    | appExp name funName paramValues rest =>
      obtain ⟨label, params, body, args, inner, v, H', callee, known, values, bound, ran, rest⟩ :=
        run_appExp.mp ran
      exact run_appExp.mpr
        ⟨label, params, body, args, inner, v, H', callee, known, values, bound, ih ran, ih rest⟩
    | bopExp name bop param1 param2 rest =>
      obtain ⟨m, n, value1, value2, ran⟩ := run_bopExp.mp ran
      exact run_bopExp.mpr ⟨m, n, value1, value2, ih ran⟩
    | ifExp cond thenBranch elseBranch =>
      obtain ⟨n, value, ran⟩ := run_ifExp.mp ran
      exact run_ifExp.mpr ⟨n, value, ih ran⟩
    | tupleExp name values rest =>
      obtain ⟨cells, filled, ran⟩ := run_tupleExp.mp ran
      exact run_tupleExp.mpr ⟨cells, filled, ih ran⟩
    | projExp name tuple index rest =>
      obtain ⟨a, cells, operand, v, found, allocated, inRange, ran⟩ := run_projExp.mp ran
      exact run_projExp.mpr ⟨a, cells, operand, v, found, allocated, inRange, ih ran⟩

/-- More fuel keeps a value. -/
theorem run_mono {code : Code} {small large : Nat} (le : small ≤ large) {ρ : Env Val}
    {joins : List (JoinPoint Val)} {H : Heap} {t : Exp} {w : Val × Heap}
    (ran : run code small ρ joins H t = some w) : run code large ρ joins H t = some w := by
  induction le with
  | refl => exact ran
  | step _ ih => exact run_succ ih

/-! ## Runs that use records as closures -/

/-- `label` is the first cell of the record that is the first of the arguments. -/
def OwnRecord (H : Heap) (label : Var) (args : List Val) : Prop :=
  ∃ a cells, args.head? = some (.addr a) ∧ H[a]? = some cells ∧
    (cells[0]?).map Prod.snd = some (.label label)

/-- In `fuel` steps of the run, finished or not, every call passes the record of its callee as
the first argument, and every projection of a later cell reads, under the name of a variable,
the value that this variable had when the record was made. -/
def Faithful (code : Code) : Nat → Env Val → List (JoinPoint Val) → Heap → Exp → Prop
  | 0, _, _, _, _ => True
  | _ + 1, _, _, _, .haltExp _ => True
  | fuel + 1, ρ, joins, H, .funExp _ _ _ rest => Faithful code fuel ρ joins H rest
  | fuel + 1, ρ, joins, H, .joinExp name slot body rest =>
    Faithful code fuel ρ (⟨name, slot, ρ, body⟩ :: joins) H rest
  | fuel + 1, ρ, joins, H, .jumpExp joinName slotValue =>
    ∀ join outer value inner, findJoin joins joinName = some (join, outer) →
      slotValue.mapM (read ρ) = some value → passSlot join.env join.slot value = some inner →
      Faithful code fuel inner outer H join.body
  | fuel + 1, ρ, joins, H, .appExp name funName paramValues rest =>
    ∀ label params body args, callee ρ funName = some label →
      code label = some (params, body) → paramValues.mapM (read ρ) = some args →
      OwnRecord H label args ∧ ∀ inner, Env.bind (fun _ => none) params args = some inner →
        Faithful code fuel inner [] H body ∧
        ∀ v H', run code fuel inner [] H body = some (v, H') →
          Faithful code fuel (ρ.set name v) joins H' rest
  | fuel + 1, ρ, joins, H, .bopExp name bop param1 param2 rest =>
    ∀ m n, read ρ param1 = some (.int m) → read ρ param2 = some (.int n) →
      Faithful code fuel (ρ.set name (.int (bop.eval m n))) joins H rest
  | fuel + 1, ρ, joins, H, .ifExp cond thenBranch elseBranch =>
    ∀ n, read ρ cond = some (.int n) →
      Faithful code fuel ρ joins H (if n = 0 then elseBranch else thenBranch)
  | fuel + 1, ρ, joins, H, .tupleExp name values rest =>
    ∀ cells, values.mapM (cell ρ) = some cells →
      Faithful code fuel (ρ.set name (.addr H.length)) joins (H ++ [cells]) rest
  | fuel + 1, ρ, joins, H, .projExp name tuple index rest =>
    ∀ a cells operand v, ρ tuple = some (.addr a) → H[a]? = some cells →
      cells[index]? = some (operand, v) →
      (index = 0 ∨ operand = .varValue name) ∧ Faithful code fuel (ρ.set name v) joins H rest

end Lambcalc.Convert
