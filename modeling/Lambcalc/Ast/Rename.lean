import Lambcalc.Ast.Exp
import Lambcalc.Lib.StepMachine
import Mathlib.Data.List.TakeWhile
import Mathlib.Logic.Function.Basic

/-!
# Alpha renaming

`ast::rename` of `src/rename.cpp`: `AlphaRenameVisitor` over the stack worklist of
`include/visitor.h`. The visitor writes into the tree it walks, so a `NodeTask` names its
node by the path of parent links that leads to it from the root, and a visit puts the
renamed node back at that path. A node's children are pushed first to last and so are
visited last to first.
-/

namespace Lambcalc.Ast

/-! ## Parent links -/

/-- The fields of an `ast::Exp` a parent link can be the address of. -/
inductive Link where
  | body
  | fn
  | arg
  | arg1
  | arg2
  | cond
  | then_
  | els
  deriving DecidableEq, Repr

abbrev Path := List Link

namespace Exp

/-- The node a link of `e` points to. -/
def child : Exp → Link → Option Exp
  | lamExp _ body, .body => some body
  | appExp fn _, .fn => some fn
  | appExp _ arg, .arg => some arg
  | bopExp _ arg1 _, .arg1 => some arg1
  | bopExp _ _ arg2, .arg2 => some arg2
  | ifExp cond _ _, .cond => some cond
  | ifExp _ then_ _, .then_ => some then_
  | ifExp _ _ els, .els => some els
  | _, _ => none

/-- `e` with a link made to point to `new`. -/
def setChild : Exp → Link → Exp → Exp
  | lamExp param _, .body, new => lamExp param new
  | appExp _ arg, .fn, new => appExp new arg
  | appExp fn _, .arg, new => appExp fn new
  | bopExp bop _ arg2, .arg1, new => bopExp bop new arg2
  | bopExp bop arg1 _, .arg2, new => bopExp bop arg1 new
  | ifExp _ then_ els, .cond, new => ifExp new then_ els
  | ifExp cond _ els, .then_, new => ifExp cond new els
  | ifExp cond then_ _, .els, new => ifExp cond then_ new
  | e, _, _ => e

/-- The node at the end of a path. -/
def get : Exp → Path → Option Exp
  | e, [] => some e
  | e, link :: path => (e.child link).bind (·.get path)

/-- `e` with the node at the end of a path replaced. -/
def put : Exp → Path → Exp → Exp
  | _, [], new => new
  | e, link :: path, new =>
    match e.child link with
    | some node => e.setChild link (node.put path new)
    | none => e

theorem child_setChild {e node new : Exp} {link : Link} (found : e.child link = some node) :
    (e.setChild link new).child link = some new := by
  cases e <;> cases link <;> first | rfl | cases found

theorem setChild_setChild (e new new' : Exp) (link : Link) :
    (e.setChild link new).setChild link new' = e.setChild link new' := by
  cases e <;> cases link <;> rfl

theorem setChild_child {e node : Exp} {link : Link} (found : e.child link = some node) :
    e.setChild link node = e := by
  cases e <;> cases link <;> cases found <;> rfl

/-- Paths compose. -/
theorem get_append (e : Exp) (path path' : Path) :
    e.get (path ++ path') = (e.get path).bind (·.get path') := by
  induction path generalizing e with
  | nil => rfl
  | cons link path ih =>
    simp only [List.cons_append, get, Option.bind_assoc]
    exact congrArg _ (funext ih)

/-- What is put at a place is found there. -/
theorem get_put {e node : Exp} {path : Path} (new : Exp) (found : e.get path = some node) :
    (e.put path new).get path = some new := by
  induction path generalizing e with
  | nil => rfl
  | cons link path ih =>
    obtain ⟨next, child, rest⟩ := Option.bind_eq_some_iff.mp found
    simp only [put, child, get, child_setChild child]
    exact ih rest

/-- The later of two trees put at a place stays. -/
theorem put_put (e new new' : Exp) (path : Path) :
    (e.put path new).put path new' = e.put path new' := by
  induction path generalizing e with
  | nil => rfl
  | cons link path ih =>
    cases child : e.child link with
    | none => simp only [put, child]
    | some next => simp only [put, child, child_setChild child, setChild_setChild, ih]

/-- Replacing below a node is replacing the node. -/
theorem put_append {e node new : Exp} {path : Path} (path' : Path)
    (found : e.get path = some node) :
    e.put (path ++ path') new = e.put path (node.put path' new) := by
  induction path generalizing e with
  | nil => cases found; rfl
  | cons link path ih =>
    obtain ⟨next, child, rest⟩ := Option.bind_eq_some_iff.mp found
    simp only [List.cons_append, put, child, ih rest]

theorem get_snoc {e node next : Exp} {path : Path} {link : Link} (found : e.get path = some node)
    (child : node.child link = some next) : e.get (path ++ [link]) = some next := by
  rw [get_append, found, Option.bind_some, get, child]
  rfl

/-- A child is put where its parent is by putting the parent with the child in it. -/
theorem put_snoc {e node next new : Exp} {path : Path} {link : Link}
    (found : e.get path = some node) (child : node.child link = some next) :
    e.put (path ++ [link]) new = e.put path (node.setChild link new) := by
  rw [put_append _ found]
  simp only [put, child]

/-- Putting back what is there changes nothing. -/
theorem put_get {e node : Exp} {path : Path} (found : e.get path = some node) :
    e.put path node = e := by
  induction path generalizing e with
  | nil => exact (Option.some.inj found).symm
  | cons link path ih =>
    obtain ⟨next, child, rest⟩ := Option.bind_eq_some_iff.mp found
    simp only [put, child, ih rest]
    exact setChild_child child

end Exp

/-! ## The visitor and its worklist -/

/-- `ast::NotInScopeException`. -/
structure NotInScopeException where
  name : String
  deriving DecidableEq, Repr

/-- The contents of `rename_`. -/
abbrev RenameMap := String → Option String

/-- A `NodeTask`, or the `FnTask` a visited `LamExp` leaves to restore `rename_`. -/
inductive RenameTask where
  | node (parentLink : Path)
  | restore (expParam : String) (oldParam : Option String)
  deriving DecidableEq, Repr

/-- The state of `rename`: the tree, the visitor's fields and the worklist, top first. -/
structure Renamer where
  exp : Exp
  counter : Nat
  rename : RenameMap
  worklist : List RenameTask

/-- How `rename` ends. A `NodeTask` whose link leads nowhere is `badLink`. -/
inductive RenameOutcome where
  | returned (exp : Exp) (rename : RenameMap)
  | threw (error : NotInScopeException)
  | badLink

/-- `name.data()` as `operator+` reads it: a C string, which ends at the first NUL. -/
def data (name : String) : String := String.ofList (name.toList.takeWhile (· ≠ Char.ofNat 0))

/-- `data` adds no characters. -/
theorem mem_of_mem_data {name : String} {c : Char} (member : c ∈ (data name).toList) :
    c ∈ name.toList := by
  rw [data, String.toList_ofList] at member
  exact (List.takeWhile_subset _) member

/-- No character is a NUL. -/
def NulFree (name : String) : Prop := ∀ c ∈ name.toList, c ≠ Char.ofNat 0

instance (name : String) : Decidable (NulFree name) :=
  inferInstanceAs (Decidable (∀ c ∈ name.toList, c ≠ Char.ofNat 0))

/-- `data` loses nothing exactly if there is no NUL. -/
theorem data_eq_iff {name : String} : data name = name ↔ NulFree name := by
  rw [data, ← String.toList_inj, String.toList_ofList, List.takeWhile_eq_self_iff]
  simp only [decide_eq_true_eq]
  rfl

/-- `AlphaRenameVisitor::fresh`, at a given value of `counter_`. -/
def suffixed (name : String) (counter : Nat) : String := data name ++ toString counter

namespace Renamer

/-- The visit of the node a link points to. -/
def visit (r : Renamer) (link : Path) : Renamer ⊕ RenameOutcome :=
  match r.exp.get link with
  | none => .inr .badLink
  | some (.intExp _) => .inl r
  | some (.varExp name) =>
    match r.rename name with
    | some renamed => .inl { r with exp := r.exp.put link (.varExp renamed) }
    | none => .inr (.threw ⟨name⟩)
  | some (.lamExp param body) =>
    let renamed := suffixed param r.counter
    .inl { r with
      exp := r.exp.put link (.lamExp renamed body)
      counter := r.counter + 1
      rename := Function.update r.rename param (some renamed)
      worklist := .node (link ++ [.body]) :: .restore param (r.rename param) :: r.worklist }
  | some (.appExp _ _) =>
    .inl { r with worklist := .node (link ++ [.arg]) :: .node (link ++ [.fn]) :: r.worklist }
  | some (.bopExp _ _ _) =>
    .inl { r with worklist := .node (link ++ [.arg2]) :: .node (link ++ [.arg1]) :: r.worklist }
  | some (.ifExp _ _ _) =>
    .inl { r with
      worklist := .node (link ++ [.els]) :: .node (link ++ [.then_]) ::
        .node (link ++ [.cond]) :: r.worklist }

/-- One turn of the loop. -/
def step (r : Renamer) : Renamer ⊕ RenameOutcome :=
  match r.worklist with
  | [] => .inr (.returned r.exp r.rename)
  | .node link :: worklist => { r with worklist := worklist }.visit link
  | .restore param old :: worklist =>
    .inl { r with rename := Function.update r.rename param old, worklist := worklist }

/-- The loop as it starts. The root is visited before the first turn, which is what a turn
with the root's task on the worklist does. -/
def start (exp : Exp) : Renamer where
  exp := exp
  counter := 0
  rename := fun _ => none
  worklist := [.node []]

end Renamer

/-- Turns the loop spends on `e`: one a node, and one more a lambda. -/
def Exp.turns : Exp → Nat
  | .intExp _ => 1
  | .varExp _ => 1
  | .lamExp _ body => body.turns + 2
  | .appExp fn arg => fn.turns + arg.turns + 1
  | .bopExp _ arg1 arg2 => arg1.turns + arg2.turns + 1
  | .ifExp cond then_ els => cond.turns + then_.turns + els.turns + 1

/-- `ast::rename`, run for as many turns as it needs. -/
def rename (exp : Exp) : Option RenameOutcome :=
  Lib.iterate Renamer.step (exp.turns + 1) (Renamer.start exp)

/-- The second test of `test/rename.cpp`: `(fn a => (a + (fn a => a + 1) 1) + a) 2`. -/
example : (match rename (.appExp (.lamExp "a" (.bopExp .plus (.bopExp .plus (.varExp "a")
      (.appExp (.lamExp "a" (.bopExp .plus (.varExp "a") (.intExp 1))) (.intExp 1)))
      (.varExp "a"))) (.intExp 2)) with
    | some (.returned exp _) => some exp
    | _ => none) =
    some (.appExp (.lamExp "a0" (.bopExp .plus (.bopExp .plus (.varExp "a0")
      (.appExp (.lamExp "a1" (.bopExp .plus (.varExp "a1") (.intExp 1))) (.intExp 1)))
      (.varExp "a0"))) (.intExp 2)) := by decide

end Lambcalc.Ast
