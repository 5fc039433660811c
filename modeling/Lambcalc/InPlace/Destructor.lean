import Lambcalc.Ast.Rename
import Lambcalc.InPlace.Node
import Lambcalc.Lib.Destructor

/-!
# The destructors of terms

`Exp::~Exp` of `src/anf.cpp` and of `src/ast.cpp`: both are the destructor without recursion, for
the nodes of A-normal forms and for those of syntax trees that are owned by `unique_ptr`s.
-/

namespace Lambcalc.InPlace

open Anf
open Lib (Addr Ptr Linked Layout Store)
open Lib.Store (Forest Freed)

/-! ## A-normal forms -/

/-- `anf::Exp::~Exp`. -/
def dtorExp (fuel depth : Nat) (exp : Addr) (s : Nodes) : Option Nodes := s.dtor fuel depth exp

/-- `delete` of an `anf::Exp`. -/
def deleteExp (fuel depth : Nat) (exp : Addr) (s : Nodes) : Option Nodes :=
  (dtorExp fuel depth exp s).map (·.free exp)

theorem nodup_names : (Linked.names Node).Nodup := by decide

section Shapes

variable {t u v : Exp} {lf rf : Field}

theorem links_leaf {node : Node} (is : shape t = .leaf node) : Store.links node = [] := by
  cases t <;> cases is <;> rfl

theorem links_unary {node : Ptr → Node} (is : shape t = .unary node u) (p : Ptr) :
    Store.links (node p) = [p] := by
  cases t <;> cases is <;> rfl

theorem links_binary {node : Ptr → Ptr → Node} (is : shape t = .binary lf rf node u v)
    (p q : Ptr) : Store.links (node p q) = [p, q] := by
  cases t <;> cases is <;> rfl

end Shapes

/-- The owner of a term owns the tree of its nodes. -/
theorem Stored.forest {s : Nodes} {t : Exp} {l : Layout} (stored : Stored s t l) :
    Forest s [some l.addr] l.cells := by
  induction l generalizing t with
  | leaf a =>
    rcases stored with ⟨node, is, cell⟩
    have below : Forest s (Store.links node) [] := by
      rw [links_leaf is]
      exact .nil
    exact .node cell below .nil
  | unary a m ih =>
    rcases stored with ⟨node, u, is, cell, child⟩
    have below : Forest s (Store.links (node (some m.addr))) m.cells := by
      rw [links_unary is]
      exact ih child
    have tree := Forest.node cell below .nil
    rwa [List.append_nil] at tree
  | binary a l r ihLeft ihRight =>
    rcases stored with ⟨lf, rf, node, u, v, is, cell, left, right⟩
    have below : Forest s (Store.links (node (some l.addr) (some r.addr)))
        (l.cells ++ r.cells) := by
      rw [links_binary is]
      exact (ihLeft left).append (ihRight right)
    have tree := Forest.node cell below .nil
    rwa [List.append_nil] at tree

/-- The owners of some terms own all their nodes. -/
theorem Pieces.forest {s : Nodes} {pieces : List (Exp × Layout)} (placed : Pieces s pieces) :
    Forest s (pieces.map fun p => some p.2.addr) (cellsOf pieces) := by
  have stored := placed.stored
  induction pieces with
  | nil => exact .nil
  | cons p pieces ih =>
    have parts : Pieces s ([p] ++ pieces) := placed
    rcases List.forall_mem_cons.mp stored with ⟨first, others⟩
    exact first.forest.append (ih parts.of_append.2.1 others)

/-- A term of any depth is deleted with two calls of the destructor below each other, and with one
call exactly if it is a single node. Its nodes are freed, each once, and no others; this is what
`destroy` says of an owner that is overwritten. -/
theorem deleteExp_frees {s : Nodes} {t : Exp} {l : Layout} (stored : Stored s t l)
    (apart : l.cells.Nodup) {fuel : Nat} (enough : 4 * (l.cells.length + 1) + 1 ≤ fuel) :
    (∀ depth, ∃ s', deleteExp fuel (depth + 2) l.addr s = some s' ∧ Freed s l.cells s' ∧
      Store.destroy fuel [some l.addr] s = some s') ∧
    ((∃ s', deleteExp fuel 1 l.addr s = some s') ↔ l.cells = [l.addr]) ∧
    deleteExp fuel 0 l.addr s = none := by
  have turns : (Linked.names Node).length * (l.cells.length + 1) + 1 ≤ fuel := enough
  have width : (Linked.names Node).length ≤ fuel := by
    have four : (Linked.names Node).length = 4 := rfl
    omega
  refine ⟨fun depth => ?_, Store.delete_one_iff_single nodup_names stored.forest width, rfl⟩
  rcases Store.delete_tree nodup_names stored.forest apart ((Nat.le_succ _).trans turns) depth with
    ⟨s', deleted, freed⟩
  have same := Store.delete_eq_destroy nodup_names stored.forest apart turns depth
  exact ⟨s', deleted, freed, same.symm.trans deleted⟩

theorem deleteExp_frees_callIdentity : ∃ s', deleteExp 21 2 0 callIdentityNodes = some s' ∧
    Freed callIdentityNodes [0, 1, 2, 3] s' := by
  rcases (deleteExp_frees owns_callIdentity.stored owns_callIdentity.apart le_rfl).1 0 with
    ⟨s', deleted, freed, -⟩
  exact ⟨s', deleted, freed⟩

/-! ## Syntax trees -/

/-- `ast::Exp<std::unique_ptr>`: what one object holds. -/
inductive AstNode where
  | intExp (value : Int)
  | varExp (name : String)
  | lamExp (param : String) (body : Ptr)
  | appExp (fn arg : Ptr)
  | bopExp (bop : Ast.Bop) (arg1 arg2 : Ptr)
  | ifExp (cond then_ els : Ptr)
  deriving DecidableEq, Repr

namespace AstNode

/-- The value of a field, where the node has it. -/
def link : Ast.Link → AstNode → Option Ptr
  | .body, lamExp _ body => some body
  | .fn, appExp fn _ => some fn
  | .arg, appExp _ arg => some arg
  | .arg1, bopExp _ arg1 _ => some arg1
  | .arg2, bopExp _ _ arg2 => some arg2
  | .cond, ifExp cond _ _ => some cond
  | .then_, ifExp _ then_ _ => some then_
  | .els, ifExp _ _ els => some els
  | _, _ => none

/-- The node with another value in a field. -/
def setLink : Ast.Link → Ptr → AstNode → AstNode
  | .body, p, lamExp param _ => lamExp param p
  | .fn, p, appExp _ arg => appExp p arg
  | .arg, p, appExp fn _ => appExp fn p
  | .arg1, p, bopExp bop _ arg2 => bopExp bop p arg2
  | .arg2, p, bopExp bop arg1 _ => bopExp bop arg1 p
  | .cond, p, ifExp _ then_ els => ifExp p then_ els
  | .then_, p, ifExp cond _ els => ifExp cond p els
  | .els, p, ifExp cond then_ _ => ifExp cond then_ p
  | _, _, node => node

instance : Linked AstNode Ast.Link where
  link := link
  setLink := setLink
  names := [.body, .fn, .arg, .arg1, .arg2, .cond, .then_, .els]
  link_setLink {k p q n} has := by cases k <;> cases n <;> first | rfl | cases has
  link_setLink_ne {k l p n} ne := by
    cases k <;> cases l <;> first | exact absurd rfl ne | (cases n <;> rfl)
  setLink_link {k p n} has := by
    cases k <;> cases n <;> first | rfl | (cases has; rfl)
  setLink_setLink {k p q n} := by cases k <;> cases n <;> rfl

end AstNode

/-- `ast::Exp<std::unique_ptr>::~Exp`. -/
def dtorAst (fuel depth : Nat) (exp : Addr) (s : Store AstNode) : Option (Store AstNode) :=
  s.dtor fuel depth exp

/-- `delete` of an `ast::Exp<std::unique_ptr>`. -/
def deleteAst (fuel depth : Nat) (exp : Addr) (s : Store AstNode) : Option (Store AstNode) :=
  (dtorAst fuel depth exp s).map (·.free exp)

/-- The nodes of a tree lie at these addresses, the root first. -/
inductive AstStored (s : Store AstNode) : Ast.Exp → Addr → List Addr → Prop
  | intExp {a : Addr} {value : Int} : s.cell a = some (.intExp value) →
    AstStored s (.intExp value) a [a]
  | varExp {a : Addr} {name : String} : s.cell a = some (.varExp name) →
    AstStored s (.varExp name) a [a]
  | lamExp {a b : Addr} {param : String} {body : Ast.Exp} {F : List Addr} :
    s.cell a = some (.lamExp param (some b)) → AstStored s body b F →
    AstStored s (.lamExp param body) a (a :: F)
  | appExp {a b c : Addr} {fn arg : Ast.Exp} {F G : List Addr} :
    s.cell a = some (.appExp (some b) (some c)) → AstStored s fn b F → AstStored s arg c G →
    AstStored s (.appExp fn arg) a (a :: (F ++ G))
  | bopExp {a b c : Addr} {bop : Ast.Bop} {arg1 arg2 : Ast.Exp} {F G : List Addr} :
    s.cell a = some (.bopExp bop (some b) (some c)) → AstStored s arg1 b F →
    AstStored s arg2 c G → AstStored s (.bopExp bop arg1 arg2) a (a :: (F ++ G))
  | ifExp {a b c d : Addr} {cond then_ els : Ast.Exp} {F G H : List Addr} :
    s.cell a = some (.ifExp (some b) (some c) (some d)) → AstStored s cond b F →
    AstStored s then_ c G → AstStored s els d H →
    AstStored s (.ifExp cond then_ els) a (a :: (F ++ (G ++ H)))

section Trees

variable {s : Store AstNode} {e : Ast.Exp} {a : Addr} {F : List Addr}

theorem AstStored.forest (stored : AstStored s e a F) : Forest s [some a] F := by
  have alone : ∀ {a : Addr} {node : AstNode} {F : List Addr}, s.cell a = some node →
      Forest s (Store.links node) F → Forest s [some a] (a :: F) := by
    intro a node F cell below
    have tree := Forest.node cell below .nil
    rwa [List.append_nil] at tree
  induction stored with
  | intExp cell => exact alone cell .nil
  | varExp cell => exact alone cell .nil
  | lamExp cell _ ih => exact alone cell ih
  | appExp cell _ _ ihFn ihArg => exact alone cell (ihFn.append ihArg)
  | bopExp cell _ _ ih1 ih2 => exact alone cell (ih1.append ih2)
  | ifExp cell _ _ _ ihCond ihThen ihEls => exact alone cell (ihCond.append (ihThen.append ihEls))

/-- The same of syntax trees. -/
theorem deleteAst_frees (stored : AstStored s e a F) (apart : F.Nodup) {fuel : Nat}
    (enough : 8 * (F.length + 1) ≤ fuel) :
    (∀ depth, ∃ s', deleteAst fuel (depth + 2) a s = some s' ∧ Freed s F s') ∧
    ((∃ s', deleteAst fuel 1 a s = some s') ↔ F = [a]) ∧ deleteAst fuel 0 a s = none := by
  have distinct : (Linked.names AstNode).Nodup := by decide
  have turns : (Linked.names AstNode).length * (F.length + 1) ≤ fuel := enough
  have width : (Linked.names AstNode).length ≤ fuel :=
    (Nat.le_mul_of_pos_right _ (Nat.succ_pos _)).trans turns
  exact ⟨Store.delete_tree distinct stored.forest apart turns,
    Store.delete_one_iff_single distinct stored.forest width, rfl⟩

end Trees

/-- A memory that holds `fn x => x`. -/
def identityNodes : Store AstNode :=
  ((⟨none, ∅⟩ : Store AstNode).write 1 (.varExp "x")).write 0 (.lamExp "x" (some 1))

theorem deleteAst_frees_identity : ∃ s', deleteAst 24 2 0 identityNodes = some s' ∧
    Freed identityNodes [0, 1] s' := by
  have var : identityNodes.cell 1 = some (.varExp "x") := by
    simp [identityNodes, Store.cell_write_ne]
  have stored : AstStored identityNodes (.lamExp "x" (.varExp "x")) 0 [0, 1] :=
    .lamExp Store.cell_write_self (.varExp var)
  exact (deleteAst_frees stored (by decide) le_rfl).1 0

end Lambcalc.InPlace
