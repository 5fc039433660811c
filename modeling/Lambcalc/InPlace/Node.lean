import Lambcalc.Anf.Exp
import Lambcalc.Lib.Memory

/-!
# Terms in memory

`anf::Exp` of `include/anf.h` as what it is in memory: a node whose `unique_ptr` fields are
links to other nodes. `Stored` says that a term lies at some addresses, `Owns` that a link owns
it, and `read` is the term behind an `Exp &`.
-/

namespace Lambcalc.InPlace

open Anf
open Lib (Addr Ptr Linked Link Layout Store Allocator)

/-- The names of the `unique_ptr` fields. -/
inductive Field where
  | body
  | rest
  | thenBranch
  | elseBranch
  deriving DecidableEq, Repr

/-- `anf::Exp`: what one object holds. -/
inductive Node where
  | haltExp (value : Value)
  | funExp (name : Var) (params : List Var) (body rest : Ptr)
  | joinExp (name : Var) (slot : Option Var) (body rest : Ptr)
  | jumpExp (joinName : Var) (slotValue : Option Value)
  | appExp (name funName : Var) (paramValues : List Value) (rest : Ptr)
  | bopExp (name : Var) (bop : Ast.Bop) (param1 param2 : Value) (rest : Ptr)
  | ifExp (cond : Value) (thenBranch elseBranch : Ptr)
  | tupleExp (name : Var) (values : List Value) (rest : Ptr)
  | projExp (name tuple : Var) (index : Nat) (rest : Ptr)
  deriving DecidableEq, Repr

namespace Node

/-- The value of a field, where the node has it. -/
def link : Field → Node → Option Ptr
  | .body, funExp _ _ body _ => some body
  | .rest, funExp _ _ _ rest => some rest
  | .body, joinExp _ _ body _ => some body
  | .rest, joinExp _ _ _ rest => some rest
  | .rest, appExp _ _ _ rest => some rest
  | .rest, bopExp _ _ _ _ rest => some rest
  | .thenBranch, ifExp _ thenBranch _ => some thenBranch
  | .elseBranch, ifExp _ _ elseBranch => some elseBranch
  | .rest, tupleExp _ _ rest => some rest
  | .rest, projExp _ _ _ rest => some rest
  | _, _ => none

/-- The node with another value in a field. -/
def setLink : Field → Ptr → Node → Node
  | .body, p, funExp name params _ rest => funExp name params p rest
  | .rest, p, funExp name params body _ => funExp name params body p
  | .body, p, joinExp name slot _ rest => joinExp name slot p rest
  | .rest, p, joinExp name slot body _ => joinExp name slot body p
  | .rest, p, appExp name funName paramValues _ => appExp name funName paramValues p
  | .rest, p, bopExp name bop param1 param2 _ => bopExp name bop param1 param2 p
  | .thenBranch, p, ifExp cond _ elseBranch => ifExp cond p elseBranch
  | .elseBranch, p, ifExp cond thenBranch _ => ifExp cond thenBranch p
  | .rest, p, tupleExp name values _ => tupleExp name values p
  | .rest, p, projExp name tuple index _ => projExp name tuple index p
  | _, _, node => node

instance : Linked Node Field where
  link := link
  setLink := setLink
  names := [.body, .rest, .thenBranch, .elseBranch]
  link_setLink {k p q n} has := by cases k <;> cases n <;> first | rfl | cases has
  link_setLink_ne {k l p n} ne := by
    cases k <;> cases l <;> first | exact absurd rfl ne | (cases n <;> rfl)
  setLink_link {k p n} has := by
    cases k <;> cases n <;> first | rfl | (cases has; rfl)
  setLink_setLink {k p q n} := by cases k <;> cases n <;> rfl

end Node

abbrev Nodes : Type := Store Node

/-- The root node of a term without its links, the fields they are in, and the subterms they
own. -/
inductive Shape where
  | leaf (node : Node)
  | unary (node : Ptr → Node) (child : Exp)
  | binary (leftField rightField : Field) (node : Ptr → Ptr → Node) (left right : Exp)

def shape : Exp → Shape
  | .haltExp value => .leaf (.haltExp value)
  | .funExp name params body rest => .binary .body .rest (.funExp name params) body rest
  | .joinExp name slot body rest => .binary .body .rest (.joinExp name slot) body rest
  | .jumpExp joinName slotValue => .leaf (.jumpExp joinName slotValue)
  | .appExp name funName paramValues rest => .unary (.appExp name funName paramValues) rest
  | .bopExp name bop param1 param2 rest => .unary (.bopExp name bop param1 param2) rest
  | .ifExp cond thenBranch elseBranch =>
    .binary .thenBranch .elseBranch (.ifExp cond) thenBranch elseBranch
  | .tupleExp name values rest => .unary (.tupleExp name values) rest
  | .projExp name tuple index rest => .unary (.projExp name tuple index) rest

/-- The nodes of a term lie at the addresses of a layout. -/
def Stored (s : Nodes) : Exp → Layout → Prop
  | t, .leaf a => ∃ node, shape t = .leaf node ∧ s.cell a = some node
  | t, .unary a m =>
    ∃ node u, shape t = .unary node u ∧ s.cell a = some (node (some m.addr)) ∧ Stored s u m
  | t, .binary a l r =>
    ∃ lf rf node u v, shape t = .binary lf rf node u v ∧
      s.cell a = some (node (some l.addr) (some r.addr)) ∧ Stored s u l ∧ Stored s v r

/-- The term behind an `Exp &`; none if a node is missing or a field null. -/
def read (s : Nodes) : Nat → Addr → Option Exp
  | 0, _ => none
  | depth + 1, a => do
    match ← s.cell a with
    | .haltExp value => return .haltExp value
    | .funExp name params body rest =>
      return .funExp name params (← read s depth (← body)) (← read s depth (← rest))
    | .joinExp name slot body rest =>
      return .joinExp name slot (← read s depth (← body)) (← read s depth (← rest))
    | .jumpExp joinName slotValue => return .jumpExp joinName slotValue
    | .appExp name funName paramValues rest =>
      return .appExp name funName paramValues (← read s depth (← rest))
    | .bopExp name bop param1 param2 rest =>
      return .bopExp name bop param1 param2 (← read s depth (← rest))
    | .ifExp cond thenBranch elseBranch =>
      return .ifExp cond (← read s depth (← thenBranch)) (← read s depth (← elseBranch))
    | .tupleExp name values rest => return .tupleExp name values (← read s depth (← rest))
    | .projExp name tuple index rest =>
      return .projExp name tuple index (← read s depth (← rest))

/-! ## Shapes -/

section Shapes

variable {t u v : Exp} {lf rf : Field}

theorem link_unary {node : Ptr → Node} (is : shape t = .unary node u) (p : Ptr) :
    Linked.link .rest (node p) = some p := by
  cases t <;> cases is <;> rfl

theorem setLink_unary {node : Ptr → Node} (is : shape t = .unary node u) (p q : Ptr) :
    Linked.setLink .rest q (node p) = node q := by
  cases t <;> cases is <;> rfl

variable {node : Ptr → Ptr → Node}

theorem link_left (is : shape t = .binary lf rf node u v) (p q : Ptr) :
    Linked.link lf (node p q) = some p := by
  cases t <;> cases is <;> rfl

theorem link_right (is : shape t = .binary lf rf node u v) (p q : Ptr) :
    Linked.link rf (node p q) = some q := by
  cases t <;> cases is <;> rfl

theorem setLink_left (is : shape t = .binary lf rf node u v) (p q p' : Ptr) :
    Linked.setLink lf p' (node p q) = node p' q := by
  cases t <;> cases is <;> rfl

theorem setLink_right (is : shape t = .binary lf rf node u v) (p q q' : Ptr) :
    Linked.setLink rf q' (node p q) = node p q' := by
  cases t <;> cases is <;> rfl

theorem left_ne_right (is : shape t = .binary lf rf node u v) : lf ≠ rf := by
  cases t <;> cases is <;> nofun

end Shapes

/-! ## Terms at addresses -/

section Terms

variable {s s' : Nodes} {t u v : Exp} {l : Layout}

theorem Stored.leaf_inv {node : Node} (stored : Stored s t l) (is : shape t = .leaf node) :
    ∃ a, l = .leaf a ∧ s.cell a = some node := by
  cases l with
  | leaf a =>
    rcases stored with ⟨_, is', cell⟩
    cases is.symm.trans is'
    exact ⟨a, rfl, cell⟩
  | unary a m =>
    rcases stored with ⟨_, _, is', -⟩
    cases is.symm.trans is'
  | binary a l r =>
    rcases stored with ⟨_, _, _, _, _, is', -⟩
    cases is.symm.trans is'

theorem Stored.unary_inv {node : Ptr → Node} (stored : Stored s t l)
    (is : shape t = .unary node u) :
    ∃ a m, l = .unary a m ∧ s.cell a = some (node (some m.addr)) ∧ Stored s u m := by
  cases l with
  | leaf a =>
    rcases stored with ⟨_, is', -⟩
    cases is.symm.trans is'
  | unary a m =>
    rcases stored with ⟨_, _, is', cell, child⟩
    cases is.symm.trans is'
    exact ⟨a, m, rfl, cell, child⟩
  | binary a l r =>
    rcases stored with ⟨_, _, _, _, _, is', -⟩
    cases is.symm.trans is'

theorem Stored.binary_inv {lf rf : Field} {node : Ptr → Ptr → Node} (stored : Stored s t l)
    (is : shape t = .binary lf rf node u v) :
    ∃ a m r, l = .binary a m r ∧ s.cell a = some (node (some m.addr) (some r.addr)) ∧
      Stored s u m ∧ Stored s v r := by
  cases l with
  | leaf a =>
    rcases stored with ⟨_, is', -⟩
    cases is.symm.trans is'
  | unary a m =>
    rcases stored with ⟨_, _, is', -⟩
    cases is.symm.trans is'
  | binary a m r =>
    rcases stored with ⟨_, _, _, _, _, is', cell, left, right⟩
    cases is.symm.trans is'
    exact ⟨a, m, r, rfl, cell, left, right⟩

/-- Only the nodes of the term matter. -/
theorem Stored.congr (stored : Stored s t l) (same : ∀ a ∈ l.cells, s'.cell a = s.cell a) :
    Stored s' t l := by
  induction l generalizing t with
  | leaf a =>
    rcases stored with ⟨node, is, cell⟩
    exact ⟨node, is, (same a List.mem_cons_self).trans cell⟩
  | unary a m ih =>
    rcases stored with ⟨node, u, is, cell, child⟩
    exact ⟨node, u, is, (same a List.mem_cons_self).trans cell,
      ih child fun b member => same b (List.mem_cons_of_mem _ member)⟩
  | binary a l r ihLeft ihRight =>
    rcases stored with ⟨lf, rf, node, u, v, is, cell, left, right⟩
    exact ⟨lf, rf, node, u, v, is, (same a List.mem_cons_self).trans cell,
      ihLeft left fun b member =>
        same b (List.mem_cons_of_mem _ (List.mem_append_left _ member)),
      ihRight right fun b member =>
        same b (List.mem_cons_of_mem _ (List.mem_append_right _ member))⟩

/-- The nodes of a term are in use. -/
theorem Stored.cell (stored : Stored s t l) : ∀ a ∈ l.cells, ∃ node, s.cell a = some node := by
  induction l generalizing t with
  | leaf a =>
    rcases stored with ⟨node, -, cell⟩
    exact List.forall_mem_singleton.mpr ⟨node, cell⟩
  | unary a m ih =>
    rcases stored with ⟨node, u, -, cell, child⟩
    exact List.forall_mem_cons.mpr ⟨⟨_, cell⟩, ih child⟩
  | binary a l r ihLeft ihRight =>
    rcases stored with ⟨lf, rf, node, u, v, -, cell, left, right⟩
    exact List.forall_mem_cons.mpr
      ⟨⟨_, cell⟩, List.forall_mem_append.mpr ⟨ihLeft left, ihRight right⟩⟩

/-- An address that is not in use is none of a term's. -/
theorem Stored.notMem {a : Addr} (stored : Stored s t l) (unused : s.cell a = none) :
    a ∉ l.cells := by
  intro member
  rcases stored.cell a member with ⟨node, cell⟩
  cases unused.symm.trans cell

/-- Writing to another address leaves a term as it is. -/
theorem Stored.write {a : Addr} (stored : Stored s t l) (node : Node) (notMem : a ∉ l.cells) :
    Stored (s.write a node) t l :=
  stored.congr fun _ member => Store.cell_write_ne fun eq => notMem (eq ▸ member)

/-- Reading a stored term, to at least its depth. -/
theorem Stored.read (stored : Stored s t l) {depth : Nat} (enough : l.cells.length ≤ depth) :
    InPlace.read s depth l.addr = some t := by
  induction l generalizing t depth with
  | leaf a =>
    rcases stored with ⟨node, is, cell⟩
    cases depth with
    | zero => cases enough
    | succ depth =>
      cases t <;> cases is <;> simp [InPlace.read, cell]
  | unary a m ih =>
    rcases stored with ⟨node, u, is, cell, child⟩
    cases depth with
    | zero => cases enough
    | succ depth =>
      have below := ih child (Nat.le_of_succ_le_succ enough)
      cases t <;> cases is <;> simp [InPlace.read, cell, below]
  | binary a l r ihLeft ihRight =>
    rcases stored with ⟨lf, rf, node, u, v, is, cell, left, right⟩
    cases depth with
    | zero => cases enough
    | succ depth =>
      simp only [Layout.cells, List.length_cons, List.length_append] at enough
      have belowLeft : InPlace.read s depth l.addr = some u := ihLeft left (by omega)
      have belowRight : InPlace.read s depth r.addr = some v := ihRight right (by omega)
      cases t <;> cases is <;> simp [InPlace.read, cell, belowLeft, belowRight]

/-- There are not more nodes in a term than in the store. -/
theorem Stored.length_le (stored : Stored s t l) (apart : l.cells.Nodup) :
    l.cells.length ≤ s.heap.keys.card := by
  rw [← List.toFinset_card_of_nodup apart]
  refine Finset.card_le_card fun a member => ?_
  rcases stored.cell a (List.mem_toFinset.mp member) with ⟨node, cell⟩
  exact Finmap.mem_keys.mpr (Finmap.mem_of_lookup_eq_some cell)

end Terms

/-! ## Links that own terms -/

/-- A link owns a term. -/
structure Owns (s : Nodes) (L : Link Field) (t : Exp) (l : Layout) : Prop where
  loaded : s.load L = some (some l.addr)
  stored : Stored s t l
  apart : l.cells.Nodup
  outside : L.Outside l.cells

/-- The frame: a term that code elsewhere does not touch stays as it is. -/
theorem Stored.frame {s s' : Nodes} {L : Link Field} {F G : List Addr} {p : Ptr} {t : Exp}
    {l : Layout} (stored : Stored s t l) (replaced : s.Replaced L F p G s')
    (disjoint : ∀ a ∈ l.cells, a ∉ F) (owner : L.Outside l.cells) : Stored s' t l :=
  stored.congr fun a member => by
    rcases stored.cell a member with ⟨node, cell⟩
    rw [cell, replaced.cell_eq cell (disjoint a member) (owner a member)]

/-- The frame: a link that code elsewhere does not touch owns what it owned. -/
theorem Owns.frame {s s' : Nodes} {L M : Link Field} {F G : List Addr} {p : Ptr} {t : Exp}
    {l : Layout} (owns : Owns s M t l) (replaced : s.Replaced L F p G s') (ne : M ≠ L)
    (outside : M.Outside F) (disjoint : ∀ a ∈ l.cells, a ∉ F) (owner : L.Outside l.cells) :
    Owns s' M t l where
  loaded := replaced.load_ne ne outside owns.loaded
  stored := owns.stored.frame replaced disjoint owner
  apart := owns.apart
  outside := owns.outside

/-- A field that keeps its value, in a node that may get other values elsewhere. -/
theorem Owns.write {s : Nodes} {a : Addr} {k : Field} {t : Exp} {l : Layout} {node : Node}
    (owns : Owns s (.field a k) t l) (has : Linked.link k node = some (some l.addr)) :
    Owns (s.write a node) (.field a k) t l where
  loaded := by rw [Store.load_field Store.cell_write_self, has]
  stored := owns.stored.write node fun member => owns.outside a member rfl
  apart := owns.apart
  outside := owns.outside

/-- A link that owns one node owns that node. -/
theorem Owns.leaf_inv {s : Nodes} {L : Link Field} {t : Exp} {l : Layout} {node : Node}
    (owns : Owns s L t l) (is : shape t = .leaf node) :
    ∃ a, l = .leaf a ∧ s.cell a = some node := owns.stored.leaf_inv is

section Unary

variable {s : Nodes} {L : Link Field} {t u : Exp} {l m : Layout} {a : Addr}
  {node : Ptr → Node}

/-- The node of a term with one subterm owns the subterm. -/
theorem Owns.unary_inv (owns : Owns s L t l) (is : shape t = .unary node u) :
    ∃ a m, l = .unary a m ∧ s.cell a = some (node (some m.addr)) ∧
      Owns s (.field a .rest) u m := by
  rcases owns.stored.unary_inv is with ⟨a, m, rfl, cell, child⟩
  have apart := List.nodup_cons.mp owns.apart
  refine ⟨a, m, rfl, cell, ⟨?_, child, apart.2, ?_⟩⟩
  · rw [Store.load_field cell, link_unary is]
  · intro b member same
    cases same
    exact apart.1 member

theorem owns_unary (is : shape t = .unary node u) (loaded : s.load L = some (some a))
    (cell : s.cell a = some (node (some m.addr))) (owns : Owns s (.field a .rest) u m)
    (outside : L.Outside (a :: m.cells)) : Owns s L t (.unary a m) where
  loaded := loaded
  stored := ⟨node, u, is, cell, owns.stored⟩
  apart := List.nodup_cons.mpr ⟨fun member => owns.outside a member rfl, owns.apart⟩
  outside := outside

end Unary

section Binary

variable {s : Nodes} {L : Link Field} {t u v : Exp} {l m r : Layout} {a : Addr}
  {lf rf : Field} {node : Ptr → Ptr → Node}

/-- The node of a term with two subterms owns both. -/
theorem Owns.binary_inv (owns : Owns s L t l) (is : shape t = .binary lf rf node u v) :
    ∃ a m r, l = .binary a m r ∧ s.cell a = some (node (some m.addr) (some r.addr)) ∧
      Owns s (.field a lf) u m ∧ Owns s (.field a rf) v r ∧ m.cells.Disjoint r.cells := by
  rcases owns.stored.binary_inv is with ⟨a, m, r, rfl, cell, left, right⟩
  have apart := List.nodup_cons.mp owns.apart
  rcases List.nodup_append'.mp apart.2 with ⟨apartLeft, apartRight, disjoint⟩
  refine ⟨a, m, r, rfl, cell, ⟨?_, left, apartLeft, ?_⟩, ⟨?_, right, apartRight, ?_⟩, disjoint⟩
  · rw [Store.load_field cell, link_left is]
  · intro b member same
    cases same
    exact apart.1 (List.mem_append_left _ member)
  · rw [Store.load_field cell, link_right is]
  · intro b member same
    cases same
    exact apart.1 (List.mem_append_right _ member)

theorem owns_binary (is : shape t = .binary lf rf node u v) (loaded : s.load L = some (some a))
    (cell : s.cell a = some (node (some m.addr) (some r.addr)))
    (left : Owns s (.field a lf) u m) (right : Owns s (.field a rf) v r)
    (disjoint : m.cells.Disjoint r.cells) (outside : L.Outside (a :: (m.cells ++ r.cells))) :
    Owns s L t (.binary a m r) where
  loaded := loaded
  stored := ⟨lf, rf, node, u, v, is, cell, left.stored, right.stored⟩
  apart := by
    refine List.nodup_cons.mpr ⟨?_, List.nodup_append'.mpr ⟨left.apart, right.apart, disjoint⟩⟩
    rw [List.mem_append, not_or]
    exact ⟨fun member => left.outside a member rfl, fun member => right.outside a member rfl⟩
  outside := outside

end Binary

/-! ## Several terms -/

/-- The addresses of the nodes of some terms. -/
def cellsOf (pieces : List (Exp × Layout)) : List Addr := pieces.flatMap fun p => p.2.cells

@[simp] theorem cellsOf_nil : cellsOf [] = [] := rfl

@[simp] theorem cellsOf_cons (p : Exp × Layout) (pieces : List (Exp × Layout)) :
    cellsOf (p :: pieces) = p.2.cells ++ cellsOf pieces := rfl

@[simp] theorem cellsOf_append (ps qs : List (Exp × Layout)) :
    cellsOf (ps ++ qs) = cellsOf ps ++ cellsOf qs := List.flatMap_append

theorem cellsOf_perm {ps qs : List (Exp × Layout)} (same : ps.Perm qs) (a : Addr) :
    a ∈ cellsOf ps ↔ a ∈ cellsOf qs := (same.flatMap_right _).mem_iff

/-- Some terms lie in memory, apart from each other. -/
structure Pieces (s : Nodes) (pieces : List (Exp × Layout)) : Prop where
  stored : ∀ p ∈ pieces, Stored s p.1 p.2
  apart : (cellsOf pieces).Nodup

namespace Pieces

variable {s s' : Nodes} {ps qs : List (Exp × Layout)}

theorem nil (s : Nodes) : Pieces s [] := ⟨List.forall_mem_nil _, .nil⟩

theorem cell (pieces : Pieces s ps) : ∀ a ∈ cellsOf ps, ∃ node, s.cell a = some node := by
  intro a member
  rcases List.mem_flatMap.mp member with ⟨p, isPiece, inPiece⟩
  exact (pieces.stored p isPiece).cell a inPiece

theorem perm (pieces : Pieces s ps) (same : ps.Perm qs) : Pieces s qs where
  stored p member := pieces.stored p (same.mem_iff.mpr member)
  apart := (same.flatMap_right _).nodup_iff.mp pieces.apart

theorem append (left : Pieces s ps) (right : Pieces s qs)
    (disjoint : (cellsOf ps).Disjoint (cellsOf qs)) : Pieces s (ps ++ qs) where
  stored := List.forall_mem_append.mpr ⟨left.stored, right.stored⟩
  apart := by
    rw [cellsOf_append]
    exact List.nodup_append'.mpr ⟨left.apart, right.apart, disjoint⟩

theorem of_append (pieces : Pieces s (ps ++ qs)) :
    Pieces s ps ∧ Pieces s qs ∧ (cellsOf ps).Disjoint (cellsOf qs) := by
  rcases List.forall_mem_append.mp pieces.stored with ⟨storedLeft, storedRight⟩
  rcases List.nodup_append'.mp (cellsOf_append ps qs ▸ pieces.apart) with
    ⟨apartLeft, apartRight, disjoint⟩
  exact ⟨⟨storedLeft, apartLeft⟩, ⟨storedRight, apartRight⟩, disjoint⟩

/-- The frame: terms that code elsewhere does not touch stay as they are. -/
theorem frame {L : Link Field} {F G : List Addr} {p : Ptr} (pieces : Pieces s ps)
    (replaced : s.Replaced L F p G s') (disjoint : ∀ a ∈ cellsOf ps, a ∉ F)
    (owner : L.Outside (cellsOf ps)) : Pieces s' ps where
  stored q member := (pieces.stored q member).frame replaced
    (fun a inPiece => disjoint a (List.mem_flatMap.mpr ⟨q, member, inPiece⟩))
    fun a inPiece => owner a (List.mem_flatMap.mpr ⟨q, member, inPiece⟩)
  apart := pieces.apart

theorem write {a : Addr} (pieces : Pieces s ps) (node : Node) (notMem : a ∉ cellsOf ps) :
    Pieces (s.write a node) ps where
  stored p member := (pieces.stored p member).write node fun inPiece =>
    notMem (List.mem_flatMap.mpr ⟨p, member, inPiece⟩)
  apart := pieces.apart

/-- New nodes are none of those of terms elsewhere. -/
theorem disjoint {L : Link Field} {F G : List Addr} {p : Ptr} (pieces : Pieces s ps)
    (replaced : s.Replaced L F p G s') (disjoint : ∀ a ∈ cellsOf ps, a ∉ F) :
    G.Disjoint (cellsOf ps) := by
  intro a new member
  rcases pieces.cell a member with ⟨node, cell⟩
  exact replaced.notMem cell (disjoint a member) new

end Pieces

/-! ## Every term has a memory -/

/-- The term can be added to any memory, at addresses that are not in use. -/
def Addable (t : Exp) : Prop :=
  ∀ s : Nodes, ∃ s' l, Stored s' t l ∧ l.cells.Nodup ∧ (∀ a ∈ l.cells, s.cell a = none) ∧
    ∀ a ∉ l.cells, s'.cell a = s.cell a

section Adding

variable {t u v : Exp}

theorem addable_leaf {node : Node} (is : shape t = .leaf node) : Addable t := by
  intro s
  rcases Lib.exists_unused s.heap with ⟨a, unused⟩
  refine ⟨s.write a node, .leaf a, ⟨node, is, Store.cell_write_self⟩, List.nodup_singleton a,
    List.forall_mem_singleton.mpr (Finmap.lookup_eq_none.mpr unused), fun b notMem => ?_⟩
  exact Store.cell_write_ne (mt List.mem_singleton.mpr notMem)

/-- The node goes to an address that neither the memory nor the subterm uses. -/
theorem addable_unary {node : Ptr → Node} (is : shape t = .unary node u) (child : Addable u) :
    Addable t := by
  intro s
  rcases child s with ⟨s₁, m, stored, apart, new, same⟩
  rcases Lib.exists_unused s₁.heap with ⟨a, unused⟩
  have free : s₁.cell a = none := Finmap.lookup_eq_none.mpr unused
  have notMem := stored.notMem free
  refine ⟨s₁.write a (node (some m.addr)), .unary a m,
    ⟨node, u, is, Store.cell_write_self, stored.write _ notMem⟩,
    List.nodup_cons.mpr ⟨notMem, apart⟩, List.forall_mem_cons.mpr ⟨same a notMem ▸ free, new⟩, ?_⟩
  intro b outside
  rcases not_or.mp (mt List.mem_cons.mpr outside) with ⟨ne, outside⟩
  exact (Store.cell_write_ne ne).trans (same b outside)

/-- The right subterm is added to the memory with the left one. -/
theorem addable_binary {lf rf : Field} {node : Ptr → Ptr → Node}
    (is : shape t = .binary lf rf node u v) (left : Addable u) (right : Addable v) :
    Addable t := by
  intro s
  rcases left s with ⟨s₁, m, storedLeft, apartLeft, newLeft, sameLeft⟩
  rcases right s₁ with ⟨s₂, r, storedRight, apartRight, newRight, sameRight⟩
  rcases Lib.exists_unused s₂.heap with ⟨a, unused⟩
  have free : s₂.cell a = none := Finmap.lookup_eq_none.mpr unused
  have disjoint : m.cells.Disjoint r.cells := fun b inLeft inRight =>
    storedLeft.notMem (newRight b inRight) inLeft
  have storedLeft' : Stored s₂ u m := storedLeft.congr fun b member =>
    sameRight b fun inRight => disjoint member inRight
  have notLeft := storedLeft'.notMem free
  have notRight := storedRight.notMem free
  have newRight' : ∀ b ∈ r.cells, s.cell b = none := fun b member =>
    sameLeft b (fun inLeft => disjoint inLeft member) ▸ newRight b member
  have unusedBefore : s.cell a = none :=
    sameLeft a notLeft ▸ sameRight a notRight ▸ free
  refine ⟨s₂.write a (node (some m.addr) (some r.addr)), .binary a m r,
    ⟨lf, rf, node, u, v, is, Store.cell_write_self, storedLeft'.write _ notLeft,
      storedRight.write _ notRight⟩, ?_,
    List.forall_mem_cons.mpr ⟨unusedBefore, List.forall_mem_append.mpr ⟨newLeft, newRight'⟩⟩,
    fun b outside => ?_⟩
  · refine List.nodup_cons.mpr ⟨fun member => ?_,
      List.nodup_append'.mpr ⟨apartLeft, apartRight, disjoint⟩⟩
    exact (List.mem_append.mp member).elim notLeft notRight
  · rcases not_or.mp (mt List.mem_cons.mpr outside) with ⟨ne, outside⟩
    rcases not_or.mp (mt List.mem_append.mpr outside) with ⟨outLeft, outRight⟩
    exact (Store.cell_write_ne ne).trans ((sameRight b outRight).trans (sameLeft b outLeft))

end Adding

theorem addable (t : Exp) : Addable t := by
  induction t with
  | haltExp value => exact addable_leaf rfl
  | funExp name params body rest ihBody ihRest => exact addable_binary rfl ihBody ihRest
  | joinExp name slot body rest ihBody ihRest => exact addable_binary rfl ihBody ihRest
  | jumpExp joinName slotValue => exact addable_leaf rfl
  | appExp name funName paramValues rest ih => exact addable_unary rfl ih
  | bopExp name bop param1 param2 rest ih => exact addable_unary rfl ih
  | ifExp cond thenBranch elseBranch ihThen ihElse => exact addable_binary rfl ihThen ihElse
  | tupleExp name values rest ih => exact addable_unary rfl ih
  | projExp name tuple index rest ih => exact addable_unary rfl ih

/-- Every term is owned by the root of some memory. -/
theorem exists_owns (t : Exp) : ∃ (s : Nodes) (l : Layout), Owns s .root t l := by
  rcases addable t ⟨none, ∅⟩ with ⟨s, l, stored, apart, -, -⟩
  exact ⟨{ s with root := some l.addr }, l, rfl, stored.congr fun _ _ => rfl, apart,
    Link.Outside.ofRoot⟩

/-! ## A term in memory -/

/-- The A-normal form of `(fn x => x) 1`. -/
def callIdentity : Exp :=
  .funExp "tmp0" ["x0"] (.haltExp (.varValue "x0"))
    (.appExp "tmp1" "tmp0" [.intValue 1] (.haltExp (.varValue "tmp1")))

/-- A memory that holds it, in the order of its nodes. -/
def callIdentityNodes : Nodes :=
  let s : Nodes := ⟨some 0, ∅⟩
  let s := s.write 3 (.haltExp (.varValue "tmp1"))
  let s := s.write 2 (.appExp "tmp1" "tmp0" [.intValue 1] (some 3))
  let s := s.write 1 (.haltExp (.varValue "x0"))
  s.write 0 (.funExp "tmp0" ["x0"] (some 1) (some 2))

theorem owns_callIdentity :
    Owns callIdentityNodes .root callIdentity (.binary 0 (.leaf 1) (.unary 2 (.leaf 3))) where
  loaded := rfl
  stored := by
    have cells : callIdentityNodes.cell 0 = some (.funExp "tmp0" ["x0"] (some 1) (some 2)) ∧
        callIdentityNodes.cell 1 = some (.haltExp (.varValue "x0")) ∧
        callIdentityNodes.cell 2 = some (.appExp "tmp1" "tmp0" [.intValue 1] (some 3)) ∧
        callIdentityNodes.cell 3 = some (.haltExp (.varValue "tmp1")) := by
      refine ⟨?_, ?_, ?_, ?_⟩ <;> simp [callIdentityNodes, Store.cell_write_ne]
    exact ⟨_, _, _, _, _, rfl, cells.1, ⟨_, rfl, cells.2.1⟩,
      ⟨_, _, rfl, cells.2.2.1, ⟨_, rfl, cells.2.2.2⟩⟩⟩
  apart := by decide
  outside := Link.Outside.ofRoot

end Lambcalc.InPlace
