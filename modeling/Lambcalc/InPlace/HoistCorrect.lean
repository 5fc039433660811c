import Lambcalc.InPlace.Hoist

/-!
# Hoisting in place is hoisting

A task for the node a link owns, run with all the tasks it leads to, leaves below the link what
is left of the term there, adds to the visitor what the term contributes, with bodies that lie
in the memory of the term, and leaves the rest of the memory and of the stack as they are.
`Hoists` says so of a term, and is proved by induction on it. The tasks that lie between the
tasks for the children of a node find the children as the tasks before have left them.
-/

namespace Lambcalc.InPlace

open Anf
open Hoist (entryName thenName elseName hoists block blocks lifted functionOf)
open Lib (Addr Ptr Link Layout Store Allocator Path)

/-! ## Blocks and functions in memory -/

/-- A block whose body lies in memory. -/
structure PlacedJoin where
  join : Hoist.Join
  layout : Layout

/-- The block, with the link that owns its body. -/
def PlacedJoin.inMemory (p : PlacedJoin) : Join := ⟨p.join.name, p.join.slot, some p.layout.addr⟩

def PlacedJoin.piece (p : PlacedJoin) : Exp × Layout := (p.join.body, p.layout)

/-- A function whose blocks lie in memory. -/
structure PlacedFunction where
  name : Var
  params : List Var
  entryBlock : PlacedJoin
  blocks : List PlacedJoin

def PlacedFunction.function (p : PlacedFunction) : Hoist.Function :=
  ⟨p.name, p.params, p.entryBlock.join, p.blocks.map PlacedJoin.join⟩

def PlacedFunction.inMemory (p : PlacedFunction) : Function :=
  ⟨p.name, p.params, p.entryBlock.inMemory, p.blocks.map PlacedJoin.inMemory⟩

def PlacedFunction.pieces (p : PlacedFunction) : List (Exp × Layout) :=
  p.entryBlock.piece :: p.blocks.map PlacedJoin.piece

/-- The bodies of some blocks and functions. -/
def gathered (joins : List PlacedJoin) (functions : List PlacedFunction) : List (Exp × Layout) :=
  joins.map PlacedJoin.piece ++ functions.flatMap PlacedFunction.pieces

/-! ## What the tasks find -/

/-- The nodes of the functions and joins in a term, visited with `counter_` at a given value, each
with what its rest is hoisted to, in the order in which they are replaced by it. -/
def relinked : Exp → Layout → Nat → List (Addr × Exp)
  | .funExp _ _ body rest, .binary a l r, c =>
    relinked body l c ++ relinked rest r (c + hoists body + 1) ++
      [(a, block rest (c + hoists body + 1))]
  | .joinExp _ _ body rest, .binary a l r, c =>
    relinked body l c ++ relinked rest r (c + hoists body) ++ [(a, block rest (c + hoists body))]
  | .appExp _ _ _ rest, .unary _ m, c => relinked rest m c
  | .bopExp _ _ _ _ rest, .unary _ m, c => relinked rest m c
  | .ifExp _ thenBranch elseBranch, .binary _ l r, c =>
    relinked thenBranch l c ++ relinked elseBranch r (c + hoists thenBranch)
  | .tupleExp _ _ rest, .unary _ m, c => relinked rest m c
  | .projExp _ _ _ rest, .unary _ m, c => relinked rest m c
  | _, _, _ => []

namespace HoistVisitor

/-- The node that the next turn replaces by its rest, and the rest. -/
def relinks (visitor : HoistVisitor) : List (Addr × Option Exp) :=
  match visitor.worklist with
  | .relink _ exp :: _ =>
    [(exp, (visitor.nodes.load (.field exp .rest)).join.bind
      (read visitor.nodes visitor.nodes.heap.keys.card))]
  | _ => []

/-- The link of the task on top still owns the node the task is for. -/
def Finds (visitor : HoistVisitor) : Prop :=
  match visitor.worklist with
  | .node link exp :: _ => visitor.nodes.load link = some (some exp)
  | .relink savedParentLink exp :: _ =>
    ∃ link, savedParentLink = some link ∧ visitor.nodes.load link = some (some exp)
  | _ => True

/-- The next turn visits a function. -/
def VisitsFun (visitor : HoistVisitor) (exp : Addr) : Prop :=
  ∃ link tasks name params body rest, visitor.worklist = .node link exp :: tasks ∧
    visitor.nodes.cell exp = some (.funExp name params body rest)

/-- The next turn makes the function, and gives `currentJoins_` a value. -/
def Collects (alloc : Allocator Node) (visitor : HoistVisitor) (exp : Addr) (joins : List Join) :
    Prop :=
  ∃ saved tasks next, visitor.worklist = .collectFunction exp saved :: tasks ∧
    visitor.step alloc = .inl next ∧ next.currentJoins = joins

end HoistVisitor

/-- After each visit of a function comes a turn that makes the function, and `currentJoins_` then
is what it was before the visit. -/
def Restores (alloc : Allocator Node) : List HoistVisitor → Prop
  | [] => True
  | visitor :: run =>
    (∀ exp, visitor.VisitsFun exp →
      ∃ later ∈ run, later.Collects alloc exp visitor.currentJoins) ∧ Restores alloc run

theorem Restores.append {alloc : Allocator Node} {run run' : List HoistVisitor}
    (first : Restores alloc run) (second : Restores alloc run') :
    Restores alloc (run ++ run') := by
  induction run with
  | nil => exact second
  | cons visitor run ih =>
    refine ⟨fun exp visits => ?_, ih first.2⟩
    rcases first.1 exp visits with ⟨later, member, collects⟩
    exact ⟨later, List.mem_append_left _ member, collects⟩

theorem Restores.single {alloc : Allocator Node} {visitor : HoistVisitor}
    (other : ∀ exp, ¬ visitor.VisitsFun exp) : Restores alloc [visitor] :=
  ⟨fun exp visits => (other exp visits).elim, trivial⟩

/-- From `visitor` on, with the task for the node of `t` below `link` on top of `tasks`, the loop
comes to `visitor'`, where `tasks` are left, the link owns what is left of `t`, and what `t`
contributes has been gathered. -/
structure Hoisted (alloc : Allocator Node) (t : Exp) (l : Layout) (link : Link Field)
    (tasks : List HoistTask) (visitor : HoistVisitor) (run : List HoistVisitor)
    (visitor' : HoistVisitor) (l' : Layout) (joins : List PlacedJoin)
    (functions : List PlacedFunction) : Prop where
  path : Path (HoistVisitor.step alloc) visitor run visitor'
  worklist : visitor'.worklist = tasks
  counter : visitor'.counter = visitor.counter + hoists t
  currentJoins : visitor'.currentJoins = visitor.currentJoins ++ joins.map PlacedJoin.inMemory
  areBlocks : joins.map PlacedJoin.join = blocks t visitor.counter
  collected : visitor'.collected = visitor.collected ++ functions.map PlacedFunction.inMemory
  areLifted : functions.map PlacedFunction.function = lifted t visitor.counter
  pieces : Pieces visitor'.nodes ((block t visitor.counter, l') :: gathered joins functions)
  replaced : visitor.nodes.Replaced link l.cells (some l'.addr)
    (l'.cells ++ cellsOf (gathered joins functions)) visitor'.nodes
  relinks : run.flatMap HoistVisitor.relinks =
    (relinked t l visitor.counter).map fun p => (p.1, some p.2)
  finds : ∀ v ∈ run, v.Finds
  restores : Restores alloc run

/-- The tasks a task for a term leads to hoist the term in place. -/
def Hoists (alloc : Allocator Node) (t : Exp) : Prop :=
  ∀ (visitor : HoistVisitor) (link : Link Field) (tasks : List HoistTask) (l : Layout),
    visitor.worklist = .node link l.addr :: tasks → Owns visitor.nodes link t l →
    ∃ run visitor' l' joins functions,
      Hoisted alloc t l link tasks visitor run visitor' l' joins functions

/-! ## Turns of the loop -/

namespace HoistVisitor

variable {alloc : Allocator Node} {visitor next : HoistVisitor} {link : Link Field}
  {exp a : Addr} {tasks : List HoistTask} {node : Node}

theorem addWorklist_eq (loaded : visitor.nodes.load link = some (some a)) :
    visitor.addWorklist link =
      some { visitor with worklist := .node link a :: visitor.worklist } := by
  simp [addWorklist, loaded]

theorem step_task {task : HoistTask} (top : visitor.worklist = task :: tasks)
    (done : ({ visitor with worklist := tasks } : HoistVisitor).runTask alloc task = some next) :
    visitor.step alloc = .inl next := by
  simp [step, top, done]

theorem relinks_node (top : visitor.worklist = .node link exp :: tasks) :
    visitor.relinks = [] := by
  simp [relinks, top]

theorem finds_node (top : visitor.worklist = .node link exp :: tasks)
    (loaded : visitor.nodes.load link = some (some exp)) : visitor.Finds := by
  simp only [Finds, top]
  exact loaded

theorem not_visitsFun (top : visitor.worklist = .node link exp :: tasks)
    (cell : visitor.nodes.cell exp = some node)
    (other : ∀ name params body rest, node ≠ .funExp name params body rest) (a : Addr) :
    ¬ visitor.VisitsFun a := by
  rintro ⟨_, _, name, params, body, rest, top', cell'⟩
  cases top.symm.trans top'
  cases cell.symm.trans cell'
  exact other name params body rest rfl

end HoistVisitor

/-! ## Children -/

section Children

variable {alloc : Allocator Node} {link : Link Field} {tasks : List HoistTask} {a : Addr}
  {node : Node} {t u : Exp}

/-- The link owns what is left of the term. -/
theorem Hoisted.owns {l l' : Layout} {visitor visitor' : HoistVisitor} {run : List HoistVisitor}
    {joins : List PlacedJoin} {functions : List PlacedFunction}
    (done : Hoisted alloc t l link tasks visitor run visitor' l' joins functions)
    (loaded : visitor.nodes.load link = some (some l.addr)) (outside : link.Outside l.cells) :
    Owns visitor'.nodes link (block t visitor.counter) l' where
  loaded := done.replaced.load_self loaded
  stored := done.pieces.stored _ List.mem_cons_self
  apart := (List.nodup_append'.mp done.pieces.apart).1
  outside b member := done.replaced.outside loaded outside b (List.mem_append_left _ member)

/-- A task for the term below a field of a node, with other terms in memory. -/
theorem Hoists.child {k : Field} {m : Layout} {others : List (Exp × Layout)}
    (hoists : Hoists alloc u) (visitor : HoistVisitor)
    (top : visitor.worklist = .node (.field a k) m.addr :: tasks)
    (cell : visitor.nodes.cell a = some node) (owns : Owns visitor.nodes (.field a k) u m)
    (pieces : Pieces visitor.nodes others) (apart : ∀ b ∈ cellsOf others, b ≠ a ∧ b ∉ m.cells)
    (loaded : visitor.nodes.load link = some (some a)) (outside : link.Outside (a :: m.cells)) :
    ∃ run visitor' m' joins functions,
      Hoisted alloc u m (.field a k) tasks visitor run visitor' m' joins functions ∧
        visitor'.nodes.cell a = some (Lib.setLink k (some m'.addr) node) ∧
        Pieces visitor'.nodes
          ((block u visitor.counter, m') :: gathered joins functions ++ others) ∧
        a ∉ m'.cells ++ cellsOf (gathered joins functions) ∧
        visitor.nodes.Replaced link (a :: m.cells) (some a)
          (a :: (m'.cells ++ cellsOf (gathered joins functions))) visitor'.nodes := by
  rcases hoists visitor _ tasks m top owns with ⟨run, visitor', m', joins, functions, done⟩
  have separate : ∀ b ∈ cellsOf others, b ∉ m.cells := fun b member => (apart b member).2
  have kept : Pieces visitor'.nodes others := pieces.frame done.replaced separate
    fun b member same => (apart b member).1 (Option.some.inj same).symm
  refine ⟨run, visitor', m', joins, functions, done,
    done.replaced.link_field a k node rfl cell,
    done.pieces.append kept (pieces.disjoint done.replaced separate), ?_,
    done.replaced.nest loaded outside⟩
  exact done.replaced.notMem cell fun member => owns.outside a member rfl

end Children

/-! ## Nodes that stay -/

section Walked

variable {alloc : Allocator Node} {t u : Exp}

/-- A node without subterms stays as it is. -/
theorem hoists_leaf {node : Node} (is : shape t = .leaf node) : Hoists alloc t := by
  intro visitor link tasks l top owns
  rcases owns.leaf_inv is with ⟨a, rfl, cell⟩
  have other : ∀ name params body rest, node ≠ .funExp name params body rest := by
    cases t <;> cases is <;> nofun
  have same : block t visitor.counter = t ∧ hoists t = 0 ∧ blocks t visitor.counter = [] ∧
      lifted t visitor.counter = [] ∧ relinked t (.leaf a) visitor.counter = [] := by
    cases t <;> cases is <;> exact ⟨rfl, rfl, rfl, rfl, rfl⟩
  rcases same with ⟨sameBlock, noNumbers, noBlocks, noFunctions, noRelinks⟩
  refine ⟨[visitor], { visitor with parentLink := some link, worklist := tasks }, .leaf a, [], [],
    .single (HoistVisitor.step_task top ?_), rfl, ?_, (List.append_nil _).symm, noBlocks.symm,
    (List.append_nil _).symm, noFunctions.symm, ?_, ?_, ?_, ?_, ?_⟩
  · simp only [HoistVisitor.runTask, HoistVisitor.visit, cell, Layout.addr_leaf,
      Option.bind_eq_bind, Option.bind_some]
    cases t <;> cases is <;> rfl
  · rw [noNumbers]
    rfl
  · rw [sameBlock]
    exact ⟨List.forall_mem_singleton.mpr owns.stored, owns.apart⟩
  · exact .refl _ owns.loaded
  · rw [List.flatMap_singleton, HoistVisitor.relinks_node top, noRelinks]
    rfl
  · exact List.forall_mem_singleton.mpr (HoistVisitor.finds_node top owns.loaded)
  · exact .single (HoistVisitor.not_visitsFun top cell other)

/-- A node with one link that stays where it is. -/
structure Walked (node : Ptr → Node) (f : Exp → Exp) : Prop where
  is : ∀ u, shape (f u) = .unary node u
  visit : ∀ (visitor : HoistVisitor) a p, visitor.nodes.cell a = some (node p) →
    visitor.visit a = visitor.addWorklist (.field a .rest)
  hoists : ∀ u, hoists (f u) = hoists u
  block : ∀ u c, block (f u) c = f (block u c)
  blocks : ∀ u c, blocks (f u) c = blocks u c
  lifted : ∀ u c, lifted (f u) c = lifted u c
  relinked : ∀ u a m c, relinked (f u) (.unary a m) c = relinked u m c
  other : ∀ p name params body rest, node p ≠ .funExp name params body rest

theorem walked_appExp (name funName : Var) (paramValues : List Value) :
    Walked (.appExp name funName paramValues) (.appExp name funName paramValues) where
  is _ := rfl
  visit visitor a p cell := by simp [HoistVisitor.visit, cell]
  hoists _ := rfl
  block _ _ := rfl
  blocks _ _ := rfl
  lifted _ _ := rfl
  relinked _ _ _ _ := rfl
  other _ := nofun

theorem walked_bopExp (name : Var) (bop : Ast.Bop) (param1 param2 : Value) :
    Walked (.bopExp name bop param1 param2) (.bopExp name bop param1 param2) where
  is _ := rfl
  visit visitor a p cell := by simp [HoistVisitor.visit, cell]
  hoists _ := rfl
  block _ _ := rfl
  blocks _ _ := rfl
  lifted _ _ := rfl
  relinked _ _ _ _ := rfl
  other _ := nofun

theorem walked_tupleExp (name : Var) (values : List Value) :
    Walked (.tupleExp name values) (.tupleExp name values) where
  is _ := rfl
  visit visitor a p cell := by simp [HoistVisitor.visit, cell]
  hoists _ := rfl
  block _ _ := rfl
  blocks _ _ := rfl
  lifted _ _ := rfl
  relinked _ _ _ _ := rfl
  other _ := nofun

theorem walked_projExp (name tuple : Var) (index : Nat) :
    Walked (.projExp name tuple index) (.projExp name tuple index) where
  is _ := rfl
  visit visitor a p cell := by simp [HoistVisitor.visit, cell]
  hoists _ := rfl
  block _ _ := rfl
  blocks _ _ := rfl
  lifted _ _ := rfl
  relinked _ _ _ _ := rfl
  other _ := nofun

/-- A node with one subterm that stays where it is. -/
theorem Walked.hoists_in_place {node : Ptr → Node} {f : Exp → Exp} (walked : Walked node f)
    (ih : Hoists alloc u) : Hoists alloc (f u) := by
  intro visitor link tasks l top owns
  rcases owns.unary_inv (walked.is u) with ⟨a, m, rfl, cell, child⟩
  let next : HoistVisitor :=
    { visitor with parentLink := some link, worklist := .node (.field a .rest) m.addr :: tasks }
  have turn : visitor.step alloc = .inl next := by
    refine HoistVisitor.step_task top ?_
    refine (walked.visit _ a (some m.addr) ?_).trans (HoistVisitor.addWorklist_eq ?_)
    · exact cell
    · exact child.loaded
  rcases ih.child next rfl cell child (Pieces.nil _) nofun owns.loaded owns.outside with
    ⟨run, visitor', m', joins, functions, done, cell', pieces, notMem, replaced⟩
  rw [setLink_unary (walked.is u)] at cell'
  rw [List.append_nil] at pieces
  refine ⟨visitor :: run, visitor', .unary a m', joins, functions, .cons turn done.path,
    done.worklist, ?_, done.currentJoins, ?_, done.collected, ?_, ⟨?_, ?_⟩, replaced, ?_, ?_, ?_⟩
  · rw [done.counter, walked.hoists]
  · rw [done.areBlocks, walked.blocks]
  · rw [done.areLifted, walked.lifted]
  · refine List.forall_mem_cons.mpr ⟨?_, fun p member =>
      pieces.stored p (List.mem_cons_of_mem _ member)⟩
    rw [walked.block]
    exact ⟨node, _, walked.is _, cell', pieces.stored _ List.mem_cons_self⟩
  · exact List.nodup_cons.mpr ⟨notMem, pieces.apart⟩
  · rw [List.flatMap_cons, HoistVisitor.relinks_node top, List.nil_append, done.relinks,
      walked.relinked]
  · exact List.forall_mem_cons.mpr ⟨HoistVisitor.finds_node top owns.loaded, done.finds⟩
  · exact Restores.append
      (.single (HoistVisitor.not_visitsFun top cell (walked.other _))) done.restores

end Walked

/-! ## Nodes that are replaced by their rests -/

section Relinked

variable {alloc : Allocator Node} {link : Link Field} {tasks : List HoistTask} {a : Addr}
  {node : Node} {rest : Exp}

/-- The `FnTask` of a node that owns nothing but its rest: the rest takes the place of the node. -/
theorem relink_spec (visitor : HoistVisitor) {l : Layout} {pieces : List (Exp × Layout)}
    (loaded : visitor.nodes.load link = some (some a))
    (cell : visitor.nodes.cell a = some node)
    (has : Lib.link .rest node = some (some l.addr))
    (bare : ∀ k p, k ≠ .rest → Lib.link k node = some p → p = none)
    (placed : Pieces visitor.nodes pieces) (notMem : a ∉ cellsOf pieces)
    (outside : link.Outside (a :: cellsOf pieces)) :
    ∃ s', visitor.relink (some link) a = some { visitor with nodes := s' } ∧
      visitor.nodes.Replaced link [a] (some l.addr) [] s' ∧ Pieces s' pieces := by
  have outsideNode : link.Outside [a] := outside.root
  let s₁ := visitor.nodes.write a (Lib.setLink .rest none node)
  have r₁ : visitor.nodes.Replaced link [a] (some a) [a] s₁ := .write _ loaded outsideNode
  have empty : ∀ k p, Lib.link k (Lib.setLink Field.rest none node) = some p → p = none := by
    intro k p owned
    by_cases same : k = .rest
    · subst same
      rw [Lib.Linked.link_setLink has] at owned
      exact (Option.some.inj owned).symm
    · rw [Lib.Linked.link_setLink_ne same] at owned
      exact bare k p same owned
  rcases Store.Replaced.assign (some l.addr) (r₁.load_self loaded) outsideNode
    Store.cell_write_self empty with ⟨s₂, assigned, r₂⟩
  have whole := r₁.trans r₂ outsideNode
  refine ⟨s₂, ?_, whole, placed.frame whole ?_ ?_⟩
  · simp only [HoistVisitor.relink, Store.move_field cell has, Option.bind_eq_bind,
      Option.bind_some]
    exact (congrArg (Option.bind · _) assigned)
  · intro b member same
    rw [List.mem_singleton] at same
    exact notMem (same ▸ member)
  · exact fun b member => outside b (List.mem_cons_of_mem _ member)

/-- From `visitor` on, with the tasks for the rest of the node at `a` and for putting it in its
place on top of `tasks`, the loop comes to `visitor'`, where `tasks` are left and what the rest
contributes has been gathered. -/
structure RestHoisted (alloc : Allocator Node) (rest : Exp) (r : Layout) (a : Addr)
    (tasks : List HoistTask) (others : List (Exp × Layout)) (visitor : HoistVisitor)
    (run : List HoistVisitor) (visitor' : HoistVisitor) (l' : Layout) (joins : List PlacedJoin)
    (functions : List PlacedFunction) : Prop where
  path : Path (HoistVisitor.step alloc) visitor run visitor'
  worklist : visitor'.worklist = tasks
  counter : visitor'.counter = visitor.counter + hoists rest
  currentJoins : visitor'.currentJoins = visitor.currentJoins ++ joins.map PlacedJoin.inMemory
  areBlocks : joins.map PlacedJoin.join = blocks rest visitor.counter
  collected : visitor'.collected = visitor.collected ++ functions.map PlacedFunction.inMemory
  areLifted : functions.map PlacedFunction.function = lifted rest visitor.counter
  placed : Pieces visitor'.nodes
    ((block rest visitor.counter, l') :: gathered joins functions ++ others)
  relinks : run.flatMap HoistVisitor.relinks =
    (relinked rest r visitor.counter ++ [(a, block rest visitor.counter)]).map
      fun p => (p.1, some p.2)
  finds : ∀ v ∈ run, v.Finds
  restores : Restores alloc run

/-- From the task for the rest of a node on: the rest is hoisted and takes the place of the
node. -/
theorem hoist_rest {r : Layout} {others : List (Exp × Layout)} (ih : Hoists alloc rest)
    (visitor : HoistVisitor)
    (top : visitor.worklist = .node (.field a .rest) r.addr :: .relink (some link) a :: tasks)
    (cell : visitor.nodes.cell a = some node)
    (has : Lib.link .rest node = some (some r.addr))
    (bare : ∀ k p, k ≠ .rest → Lib.link k node = some p → p = none)
    (placed : Pieces visitor.nodes ((rest, r) :: others))
    (notMem : a ∉ cellsOf ((rest, r) :: others))
    (loaded : visitor.nodes.load link = some (some a))
    (outside : link.Outside (a :: cellsOf ((rest, r) :: others))) :
    ∃ run visitor' l' joins functions,
      RestHoisted alloc rest r a tasks others visitor run visitor' l' joins functions ∧
        visitor.nodes.Replaced link (a :: r.cells) (some l'.addr)
          (l'.cells ++ cellsOf (gathered joins functions)) visitor'.nodes := by
  have apartAll := placed.apart
  rw [cellsOf_cons] at notMem outside apartAll
  rcases List.nodup_append'.mp apartAll with ⟨apartRest, apartOthers, disjoint⟩
  rw [List.mem_append, not_or] at notMem
  have owns : Owns visitor.nodes (.field a .rest) rest r :=
    ⟨(Store.load_field cell).trans has, placed.stored _ List.mem_cons_self, apartRest,
      fun b member same => notMem.1 (Option.some.inj same ▸ member)⟩
  have placedOthers : Pieces visitor.nodes others :=
    ⟨fun p member => placed.stored p (List.mem_cons_of_mem _ member), apartOthers⟩
  have apart : ∀ b ∈ cellsOf others, b ≠ a ∧ b ∉ r.cells := fun b member =>
    ⟨fun eq => notMem.2 (eq ▸ member), fun other => disjoint other member⟩
  have outsideRest : link.Outside (a :: r.cells) := outside.left
  rcases ih.child visitor top cell owns placedOthers apart loaded outsideRest with
    ⟨run, v₁, m', joins, functions, done, cell₁, placed₁, notMem₁, r₁⟩
  have outside₁ : link.Outside (a :: (m'.cells ++ cellsOf (gathered joins functions))) :=
    r₁.outside loaded outsideRest
  have has₁ : Lib.link .rest (Lib.setLink Field.rest (some m'.addr) node) =
      some (some m'.addr) := Lib.Linked.link_setLink has
  rcases relink_spec { v₁ with worklist := tasks } (r₁.load_self loaded) cell₁ has₁
    (fun k p ne owned => by
      rw [Lib.Linked.link_setLink_ne ne] at owned
      exact bare k p ne owned) placed₁ (by
      rw [cellsOf_append, cellsOf_cons, List.mem_append, not_or]
      exact ⟨notMem₁, notMem.2⟩) (fun b member => by
      rw [cellsOf_append, cellsOf_cons, List.mem_cons, List.mem_append] at member
      rcases member with rfl | member | member
      · exact outside₁ b List.mem_cons_self
      · exact outside₁ b (List.mem_cons_of_mem _ member)
      · exact outside b (List.mem_cons_of_mem _ (List.mem_append_right _ member))) with
    ⟨s', relinked', r₂, placed₂⟩
  have seen : read v₁.nodes v₁.nodes.heap.keys.card m'.addr =
      some (block rest visitor.counter) := by
    have stored := done.pieces.stored _ List.mem_cons_self
    exact stored.read (stored.length_le (List.nodup_append'.mp done.pieces.apart).1)
  refine ⟨run ++ [v₁], { v₁ with worklist := tasks, nodes := s' }, m', joins, functions,
    ⟨done.path.append (.single (HoistVisitor.step_task done.worklist relinked')), rfl,
      done.counter, done.currentJoins, done.areBlocks, done.collected, done.areLifted, placed₂,
      ?_, ?_, ?_⟩, r₁.trans (r₂.frame _) outsideRest⟩
  · rw [List.flatMap_append, List.flatMap_singleton, done.relinks, List.map_append,
      List.map_singleton, HoistVisitor.relinks, done.worklist]
    simp only [Store.load_field cell₁, has₁, Option.join_some, Option.bind_some, seen]
  · refine List.forall_mem_append.mpr ⟨done.finds, List.forall_mem_singleton.mpr ?_⟩
    simp only [HoistVisitor.Finds, done.worklist]
    exact ⟨link, rfl, r₁.load_self loaded⟩
  · refine done.restores.append (.single ?_)
    rintro exp ⟨_, _, _, _, _, _, top', -⟩
    cases done.worklist.symm.trans top'

/-- A node is changed after what is below one of its fields, and goes with what is below the
other. -/
theorem replaced_through {s s₁ s₂ s₃ : Nodes} {m r G G' : List Addr} {p : Ptr}
    (first : s.Replaced link (a :: m) (some a) (a :: G) s₁)
    (between : s₁.Replaced link [a] (some a) [a] s₂)
    (second : s₂.Replaced link (a :: r) p G' s₃) (outside : link.Outside (a :: (m ++ r))) :
    s.Replaced link (a :: (m ++ r)) p (G' ++ G) s₃ := by
  have here : s.Replaced link (a :: (m ++ r)) (some a) (a :: (G ++ r)) s₁ := first.frame r
  have there : s₂.Replaced link (a :: (G ++ r)) p (G' ++ G) s₃ :=
    (second.frame G).congr (by simp [or_comm]) fun b => Iff.rfl
  exact (here.trans (between.frame (G ++ r)) outside).trans there outside

/-- The same, after the body of the node has been hoisted and the node changed. -/
theorem hoist_rest_after {s s₁ : Nodes} {m r : Layout} {others : List (Exp × Layout)}
    (ih : Hoists alloc rest) (visitor : HoistVisitor) (nodes : visitor.nodes = s₁.write a node)
    (top : visitor.worklist = .node (.field a .rest) r.addr :: .relink (some link) a :: tasks)
    (has : Lib.link .rest node = some (some r.addr))
    (bare : ∀ k p, k ≠ .rest → Lib.link k node = some p → p = none)
    (placed : Pieces s₁ (others ++ [(rest, r)])) (notMem : a ∉ cellsOf others)
    (notRest : a ∉ r.cells)
    (before : s.Replaced link (a :: m.cells) (some a) (a :: cellsOf others) s₁)
    (loaded : s.load link = some (some a)) (outside : link.Outside (a :: (m.cells ++ r.cells))) :
    ∃ run visitor' l' joins functions,
      RestHoisted alloc rest r a tasks others visitor run visitor' l' joins functions ∧
        s.Replaced link (a :: (m.cells ++ r.cells)) (some l'.addr)
          (l'.cells ++ cellsOf (gathered joins functions) ++ cellsOf others) visitor'.nodes := by
  have outsideLeft : link.Outside (a :: m.cells) := outside.left
  have outside₁ : link.Outside (a :: cellsOf others) := before.outside loaded outsideLeft
  have outsideNode : link.Outside [a] := outside.root
  have loaded₁ : s₁.load link = some (some a) := before.load_self loaded
  have between : s₁.Replaced link [a] (some a) [a] visitor.nodes := by
    rw [nodes]
    exact .write node loaded₁ outsideNode
  have notMemAll : a ∉ cellsOf ((rest, r) :: others) := by
    rw [cellsOf_cons, List.mem_append, not_or]
    exact ⟨notRest, notMem⟩
  have placed₂ : Pieces visitor.nodes ((rest, r) :: others) := by
    rw [nodes]
    exact (placed.perm (List.perm_append_singleton (rest, r) others)).write node notMemAll
  have cell : visitor.nodes.cell a = some node := by
    rw [nodes]
    exact Store.cell_write_self
  rcases hoist_rest ih visitor top cell has bare placed₂ notMemAll (between.load_self loaded₁)
    (fun b member => by
      rw [cellsOf_cons, List.mem_cons, List.mem_append] at member
      rcases member with rfl | member | member
      · exact outside b List.mem_cons_self
      · exact outside b (List.mem_cons_of_mem _ (List.mem_append_right _ member))
      · exact outside₁ b (List.mem_cons_of_mem _ member)) with
    ⟨run, visitor', l', joins, functions, done, replaced⟩
  exact ⟨run, visitor', l', joins, functions, done,
    replaced_through before between replaced outside⟩

theorem gathered_join (x y : Exp × Layout) (j : PlacedJoin) (js js' : List PlacedJoin)
    (fs fs' : List PlacedFunction) (isPiece : y = j.piece) :
    (x :: gathered js' fs' ++ (y :: gathered js fs)).Perm
      (x :: gathered (js ++ j :: js') (fs ++ fs')) := by
  subst isPiece
  refine List.perm_iff_count.mpr fun z => ?_
  simp only [gathered, List.map_append, List.map_cons, List.flatMap_append, List.count_append,
    List.cons_append, List.count_cons]
  omega

theorem gathered_function (x y : Exp × Layout) (f : PlacedFunction) (js' : List PlacedJoin)
    (fs fs' : List PlacedFunction) (isPiece : y = f.entryBlock.piece) :
    (x :: gathered js' fs' ++ (y :: gathered f.blocks fs)).Perm
      (x :: gathered js' (fs ++ f :: fs')) := by
  subst isPiece
  refine List.perm_iff_count.mpr fun z => ?_
  simp only [gathered, PlacedFunction.pieces, List.flatMap_append, List.flatMap_cons,
    List.count_append, List.cons_append, List.count_cons]
  omega

/-- A join: its body is hoisted and becomes a block, then its rest is hoisted and takes its
place. -/
theorem hoists_joinExp (name : Var) (slot : Option Var) {body : Exp}
    (ihBody : Hoists alloc body) (ihRest : Hoists alloc rest) :
    Hoists alloc (.joinExp name slot body rest) := by
  intro visitor link tasks l top owns
  rcases owns.binary_inv rfl with ⟨a, m, r, rfl, cell, left, right, disjoint⟩
  let next : HoistVisitor :=
    { visitor with
      parentLink := some link
      worklist := .node (.field a .body) m.addr :: .collectJoin a ::
        .node (.field a .rest) r.addr :: .relink (some link) a :: tasks }
  have turn : visitor.step alloc = .inl next := by
    refine HoistVisitor.step_task top ?_
    simp [HoistVisitor.runTask, HoistVisitor.visit, HoistVisitor.visitJoinExp,
      HoistVisitor.emplace, HoistVisitor.addWorklist, cell, left.loaded, right.loaded, next]
  have outsideLeft : link.Outside (a :: m.cells) := owns.outside.left
  have placedRight : Pieces next.nodes [(rest, r)] :=
    ⟨List.forall_mem_singleton.mpr right.stored, by simpa using right.apart⟩
  have apart : ∀ b ∈ cellsOf [(rest, r)], b ≠ a ∧ b ∉ m.cells := by
    intro b member
    rw [cellsOf_cons, cellsOf_nil, List.append_nil] at member
    exact ⟨fun eq => right.outside b member (congrArg some eq.symm),
      fun other => disjoint other member⟩
  rcases ihBody.child next rfl cell left placedRight apart owns.loaded outsideLeft with
    ⟨run₁, v₁, m', joins₁, functions₁, done₁, cell₁, placed₁, notMem₁, r₁⟩
  -- the block is made
  let node₂ : Node := .joinExp "" (slot.map fun _ => "") none (some r.addr)
  let j : PlacedJoin := ⟨⟨name, slot, block body visitor.counter⟩, m'⟩
  let v₂ : HoistVisitor :=
    { v₁ with
      worklist := .node (.field a .rest) r.addr :: .relink (some link) a :: tasks
      currentJoins := v₁.currentJoins ++ [j.inMemory]
      nodes := v₁.nodes.write a node₂ }
  have turn₂ : v₁.step alloc = .inl v₂ := by
    refine HoistVisitor.step_task done₁.worklist ?_
    simp only [HoistVisitor.runTask, HoistVisitor.collectJoin, cell₁, Option.bind_eq_bind,
      Option.bind_some]
    rfl
  have bare : ∀ k p, k ≠ .rest → Lib.link k node₂ = some p → p = none := by
    intro k p ne owned
    cases k <;> cases owned
    · rfl
    · exact (ne rfl).elim
  rcases hoist_rest_after ihRest v₂ rfl rfl rfl bare placed₁ notMem₁
    (fun member => right.outside a member rfl) r₁ owns.loaded owns.outside with
    ⟨run₂, v₃, l', joins₂, functions₂, done₂, whole⟩
  have counter₂ : v₂.counter = visitor.counter + hoists body := done₁.counter
  have same := gathered_join (block rest v₂.counter, l') (block body visitor.counter, m') j joins₁
    joins₂ functions₁ functions₂ rfl
  refine ⟨visitor :: (run₁ ++ v₁ :: run₂), v₃, l', joins₁ ++ j :: joins₂,
    functions₁ ++ functions₂, .cons turn (done₁.path.append (.cons turn₂ done₂.path)),
    done₂.worklist, ?_, ?_, ?_, ?_, ?_, ?_, ?_, ?_, ?_, ?_⟩
  · rw [done₂.counter, counter₂, hoists, Nat.add_assoc]
  · rw [done₂.currentJoins]
    simp only [v₂, done₁.currentJoins, List.map_append, List.map_cons, List.append_assoc,
      List.singleton_append, next]
  · rw [List.map_append, List.map_cons, done₁.areBlocks, done₂.areBlocks, counter₂, blocks]
    simp only [List.append_assoc, List.singleton_append, next, j]
  · rw [done₂.collected, List.map_append, ← List.append_assoc]
    exact congrArg (· ++ _) done₁.collected
  · rw [List.map_append, done₁.areLifted, done₂.areLifted, counter₂, lifted]
  · rw [block, ← counter₂]
    exact done₂.placed.perm same
  · refine whole.congr (fun b => Iff.rfl) fun b => ?_
    simpa only [cellsOf_append, cellsOf_cons] using (cellsOf_perm same b).symm
  · rw [List.flatMap_cons, List.flatMap_append, List.flatMap_cons,
      HoistVisitor.relinks_node top, done₁.relinks, HoistVisitor.relinks, done₁.worklist,
      done₂.relinks, counter₂, relinked]
    simp only [List.nil_append, List.map_append, List.append_assoc, next]
  · refine List.forall_mem_cons.mpr ⟨HoistVisitor.finds_node top owns.loaded,
      List.forall_mem_append.mpr ⟨done₁.finds, List.forall_mem_cons.mpr ⟨?_, done₂.finds⟩⟩⟩
    simp only [HoistVisitor.Finds, done₁.worklist]
  · refine Restores.append (.single (HoistVisitor.not_visitsFun top cell
      fun _ _ _ _ same => Node.noConfusion same))
      (done₁.restores.append (Restores.append (.single ?_) done₂.restores))
    rintro exp ⟨_, _, _, _, _, _, top', -⟩
    cases done₁.worklist.symm.trans top'

/-- A function: its body is hoisted with no blocks at first, and becomes the function with the
blocks made since; then its rest is hoisted, with the blocks there were, and takes its place. -/
theorem hoists_funExp (name : Var) (params : List Var) {body : Exp}
    (ihBody : Hoists alloc body) (ihRest : Hoists alloc rest) :
    Hoists alloc (.funExp name params body rest) := by
  intro visitor link tasks l top owns
  rcases owns.binary_inv rfl with ⟨a, m, r, rfl, cell, left, right, disjoint⟩
  let next : HoistVisitor :=
    { visitor with
      currentJoins := []
      parentLink := some link
      worklist := .node (.field a .body) m.addr :: .collectFunction a visitor.currentJoins ::
        .node (.field a .rest) r.addr :: .relink (some link) a :: tasks }
  have turn : visitor.step alloc = .inl next := by
    refine HoistVisitor.step_task top ?_
    simp [HoistVisitor.runTask, HoistVisitor.visit, HoistVisitor.visitFunExp,
      HoistVisitor.emplace, HoistVisitor.addWorklist, cell, left.loaded, right.loaded, next]
  have placedRight : Pieces next.nodes [(rest, r)] :=
    ⟨List.forall_mem_singleton.mpr right.stored, by simpa using right.apart⟩
  have apart : ∀ b ∈ cellsOf [(rest, r)], b ≠ a ∧ b ∉ m.cells := by
    intro b member
    rw [cellsOf_cons, cellsOf_nil, List.append_nil] at member
    exact ⟨fun eq => right.outside b member (congrArg some eq.symm),
      fun other => disjoint other member⟩
  rcases ihBody.child next rfl cell left placedRight apart owns.loaded owns.outside.left with
    ⟨run₁, v₁, m', joins₁, functions₁, done₁, cell₁, placed₁, notMem₁, r₁⟩
  have counter₁ : v₁.counter = visitor.counter + hoists body := done₁.counter
  -- the function is made
  let node₂ : Node := .funExp "" [] none (some r.addr)
  let entry : PlacedJoin := ⟨⟨entryName v₁.counter, none, block body visitor.counter⟩, m'⟩
  let f : PlacedFunction := ⟨name, params, entry, joins₁⟩
  let v₂ : HoistVisitor :=
    { v₁ with
      counter := v₁.counter + 1
      currentJoins := visitor.currentJoins
      collected := v₁.collected ++ [f.inMemory]
      worklist := .node (.field a .rest) r.addr :: .relink (some link) a :: tasks
      nodes := v₁.nodes.write a node₂ }
  have turn₂ : v₁.step alloc = .inl v₂ := by
    have joins : v₁.currentJoins = joins₁.map PlacedJoin.inMemory := done₁.currentJoins
    refine HoistVisitor.step_task done₁.worklist ?_
    simp only [HoistVisitor.runTask, HoistVisitor.collectFunction, cell₁, Option.bind_eq_bind,
      Option.bind_some, joins]
    rfl
  have bare : ∀ k p, k ≠ .rest → Lib.link k node₂ = some p → p = none := by
    intro k p ne owned
    cases k <;> cases owned
    · rfl
    · exact (ne rfl).elim
  rcases hoist_rest_after ihRest v₂ rfl rfl rfl bare placed₁ notMem₁
    (fun member => right.outside a member rfl) r₁ owns.loaded owns.outside with
    ⟨run₂, v₃, l', joins₂, functions₂, done₂, whole⟩
  have counter₂ : v₂.counter = visitor.counter + hoists body + 1 := congrArg (· + 1) counter₁
  have same := gathered_function (block rest v₂.counter, l') (block body visitor.counter, m') f
    joins₂ functions₁ functions₂ rfl
  have isFunction : f.function = functionOf name params body visitor.counter := by
    simp only [PlacedFunction.function, f, entry, counter₁, done₁.areBlocks, functionOf, next]
  refine ⟨visitor :: (run₁ ++ v₁ :: run₂), v₃, l', joins₂,
    functions₁ ++ f :: functions₂, .cons turn (done₁.path.append (.cons turn₂ done₂.path)),
    done₂.worklist, ?_, done₂.currentJoins, ?_, ?_, ?_, ?_, ?_, ?_, ?_, ?_⟩
  · rw [done₂.counter, counter₂, hoists]
    omega
  · rw [done₂.areBlocks, counter₂, blocks]
  · rw [done₂.collected]
    simp only [v₂, done₁.collected, List.map_append, List.map_cons, List.append_assoc,
      List.singleton_append, next]
  · rw [List.map_append, List.map_cons, done₁.areLifted, done₂.areLifted, counter₂, isFunction,
      lifted]
    simp only [List.append_assoc, List.singleton_append, next]
  · rw [block, ← counter₂]
    exact done₂.placed.perm same
  · refine whole.congr (fun b => Iff.rfl) fun b => ?_
    simpa only [cellsOf_append, cellsOf_cons] using (cellsOf_perm same b).symm
  · rw [List.flatMap_cons, List.flatMap_append, List.flatMap_cons,
      HoistVisitor.relinks_node top, done₁.relinks, HoistVisitor.relinks, done₁.worklist,
      done₂.relinks, counter₂, relinked]
    simp only [List.nil_append, List.map_append, List.append_assoc, next]
  · refine List.forall_mem_cons.mpr ⟨HoistVisitor.finds_node top owns.loaded,
      List.forall_mem_append.mpr ⟨done₁.finds, List.forall_mem_cons.mpr ⟨?_, done₂.finds⟩⟩⟩
    simp only [HoistVisitor.Finds, done₁.worklist]
  · refine ⟨?_, done₁.restores.append (Restores.append (.single ?_) done₂.restores)⟩
    · rintro exp ⟨_, _, _, _, _, _, top', -⟩
      cases top.symm.trans top'
      exact ⟨v₁, List.mem_append_right _ List.mem_cons_self, _, _, v₂, done₁.worklist, turn₂, rfl⟩
    · rintro exp ⟨_, _, _, _, _, _, top', -⟩
      cases done₁.worklist.symm.trans top'

end Relinked

/-! ## Branches -/

section Branches

variable {alloc : Allocator Node} {link : Link Field} {a : Addr}

/-- The `FnTask` of a conditional: the branches become blocks, and jumps to them take their
places. -/
theorem collectBranches_spec (alloc : Allocator Node) (visitor : HoistVisitor) {cond : Value}
    {p q : Ptr} {pieces : List (Exp × Layout)}
    (loaded : visitor.nodes.load link = some (some a))
    (cell : visitor.nodes.cell a = some (.ifExp cond p q)) (placed : Pieces visitor.nodes pieces)
    (notMem : a ∉ cellsOf pieces) (outside : link.Outside (a :: cellsOf pieces)) :
    ∃ s' thenJump elseJump, visitor.collectBranches alloc a = some { visitor with
        counter := visitor.counter + 2
        currentJoins := visitor.currentJoins ++
          [⟨thenName visitor.counter, none, p⟩, ⟨elseName (visitor.counter + 1), none, q⟩]
        nodes := s' } ∧
      Pieces s' ((.ifExp cond (.jumpExp (thenName visitor.counter) none)
        (.jumpExp (elseName (visitor.counter + 1)) none),
          .binary a (.leaf thenJump) (.leaf elseJump)) :: pieces) ∧
      visitor.nodes.Replaced link [a] (some a) [a, thenJump, elseJump] s' := by
  have outsideNode : link.Outside [a] := outside.root
  let thenNode : Node := .jumpExp (thenName visitor.counter) none
  let elseNode : Node := .jumpExp (elseName (visitor.counter + 1)) none
  let s₁ := visitor.nodes.write a (.ifExp cond none none)
  let thenJump := (s₁.make alloc thenNode).1
  let s₂ := (s₁.make alloc thenNode).2
  let s₃ := s₂.write a (.ifExp cond (some thenJump) none)
  let elseJump := (s₃.make alloc elseNode).1
  let s₄ := (s₃.make alloc elseNode).2
  let s₅ := s₄.write a (.ifExp cond (some thenJump) (some elseJump))
  -- the changes, one after the other
  have r₁ : visitor.nodes.Replaced link [a] (some a) [a] s₁ := .write _ loaded outsideNode
  have r₂ : visitor.nodes.Replaced link [a] (some a) [thenJump, a] s₂ :=
    r₁.trans ((Store.Replaced.make alloc thenNode (r₁.load_self loaded)).frame [a]) outsideNode
  have w₃ : s₂.Replaced link [a] (some a) [a] s₃ := .write _ (r₂.load_self loaded) outsideNode
  have r₃ : visitor.nodes.Replaced link [a] (some a) [a, thenJump] s₃ :=
    r₂.trans ((w₃.frame [thenJump]).congr (by simp [or_comm]) fun b => Iff.rfl) outsideNode
  have r₄ : visitor.nodes.Replaced link [a] (some a) [elseJump, a, thenJump] s₄ :=
    r₃.trans ((Store.Replaced.make alloc elseNode (r₃.load_self loaded)).frame [a, thenJump])
      outsideNode
  have w₅ : s₄.Replaced link [a] (some a) [a] s₅ := .write _ (r₄.load_self loaded) outsideNode
  have r₅ : visitor.nodes.Replaced link [a] (some a) [a, thenJump, elseJump] s₅ :=
    r₄.trans ((w₅.frame [thenJump, elseJump]).congr (fun b => by
      simp only [List.mem_append, List.mem_cons, List.not_mem_nil, or_false]
      tauto) fun b => Iff.rfl) outsideNode
  -- the new nodes are where nothing was
  have thenNe : a ≠ thenJump := Store.ne_pick alloc Store.cell_write_self
  have elseNe : a ≠ elseJump := Store.ne_pick alloc Store.cell_write_self
  have thenCell₃ : s₃.cell thenJump = some thenNode :=
    (Store.cell_write_ne thenNe.symm).trans Store.cell_write_self
  have jumpsNe : thenJump ≠ elseJump := Store.ne_pick alloc thenCell₃
  have thenCell : s₅.cell thenJump = some thenNode :=
    (Store.cell_write_ne thenNe.symm).trans ((Store.cell_write_ne jumpsNe).trans thenCell₃)
  have elseCell : s₅.cell elseJump = some elseNode :=
    (Store.cell_write_ne elseNe.symm).trans Store.cell_write_self
  have separate : ∀ b ∈ cellsOf pieces, b ∉ [a] := by
    intro b member same
    rw [List.mem_singleton] at same
    exact notMem (same ▸ member)
  have kept : Pieces s₅ pieces := placed.frame r₅ separate
    fun b member => outside b (List.mem_cons_of_mem _ member)
  have new : Pieces s₅ [(.ifExp cond (.jumpExp (thenName visitor.counter) none)
      (.jumpExp (elseName (visitor.counter + 1)) none),
        .binary a (.leaf thenJump) (.leaf elseJump))] := by
    refine ⟨List.forall_mem_singleton.mpr ⟨_, _, _, _, _, rfl, Store.cell_write_self,
      ⟨thenNode, rfl, thenCell⟩, ⟨elseNode, rfl, elseCell⟩⟩, ?_⟩
    simp [Layout.cells, thenNe, elseNe, jumpsNe]
  refine ⟨s₅, thenJump, elseJump, ?_, new.append kept ?_, r₅⟩
  · simp only [HoistVisitor.collectBranches, cell, Option.bind_eq_bind, Option.bind_some]
    rfl
  · simpa [Layout.cells] using placed.disjoint r₅ separate

theorem gathered_branches (x y z : Exp × Layout) (j k : PlacedJoin) (js js' : List PlacedJoin)
    (fs fs' : List PlacedFunction) (first : y = j.piece) (second : z = k.piece) :
    (x :: (z :: gathered js' fs' ++ (y :: gathered js fs))).Perm
      (x :: gathered (js ++ js' ++ [j, k]) (fs ++ fs')) := by
  subst first second
  refine List.perm_iff_count.mpr fun w => ?_
  simp only [gathered, List.map_append, List.map_cons, List.map_nil, List.flatMap_append,
    List.count_append, List.cons_append, List.count_cons, List.count_nil]
  omega

/-- A conditional: its branches are hoisted, the then branch first, and become blocks. -/
theorem hoists_ifExp (cond : Value) {thenBranch elseBranch : Exp}
    (ihThen : Hoists alloc thenBranch) (ihElse : Hoists alloc elseBranch) :
    Hoists alloc (.ifExp cond thenBranch elseBranch) := by
  intro visitor link tasks l top owns
  rcases owns.binary_inv rfl with ⟨a, m, r, rfl, cell, left, right, disjoint⟩
  let next : HoistVisitor :=
    { visitor with
      parentLink := some link
      worklist := .node (.field a .thenBranch) m.addr :: .node (.field a .elseBranch) r.addr ::
        .collectBranches a :: tasks }
  have turn : visitor.step alloc = .inl next := by
    refine HoistVisitor.step_task top ?_
    simp [HoistVisitor.runTask, HoistVisitor.visit, HoistVisitor.visitIfExp,
      HoistVisitor.emplace, HoistVisitor.addWorklist, cell, left.loaded, right.loaded, next]
  have placedRight : Pieces next.nodes [(elseBranch, r)] :=
    ⟨List.forall_mem_singleton.mpr right.stored, by simpa using right.apart⟩
  have apart : ∀ b ∈ cellsOf [(elseBranch, r)], b ≠ a ∧ b ∉ m.cells := by
    intro b member
    rw [cellsOf_cons, cellsOf_nil, List.append_nil] at member
    exact ⟨fun eq => right.outside b member (congrArg some eq.symm),
      fun other => disjoint other member⟩
  rcases ihThen.child next rfl cell left placedRight apart owns.loaded owns.outside.left with
    ⟨run₁, v₁, m', joins₁, functions₁, done₁, cell₁, placed₁, notMem₁, r₁⟩
  have counter₁ : v₁.counter = visitor.counter + hoists thenBranch := done₁.counter
  have right₁ : Owns v₁.nodes (.field a .elseBranch) elseBranch r := by
    refine ⟨(Store.load_field cell₁).trans rfl, ?_, right.apart, right.outside⟩
    exact placed₁.stored _ (List.mem_append_right _ List.mem_cons_self)
  rcases placed₁.of_append with ⟨placedLeft, -, disjoint₁⟩
  have apart₁ : ∀ b ∈ cellsOf ((block thenBranch visitor.counter, m') ::
      gathered joins₁ functions₁), b ≠ a ∧ b ∉ r.cells := fun b member =>
    ⟨fun eq => notMem₁ (eq ▸ member), fun other => disjoint₁ member (by simpa using other)⟩
  have loaded₁ : v₁.nodes.load link = some (some a) := r₁.load_self owns.loaded
  rcases ihElse.child v₁ done₁.worklist cell₁ right₁ placedLeft apart₁ loaded₁
    owns.outside.right with
    ⟨run₂, v₂, r', joins₂, functions₂, done₂, cell₂, placed₂, notMem₂, r₂⟩
  have counter₂ : v₂.counter =
      visitor.counter + hoists thenBranch + hoists elseBranch := by
    rw [done₂.counter, counter₁]
  -- both branches become blocks
  have outside₁ := r₁.outside owns.loaded owns.outside.left
  have outside₂ := r₂.outside loaded₁ owns.outside.right
  rcases collectBranches_spec alloc { v₂ with worklist := tasks } (r₂.load_self loaded₁) cell₂
    placed₂ (by
      rw [cellsOf_append, List.mem_append, not_or]
      exact ⟨notMem₂, notMem₁⟩) (fun b member => by
      rw [cellsOf_append, List.mem_cons, List.mem_append] at member
      rcases member with rfl | member | member
      · exact outside₂ b List.mem_cons_self
      · exact outside₂ b (List.mem_cons_of_mem _ member)
      · exact outside₁ b (List.mem_cons_of_mem _ member)) with
    ⟨s', thenJump, elseJump, collected, placed₃, r₃⟩
  let G := m'.cells ++ cellsOf (gathered joins₁ functions₁)
  let H := r'.cells ++ cellsOf (gathered joins₂ functions₂)
  have whole : visitor.nodes.Replaced link (a :: (m.cells ++ r.cells)) (some a)
      ([a, thenJump, elseJump] ++ (H ++ G)) s' := by
    have here : visitor.nodes.Replaced link (a :: (m.cells ++ r.cells)) (some a)
        (a :: (G ++ r.cells)) v₁.nodes := r₁.frame r.cells
    have there : v₁.nodes.Replaced link (a :: (G ++ r.cells)) (some a) (a :: (H ++ G)) v₂.nodes :=
      (r₂.frame G).congr (by simp [or_comm]) fun b => Iff.rfl
    exact (here.trans there owns.outside).trans (r₃.frame (H ++ G)) owns.outside
  let j : PlacedJoin := ⟨⟨thenName v₂.counter, none, block thenBranch visitor.counter⟩, m'⟩
  let k : PlacedJoin := ⟨⟨elseName (v₂.counter + 1), none, block elseBranch v₁.counter⟩, r'⟩
  have same := gathered_branches
    (.ifExp cond (.jumpExp (thenName v₂.counter) none) (.jumpExp (elseName (v₂.counter + 1)) none),
      .binary a (.leaf thenJump) (.leaf elseJump)) (block thenBranch visitor.counter, m')
    (block elseBranch v₁.counter, r') j k joins₁ joins₂ functions₁ functions₂ rfl rfl
  refine ⟨visitor :: (run₁ ++ (run₂ ++ [v₂])), _, .binary a (.leaf thenJump) (.leaf elseJump),
    joins₁ ++ joins₂ ++ [j, k], functions₁ ++ functions₂,
    .cons turn (done₁.path.append (done₂.path.append
      (.single (HoistVisitor.step_task done₂.worklist collected)))),
    rfl, ?_, ?_, ?_, ?_, ?_, ?_, ?_, ?_, ?_, ?_⟩
  · calc v₂.counter + 2 = visitor.counter + hoists thenBranch + hoists elseBranch + 2 :=
        congrArg (· + 2) counter₂
      _ = visitor.counter + hoists (.ifExp cond thenBranch elseBranch) := by
        simp only [hoists, Nat.add_assoc]
  · have joins : v₂.currentJoins = visitor.currentJoins ++ joins₁.map PlacedJoin.inMemory ++
        joins₂.map PlacedJoin.inMemory := by rw [done₂.currentJoins, done₁.currentJoins]
    simp only [joins, List.map_append, List.map_cons, List.map_nil, List.append_assoc]
    rfl
  · simp only [List.map_append, List.map_cons, List.map_nil, done₁.areBlocks, done₂.areBlocks,
      counter₁, counter₂, blocks, next, j, k]
  · rw [List.map_append, ← List.append_assoc]
    exact done₂.collected.trans (congrArg (· ++ _) done₁.collected)
  · rw [List.map_append, done₁.areLifted, done₂.areLifted, counter₁, lifted]
  · rw [block, ← counter₂]
    exact placed₃.perm same
  · refine whole.congr (fun b => Iff.rfl) fun b => ?_
    have cells := cellsOf_perm same b
    simp only [cellsOf_append, cellsOf_cons] at cells
    simpa only [G, H, Layout.cells, List.mem_append, List.cons_append, List.nil_append,
      List.mem_cons, or_assoc] using cells.symm
  · rw [List.flatMap_cons, List.flatMap_append, List.flatMap_append, List.flatMap_singleton,
      HoistVisitor.relinks_node top, done₁.relinks, done₂.relinks, HoistVisitor.relinks,
      done₂.worklist, counter₁, relinked]
    simp only [List.nil_append, List.map_append, List.append_nil, next]
  · refine List.forall_mem_cons.mpr ⟨HoistVisitor.finds_node top owns.loaded,
      List.forall_mem_append.mpr ⟨done₁.finds, List.forall_mem_append.mpr ⟨done₂.finds,
        List.forall_mem_singleton.mpr ?_⟩⟩⟩
    simp only [HoistVisitor.Finds, done₂.worklist]
  · refine Restores.append (.single (HoistVisitor.not_visitsFun top cell
      fun _ _ _ _ same => Node.noConfusion same))
      (done₁.restores.append (done₂.restores.append (.single ?_)))
    rintro exp ⟨_, _, _, _, _, _, top', -⟩
    cases done₂.worklist.symm.trans top'

end Branches

/-! ## Whole terms -/

theorem hoists_in_place (alloc : Allocator Node) (t : Exp) : Hoists alloc t := by
  induction t with
  | haltExp value => exact hoists_leaf rfl
  | funExp name params body rest ihBody ihRest => exact hoists_funExp name params ihBody ihRest
  | joinExp name slot body rest ihBody ihRest => exact hoists_joinExp name slot ihBody ihRest
  | jumpExp joinName slotValue => exact hoists_leaf rfl
  | appExp name funName paramValues rest ih =>
    exact (walked_appExp name funName paramValues).hoists_in_place ih
  | bopExp name bop param1 param2 rest ih =>
    exact (walked_bopExp name bop param1 param2).hoists_in_place ih
  | ifExp cond thenBranch elseBranch ihThen ihElse => exact hoists_ifExp cond ihThen ihElse
  | tupleExp name values rest ih => exact (walked_tupleExp name values).hoists_in_place ih
  | projExp name tuple index rest ih => exact (walked_projExp name tuple index).hoists_in_place ih

/-- A function or a join. -/
def Node.Relinkable : Node → Prop
  | .funExp _ _ _ _ => True
  | .joinExp _ _ _ _ => True
  | _ => False

theorem relinked_unary {t u : Exp} {node : Ptr → Node} (is : shape t = .unary node u) (b : Addr)
    (m : Layout) (c : Nat) (p : Ptr) :
    relinked t (.unary b m) c = relinked u m c ∧ ¬ (node p).Relinkable := by
  cases t <;> cases is <;> exact ⟨rfl, id⟩

theorem relinked_binary {t u v : Exp} {lf rf : Field} {node : Ptr → Ptr → Node}
    (is : shape t = .binary lf rf node u v) (b : Addr) (m r : Layout) (c : Nat) (p q : Ptr) :
    ∃ d, (relinked t (.binary b m r) c).map Prod.fst =
        (relinked u m c).map Prod.fst ++ (relinked v r d).map Prod.fst ++ [b] ∧
          (node p q).Relinkable ∨
      (relinked t (.binary b m r) c).map Prod.fst =
        (relinked u m c).map Prod.fst ++ (relinked v r d).map Prod.fst ∧
          ¬ (node p q).Relinkable := by
  cases t with
  | funExp name params body rest =>
    cases is
    refine ⟨c + hoists u + 1, .inl ⟨?_, trivial⟩⟩
    simp only [relinked, List.map_append, List.map_singleton]
  | joinExp name slot body rest =>
    cases is
    refine ⟨c + hoists u, .inl ⟨?_, trivial⟩⟩
    simp only [relinked, List.map_append, List.map_singleton]
  | ifExp cond thenBranch elseBranch =>
    cases is
    exact ⟨c + hoists u, .inr ⟨by simp only [relinked, List.map_append], id⟩⟩
  | _ => cases is

/-- What is replaced are the functions and the joins. -/
theorem mem_relinked {s : Nodes} {t : Exp} {l : Layout} (stored : Stored s t l) (c : Nat)
    (a : Addr) : a ∈ (relinked t l c).map Prod.fst ↔
      a ∈ l.cells ∧ ∃ node, s.cell a = some node ∧ node.Relinkable := by
  have root {b : Addr} {node : Node} (cell : s.cell b = some node) :
      (a = b ∧ ∃ node, s.cell a = some node ∧ node.Relinkable) ↔ a = b ∧ node.Relinkable := by
    refine and_congr_right fun same => ?_
    subst same
    simp [cell]
  induction l generalizing t c with
  | leaf b =>
    rcases stored with ⟨node, is, cell⟩
    rw [Layout.cells, List.mem_singleton, root cell]
    cases t <;> cases is <;> simp [relinked, Node.Relinkable]
  | unary b m ih =>
    rcases stored with ⟨node, u, is, cell, child⟩
    rcases relinked_unary is b m c (some m.addr) with ⟨same, other⟩
    rw [same, Layout.cells, List.mem_cons, or_and_right, root cell]
    exact (ih child c).trans (or_iff_right fun here => other here.2).symm
  | binary b l r ihLeft ihRight =>
    rcases stored with ⟨lf, rf, node, u, v, is, cell, left, right⟩
    rw [Layout.cells, List.mem_cons, List.mem_append, or_and_right, or_and_right, root cell]
    rcases relinked_binary is b l r c (some l.addr) (some r.addr) with
      ⟨d, ⟨same, here⟩ | ⟨same, other⟩⟩
    · rw [same, List.mem_append, List.mem_append, List.mem_singleton, or_comm]
      exact or_congr (and_iff_left here).symm (or_congr (ihLeft left c) (ihRight right d))
    · rw [same, List.mem_append]
      exact (or_congr (ihLeft left c) (ihRight right d)).trans
        (or_iff_right fun here => other here.2).symm

/-- Nothing is replaced twice. -/
theorem relinked_nodup {s : Nodes} {t : Exp} {l : Layout} (stored : Stored s t l)
    (apart : l.cells.Nodup) (c : Nat) : ((relinked t l c).map Prod.fst).Nodup := by
  have inside {u : Exp} {m : Layout} (stored : Stored s u m) (d : Nat) :
      ∀ a ∈ (relinked u m d).map Prod.fst, a ∈ m.cells :=
    fun a member => ((mem_relinked stored d a).mp member).1
  induction l generalizing t c with
  | leaf b =>
    rcases stored with ⟨node, is, cell⟩
    cases t <;> cases is <;> exact .nil
  | unary b m ih =>
    rcases stored with ⟨node, u, is, cell, child⟩
    rw [(relinked_unary is b m c (some m.addr)).1]
    exact ih child (List.nodup_cons.mp apart).2 c
  | binary b l r ihLeft ihRight =>
    rcases stored with ⟨lf, rf, node, u, v, is, cell, left, right⟩
    rcases List.nodup_cons.mp apart with ⟨notMem, below⟩
    rcases List.nodup_append'.mp below with ⟨belowLeft, belowRight, disjoint⟩
    have both (d : Nat) :
        ((relinked u l c).map Prod.fst ++ (relinked v r d).map Prod.fst).Nodup :=
      List.nodup_append'.mpr ⟨ihLeft left belowLeft c, ihRight right belowRight d,
        fun a memLeft memRight => disjoint (inside left c a memLeft) (inside right d a memRight)⟩
    rcases relinked_binary is b l r c (some l.addr) (some r.addr) with
      ⟨d, ⟨same, -⟩ | ⟨same, -⟩⟩
    · rw [same]
      refine List.nodup_append'.mpr ⟨both d, List.nodup_singleton b,
        List.disjoint_singleton.mpr fun member => notMem ?_⟩
      exact List.mem_append.mpr ((List.mem_append.mp member).imp (inside left c b)
        (inside right d b))
    · rw [same]
      exact both d

/-- When the loop starts, the root owns `main` around the term. -/
theorem start_spec (alloc : Allocator Node) {s : Nodes} {t : Exp} {l : Layout}
    (owns : Owns s .root t l) :
    ∃ s' main rest, HoistVisitor.start alloc s =
        some ⟨0, [], [], none, [.node .root main], s'⟩ ∧
      Owns s' .root (.funExp "main" [] t (.haltExp (.intValue 0)))
        (.binary main l (.leaf rest)) ∧
      s.Replaced .root l.cells (some main) (Layout.binary main l (.leaf rest)).cells s' := by
  let halt : Node := .haltExp (.intValue 0)
  let s₁ : Nodes := { s with root := none }
  let rest := (s₁.make alloc halt).1
  let s₂ := (s₁.make alloc halt).2
  let fn : Node := .funExp "main" [] (some l.addr) (some rest)
  let main := (s₂.make alloc fn).1
  let s₃ := (s₂.make alloc fn).2
  let s₄ : Nodes := { s₃ with root := some main }
  have root : s.root = some l.addr := Option.some.inj owns.loaded
  have r₁ : s.Replaced .root [] none [] s₁ := Store.Replaced.putRoot none
  have r₂ : s.Replaced .root [] none [rest] s₂ :=
    r₁.trans (.make alloc halt rfl) Link.Outside.ofRoot
  have r₃ : s.Replaced .root [] none [main, rest] s₃ :=
    r₂.trans ((Store.Replaced.make alloc fn rfl).frame [rest]) Link.Outside.ofRoot
  have r₄ : s₃.Replaced .root [] (some main) [] s₄ := Store.Replaced.putRoot (some main)
  have whole : s.Replaced .root [] (some main) [main, rest] s₄ :=
    r₃.trans (r₄.frame [main, rest]) Link.Outside.ofRoot
  have apart : ∀ a ∈ l.cells, a ∉ [main, rest] := by
    intro a member
    rcases owns.stored.cell a member with ⟨node, cell⟩
    exact whole.notMem cell List.not_mem_nil
  have restCell : s₂.cell rest = some halt := Store.cell_write_self
  have ne : rest ≠ main := Store.ne_pick alloc restCell
  have restCell₄ : s₄.cell rest = some halt := (Store.cell_write_ne ne).trans restCell
  have replaced : s.Replaced .root l.cells (some main)
      (Layout.binary main l (.leaf rest)).cells s₄ := by
    refine (whole.frame l.cells).congr (fun a => Iff.rfl) fun a => ?_
    simp only [Layout.cells, List.mem_append, List.mem_cons, List.not_mem_nil, or_false]
    tauto
  have started : HoistVisitor.start alloc s =
      some ⟨0, [], [], none, [.node .root main], s₄⟩ := by
    rw [HoistVisitor.start, root]
    exact HoistVisitor.addWorklist_eq rfl
  refine ⟨s₄, main, rest, started, ⟨rfl, ?_, ?_, Link.Outside.ofRoot⟩, replaced⟩
  · exact ⟨_, _, _, _, _, rfl, Store.cell_write_self,
      owns.stored.frame whole (fun _ _ => List.not_mem_nil) Link.Outside.ofRoot,
      ⟨halt, rfl, restCell₄⟩⟩
  · refine List.nodup_cons.mpr ⟨?_, List.nodup_append'.mpr ⟨owns.apart, List.nodup_singleton rest,
      List.disjoint_singleton.mpr fun member =>
        apart rest member (List.mem_cons_of_mem _ List.mem_cons_self)⟩⟩
    rw [List.mem_append, not_or]
    exact ⟨fun member => apart main member List.mem_cons_self,
      fun member => ne (List.mem_singleton.mp member).symm⟩

/-- The loop runs until the term is hoisted. -/
theorem hoist_ends (alloc : Allocator Node) {s : Nodes} {t : Exp} {l : Layout}
    (owns : Owns s .root t l) :
    ∃ first run last main rest l' functions, HoistVisitor.start alloc s = some first ∧
      first.counter = 0 ∧ first.collected = [] ∧
      Owns first.nodes .root (.funExp "main" [] t (.haltExp (.intValue 0)))
        (.binary main l (.leaf rest)) ∧
      s.Replaced .root l.cells (some main) (Layout.binary main l (.leaf rest)).cells first.nodes ∧
      Hoisted alloc (.funExp "main" [] t (.haltExp (.intValue 0))) (.binary main l (.leaf rest))
        .root [] first run last l' [] functions ∧
      ∀ fuel > run.length, hoist alloc fuel s = some (some (last.collected, last.nodes)) := by
  rcases start_spec alloc owns with ⟨s', main, rest, start, owns', before⟩
  let first : HoistVisitor := ⟨0, [], [], none, [.node .root main], s'⟩
  rcases hoists_in_place alloc _ first .root [] _ rfl owns' with
    ⟨run, last, l', joins, functions, done⟩
  have noJoins : joins = [] := List.map_eq_nil_iff.mp done.areBlocks
  subst noJoins
  have returns : last.step alloc = .inr (some (last.collected, last.nodes)) := by
    simp [HoistVisitor.step, done.worklist]
  refine ⟨first, run, last, main, rest, l', functions, start, rfl, rfl, owns', before, done,
    fun fuel more => ?_⟩
  rw [hoist, start]
  exact Lib.iterate_mono (done.path.iterate returns) more

/-- The loop ends with an empty stack, and the visitor has then gathered the functions that
hoisting makes of the term, in their order; their blocks own bodies that lie in place of the nodes
of the term. It replaces each function and each join once, while its link still owns it, by what
its rest is hoisted to; and whenever the function of a visit has been made, `currentJoins_` is
what it was before the visit. -/
theorem hoist_inPlace (alloc : Allocator Node) {s : Nodes} {t : Exp} {l : Layout}
    (owns : Owns s .root t l) :
    ∃ first run last main rest l', ∃ functions : List PlacedFunction,
      HoistVisitor.start alloc s = some first ∧
      Path (HoistVisitor.step alloc) first run last ∧ last.worklist = [] ∧
      (∀ fuel > run.length,
        hoist alloc fuel s = some (some (last.collected, last.nodes))) ∧
      last.collected = functions.map PlacedFunction.inMemory ∧
      functions.map PlacedFunction.function = Hoist.hoist t ∧
      Pieces last.nodes ((.haltExp (.intValue 0), l') :: functions.flatMap PlacedFunction.pieces) ∧
      s.Replaced .root l.cells (some l'.addr)
        (l'.cells ++ cellsOf (functions.flatMap PlacedFunction.pieces)) last.nodes ∧
      run.flatMap HoistVisitor.relinks =
        (relinked t l 0 ++ [(main, Exp.haltExp (.intValue 0))]).map (fun p => (p.1, some p.2)) ∧
      ((run.flatMap HoistVisitor.relinks).map Prod.fst).Nodup ∧
      (∀ a, a ∈ (run.flatMap HoistVisitor.relinks).map Prod.fst ↔
        a ∈ (Layout.binary main l (.leaf rest)).cells ∧
          ∃ node, first.nodes.cell a = some node ∧ node.Relinkable) ∧
      (∀ v ∈ run, v.Finds) ∧ Restores alloc run := by
  rcases hoist_ends alloc owns with
    ⟨first, run, last, main, rest, l', functions, start, zero, none, owns', before, done, ends⟩
  have fsts : (run.flatMap HoistVisitor.relinks).map Prod.fst =
      (relinked (.funExp "main" [] t (.haltExp (.intValue 0)))
        (.binary main l (.leaf rest)) first.counter).map Prod.fst := by
    rw [done.relinks, List.map_map]
    rfl
  have areHoisted : functions.map PlacedFunction.function = Hoist.hoist t := by
    rw [done.areLifted, Hoist.hoist_eq, lifted, zero]
    simp [lifted]
  have collected : last.collected = functions.map PlacedFunction.inMemory := by
    rw [done.collected, none, List.nil_append]
  refine ⟨first, run, last, main, rest, l', functions, start, done.path, done.worklist, ends,
    collected, areHoisted, done.pieces, before.trans done.replaced Link.Outside.ofRoot, ?_, ?_, ?_,
    done.finds, done.restores⟩
  · rw [done.relinks, zero]
    simp [relinked, block]
  · rw [fsts]
    exact relinked_nodup owns'.stored owns'.apart _
  · rw [fsts]
    exact mem_relinked owns'.stored _

theorem hoist_inPlace_callIdentity :
    ∃ fuel nodes, ∃ functions : List PlacedFunction,
      hoist (.least Node) fuel callIdentityNodes =
        some (some (functions.map PlacedFunction.inMemory, nodes)) ∧
      functions.map PlacedFunction.function =
        [⟨"tmp0", ["x0"], ⟨"entry0", none, .haltExp (.varValue "x0")⟩, []⟩,
          ⟨"main", [], ⟨"entry1", none, .appExp "tmp1" "tmp0" [.intValue 1]
            (.haltExp (.varValue "tmp1"))⟩, []⟩] := by
  rcases hoist_inPlace (.least Node) owns_callIdentity with
    ⟨_, run, last, _, _, _, functions, -, -, -, ends, collected, hoisted, -⟩
  exact ⟨_, last.nodes, functions, collected ▸ ends _ run.length.lt_succ_self, hoisted⟩

end Lambcalc.InPlace
