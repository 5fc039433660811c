import Lambcalc.InPlace.ClosureConvert

/-!
# Closure conversion in place is closure conversion

A task for the node a link owns, run with all the tasks it leads to, replaces the term below the
link by its conversion and leaves the rest of the memory and of the stack as they are.
`Converts` says so of a term, and is proved by induction on it: what is below a node that has
been visited is converted by the tasks for its fields, and an application is rewritten when the
term below it has been converted.
-/

namespace Lambcalc.InPlace

open Anf
open Lib (Addr Ptr Link Layout Store Allocator Path)

/-! ## What is rewritten -/

/-- The nodes of the functions and applications in a term, in the order in which they are
rewritten. -/
def rewritten : Exp → Layout → List Addr
  | .funExp _ _ body rest, .binary a l r => a :: (rewritten rest r ++ rewritten body l)
  | .joinExp _ _ body rest, .binary _ l r => rewritten rest r ++ rewritten body l
  | .appExp _ _ _ rest, .unary a m => rewritten rest m ++ [a]
  | .bopExp _ _ _ _ rest, .unary _ m => rewritten rest m
  | .ifExp _ thenBranch elseBranch, .binary _ l r =>
    rewritten elseBranch r ++ rewritten thenBranch l
  | .tupleExp _ _ rest, .unary _ m => rewritten rest m
  | .projExp _ _ _ rest, .unary _ m => rewritten rest m
  | _, _ => []

/-- The functions and applications in a term are as they were in `s₀`, with all that is below
them. -/
def Untouched (s₀ s : Nodes) : Exp → Layout → Prop
  | .haltExp _, _ => True
  | .funExp _ _ _ _, l => ∀ b ∈ l.cells, s.cell b = s₀.cell b
  | .joinExp _ _ body rest, .binary _ l r => Untouched s₀ s body l ∧ Untouched s₀ s rest r
  | .jumpExp _ _, _ => True
  | .appExp _ _ _ _, l => ∀ b ∈ l.cells, s.cell b = s₀.cell b
  | .bopExp _ _ _ _ rest, .unary _ m => Untouched s₀ s rest m
  | .ifExp _ thenBranch elseBranch, .binary _ l r =>
    Untouched s₀ s thenBranch l ∧ Untouched s₀ s elseBranch r
  | .tupleExp _ _ rest, .unary _ m => Untouched s₀ s rest m
  | .projExp _ _ _ rest, .unary _ m => Untouched s₀ s rest m
  | _, _ => False

namespace ClosureConvertVisitor

/-- The node that the next turn rewrites. -/
def rewrites (visitor : ClosureConvertVisitor) : List Addr :=
  match visitor.worklist with
  | [] => []
  | .node _ exp :: _ =>
    match visitor.nodes.cell exp with
    | some (.funExp _ _ _ _) => [exp]
    | _ => []
  | .app exp _ _ _ :: _ => [exp]

/-- The task on top finds what it was made for: its link still owns its node, a function it
visits is as it was at first with all that is below it, and an application it rewrites is the
one it was at first, up to what the visit has moved out of it and what is below it. -/
def Finds (s₀ : Nodes) (visitor : ClosureConvertVisitor) : Prop :=
  match visitor.worklist with
  | [] => True
  | .node link exp :: _ =>
    visitor.nodes.load link = some (some exp) ∧
      ∀ name params body rest, visitor.nodes.cell exp = some (.funExp name params body rest) →
        ∃ t l, l.addr = exp ∧ Stored s₀ t l ∧
          ∀ a ∈ l.cells, visitor.nodes.cell a = s₀.cell a
  | .app exp _ _ link :: _ =>
    visitor.nodes.load link = some (some exp) ∧
      ∃ name funName paramValues below below',
        s₀.cell exp = some (.appExp name funName paramValues below) ∧
          visitor.nodes.cell exp = some (.appExp name funName [] below')

end ClosureConvertVisitor

/-- From `visitor` on, with the task for the node of `t` below `link` on top of `tasks`, the
loop comes to `visitor'`, where `tasks` are left and the link owns the conversion of `t`. -/
structure Converted (alloc : Allocator Node) (s₀ : Nodes) (t : Exp) (l : Layout)
    (link : Link Field) (tasks : List ConvertTask) (visitor : ClosureConvertVisitor)
    (run : List ClosureConvertVisitor) (visitor' : ClosureConvertVisitor) (l' : Layout) :
    Prop where
  path : Path (ClosureConvertVisitor.step alloc) visitor run visitor'
  worklist : visitor'.worklist = tasks
  counter : visitor'.counter = visitor.counter + t.closes
  owns : Owns visitor'.nodes link (t.close visitor.counter).1 l'
  replaced : visitor.nodes.Replaced link l.cells (some l'.addr) l'.cells visitor'.nodes
  rewrites : run.flatMap ClosureConvertVisitor.rewrites = rewritten t l
  finds : ∀ v ∈ run, v.Finds s₀

/-- The tasks a task for a term leads to convert the term in place. -/
def Converts (alloc : Allocator Node) (s₀ : Nodes) (t : Exp) : Prop :=
  ∀ (visitor : ClosureConvertVisitor) (link : Link Field) (tasks : List ConvertTask)
    (l : Layout), visitor.worklist = .node link l.addr :: tasks → Owns visitor.nodes link t l →
    Untouched s₀ visitor.nodes t l →
    ∃ run visitor' l', Converted alloc s₀ t l link tasks visitor run visitor' l'

/-- A term that is as it was. -/
theorem untouched_of_same {s₀ s : Nodes} {t : Exp} {l : Layout} (stored : Stored s t l)
    (same : ∀ b ∈ l.cells, s.cell b = s₀.cell b) : Untouched s₀ s t l := by
  induction l generalizing t with
  | leaf a =>
    rcases stored with ⟨node, is, -⟩
    cases t <;> cases is <;> exact trivial
  | unary a m ih =>
    rcases stored with ⟨node, u, is, -, child⟩
    have below := ih child fun b member => same b (List.mem_cons_of_mem _ member)
    cases t <;> cases is <;> first | exact below | exact same
  | binary a l r ihLeft ihRight =>
    rcases stored with ⟨lf, rf, node, u, v, is, -, left, right⟩
    have belowLeft := ihLeft left fun b member =>
      same b (List.mem_cons_of_mem _ (List.mem_append_left _ member))
    have belowRight := ihRight right fun b member =>
      same b (List.mem_cons_of_mem _ (List.mem_append_right _ member))
    cases t <;> cases is <;> first | exact ⟨belowLeft, belowRight⟩ | exact same

/-- Only the nodes of the term matter. -/
theorem Untouched.congr {s₀ s s' : Nodes} {t : Exp} {l : Layout}
    (untouched : Untouched s₀ s t l) (stored : Stored s t l)
    (same : ∀ b ∈ l.cells, s'.cell b = s.cell b) : Untouched s₀ s' t l := by
  induction l generalizing t with
  | leaf a =>
    rcases stored with ⟨node, is, -⟩
    cases t <;> cases is <;> exact trivial
  | unary a m ih =>
    rcases stored with ⟨node, u, is, -, child⟩
    have below := fun untouched => ih untouched child fun b member =>
      same b (List.mem_cons_of_mem _ member)
    cases t <;> cases is <;> first
      | exact below untouched
      | exact fun b member => (same b member).trans (untouched b member)
  | binary a l r ihLeft ihRight =>
    rcases stored with ⟨lf, rf, node, u, v, is, -, left, right⟩
    have belowLeft := fun untouched => ihLeft untouched left fun b member =>
      same b (List.mem_cons_of_mem _ (List.mem_append_left _ member))
    have belowRight := fun untouched => ihRight untouched right fun b member =>
      same b (List.mem_cons_of_mem _ (List.mem_append_right _ member))
    cases t <;> cases is <;> first
      | exact ⟨belowLeft untouched.1, belowRight untouched.2⟩
      | exact fun b member => (same b member).trans (untouched b member)

/-! ## Turns of the loop -/

namespace ClosureConvertVisitor

variable {alloc : Allocator Node} {visitor next : ClosureConvertVisitor} {link : Link Field}
  {exp a : Addr} {tasks : List ConvertTask} {node : Node}

theorem addWorklist_eq (loaded : visitor.nodes.load link = some (some a)) :
    visitor.addWorklist link =
      some { visitor with worklist := .node link a :: visitor.worklist } := by
  simp [addWorklist, loaded]

theorem addWorklist_both {link' : Link Field} {b : Addr}
    (first : visitor.nodes.load link = some (some a))
    (second : visitor.nodes.load link' = some (some b)) :
    (visitor.addWorklist link).bind (·.addWorklist link') =
      some { visitor with worklist := .node link' b :: .node link a :: visitor.worklist } := by
  simp [addWorklist, first, second]

theorem step_node (top : visitor.worklist = .node link exp :: tasks)
    (visited : ({ visitor with
      parentLink := some link, worklist := tasks } : ClosureConvertVisitor).visit alloc exp =
        some next) : visitor.step alloc = .inl next := by
  simp [step, runTask, top, visited]

theorem step_app {projName : Var} {paramValues : List Value} {s : Nodes}
    (top : visitor.worklist = .app exp projName paramValues link :: tasks)
    (done : rewriteApp alloc exp projName paramValues link visitor.nodes = some s) :
    visitor.step alloc = .inl { visitor with worklist := tasks, nodes := s } := by
  simp [step, runTask, top, done]

theorem rewrites_node (top : visitor.worklist = .node link exp :: tasks)
    (cell : visitor.nodes.cell exp = some node)
    (other : ∀ name params body rest, node ≠ .funExp name params body rest) :
    visitor.rewrites = [] := by
  cases node with
  | funExp name params body rest => exact (other name params body rest rfl).elim
  | _ => simp [rewrites, top, cell]

theorem finds_node {s₀ : Nodes} (top : visitor.worklist = .node link exp :: tasks)
    (loaded : visitor.nodes.load link = some (some exp))
    (cell : visitor.nodes.cell exp = some node)
    (other : ∀ name params body rest, node ≠ .funExp name params body rest) :
    visitor.Finds s₀ := by
  simp only [Finds, top]
  refine ⟨loaded, fun name params body rest cell' => ?_⟩
  cases cell.symm.trans cell'
  exact (other name params body rest rfl).elim

end ClosureConvertVisitor

/-! ## Children -/

section Children

variable {alloc : Allocator Node} {s₀ : Nodes} {link : Link Field} {tasks : List ConvertTask}
  {a : Addr} {node : Node} {t u : Exp}

/-- A task for the term below the only field of a node. -/
theorem Converts.child {m : Layout} (converts : Converts alloc s₀ u)
    (visitor : ClosureConvertVisitor)
    (top : visitor.worklist = .node (.field a .rest) m.addr :: tasks)
    (cell : visitor.nodes.cell a = some node) (owns : Owns visitor.nodes (.field a .rest) u m)
    (untouched : Untouched s₀ visitor.nodes u m)
    (loaded : visitor.nodes.load link = some (some a)) (outside : link.Outside (a :: m.cells)) :
    ∃ run visitor' m',
      Converted alloc s₀ u m (.field a .rest) tasks visitor run visitor' m' ∧
        visitor'.nodes.cell a = some (Lib.setLink .rest (some m'.addr) node) ∧
        visitor.nodes.Replaced link (a :: m.cells) (some a) (a :: m'.cells) visitor'.nodes := by
  rcases converts visitor _ tasks m top owns untouched with ⟨run, visitor', m', done⟩
  exact ⟨run, visitor', m', done, done.replaced.link_field a .rest node rfl cell,
    done.replaced.nest loaded outside⟩

/-- Tasks for the terms below the two fields of a node, the right one first. -/
theorem Converts.children {lf rf : Field} {w : Exp} {m r : Layout}
    (convertsLeft : Converts alloc s₀ u) (convertsRight : Converts alloc s₀ w)
    (visitor : ClosureConvertVisitor) (ne : lf ≠ rf)
    (top : visitor.worklist =
      .node (.field a rf) r.addr :: .node (.field a lf) m.addr :: tasks)
    (cell : visitor.nodes.cell a = some node)
    (left : Owns visitor.nodes (.field a lf) u m) (right : Owns visitor.nodes (.field a rf) w r)
    (disjoint : m.cells.Disjoint r.cells) (untouchedLeft : Untouched s₀ visitor.nodes u m)
    (untouchedRight : Untouched s₀ visitor.nodes w r)
    (loaded : visitor.nodes.load link = some (some a))
    (outside : link.Outside (a :: (m.cells ++ r.cells))) :
    ∃ run visitor' m' r', Path (ClosureConvertVisitor.step alloc) visitor run visitor' ∧
      visitor'.worklist = tasks ∧ visitor'.counter = visitor.counter + w.closes + u.closes ∧
      visitor'.nodes.cell a =
        some (Lib.setLink lf (some m'.addr) (Lib.setLink rf (some r'.addr) node)) ∧
      Owns visitor'.nodes (.field a lf) (u.close (visitor.counter + w.closes)).1 m' ∧
      Owns visitor'.nodes (.field a rf) (w.close visitor.counter).1 r' ∧
      m'.cells.Disjoint r'.cells ∧
      visitor.nodes.Replaced link (a :: (m.cells ++ r.cells)) (some a)
        (a :: (m'.cells ++ r'.cells)) visitor'.nodes ∧
      run.flatMap ClosureConvertVisitor.rewrites = rewritten w r ++ rewritten u m ∧
      ∀ v ∈ run, v.Finds s₀ := by
  rcases convertsRight visitor _ _ r top right untouchedRight with ⟨run, v₁, r', first⟩
  have other : Link.field a lf ≠ .field a rf := fun same => ne (by injection same)
  have apartLeft : (Link.field a lf).Outside r.cells := right.outside
  have kept : Owns v₁.nodes (.field a lf) u m :=
    left.frame first.replaced other apartLeft (fun b => disjoint (a := b)) left.outside
  have untouched : Untouched s₀ v₁.nodes u m := by
    refine untouchedLeft.congr left.stored fun b member => ?_
    rcases left.stored.cell b member with ⟨n, cell⟩
    rw [cell, first.replaced.cell_eq cell (disjoint member) (left.outside b member)]
  rcases convertsLeft v₁ _ tasks m first.worklist kept untouched with ⟨run', v₂, m', second⟩
  -- the new nodes on the right are none of the nodes on the left
  have apart : ∀ b ∈ r'.cells, b ∉ m.cells := by
    intro b new member
    rcases left.stored.cell b member with ⟨n, cell⟩
    exact first.replaced.notMem cell (disjoint member) new
  have keptRight : Owns v₂.nodes (.field a rf) (w.close visitor.counter).1 r' :=
    first.owns.frame second.replaced other.symm left.outside apart first.owns.outside
  refine ⟨run ++ run', v₂, m', r', first.path.append second.path, second.worklist, ?_, ?_, ?_,
    keptRight, ?_, ?_, ?_, ?_⟩
  · rw [second.counter, first.counter]
  · exact second.replaced.link_field a lf _ rfl (first.replaced.link_field a rf node rfl cell)
  · rw [← first.counter]
    exact second.owns
  · intro b member new
    rcases first.owns.stored.cell b new with ⟨n, cell⟩
    exact second.replaced.notMem cell (apart b new) member
  · exact first.replaced.nest_both second.replaced loaded outside
  · rw [List.flatMap_append, first.rewrites, second.rewrites]
  · exact List.forall_mem_append.mpr ⟨first.finds, second.finds⟩

end Children

/-! ## Nodes that stay as they are -/

section Passed

variable {alloc : Allocator Node} {s₀ : Nodes} {t u w : Exp}

theorem converts_leaf {node : Node} (is : shape t = .leaf node) : Converts alloc s₀ t := by
  intro visitor link tasks l top owns _
  rcases owns.leaf_inv is with ⟨a, rfl, cell⟩
  have other : ∀ name params body rest, node ≠ .funExp name params body rest := by
    cases t <;> cases is <;> nofun
  refine ⟨[visitor], { visitor with parentLink := some link, worklist := tasks }, .leaf a,
    .single (ClosureConvertVisitor.step_node top ?_), rfl, ?_, ?_, .refl _ owns.loaded, ?_, ?_⟩
  · cases t <;> cases is <;> simp only [ClosureConvertVisitor.visit, cell, Layout.addr_leaf,
      Option.bind_eq_bind, Option.bind_some] <;> rfl
  · cases t <;> cases is <;> rfl
  · cases t <;> cases is <;> exact owns
  · rw [List.flatMap_singleton, ClosureConvertVisitor.rewrites_node top cell other]
    cases t <;> cases is <;> rfl
  · exact List.forall_mem_singleton.mpr
      (ClosureConvertVisitor.finds_node top owns.loaded cell other)

/-- A node with one link that the visitor does not rewrite. -/
structure Passed (node : Ptr → Node) (f : Exp → Exp) : Prop where
  is : ∀ u, shape (f u) = .unary node u
  visit : ∀ (alloc : Allocator Node) (visitor : ClosureConvertVisitor) a p,
    visitor.nodes.cell a = some (node p) →
      visitor.visit alloc a = visitor.addWorklist (.field a .rest)
  close : ∀ u c, (f u).close c = (f (u.close c).1, (u.close c).2)
  closes : ∀ u, (f u).closes = u.closes
  rewritten : ∀ u a m, rewritten (f u) (.unary a m) = rewritten u m
  untouched : ∀ s₀ s u a m, Untouched s₀ s (f u) (.unary a m) → Untouched s₀ s u m
  other : ∀ p name params body rest, node p ≠ .funExp name params body rest

theorem passed_bopExp (name : Var) (bop : Ast.Bop) (param1 param2 : Value) :
    Passed (.bopExp name bop param1 param2) (.bopExp name bop param1 param2) where
  is _ := rfl
  visit alloc visitor a p cell := by simp [ClosureConvertVisitor.visit, cell]
  close _ _ := rfl
  closes _ := rfl
  rewritten _ _ _ := rfl
  untouched _ _ _ _ _ untouched := untouched
  other _ := nofun

theorem passed_tupleExp (name : Var) (values : List Value) :
    Passed (.tupleExp name values) (.tupleExp name values) where
  is _ := rfl
  visit alloc visitor a p cell := by simp [ClosureConvertVisitor.visit, cell]
  close _ _ := rfl
  closes _ := rfl
  rewritten _ _ _ := rfl
  untouched _ _ _ _ _ untouched := untouched
  other _ := nofun

theorem passed_projExp (name tuple : Var) (index : Nat) :
    Passed (.projExp name tuple index) (.projExp name tuple index) where
  is _ := rfl
  visit alloc visitor a p cell := by simp [ClosureConvertVisitor.visit, cell]
  close _ _ := rfl
  closes _ := rfl
  rewritten _ _ _ := rfl
  untouched _ _ _ _ _ untouched := untouched
  other _ := nofun

/-- A node with one subterm that is left as it is. -/
theorem Passed.converts {node : Ptr → Node} {f : Exp → Exp} (passed : Passed node f)
    (ih : Converts alloc s₀ u) : Converts alloc s₀ (f u) := by
  intro visitor link tasks l top owns untouched
  rcases owns.unary_inv (passed.is u) with ⟨a, m, rfl, cell, child⟩
  let next : ClosureConvertVisitor :=
    { visitor with parentLink := some link, worklist := .node (.field a .rest) m.addr :: tasks }
  have turn : visitor.step alloc = .inl next := by
    refine ClosureConvertVisitor.step_node top ?_
    refine (passed.visit alloc _ a (some m.addr) ?_).trans
      (ClosureConvertVisitor.addWorklist_eq ?_)
    · exact cell
    · exact child.loaded
  have below : Untouched s₀ next.nodes u m := passed.untouched s₀ _ u a m untouched
  rcases ih.child next rfl cell child below owns.loaded owns.outside with
    ⟨run, visitor', m', done, cell', replaced⟩
  rw [setLink_unary (passed.is u)] at cell'
  refine ⟨visitor :: run, visitor', .unary a m', .cons turn done.path, done.worklist, ?_, ?_,
    replaced, ?_, ?_⟩
  · rw [done.counter, passed.closes]
  · rw [passed.close]
    exact owns_unary (passed.is _) (replaced.load_self owns.loaded) cell' done.owns
      (replaced.outside owns.loaded owns.outside)
  · rw [List.flatMap_cons, ClosureConvertVisitor.rewrites_node top cell (passed.other _),
      done.rewrites, passed.rewritten, List.nil_append]
  · exact List.forall_mem_cons.mpr
      ⟨ClosureConvertVisitor.finds_node top owns.loaded cell (passed.other _), done.finds⟩

/-- A node with two links that the visitor does not rewrite. The task for the right one is
pushed last. -/
structure Branched (lf rf : Field) (node : Ptr → Ptr → Node) (f : Exp → Exp → Exp) : Prop where
  is : ∀ u w, shape (f u w) = .binary lf rf node u w
  visit : ∀ (alloc : Allocator Node) (visitor : ClosureConvertVisitor) a p q,
    visitor.nodes.cell a = some (node p q) →
      visitor.visit alloc a =
        (visitor.addWorklist (.field a lf)).bind (·.addWorklist (.field a rf))
  close : ∀ u w c, (f u w).close c = (f (u.close (w.close c).2).1 (w.close c).1,
    (u.close (w.close c).2).2)
  closes : ∀ u w, (f u w).closes = u.closes + w.closes
  rewritten : ∀ u w a m r,
    rewritten (f u w) (.binary a m r) = InPlace.rewritten w r ++ InPlace.rewritten u m
  untouched : ∀ s₀ s u w a m r, Untouched s₀ s (f u w) (.binary a m r) →
    Untouched s₀ s u m ∧ Untouched s₀ s w r
  other : ∀ p q name params body rest, node p q ≠ .funExp name params body rest

theorem branched_joinExp (name : Var) (slot : Option Var) :
    Branched .body .rest (.joinExp name slot) (.joinExp name slot) where
  is _ _ := rfl
  visit alloc visitor a p q cell := by simp [ClosureConvertVisitor.visit, cell]
  close _ _ _ := rfl
  closes _ _ := rfl
  rewritten _ _ _ _ _ := rfl
  untouched _ _ _ _ _ _ _ untouched := untouched
  other _ _ := nofun

theorem branched_ifExp (cond : Value) :
    Branched .thenBranch .elseBranch (.ifExp cond) (.ifExp cond) where
  is _ _ := rfl
  visit alloc visitor a p q cell := by simp [ClosureConvertVisitor.visit, cell]
  close _ _ _ := rfl
  closes _ _ := rfl
  rewritten _ _ _ _ _ := rfl
  untouched _ _ _ _ _ _ _ untouched := untouched
  other _ _ := nofun

/-- A node with two subterms is converted by converting both, the right one first. -/
theorem Branched.converts {lf rf : Field} {node : Ptr → Ptr → Node} {f : Exp → Exp → Exp}
    (branched : Branched lf rf node f) (ihLeft : Converts alloc s₀ u)
    (ihRight : Converts alloc s₀ w) : Converts alloc s₀ (f u w) := by
  intro visitor link tasks l top owns untouched
  have is := branched.is u w
  rcases owns.binary_inv is with ⟨a, m, r, rfl, cell, left, right, disjoint⟩
  let next : ClosureConvertVisitor :=
    { visitor with
      parentLink := some link
      worklist := .node (.field a rf) r.addr :: .node (.field a lf) m.addr :: tasks }
  have turn : visitor.step alloc = .inl next := by
    refine ClosureConvertVisitor.step_node top ?_
    refine (branched.visit alloc _ a (some m.addr) (some r.addr) ?_).trans
      (ClosureConvertVisitor.addWorklist_both ?_ ?_)
    · exact cell
    · exact left.loaded
    · exact right.loaded
  have below : Untouched s₀ next.nodes u m ∧ Untouched s₀ next.nodes w r :=
    branched.untouched s₀ _ u w a m r untouched
  rcases ihLeft.children ihRight next (left_ne_right is) rfl cell left right disjoint
    below.1 below.2 owns.loaded owns.outside with
    ⟨run, visitor', m', r', path, worklist, counter, cell', left', right', disjoint', replaced,
      rewrites, finds⟩
  rw [setLink_right is, setLink_left is] at cell'
  refine ⟨visitor :: run, visitor', .binary a m' r', .cons turn path, worklist, ?_, ?_,
    replaced, ?_, ?_⟩
  · rw [counter, branched.closes, Nat.add_comm u.closes, Nat.add_assoc]
  · rw [branched.close, Exp.close_counter]
    exact owns_binary (branched.is _ _) (replaced.load_self owns.loaded) cell' left' right'
      disjoint' (replaced.outside owns.loaded owns.outside)
  · rw [List.flatMap_cons,
      ClosureConvertVisitor.rewrites_node top cell (branched.other _ _), rewrites,
      branched.rewritten, List.nil_append]
  · exact List.forall_mem_cons.mpr
      ⟨ClosureConvertVisitor.finds_node top owns.loaded cell (branched.other _ _), finds⟩

end Passed

/-! ## Applications -/

/-- The `FnTask` of an application whose link still owns it: the node is replaced by a `ProjExp`
that owns a new application, which owns what the old one did. -/
theorem rewriteApp_spec (alloc : Allocator Node) (projName : Var) (paramValues : List Value)
    {s : Nodes} {link : Link Field} {exp : Addr} {name funName : Var} {moved : List Value}
    {u : Exp} {m : Layout}
    (loaded : s.load link = some (some exp))
    (cell : s.cell exp = some (.appExp name funName moved (some m.addr)))
    (child : Owns s (.field exp .rest) u m) (outside : link.Outside (exp :: m.cells)) :
    ∃ s' proj app, rewriteApp alloc exp projName paramValues link s = some s' ∧
      Owns s' link (.projExp projName funName 0 (.appExp name projName paramValues u))
        (.unary proj (.unary app m)) ∧
      s.Replaced link (exp :: m.cells) (some proj) (proj :: app :: m.cells) s' := by
  have outsideExp : link.Outside [exp] := outside.root
  -- the name and the link are moved out, and the two new nodes are made
  let s₁ := s.write exp (.appExp "" funName moved none)
  let new : Node := .appExp name projName paramValues (some m.addr)
  let app := (s₁.make alloc new).1
  let s₂ := (s₁.make alloc new).2
  let top : Node := .projExp projName funName 0 (some app)
  let proj := (s₂.make alloc top).1
  let s₃ := (s₂.make alloc top).2
  have made₁ : s.Replaced link [exp] (some exp) [exp] s₁ := .write _ loaded outsideExp
  have made₂ : s₁.Replaced link [exp] (some exp) [app, exp] s₂ :=
    (Store.Replaced.make alloc new (made₁.load_self loaded)).frame [exp]
  have upto₂ : s.Replaced link [exp] (some exp) [app, exp] s₂ := made₁.trans made₂ outsideExp
  have made₃ : s₂.Replaced link [app, exp] (some exp) [proj, app, exp] s₃ :=
    (Store.Replaced.make alloc top (upto₂.load_self loaded)).frame [app, exp]
  have upto₃ : s.Replaced link [exp] (some exp) [proj, app, exp] s₃ :=
    upto₂.trans made₃ outsideExp
  have owner : link.cell ≠ some exp := outsideExp exp (List.mem_singleton_self exp)
  have cell₁ : s₁.cell exp = some (.appExp "" funName moved none) := Store.cell_write_self
  have cell₂ : s₂.cell exp = some (.appExp "" funName moved none) :=
    (Store.cell_write_ne (Store.ne_pick alloc cell₁)).trans cell₁
  have cell₃ : s₃.cell exp = some (.appExp "" funName moved none) :=
    (Store.cell_write_ne (Store.ne_pick alloc cell₂)).trans cell₂
  -- the link is overwritten, and the old node destroyed
  have bare : ∀ k p, Lib.link k (Node.appExp "" funName moved none) = some p → p = none := by
    intro k p has
    cases k <;> cases has
    rfl
  rcases Store.Replaced.assign (some proj) (upto₃.load_self loaded) outsideExp cell₃ bare with
    ⟨s₄, assigned, made₄⟩
  have swap (b : Addr) : b ∈ [proj, app, exp] ↔ b ∈ [exp] ++ [proj, app] := by
    simp only [List.mem_append, List.mem_cons]
    tauto
  have done : s.Replaced link [exp] (some proj) [proj, app] s₄ :=
    upto₃.trans ((made₄.frame [proj, app]).congr swap fun b => Iff.rfl) outsideExp
  have outsideNew : link.Outside [proj, app] := done.outside loaded outsideExp
  have appCell₂ : s₂.cell app = some new := Store.cell_write_self
  have ne : app ≠ proj := Store.ne_pick alloc appCell₂
  have appCell : s₄.cell app = some new := by
    refine made₄.cell_eq ((Store.cell_write_ne ne).trans appCell₂) ?_ ?_
    · rw [List.mem_singleton]
      exact (Store.ne_pick alloc cell₁).symm
    · exact outsideNew app (List.mem_cons_of_mem _ (List.mem_singleton_self app))
  have projCell : s₄.cell proj = some top := by
    refine made₄.cell_eq Store.cell_write_self ?_ (outsideNew proj List.mem_cons_self)
    rw [List.mem_singleton]
    exact (Store.ne_pick alloc cell₂).symm
  -- what the application owns is where it was
  have old : ∀ b ∈ m.cells, b ∉ [exp] := by
    intro b member same
    rw [List.mem_singleton] at same
    exact child.outside b member (congrArg some same.symm)
  have apart : ∀ b ∈ m.cells, b ∉ [proj, app] := by
    intro b member
    rcases child.stored.cell b member with ⟨node, stored⟩
    exact done.notMem stored (old b member)
  have stored : Stored s₄ u m := child.stored.congr fun b member => by
    rcases child.stored.cell b member with ⟨node, stored⟩
    rw [stored, done.cell_eq stored (old b member) (outside b (List.mem_cons_of_mem _ member))]
  have replaced : s.Replaced link (exp :: m.cells) (some proj) (proj :: app :: m.cells) s₄ :=
    done.frame m.cells
  have below : Owns s₄ (.field app .rest) u m := by
    refine ⟨?_, stored, child.apart, ?_⟩
    · rw [Store.load_field appCell]
      rfl
    · intro b member same
      cases same
      exact apart _ member (List.mem_cons_of_mem _ (List.mem_singleton_self _))
  have owns : Owns s₄ (.field proj .rest) (.appExp name projName paramValues u) (.unary app m) := by
    refine owns_unary rfl ?_ appCell below ?_
    · rw [Store.load_field projCell]
      rfl
    · intro b member same
      cases same
      rcases List.mem_cons.mp member with same | member
      · exact ne same.symm
      · exact apart _ member List.mem_cons_self
  refine ⟨s₄, proj, app, ?_, ?_, replaced⟩
  · simp only [rewriteApp, cell, Option.bind_eq_bind, Option.bind_some]
    exact assigned
  · exact owns_unary rfl (replaced.load_self loaded) projCell owns
      (replaced.outside loaded outside)

/-- The children of an application are converted before the application is rewritten. -/
theorem converts_appExp {alloc : Allocator Node} {s₀ : Nodes} {u : Exp} (name funName : Var)
    (paramValues : List Value) (ih : Converts alloc s₀ u) :
    Converts alloc s₀ (.appExp name funName paramValues u) := by
  intro visitor link tasks l top owns untouched
  rcases owns.unary_inv rfl with ⟨a, m, rfl, cell, child⟩
  let values : List Value := .varValue funName :: paramValues
  let proj := projName visitor.counter
  let visited : Node := .appExp name funName [] (some m.addr)
  let next : ClosureConvertVisitor :=
    { counter := visitor.counter + 1
      parentLink := some link
      worklist := .node (.field a .rest) m.addr :: .app a proj values link :: tasks
      nodes := visitor.nodes.write a visited }
  have childNext : Owns next.nodes (.field a .rest) u m := child.write rfl
  have turn : visitor.step alloc = .inl next := by
    refine ClosureConvertVisitor.step_node top ?_
    simp only [ClosureConvertVisitor.visit, ClosureConvertVisitor.visitAppExp, Layout.addr_unary,
      cell, Option.bind_eq_bind, Option.bind_some]
    exact ClosureConvertVisitor.addWorklist_eq childNext.loaded
  have outsideNode : link.Outside [a] := owns.outside.root
  have first : visitor.nodes.Replaced link (a :: m.cells) (some a) (a :: m.cells) next.nodes :=
    (Store.Replaced.write visited owns.loaded outsideNode).frame m.cells
  have below : Untouched s₀ next.nodes u m := untouched_of_same childNext.stored fun b member =>
    (Store.cell_write_ne fun same => child.outside b member (congrArg some same.symm)).trans
      (untouched b (List.mem_cons_of_mem _ member))
  have loadedNext : next.nodes.load link = some (some a) := first.load_self owns.loaded
  rcases ih.child next rfl Store.cell_write_self childNext below loadedNext
    owns.outside with ⟨run, v₁, m', done, cell', replaced⟩
  have upto : visitor.nodes.Replaced link (a :: m.cells) (some a) (a :: m'.cells) v₁.nodes :=
    first.trans replaced owns.outside
  rcases rewriteApp_spec alloc proj values (upto.load_self owns.loaded) cell' done.owns
    (upto.outside owns.loaded owns.outside) with
    ⟨s', top', app, rewritten, owns', replaced'⟩
  have finds : v₁.Finds s₀ := by
    simp only [ClosureConvertVisitor.Finds, done.worklist]
    refine ⟨upto.load_self owns.loaded, name, funName, paramValues, some m.addr, some m'.addr,
      ?_, cell'⟩
    rw [← untouched a List.mem_cons_self, cell]
  refine ⟨visitor :: (run ++ [v₁]), { v₁ with worklist := tasks, nodes := s' },
    .unary top' (.unary app m'), .cons turn (done.path.append (.single
      (ClosureConvertVisitor.step_app done.worklist rewritten))), rfl, ?_, owns',
    upto.trans replaced' owns.outside, ?_, ?_⟩
  · calc v₁.counter = visitor.counter + 1 + u.closes := done.counter
      _ = visitor.counter + (u.closes + 1) := by omega
  · rw [List.flatMap_cons, ClosureConvertVisitor.rewrites_node top cell nofun,
      List.flatMap_append, done.rewrites]
    simp [ClosureConvertVisitor.rewrites, done.worklist, InPlace.rewritten]
  · refine List.forall_mem_cons.mpr ⟨?_, List.forall_mem_append.mpr ⟨done.finds, ?_⟩⟩
    · exact ClosureConvertVisitor.finds_node top owns.loaded cell nofun
    · exact List.forall_mem_singleton.mpr finds

/-! ## Functions -/

section Captures

variable {alloc : Allocator Node} {s₀ : Nodes} {closureParam : Var}

theorem close_captures (vars : List Var) (i : Nat) (u : Exp) (c : Nat) :
    (captures closureParam vars i u).close c =
      (captures closureParam vars i (u.close c).1, (u.close c).2) := by
  induction vars generalizing i u with
  | nil => rfl
  | cons var vars ih => exact ih (i + 1) (.projExp var closureParam i u)

theorem closes_captures (vars : List Var) (i : Nat) (u : Exp) :
    (captures closureParam vars i u).closes = u.closes := by
  induction vars generalizing i u with
  | nil => rfl
  | cons var vars ih => exact ih (i + 1) (.projExp var closureParam i u)

theorem converts_captures (vars : List Var) (i : Nat) {u : Exp} (ih : Converts alloc s₀ u) :
    Converts alloc s₀ (captures closureParam vars i u) := by
  induction vars generalizing i u with
  | nil => exact ih
  | cons var vars step => exact step (i + 1) ((passed_projExp var closureParam i).converts ih)

/-- The new nodes lie in front of the body, and nothing else has changed. -/
theorem addCaptures_spec (alloc : Allocator Node) (closureParam : Var) (vars : List Var) (i : Nat)
    {s : Nodes} {link : Link Field} {q : Ptr} {u : Exp} {m : Layout}
    (loaded : s.load link = some q) (stored : Stored s u m) (apart : m.cells.Nodup)
    (outside : link.Outside m.cells) (untouched : Untouched s₀ s u m) :
    ∃ m' s', addCaptures alloc closureParam vars i (some m.addr) s = (some m'.addr, s') ∧
      Stored s' (captures closureParam vars i u) m' ∧ m'.cells.Nodup ∧
      Untouched s₀ s' (captures closureParam vars i u) m' ∧
      rewritten (captures closureParam vars i u) m' = rewritten u m ∧
      s.Replaced link m.cells q m'.cells s' ∧
      ∀ b n, s.cell b = some n → s'.cell b = some n := by
  induction vars generalizing i s u m with
  | nil =>
    exact ⟨m, s, rfl, stored, apart, untouched, rfl, .refl _ loaded, fun b n cell => cell⟩
  | cons var vars ih =>
    let new : Node := .projExp var closureParam i (some m.addr)
    let proj := (s.make alloc new).1
    let s₁ := (s.make alloc new).2
    have made : s.Replaced link m.cells q (proj :: m.cells) s₁ :=
      (Store.Replaced.make alloc new loaded).frame m.cells
    have same : ∀ b n, s.cell b = some n → s₁.cell b = some n := fun b n cell =>
      (Store.cell_write_ne (Store.ne_pick alloc cell)).trans cell
    have sameCells : ∀ b ∈ m.cells, s₁.cell b = s.cell b := by
      intro b member
      rcases stored.cell b member with ⟨n, cell⟩
      rw [cell, same b n cell]
    have unused : proj ∉ m.cells := by
      intro member
      rcases stored.cell proj member with ⟨n, cell⟩
      exact Store.ne_pick alloc cell rfl
    have stored₁ : Stored s₁ (.projExp var closureParam i u) (.unary proj m) :=
      ⟨_, u, rfl, Store.cell_write_self, stored.congr sameCells⟩
    have untouched₁ : Untouched s₀ s₁ u m := untouched.congr stored sameCells
    rcases ih (i + 1) (made.load_self loaded) stored₁ (List.nodup_cons.mpr ⟨unused, apart⟩)
      (made.outside loaded outside) untouched₁ with
      ⟨m', s', eq, stored', apart', untouched', rewritten', replaced, same'⟩
    exact ⟨m', s', eq, stored', apart', untouched', rewritten', made.trans replaced outside,
      fun b n cell => same' b n (same b n cell)⟩

/-- What a function owns after its visit. -/
structure FunRewritten (s₀ s s' : Nodes) (link : Link Field) (a : Addr) (name : Var)
    (params : List Var) (body rest : Exp) (m r m' : Layout) (tuple : Addr) (vars : List Var)
    (closureParam : Var) : Prop where
  cell : s'.cell a = some (.funExp name (closureParam :: params) (some m'.addr) (some tuple))
  left : Owns s' (.field a .body) (captures closureParam vars 1 body) m'
  right : Owns s' (.field a .rest)
    (.tupleExp name (.globValue name :: vars.map .varValue) rest) (.unary tuple r)
  disjoint : m'.cells.Disjoint (Layout.unary tuple r).cells
  untouchedLeft : Untouched s₀ s' (captures closureParam vars 1 body) m'
  untouchedRight : Untouched s₀ s' rest r
  rewritten : rewritten (captures closureParam vars 1 body) m' = rewritten body m
  replaced : s.Replaced link (a :: (m.cells ++ r.cells)) (some a)
    (a :: (m'.cells ++ (Layout.unary tuple r).cells)) s'

/-- The visit of a function changes its node, and makes nodes in front of what it owns. -/
theorem rewriteFun_spec (alloc : Allocator Node) (closureParam : Var) (vars : List Var)
    {s : Nodes} {link : Link Field} {a : Addr} {name : Var} {params : List Var}
    {body rest : Exp} {m r : Layout} (loaded : s.load link = some (some a))
    (cell : s.cell a = some (.funExp name params (some m.addr) (some r.addr)))
    (left : Owns s (.field a .body) body m) (right : Owns s (.field a .rest) rest r)
    (disjoint : m.cells.Disjoint r.cells) (outside : link.Outside (a :: (m.cells ++ r.cells)))
    (untouchedLeft : Untouched s₀ s body m) (untouchedRight : Untouched s₀ s rest r) :
    ∃ s' m' tuple, rewriteFun alloc a closureParam vars s = some s' ∧
      FunRewritten s₀ s s' link a name params body rest m r m' tuple vars closureParam := by
  have outsideNode : link.Outside [a] := outside.root
  have outsideLeft : link.Outside m.cells := fun b member =>
    outside b (List.mem_cons_of_mem _ (List.mem_append_left _ member))
  have notLeft : a ∉ m.cells := fun member => left.outside a member rfl
  have notRight : a ∉ r.cells := fun member => right.outside a member rfl
  -- the body is moved out, and the projections are put in front of it
  let s₁ := s.write a (.funExp name (closureParam :: params) none (some r.addr))
  have r₁ : s.Replaced link [a] (some a) [a] s₁ := .write _ loaded outsideNode
  have same₁ : ∀ b, b ≠ a → s₁.cell b = s.cell b := fun b ne => Store.cell_write_ne ne
  have sameLeft : ∀ b ∈ m.cells, s₁.cell b = s.cell b := fun b member =>
    same₁ b fun eq => notLeft (eq ▸ member)
  rcases addCaptures_spec alloc closureParam vars 1 (r₁.load_self loaded)
    (left.stored.congr sameLeft) left.apart outsideLeft
    (untouchedLeft.congr left.stored sameLeft) with
    ⟨m', s₂, added, stored₂, apart₂, untouched₂, rewritten₂, r₂, same₂⟩
  have cell₂ : s₂.cell a = some (.funExp name (closureParam :: params) none (some r.addr)) :=
    same₂ a _ Store.cell_write_self
  have notNew : a ∉ m'.cells := r₂.notMem Store.cell_write_self notLeft
  -- the rest is moved out, and the tuple is put in front of it
  let vs : List Value := .globValue name :: vars.map .varValue
  let s₃ := s₂.write a (.funExp name (closureParam :: params) (some m'.addr) none)
  let new : Node := .tupleExp name vs (some r.addr)
  let tuple := (s₃.make alloc new).1
  let s₄ := (s₃.make alloc new).2
  let visited : Node := .funExp name (closureParam :: params) (some m'.addr) (some tuple)
  let s₅ := s₄.write a visited
  have ne : a ≠ tuple := Store.ne_pick alloc Store.cell_write_self
  have kept : ∀ b n, b ≠ a → s₂.cell b = some n → s₅.cell b = some n := by
    intro b n other stored
    have stored₃ : s₃.cell b = some n := (Store.cell_write_ne other).trans stored
    have stored₄ : s₄.cell b = some n :=
      (Store.cell_write_ne (Store.ne_pick alloc stored₃)).trans stored₃
    exact (Store.cell_write_ne other).trans stored₄
  have sameNew : ∀ b ∈ m'.cells, s₅.cell b = s₂.cell b := by
    intro b member
    rcases stored₂.cell b member with ⟨n, stored⟩
    rw [stored, kept b n (fun eq => notNew (eq ▸ member)) stored]
  have keptRight : ∀ b n, b ∈ r.cells → s.cell b = some n → s₅.cell b = some n := by
    intro b n member stored
    have other : b ≠ a := fun eq => notRight (eq ▸ member)
    exact kept b n other (same₂ b n ((same₁ b other).trans stored))
  have sameRight : ∀ b ∈ r.cells, s₅.cell b = s.cell b := by
    intro b member
    rcases right.stored.cell b member with ⟨n, stored⟩
    rw [stored, keptRight b n member stored]
  have cell₅ : s₅.cell a = some visited := Store.cell_write_self
  have tupleCell : s₅.cell tuple = some new :=
    (Store.cell_write_ne ne.symm).trans Store.cell_write_self
  have unused : ∀ b n, s₂.cell b = some n → b ≠ tuple := by
    intro b n stored
    by_cases same : b = a
    · exact same ▸ ne
    · exact Store.ne_pick alloc ((Store.cell_write_ne same).trans stored)
  have apartRight : ∀ b ∈ r.cells, b ≠ tuple ∧ b ∉ m'.cells := by
    intro b member
    rcases right.stored.cell b member with ⟨n, stored⟩
    have stored₁ : s₁.cell b = some n := (same₁ b fun eq => notRight (eq ▸ member)).trans stored
    exact ⟨unused b n (same₂ b n stored₁),
      r₂.notMem stored₁ fun new => disjoint new member⟩
  -- the changes, one after the other
  have outsideAll : link.Outside (a :: m.cells) := outside.left
  have r₃ : s₂.Replaced link [a] (some a) [a] s₃ :=
    .write _ (r₂.load_self (r₁.load_self loaded)) outsideNode
  have r₄ : s₃.Replaced link [a] (some a) [tuple, a] s₄ :=
    (Store.Replaced.make alloc new (r₃.load_self (r₂.load_self (r₁.load_self loaded)))).frame [a]
  have upto : s.Replaced link (a :: m.cells) (some a) ([tuple, a] ++ m'.cells) s₄ := by
    have before : s.Replaced link (a :: m.cells) (some a) (a :: m.cells) s₁ := r₁.frame m.cells
    have swap (l : List Addr) (b : Addr) : b ∈ a :: l ↔ b ∈ l ++ [a] := by
      simp only [List.mem_append, List.mem_cons, List.not_mem_nil, or_false]
      exact Or.comm
    have between : s₁.Replaced link (a :: m.cells) (some a) (a :: m'.cells) s₂ :=
      (r₂.frame [a]).congr (swap m.cells) (swap m'.cells)
    exact (before.trans between outsideAll).trans ((r₃.trans r₄ outsideNode).frame m'.cells)
      outsideAll
  have whole : s.Replaced link (a :: (m.cells ++ r.cells)) (some a)
      (a :: (m'.cells ++ (Layout.unary tuple r).cells)) s₅ := by
    have r₅ : s₄.Replaced link [a] (some a) [a] s₅ :=
      .write visited (upto.load_self loaded) outsideNode
    have last : s₄.Replaced link ([tuple, a] ++ m'.cells) (some a) ([tuple, a] ++ m'.cells) s₅ :=
      (r₅.frame (tuple :: m'.cells)).congr (by simp [or_left_comm]) (by simp [or_left_comm])
    refine ((upto.trans last outsideAll).frame r.cells).congr (fun b => Iff.rfl) fun b => ?_
    simp only [Layout.cells, List.mem_append, List.mem_cons, List.not_mem_nil, or_false]
    tauto
  refine ⟨s₅, m', tuple, ?_, cell₅, ?_, ?_, ?_, untouched₂.congr stored₂ sameNew,
    untouchedRight.congr right.stored sameRight, rewritten₂, whole⟩
  · simp only [rewriteFun, cell, Option.bind_eq_bind, Option.bind_some]
    rw [added]
    rfl
  · refine ⟨?_, stored₂.congr sameNew, apart₂, ?_⟩
    · rw [Store.load_field cell₅]
      rfl
    · intro b member same
      cases same
      exact notNew member
  · refine owns_unary rfl ?_ tupleCell ⟨?_, right.stored.congr sameRight, right.apart, ?_⟩ ?_
    · rw [Store.load_field cell₅]
      rfl
    · rw [Store.load_field tupleCell]
      rfl
    · intro b member same
      cases same
      exact (apartRight _ member).1 rfl
    · intro b member same
      cases same
      rcases List.mem_cons.mp member with same | member
      · exact ne same
      · exact notRight member
  · intro b new member
    rcases List.mem_cons.mp member with same | member
    · rcases stored₂.cell b new with ⟨n, stored⟩
      exact unused b n stored same
    · exact (apartRight b member).2 new

/-- A function is rewritten when it is visited, and what it owns then is converted, the rest
first. -/
theorem converts_funExp (name : Var) (params : List Var) {body rest : Exp}
    (ihBody : Converts alloc s₀ body) (ihRest : Converts alloc s₀ rest) :
    Converts alloc s₀ (.funExp name params body rest) := by
  intro visitor link tasks l top owns untouched
  rcases owns.binary_inv rfl with ⟨a, m, r, rfl, cell, left, right, disjoint⟩
  let vars := (freeVars (.funExp name params body rest)).toList
  have sameLeft : Untouched s₀ visitor.nodes body m := untouched_of_same left.stored
    fun b member => untouched b (List.mem_cons_of_mem _ (List.mem_append_left _ member))
  have sameRight : Untouched s₀ visitor.nodes rest r := untouched_of_same right.stored
    fun b member => untouched b (List.mem_cons_of_mem _ (List.mem_append_right _ member))
  rcases rewriteFun_spec alloc (closureName visitor.counter) vars owns.loaded cell left
    right disjoint owns.outside sameLeft sameRight with ⟨s', m', tuple, rewrote, visited⟩
  let next : ClosureConvertVisitor :=
    { counter := visitor.counter + 1
      parentLink := some link
      worklist := .node (.field a .rest) tuple :: .node (.field a .body) m'.addr :: tasks
      nodes := s' }
  have seen : read visitor.nodes visitor.nodes.heap.keys.card a =
      some (.funExp name params body rest) :=
    owns.stored.read (owns.stored.length_le owns.apart)
  have turn : visitor.step alloc = .inl next := by
    refine ClosureConvertVisitor.step_node top ?_
    simp only [ClosureConvertVisitor.visit, ClosureConvertVisitor.visitFunExp,
      Layout.addr_binary, cell, owns.loaded, seen, Option.bind_eq_bind, Option.bind_some]
    simp only [vars, Layout.addr_binary] at rewrote
    rw [rewrote, Option.bind_some]
    exact ClosureConvertVisitor.addWorklist_both visited.left.loaded visited.right.loaded
  have replaced := visited.replaced
  have fields : Field.body ≠ Field.rest := nofun
  rcases (converts_captures vars 1 ihBody).children
    ((passed_tupleExp name (.globValue name :: vars.map .varValue)).converts ihRest) next fields
    rfl visited.cell visited.left visited.right visited.disjoint visited.untouchedLeft
    visited.untouchedRight (replaced.load_self owns.loaded)
    (replaced.outside owns.loaded owns.outside) with
    ⟨run, visitor', m'', r'', path, worklist, counter, cell', left', right', disjoint',
      replaced', rewrites, finds⟩
  have whole := replaced.trans replaced' owns.outside
  refine ⟨visitor :: run, visitor', .binary a m'' r'', .cons turn path, worklist, ?_, ?_,
    whole, ?_, ?_⟩
  · rw [counter, closes_captures]
    simp only [next, Exp.closes]
    omega
  · rw [Exp.close_funExp]
    rw [close_captures] at left'
    exact owns_binary rfl (whole.load_self owns.loaded) cell' left' right' disjoint'
      (whole.outside owns.loaded owns.outside)
  · rw [List.flatMap_cons, rewrites, visited.rewritten]
    simp [ClosureConvertVisitor.rewrites, top, cell, InPlace.rewritten]
  · refine List.forall_mem_cons.mpr ⟨?_, finds⟩
    simp only [ClosureConvertVisitor.Finds, top]
    exact ⟨owns.loaded, fun _ _ _ _ _ => ⟨_, _, rfl,
      owns.stored.congr fun b member => (untouched b member).symm, untouched⟩⟩

end Captures

/-! ## Whole terms -/

theorem converts (alloc : Allocator Node) (s₀ : Nodes) (t : Exp) : Converts alloc s₀ t := by
  induction t with
  | haltExp value => exact converts_leaf rfl
  | funExp name params body rest ihBody ihRest => exact converts_funExp name params ihBody ihRest
  | joinExp name slot body rest ihBody ihRest =>
    exact (branched_joinExp name slot).converts ihBody ihRest
  | jumpExp joinName slotValue => exact converts_leaf rfl
  | appExp name funName paramValues rest ih => exact converts_appExp name funName paramValues ih
  | bopExp name bop param1 param2 rest ih =>
    exact (passed_bopExp name bop param1 param2).converts ih
  | ifExp cond thenBranch elseBranch ihThen ihElse =>
    exact (branched_ifExp cond).converts ihThen ihElse
  | tupleExp name values rest ih => exact (passed_tupleExp name values).converts ih
  | projExp name tuple index rest ih => exact (passed_projExp name tuple index).converts ih

/-- A function or an application. -/
def Node.Rewritable : Node → Prop
  | .funExp _ _ _ _ => True
  | .appExp _ _ _ _ => True
  | _ => False

theorem rewritten_unary {t u : Exp} {node : Ptr → Node} (is : shape t = .unary node u) (b : Addr)
    (m : Layout) (p : Ptr) (a : Addr) :
    a ∈ rewritten t (.unary b m) ↔ a = b ∧ (node p).Rewritable ∨ a ∈ rewritten u m := by
  cases t <;> cases is <;> simp [rewritten, Node.Rewritable, or_comm]

theorem rewritten_binary {t u v : Exp} {lf rf : Field} {node : Ptr → Ptr → Node}
    (is : shape t = .binary lf rf node u v) (b : Addr) (m r : Layout) (p q : Ptr) (a : Addr) :
    a ∈ rewritten t (.binary b m r) ↔
      a = b ∧ (node p q).Rewritable ∨ a ∈ rewritten u m ∨ a ∈ rewritten v r := by
  cases t <;> cases is <;> simp [rewritten, Node.Rewritable, or_comm]

/-- What is rewritten are the functions and the applications. -/
theorem mem_rewritten {s : Nodes} {t : Exp} {l : Layout} (stored : Stored s t l) (a : Addr) :
    a ∈ rewritten t l ↔ a ∈ l.cells ∧ ∃ node, s.cell a = some node ∧ node.Rewritable := by
  have root {b : Addr} {node : Node} (cell : s.cell b = some node) :
      a = b ∧ node.Rewritable ↔ a = b ∧ ∃ node, s.cell a = some node ∧ node.Rewritable := by
    refine and_congr_right fun same => ?_
    subst same
    simp [cell]
  induction l generalizing t with
  | leaf b =>
    rcases stored with ⟨node, is, cell⟩
    rw [Layout.cells, List.mem_singleton, ← root cell]
    cases t <;> cases is <;> simp [rewritten, Node.Rewritable]
  | unary b m ih =>
    rcases stored with ⟨node, u, is, cell, child⟩
    rw [rewritten_unary is b m (some m.addr), root cell, Layout.cells, List.mem_cons,
      or_and_right]
    exact or_congr Iff.rfl (ih child)
  | binary b l r ihLeft ihRight =>
    rcases stored with ⟨lf, rf, node, u, v, is, cell, left, right⟩
    rw [rewritten_binary is b l r (some l.addr) (some r.addr), root cell, Layout.cells,
      List.mem_cons, List.mem_append, or_and_right, or_and_right]
    exact or_congr Iff.rfl (or_congr (ihLeft left) (ihRight right))

theorem rewritten_subset {s : Nodes} {t : Exp} {l : Layout} (stored : Stored s t l) :
    rewritten t l ⊆ l.cells := fun a member => ((mem_rewritten stored a).mp member).1

/-- Nothing is rewritten twice. -/
theorem rewritten_nodup {s : Nodes} {t : Exp} {l : Layout} (stored : Stored s t l)
    (apart : l.cells.Nodup) : (rewritten t l).Nodup := by
  induction l generalizing t with
  | leaf b =>
    rcases stored with ⟨node, is, cell⟩
    cases t <;> cases is <;> exact .nil
  | unary b m ih =>
    rcases stored with ⟨node, u, is, cell, child⟩
    rcases List.nodup_cons.mp apart with ⟨notMem, below⟩
    have distinct := ih child below
    have other : b ∉ rewritten u m := fun member => notMem (rewritten_subset child member)
    cases t <;> cases is <;> first
      | exact distinct
      | exact List.nodup_append'.mpr ⟨distinct, List.nodup_singleton b,
          List.disjoint_singleton.mpr other⟩
  | binary b l r ihLeft ihRight =>
    rcases stored with ⟨lf, rf, node, u, v, is, cell, left, right⟩
    rcases List.nodup_cons.mp apart with ⟨notMem, below⟩
    rcases List.nodup_append'.mp below with ⟨belowLeft, belowRight, disjoint⟩
    have distinct : (rewritten v r ++ rewritten u l).Nodup :=
      List.nodup_append'.mpr ⟨ihRight right belowRight, ihLeft left belowLeft,
        fun a memRight memLeft =>
          disjoint (rewritten_subset left memLeft) (rewritten_subset right memRight)⟩
    have other : b ∉ rewritten v r ++ rewritten u l := by
      rw [List.mem_append, not_or]
      exact ⟨fun member => notMem (List.mem_append_right _ (rewritten_subset right member)),
        fun member => notMem (List.mem_append_left _ (rewritten_subset left member))⟩
    cases t <;> cases is <;> first
      | exact distinct
      | exact List.nodup_cons.mpr ⟨other, distinct⟩

/-- The loop runs until the term is converted. -/
theorem closureConvert_ends (alloc : Allocator Node) {s : Nodes} {t : Exp} {l : Layout}
    (owns : Owns s .root t l) :
    ∃ first run last l', ClosureConvertVisitor.start s = some first ∧ first.counter = 0 ∧
      first.nodes = s ∧ Converted alloc s t l .root [] first run last l' ∧
      ∀ fuel > run.length, closureConvert alloc fuel s = some (some last.nodes) := by
  let first : ClosureConvertVisitor := ⟨0, none, [.node .root l.addr], s⟩
  have start : ClosureConvertVisitor.start s = some first :=
    ClosureConvertVisitor.addWorklist_eq owns.loaded
  rcases converts alloc s t first .root [] l rfl owns
    (untouched_of_same owns.stored fun _ _ => rfl) with ⟨run, last, l', done⟩
  have returns : last.step alloc = .inr (some last.nodes) := by
    simp [ClosureConvertVisitor.step, done.worklist]
  refine ⟨first, run, last, l', start, rfl, rfl, done, fun fuel more => ?_⟩
  rw [closureConvert, start]
  exact Lib.iterate_mono (done.path.iterate returns) more

/-- The loop ends, and leaves at the root the closure-converted term and nothing else in place of
the nodes of the term. It rewrites each function and each application once and no other node;
whenever a task is run, its link still owns the node it is for, and the captures of a function
are found in nodes that are as they were at first. -/
theorem closureConvert_inPlace (alloc : Allocator Node) {s : Nodes} {t : Exp} {l : Layout}
    (owns : Owns s .root t l) :
    ∃ first run last l', ClosureConvertVisitor.start s = some first ∧
      Path (ClosureConvertVisitor.step alloc) first run last ∧ last.worklist = [] ∧
      (∀ fuel > run.length, closureConvert alloc fuel s = some (some last.nodes)) ∧
      last.counter = t.closes ∧ Owns last.nodes .root (Anf.closureConvert t) l' ∧
      s.Replaced .root l.cells (some l'.addr) l'.cells last.nodes ∧
      (run.flatMap ClosureConvertVisitor.rewrites).Nodup ∧
      (∀ a, a ∈ run.flatMap ClosureConvertVisitor.rewrites ↔
        a ∈ l.cells ∧ ∃ node, s.cell a = some node ∧ node.Rewritable) ∧
      ∀ v ∈ run, v.Finds s := by
  rcases closureConvert_ends alloc owns with
    ⟨first, run, last, l', start, zero, same, done, ends⟩
  have counter : last.counter = t.closes := by
    rw [done.counter, zero, Nat.zero_add]
  have converted : Owns last.nodes .root (Anf.closureConvert t) l' := by
    have owned := done.owns
    rwa [zero] at owned
  refine ⟨first, run, last, l', start, done.path, done.worklist, ends, counter, converted,
    same ▸ done.replaced, ?_, ?_, done.finds⟩
  · rw [done.rewrites]
    exact rewritten_nodup owns.stored owns.apart
  · rw [done.rewrites]
    exact mem_rewritten owns.stored

theorem closureConvert_inPlace_callIdentity :
    ∃ fuel nodes l', closureConvert (.least Node) fuel callIdentityNodes = some (some nodes) ∧
      Owns nodes .root (.funExp "tmp0" ["closure0", "x0"] (.haltExp (.varValue "x0"))
        (.tupleExp "tmp0" [.globValue "tmp0"] (.projExp "proj1" "tmp0" 0
          (.appExp "tmp1" "proj1" [.varValue "tmp0", .intValue 1]
            (.haltExp (.varValue "tmp1")))))) l' := by
  rcases closureConvert_inPlace (.least Node) owns_callIdentity with
    ⟨_, run, last, l', -, -, -, ends, -, owns, -⟩
  exact ⟨_, _, l', ends _ run.length.lt_succ_self, owns⟩

end Lambcalc.InPlace
