import Lambcalc.Ast.RenameCorrect

/-!
# Lexical scope

What `rename` is for, in terms of places in the tree: a variable refers to the nearest lambda
around it that binds its name, and lambdas are numbered in the order in which the worklist visits
them. A place is a path of parent links from the root. The number is put behind the old name as far
as its first NUL, which is all of it for the names a program can be written with.
-/

namespace Lambcalc.Ast

namespace Exp

/-! ## Places -/

/-- The places of the lambdas of `e`, in the order they are visited: a node before its children,
and later children before earlier ones. -/
def visits : Exp → List Path
  | intExp _ => []
  | varExp _ => []
  | lamExp _ body => [] :: body.visits.map (.body :: ·)
  | appExp fn arg => arg.visits.map (.arg :: ·) ++ fn.visits.map (.fn :: ·)
  | bopExp _ arg1 arg2 => arg2.visits.map (.arg2 :: ·) ++ arg1.visits.map (.arg1 :: ·)
  | ifExp cond then_ els =>
    els.visits.map (.els :: ·) ++ then_.visits.map (.then_ :: ·) ++ cond.visits.map (.cond :: ·)

/-- The lambda at `binder` binds `x`, and `path` leads into its body. -/
def Encloses (e : Exp) (path binder : Path) (x : String) : Prop :=
  (∃ body, e.get binder = some (.lamExp x body)) ∧ binder ++ [.body] <+: path

/-- Of the lambdas around `path` that bind `x`, the one at `binder` is the nearest. -/
def Nearest (e : Exp) (path binder : Path) (x : String) : Prop :=
  e.Encloses path binder x ∧ ∀ other, e.Encloses path other x → other <+: binder

/-- The tree without its names. -/
def shape : Exp → Exp
  | intExp value => intExp value
  | varExp _ => varExp ""
  | lamExp _ body => lamExp "" body.shape
  | appExp fn arg => appExp fn.shape arg.shape
  | bopExp bop arg1 arg2 => bopExp bop arg1.shape arg2.shape
  | ifExp cond then_ els => ifExp cond.shape then_.shape els.shape

/-- Relabelling changes names only. -/
theorem shape_relabel (label : String → Nat → String) (e : Exp) (σ : String → String) (i : Nat) :
    (e.relabel label σ i).shape = e.shape := by
  induction e generalizing σ i with
  | intExp value => rfl
  | varExp name => rfl
  | lamExp param body ih => rw [relabel, shape, shape, ih]
  | appExp fn arg ihFn ihArg => rw [relabel, shape, shape, ihFn, ihArg]
  | bopExp bop arg1 arg2 ih1 ih2 => rw [relabel, shape, shape, ih1, ih2]
  | ifExp cond then_ els ihCond ihThen ihEls =>
    rw [relabel, shape, shape, ihCond, ihThen, ihEls]

/-- Every lambda has one place. -/
@[simp] theorem length_visits (e : Exp) : e.visits.length = e.lambdas := by
  induction e with
  | intExp value => rfl
  | varExp name => rfl
  | lamExp param body ih => simp [visits, lambdas, ih]
  | appExp fn arg ihFn ihArg => simp [visits, lambdas, ihFn, ihArg, Nat.add_comm]
  | bopExp bop arg1 arg2 ih1 ih2 => simp [visits, lambdas, ih1, ih2, Nat.add_comm]
  | ifExp cond then_ els ihCond ihThen ihEls =>
    simp only [visits, lambdas, List.length_append, List.length_map, ihCond, ihThen, ihEls]
    omega

/-- Places below different links are different. -/
theorem disjoint_below {link link' : Link} (ne : link ≠ link') (paths paths' : List Path) :
    (paths.map (link :: ·)).Disjoint (paths'.map (link' :: ·)) := by
  intro path member member'
  obtain ⟨rest, -, rfl⟩ := List.mem_map.mp member
  obtain ⟨rest', -, eq⟩ := List.mem_map.mp member'
  exact ne (List.cons.inj eq).1.symm

theorem nodup_below {link : Link} {paths : List Path} (nodup : paths.Nodup) :
    (paths.map (link :: ·)).Nodup := nodup.map List.cons_injective

/-- No place is visited twice. -/
theorem nodup_visits (e : Exp) : e.visits.Nodup := by
  induction e with
  | intExp value => exact .nil
  | varExp name => exact .nil
  | lamExp param body ih =>
    refine List.nodup_cons.mpr ⟨fun member => ?_, nodup_below ih⟩
    obtain ⟨rest, -, eq⟩ := List.mem_map.mp member
    cases eq
  | appExp fn arg ihFn ihArg =>
    exact (nodup_below ihArg).append (nodup_below ihFn) (disjoint_below (by decide) _ _)
  | bopExp bop arg1 arg2 ih1 ih2 =>
    exact (nodup_below ih2).append (nodup_below ih1) (disjoint_below (by decide) _ _)
  | ifExp cond then_ els ihCond ihThen ihEls =>
    refine ((nodup_below ihEls).append (nodup_below ihThen) (disjoint_below (by decide) _ _)).append
      (nodup_below ihCond) (List.disjoint_append_left.mpr ⟨?_, ?_⟩)
    · exact disjoint_below (by decide) _ _
    · exact disjoint_below (by decide) _ _

/-! ## One link down -/

/-- The lambdas that are visited before those of a child. -/
def before : Exp → Link → Nat
  | lamExp _ _, _ => 1
  | appExp _ arg, .fn => arg.lambdas
  | bopExp _ _ arg2, .arg1 => arg2.lambdas
  | ifExp _ _ els, .then_ => els.lambdas
  | ifExp _ then_ els, .cond => els.lambdas + then_.lambdas
  | _, _ => 0

/-- What the variables of a child stand for. -/
def bind (label : String → Nat → String) (e : Exp) (σ : String → String) (i : Nat) :
    String → String :=
  match e with
  | lamExp param _ => Function.update σ param (label param i)
  | _ => σ

section Children

variable {label : String → Nat → String} {e node : Exp} {link : Link} {σ : String → String}
  {i : Nat}

/-- A child is relabelled with the names bound above it, from the number of its first lambda on. -/
theorem child_relabel (found : e.child link = some node) : (e.relabel label σ i).child link =
    some (node.relabel label (bind label e σ i) (i + e.before link)) := by
  cases e <;> cases link <;> cases found <;> first | rfl | simp only [relabel, child, bind, before,
    Nat.add_assoc]

/-- The lambdas below a child are visited after those of the children behind it. -/
theorem visits_child (found : e.child link = some node) {j : Nat} {path : Path}
    (visited : node.visits[j]? = some path) :
    e.visits[e.before link + j]? = some (link :: path) := by
  have step : ∀ ps qs : List Path, ps.length = e.before link →
      (ps ++ (node.visits.map (link :: ·) ++ qs))[e.before link + j]? = some (link :: path) := by
    intro ps qs length
    have inside : j < (node.visits.map (link :: ·)).length := by
      rw [List.length_map]
      exact (List.getElem?_eq_some_iff.mp visited).1
    rw [← length, List.getElem?_append_right (Nat.le_add_right ..), Nat.add_sub_cancel_left,
      List.getElem?_append_left inside, List.getElem?_map, visited]
    rfl
  cases e with
  | intExp value => cases found
  | varExp name => cases found
  | lamExp param body =>
    cases link <;> cases found
    simpa [visits] using step [[]] [] rfl
  | appExp fn arg =>
    cases link <;> cases found
    · simpa [visits] using step (arg.visits.map (.arg :: ·)) [] (by simp [before])
    · simpa [visits] using step [] (fn.visits.map (.fn :: ·)) rfl
  | bopExp bop arg1 arg2 =>
    cases link <;> cases found
    · simpa [visits] using step (arg2.visits.map (.arg2 :: ·)) [] (by simp [before])
    · simpa [visits] using step [] (arg1.visits.map (.arg1 :: ·)) rfl
  | ifExp cond then_ els =>
    cases link <;> cases found
    · simpa [visits] using step (els.visits.map (.els :: ·) ++ then_.visits.map (.then_ :: ·)) []
        (by simp [before])
    · simpa [visits] using step (els.visits.map (.els :: ·)) (cond.visits.map (.cond :: ·))
        (by simp [before])
    · simpa [visits] using step [] (then_.visits.map (.then_ :: ·) ++ cond.visits.map (.cond :: ·))
        rfl

theorem get_cons (found : e.child link = some node) (path : Path) :
    e.get (link :: path) = node.get path := by
  rw [get, found]
  rfl

theorem child_of_get {target : Exp} {path : Path} (found : e.get (link :: path) = some target) :
    ∃ node, e.child link = some node ∧ node.get path = some target :=
  Option.bind_eq_some_iff.mp found

/-- A lambda around a place below a child is around it in the child, or is the node itself. -/
theorem encloses_cons (found : e.child link = some node) {path binder : Path} {x : String} :
    e.Encloses (link :: path) binder x ↔
      (binder = [] ∧ ∃ body, e = .lamExp x body) ∨
        ∃ rest, binder = link :: rest ∧ node.Encloses path rest x := by
  cases binder with
  | nil =>
    constructor
    · intro encloses
      obtain ⟨⟨body, at_⟩, -⟩ := encloses
      exact .inl ⟨rfl, body, Option.some.inj at_⟩
    · intro cases_
      rcases cases_ with ⟨-, body, rfl⟩ | ⟨rest, eq, -⟩
      · cases link <;> cases found
        exact ⟨⟨_, rfl⟩, List.prefix_append ..⟩
      · cases eq
  | cons first rest =>
    constructor
    · intro encloses
      obtain ⟨⟨body, at_⟩, within⟩ := encloses
      obtain ⟨rfl, below⟩ := List.cons_prefix_cons.mp within
      exact .inr ⟨rest, rfl, ⟨body, (get_cons found rest).symm.trans at_⟩, below⟩
    · intro cases_
      rcases cases_ with ⟨eq, -⟩ | ⟨rest', eq, ⟨body, at_⟩, within⟩
      · cases eq
      · cases eq
        exact ⟨⟨body, (get_cons found rest).trans at_⟩, List.cons_prefix_cons.mpr ⟨rfl, within⟩⟩

end Children

/-! ## Places of a relabelled tree -/

section Relabelled

variable (label : String → Nat → String) {e : Exp} (σ : String → String) (i : Nat)

/-- A lambda takes the label of its number. -/
theorem get_relabel_lamExp {path : Path} {param : String} {body : Exp}
    (found : e.get path = some (.lamExp param body)) :
    ∃ (j : Nat) (body' : Exp), e.visits[j]? = some path ∧
      (e.relabel label σ i).get path = some (.lamExp (label param (i + j)) body') := by
  induction path generalizing e σ i with
  | nil =>
    cases found
    exact ⟨0, _, rfl, rfl⟩
  | cons link path ih =>
    obtain ⟨node, child, below⟩ := child_of_get found
    obtain ⟨j, body', visited, relabelled⟩ :=
      ih (bind label e σ i) (i + e.before link) below
    refine ⟨e.before link + j, body', visits_child child visited, ?_⟩
    rw [get_cons (child_relabel child), relabelled, Nat.add_assoc]

/-- A variable takes the label of the nearest lambda that binds its name, or else what `σ` says. -/
theorem get_relabel_varExp {path : Path} {x : String} (found : e.get path = some (.varExp x)) :
    (∃ binder j, e.Nearest path binder x ∧ e.visits[j]? = some binder ∧
      (e.relabel label σ i).get path = some (.varExp (label x (i + j)))) ∨
    ((∀ binder, ¬ e.Encloses path binder x) ∧
      (e.relabel label σ i).get path = some (.varExp (σ x))) := by
  induction path generalizing e σ i with
  | nil =>
    cases found
    refine .inr ⟨fun binder encloses => ?_, rfl⟩
    exact absurd (List.prefix_nil.mp encloses.2) (List.append_ne_nil_of_right_ne_nil _
      (List.cons_ne_nil _ _))
  | cons link path ih =>
    obtain ⟨node, child, below⟩ := child_of_get found
    rw [get_cons (child_relabel child)]
    rcases ih (bind label e σ i) (i + e.before link) below with
      ⟨binder, j, ⟨encloses, nearest⟩, visited, relabelled⟩ | ⟨none, relabelled⟩
    · -- the nearest lambda is one below
      refine .inl ⟨link :: binder, e.before link + j, ⟨?_, fun other around => ?_⟩,
        visits_child child visited, by rw [relabelled, Nat.add_assoc]⟩
      · exact (encloses_cons child).mpr (.inr ⟨binder, rfl, encloses⟩)
      · rcases (encloses_cons child).mp around with ⟨rfl, -⟩ | ⟨rest, rfl, inside⟩
        · exact List.nil_prefix
        · exact List.cons_prefix_cons.mpr ⟨rfl, nearest rest inside⟩
    · by_cases binds : ∃ body, e = .lamExp x body
      · -- the node itself binds the name
        obtain ⟨body, rfl⟩ := binds
        refine .inl ⟨[], 0, ⟨(encloses_cons child).mpr (.inl ⟨rfl, body, rfl⟩),
          fun other around => ?_⟩, rfl, ?_⟩
        · rcases (encloses_cons child).mp around with ⟨rfl, -⟩ | ⟨rest, -, around⟩
          · exact List.prefix_rfl
          · exact absurd around (none rest)
        · rw [relabelled, bind, Function.update_self, Nat.add_zero]
      · refine .inr ⟨fun binder around => ?_, ?_⟩
        · rcases (encloses_cons child).mp around with ⟨-, here⟩ | ⟨rest, -, around⟩
          · exact binds here
          · exact none rest around
        · rw [relabelled]
          cases e with
          | lamExp param body =>
            have ne : x ≠ param := fun eq => binds ⟨body, by rw [eq]⟩
            rw [bind, Function.update_of_ne ne]
          | _ => rfl

end Relabelled

/-! ## Free variables -/

/-- Some occurrence of `x` in `e` is in no lambda that binds it. -/
def Unbound (e : Exp) (x : String) : Prop :=
  ∃ path, e.get path = some (.varExp x) ∧ ∀ binder, ¬ e.Encloses path binder x

section Unbound

variable {e node : Exp} {link : Link} {x : String}

/-- An unbound occurrence in a child is unbound, unless the node binds it. -/
theorem unbound_of_child (link : Link) (found : e.child link = some node)
    (other : ∀ body, e ≠ .lamExp x body) (unbound : node.Unbound x) : e.Unbound x := by
  obtain ⟨path, occurs, none⟩ := unbound
  refine ⟨link :: path, (get_cons found path).trans occurs, fun binder encloses => ?_⟩
  rcases (encloses_cons found).mp encloses with ⟨-, body, eq⟩ | ⟨rest, -, inside⟩
  · exact other body eq
  · exact none rest inside

/-- A free variable of a child is free, unless the node binds it. -/
theorem free_of_child (found : e.child link = some node) (other : ∀ body, e ≠ .lamExp x body)
    (member : x ∈ node.free) : x ∈ e.free := by
  cases e with
  | intExp value => cases found
  | varExp name => cases found
  | lamExp param body =>
    cases link <;> cases found
    refine Finset.mem_erase.mpr ⟨fun eq => other node ?_, member⟩
    rw [eq]
  | appExp fn arg => cases link <;> cases found <;> simp [free, member]
  | bopExp bop arg1 arg2 => cases link <;> cases found <;> simp [free, member]
  | ifExp cond then_ els => cases link <;> cases found <;> simp [free, member]

/-- A free variable has an occurrence that no lambda around it binds. -/
theorem unbound_of_free (member : x ∈ e.free) : e.Unbound x := by
  induction e with
  | intExp value => cases member
  | varExp name =>
    obtain rfl := Finset.mem_singleton.mp member
    refine ⟨[], rfl, fun binder encloses => ?_⟩
    exact List.append_ne_nil_of_right_ne_nil _ (List.cons_ne_nil _ _)
      (List.prefix_nil.mp encloses.2)
  | lamExp param body ih =>
    obtain ⟨ne, inBody⟩ := Finset.mem_erase.mp member
    refine unbound_of_child .body rfl (fun body eq => ?_) (ih inBody)
    cases eq
    exact ne rfl
  | appExp fn arg ihFn ihArg =>
    rcases Finset.mem_union.mp member with inFn | inArg
    · exact unbound_of_child .fn rfl (fun _ => Exp.noConfusion) (ihFn inFn)
    · exact unbound_of_child .arg rfl (fun _ => Exp.noConfusion) (ihArg inArg)
  | bopExp bop arg1 arg2 ih1 ih2 =>
    rcases Finset.mem_union.mp member with in1 | in2
    · exact unbound_of_child .arg1 rfl (fun _ => Exp.noConfusion) (ih1 in1)
    · exact unbound_of_child .arg2 rfl (fun _ => Exp.noConfusion) (ih2 in2)
  | ifExp cond then_ els ihCond ihThen ihEls =>
    rcases Finset.mem_union.mp member with both | inEls
    · rcases Finset.mem_union.mp both with inCond | inThen
      · exact unbound_of_child .cond rfl (fun _ => Exp.noConfusion) (ihCond inCond)
      · exact unbound_of_child .then_ rfl (fun _ => Exp.noConfusion) (ihThen inThen)
    · exact unbound_of_child .els rfl (fun _ => Exp.noConfusion) (ihEls inEls)

/-- A variable with such an occurrence is free: the path to it leads through no binder. -/
theorem free_of_unbound (unbound : e.Unbound x) : x ∈ e.free := by
  obtain ⟨path, occurs, none⟩ := unbound
  induction path generalizing e with
  | nil =>
    cases occurs
    exact Finset.mem_singleton_self x
  | cons link path ih =>
    obtain ⟨node, child, below⟩ := child_of_get occurs
    refine free_of_child child (fun body eq => ?_) (ih below fun binder inside => ?_)
    · exact none [] ((encloses_cons child).mpr (.inl ⟨rfl, body, eq⟩))
    · exact none (link :: binder) ((encloses_cons child).mpr (.inr ⟨binder, rfl, inside⟩))

/-- The free variables are those with an unbound occurrence. -/
theorem mem_free_iff : x ∈ e.free ↔ e.Unbound x := ⟨unbound_of_free, free_of_unbound⟩

end Unbound

/-- A tree is closed exactly if no occurrence is unbound. -/
theorem closed_iff {e : Exp} : e.Closed ↔ ∀ x, ¬ e.Unbound x := by
  unfold Closed
  rw [Finset.eq_empty_iff_forall_notMem]
  exact forall_congr' fun x => not_congr mem_free_iff

theorem exists_lamExp_of_child {e node : Exp} {p : String} (link : Link)
    (child : e.child link = some node)
    (inside : ∃ path body, node.get path = some (.lamExp p body)) :
    ∃ path body, e.get path = some (.lamExp p body) := by
  rcases inside with ⟨path, body, found⟩
  exact ⟨link :: path, body, (get_cons child path).trans found⟩

/-- Every parameter is that of a lambda somewhere in the tree. -/
theorem exists_lamExp {e : Exp} {p : String} (isParam : p ∈ e.params) :
    ∃ path body, e.get path = some (.lamExp p body) := by
  induction e with
  | intExp value => cases isParam
  | varExp name => cases isParam
  | lamExp param body ih =>
    rcases List.mem_cons.mp isParam with rfl | inBody
    · exact ⟨[], body, rfl⟩
    · exact exists_lamExp_of_child .body rfl (ih inBody)
  | appExp fn arg ihFn ihArg =>
    rcases List.mem_append.mp isParam with inFn | inArg
    · exact exists_lamExp_of_child .fn rfl (ihFn inFn)
    · exact exists_lamExp_of_child .arg rfl (ihArg inArg)
  | bopExp bop arg1 arg2 ih1 ih2 =>
    rcases List.mem_append.mp isParam with in1 | in2
    · exact exists_lamExp_of_child .arg1 rfl (ih1 in1)
    · exact exists_lamExp_of_child .arg2 rfl (ih2 in2)
  | ifExp cond then_ els ihCond ihThen ihEls =>
    rcases List.mem_append.mp isParam with both | inEls
    · rcases List.mem_append.mp both with inCond | inThen
      · exact exists_lamExp_of_child .cond rfl (ihCond inCond)
      · exact exists_lamExp_of_child .then_ rfl (ihThen inThen)
    · exact exists_lamExp_of_child .els rfl (ihEls inEls)

/-- The parameter of a lambda somewhere in the tree is one of its parameters. -/
theorem mem_params_of_get {e : Exp} {path : Path} {p : String} {body : Exp}
    (found : e.get path = some (.lamExp p body)) : p ∈ e.params := by
  induction path generalizing e with
  | nil =>
    cases found
    exact List.mem_cons_self
  | cons link path ih =>
    obtain ⟨node, child, found⟩ := child_of_get found
    have inNode := ih found
    cases e <;> cases link <;> cases child <;> simp [params, inNode]

end Exp

/-! ## What renaming does -/

/-- `rename` throws exactly if some variable of `e` occurs under no lambda that binds it. Otherwise
it leaves a tree of the same shape, in which the lambda visited `i`-th has the name made of its old
parameter and `i`, and every variable has the new name of the nearest lambda that bound its old
name; and `rename_` is empty again. -/
def ResolvesScope (made : String → Nat → String) (e : Exp) : Prop :=
  ((∃ error, rename e = some (.threw error)) ↔ ∃ x, e.Unbound x) ∧
    ((¬ ∃ error, rename e = some (.threw error)) →
      ∃ e', rename e = some (.returned e' fun _ => none) ∧ e'.shape = e.shape ∧
        e.visits.Nodup ∧
        (∀ path param body, e.get path = some (.lamExp param body) →
          ∃ (i : Nat) (body' : Exp), e.visits[i]? = some path ∧
            e'.get path = some (.lamExp (made param i) body')) ∧
        ∀ path x, e.get path = some (.varExp x) →
          ∃ (binder : Path) (i : Nat), e.Nearest path binder x ∧ e.visits[i]? = some binder ∧
            e'.get path = some (.varExp (made x i)))

/-- Renaming resolves the scope of every tree, with the names `fresh` makes. -/
theorem resolvesScope_suffixed (e : Exp) : ResolvesScope suffixed e := by
  have throws : (∃ error, rename e = some (.threw error)) ↔ ∃ x, e.Unbound x := by
    rw [rename_throws_iff, Exp.closed_iff, not_forall_not]
  refine ⟨throws, fun not_throws => ?_⟩
  have closed : e.Closed := Classical.not_not.mp fun open_ => not_throws (rename_throws open_)
  refine ⟨_, rename_eq_relabel closed, Exp.shape_relabel .., Exp.nodup_visits e, ?_, ?_⟩
  · intro path param body found
    obtain ⟨i, body', visited, relabelled⟩ :=
      Exp.get_relabel_lamExp suffixed id 0 found
    exact ⟨i, body', visited, by rw [relabelled, Nat.zero_add]⟩
  · intro path x found
    rcases Exp.get_relabel_varExp suffixed id 0 found with
      ⟨binder, i, nearest, visited, relabelled⟩ | ⟨none, -⟩
    · exact ⟨binder, i, nearest, visited, by rw [relabelled, Nat.zero_add]⟩
    · exact absurd ⟨path, found, none⟩ (Exp.closed_iff.mp closed x)

/-- Two ways to make names from the parameters of `e` that agree on them are the same to it. -/
theorem ResolvesScope.congr {made made' : String → Nat → String} {e : Exp}
    (agree : ∀ p ∈ e.params, ∀ i, made p i = made' p i) (resolves : ResolvesScope made e) :
    ResolvesScope made' e := by
  refine ⟨resolves.1, fun not_throws => ?_⟩
  rcases resolves.2 not_throws with ⟨e', renamed, sameShape, nodup, lambdas, vars⟩
  refine ⟨e', renamed, sameShape, nodup, fun path param body found => ?_, fun path x found => ?_⟩
  · obtain ⟨i, body', visited, found'⟩ := lambdas path param body found
    exact ⟨i, body', visited, by rw [← agree param (Exp.mem_params_of_get found), found']⟩
  · obtain ⟨binder, i, nearest, visited, found'⟩ := vars path x found
    obtain ⟨body, binds⟩ := nearest.1.1
    exact ⟨binder, i, nearest, visited, by rw [← agree x (Exp.mem_params_of_get binds), found']⟩

/-- If no variable is unbound, names made in two ways agree on every parameter of `e`, at the number
of one of its lambdas. -/
theorem ResolvesScope.made_eq {made made' : String → Nat → String} {e : Exp}
    (bound : ¬ ∃ x, e.Unbound x) (resolves : ResolvesScope made e)
    (resolves' : ResolvesScope made' e) {p : String} (isParam : p ∈ e.params) :
    ∃ i, made p i = made' p i := by
  have not_throws : ¬ ∃ error, rename e = some (.threw error) := fun threw =>
    bound (resolves.1.mp threw)
  rcases resolves.2 not_throws with ⟨e', renamed, -, nodup, lambdas, -⟩
  rcases resolves'.2 not_throws with ⟨e'', renamed', -, -, lambdas', -⟩
  cases renamed.symm.trans renamed'
  obtain ⟨path, body, found⟩ := Exp.exists_lamExp isParam
  obtain ⟨i, _, visited, at_⟩ := lambdas path p body found
  obtain ⟨j, _, visited', at_'⟩ := lambdas' path p body found
  -- a place is visited once, so both names have the same number
  obtain ⟨lt, -⟩ := List.getElem?_eq_some_iff.mp visited
  obtain rfl := (List.getElem?_inj lt nodup).mp (visited.trans visited'.symm)
  exact ⟨i, (Exp.lamExp.inj (Option.some.inj (at_.symm.trans at_'))).1⟩

/-- Renaming resolves the scope of `e` with each old name followed by the number, exactly if some
variable is unbound (and `rename` throws) or no parameter contains a NUL. -/
theorem rename_resolves_scope_iff (e : Exp) :
    ResolvesScope (fun name i => name ++ toString i) e ↔
      (∃ x, e.Unbound x) ∨ ∀ p ∈ e.params, NulFree p := by
  constructor
  · intro resolves
    refine or_iff_not_imp_left.mpr fun bound p isParam => ?_
    obtain ⟨i, same⟩ := (resolvesScope_suffixed e).made_eq bound resolves isParam
    exact data_eq_iff.mp ((String.append_left_inj _).mp same)
  · rintro (unbound | nulFree)
    · have throws := (resolvesScope_suffixed e).1
      exact ⟨throws, fun not_throws => absurd (throws.mpr unbound) not_throws⟩
    · refine (resolvesScope_suffixed e).congr fun p isParam i => ?_
      rw [suffixed, data_eq_iff.mpr (nulFree p isParam)]

/-- The three characters `a`, NUL and `b`. -/
def nulName : String := String.ofList ['a', Char.ofNat 0, 'b']

/-- `fn a␀b => a␀b` becomes `fn a0 => a0`, where the number should follow the whole name. -/
theorem nulName_cut : rename (.lamExp nulName (.varExp nulName)) =
      some (.returned (.lamExp "a0" (.varExp "a0")) fun _ => none) ∧
    ¬ ResolvesScope (fun name i => name ++ toString i) (.lamExp nulName (.varExp nulName)) := by
  have renamed : rename (.lamExp nulName (.varExp nulName)) =
      some (.returned (.lamExp "a0" (.varExp "a0")) fun _ => none) :=
    rename_eq_relabel (by decide)
  refine ⟨renamed, fun resolves => ?_⟩
  have not_throws :
      ¬ ∃ error, rename (.lamExp nulName (.varExp nulName)) = some (.threw error) := by
    rintro ⟨error, threw⟩
    cases renamed.symm.trans threw
  rcases resolves.2 not_throws with ⟨e', renamed', -, -, lambdas, -⟩
  cases renamed.symm.trans renamed'
  obtain ⟨i, body', -, eq⟩ := lambdas [] nulName (.varExp nulName) rfl
  have names : "a0" = nulName ++ toString i := (Exp.lamExp.inj (Option.some.inj eq)).1
  have length := congrArg String.length names
  have cut : "a0".length = 2 := rfl
  have whole : nulName.length = 3 := rfl
  rw [String.length_append] at length
  omega

end Lambcalc.Ast
