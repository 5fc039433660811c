import Lambcalc.Lib.Memory

/-!
# Destructors without recursion

A destructor that moves what its node owns into a queue. It takes the nodes out of the queue one
after the other, moves what they own to the end of the queue, and deletes them. When their own
destructors are called they own nothing any more, so that calls are nested at most twice, however
high the tree is.
-/

namespace Lambcalc.Lib.Store

variable {N K : Type} [Linked N K]

/-- The values of the links of a node. -/
def links (n : N) : List Ptr := (Linked.names N).filterMap (link · n)

/-- Move the values of some fields of a node out of them, those that it has. -/
def moveLinks (a : Addr) : List K → Store N → Option (List Ptr × Store N)
  | [], s => some ([], s)
  | k :: names, s => do
    let n ← s.cell a
    match link k n with
    | none => moveLinks a names s
    | some _ =>
      let (p, s) ← s.move (.field a k)
      let (queue, s) ← moveLinks a names s
      return (p :: queue, s)

/-- The visit of a node: all it owns is moved out of it. -/
def visit (a : Addr) (s : Store N) : Option (List Ptr × Store N) := do
  let _ ← s.cell a
  moveLinks a (Linked.names N) s

/-- The loop of a destructor. -/
def dtorLoop (delete : Addr → Store N → Option (Store N)) :
    Nat → List Ptr → Store N → Option (Store N)
  | _, [], s => some s
  | 0, _ :: _, _ => none
  | fuel + 1, none :: queue, s => dtorLoop delete fuel queue s
  | fuel + 1, some a :: queue, s => do
    let (children, s) ← s.visit a
    -- the task goes out of scope at the end of the turn
    let s ← delete a s
    dtorLoop delete fuel (queue ++ children) s

/-- The destructor, where calls may be nested so deep, and each loop has so many turns. -/
def dtor (fuel : Nat) : Nat → Addr → Store N → Option (Store N)
  | 0, _, _ => none
  | depth + 1, a, s => do
    let (queue, s) ← s.visit a
    dtorLoop (fun b s => (dtor fuel depth b s).map (·.free b)) fuel queue s

/-- `delete` of the node at an address. -/
def delete (fuel depth : Nat) (a : Addr) (s : Store N) : Option (Store N) :=
  (dtor fuel depth a s).map (·.free a)

/-- Owners go out of scope, one after the other. -/
def deleteAll (fuel depth : Nat) : List Ptr → Store N → Option (Store N)
  | [], s => some s
  | none :: owners, s => deleteAll fuel depth owners s
  | some a :: owners, s => do
    let s ← delete fuel depth a s
    deleteAll fuel depth owners s

/-! ## Trees of nodes -/

/-- Some owners own the trees of these nodes. -/
inductive Forest (s : Store N) : List Ptr → List Addr → Prop
  | nil : Forest s [] []
  | null {queue : List Ptr} {F : List Addr} : Forest s queue F → Forest s (none :: queue) F
  | node {a : Addr} {n : N} {queue : List Ptr} {F G : List Addr} : s.cell a = some n →
    Forest s (links n) F → Forest s queue G → Forest s (some a :: queue) (a :: (F ++ G))

/-- These nodes have been destroyed, and nothing else has changed. -/
structure Freed (s : Store N) (F : List Addr) (s' : Store N) : Prop where
  root : s'.root = s.root
  gone : ∀ a ∈ F, s'.cell a = none
  kept : ∀ a ∉ F, s'.cell a = s.cell a

/-- All that a node owned has been moved out of it. -/
structure Visited (s : Store N) (a : Addr) (s' : Store N) : Prop where
  root : s'.root = s.root
  bare : ∃ n, s'.cell a = some n ∧ ∀ p ∈ links n, p = none
  kept : ∀ b ≠ a, s'.cell b = s.cell b

section Trees

variable {s s' s'' : Store N} {a : Addr} {queue queue' : List Ptr} {F G : List Addr}

theorem Forest.append (forest : Forest s queue F) (forest' : Forest s queue' G) :
    Forest s (queue ++ queue') (F ++ G) := by
  induction forest with
  | nil => exact forest'
  | null _ ih => exact .null ih
  | node stored below _ _ ih =>
    rw [List.cons_append, List.cons_append, List.append_assoc]
    exact .node stored below ih

/-- Only the nodes of the trees matter. -/
theorem Forest.congr (forest : Forest s queue F) (same : ∀ a ∈ F, s'.cell a = s.cell a) :
    Forest s' queue F := by
  induction forest with
  | nil => exact .nil
  | null _ ih => exact .null (ih same)
  | node stored _ _ ihBelow ih =>
    rcases List.forall_mem_cons.mp same with ⟨here, others⟩
    rcases List.forall_mem_append.mp others with ⟨below, after⟩
    exact .node (here.trans stored) (ihBelow below) (ih after)

/-- Only null owns no nodes. -/
theorem Forest.eq_nil_iff (forest : Forest s queue F) : F = [] ↔ ∀ p ∈ queue, p = none := by
  induction forest with
  | nil => simp
  | null _ ih => simpa using ih
  | node stored below rest => simp

/-- The order of the owners does not matter. -/
theorem Forest.perm (forest : Forest s queue F) (same : queue.Perm queue') :
    ∃ G, Forest s queue' G ∧ F.Perm G := by
  induction same generalizing F with
  | nil => exact ⟨F, forest, .refl F⟩
  | cons p _ ih =>
    cases forest with
    | null rest =>
      rcases ih rest with ⟨G, rest', same⟩
      exact ⟨G, .null rest', same⟩
    | node stored below rest =>
      rcases ih rest with ⟨G, rest', same⟩
      exact ⟨_, .node stored below rest', (same.append_left _).cons _⟩
  | swap p q queue =>
    cases forest with
    | null rest =>
      cases rest with
      | null rest => exact ⟨F, .null (.null rest), .refl F⟩
      | node stored below rest => exact ⟨_, .node stored below (.null rest), .refl _⟩
    | node stored below rest =>
      cases rest with
      | null rest => exact ⟨_, .null (.node stored below rest), .refl _⟩
      | node stored' below' rest =>
        refine ⟨_, .node stored' below' (.node stored below rest), ?_⟩
        simp only [← List.cons_append, ← List.append_assoc]
        exact List.perm_append_comm.append_right _
  | trans _ _ ihFirst ihSecond =>
    rcases ihFirst forest with ⟨G, between, same⟩
    rcases ihSecond between with ⟨H, forest', same'⟩
    exact ⟨H, forest', same.trans same'⟩

theorem Freed.refl (s : Store N) : Freed s [] s :=
  ⟨rfl, List.forall_mem_nil _, fun _ _ => rfl⟩

theorem Freed.trans (first : Freed s F s') (second : Freed s' G s'') : Freed s (F ++ G) s'' where
  root := second.root.trans first.root
  gone a member := by
    by_cases later : a ∈ G
    · exact second.gone a later
    · rw [second.kept a later]
      exact first.gone a ((List.mem_append.mp member).resolve_right later)
  kept a member := by
    rw [List.mem_append, not_or] at member
    exact (second.kept a member.2).trans (first.kept a member.1)

/-- The order of the nodes does not matter. -/
theorem Freed.congr (freed : Freed s F s') (same : ∀ a, a ∈ G ↔ a ∈ F) : Freed s G s' where
  root := freed.root
  gone a member := freed.gone a ((same a).mp member)
  kept a member := freed.kept a (mt (same a).mpr member)

/-- What is left is determined. -/
theorem Freed.unique (freed : Freed s F s') (freed' : Freed s F s'') : s' = s'' := by
  have root : s'.root = s''.root := freed.root.trans freed'.root.symm
  have heap : s'.heap = s''.heap := by
    refine Finmap.ext_lookup fun a => ?_
    by_cases member : a ∈ F
    · exact (freed.gone a member).trans (freed'.gone a member).symm
    · exact (freed.kept a member).trans (freed'.kept a member).symm
  cases s'
  cases s''
  cases root
  cases heap
  rfl

theorem freed_free (s : Store N) (a : Addr) : Freed s [a] (s.free a) where
  root := rfl
  gone b member := by
    rw [List.mem_singleton.mp member]
    exact cell_free_self
  kept b other := cell_free_ne (List.ne_of_not_mem_cons other)

theorem Visited.free (visited : Visited s a s') : Freed s [a] (s'.free a) where
  root := visited.root
  gone b member := by
    rw [List.mem_singleton.mp member]
    exact cell_free_self
  kept b other :=
    (cell_free_ne (List.ne_of_not_mem_cons other)).trans
      (visited.kept b (List.ne_of_not_mem_cons other))

end Trees

/-! ## One node -/

section Nodes

variable {s : Store N} {a : Addr} {n : N}

theorem moveLinks_spec (names : List K) (distinct : names.Nodup) (stored : s.cell a = some n) :
    ∃ s' n', moveLinks a names s = some (names.filterMap (link · n), s') ∧ s'.root = s.root ∧
      s'.cell a = some n' ∧ (∀ b ≠ a, s'.cell b = s.cell b) ∧
      (∀ k ∈ names, ∀ p, link k n' = some p → p = none) ∧ ∀ k ∉ names, link k n' = link k n := by
  induction names generalizing s n with
  | nil => exact ⟨s, n, rfl, rfl, stored, fun _ _ => rfl, List.forall_mem_nil _, fun _ _ => rfl⟩
  | cons k names ih =>
    rcases List.nodup_cons.mp distinct with ⟨notMem, distinct⟩
    cases has : link k n with
    | none =>
      rcases ih distinct stored with ⟨s', n', moved, root, stored', kept, nulls, others⟩
      refine ⟨s', n', ?_, root, stored', kept, ?_, ?_⟩
      · have skipped : (k :: names).filterMap (link · n) = names.filterMap (link · n) :=
          List.filterMap_cons_none has
        rw [skipped, moveLinks, stored]
        simp only [Option.bind_eq_bind, Option.bind_some, has]
        exact moved
      · refine List.forall_mem_cons.mpr ⟨fun p isLink => ?_, nulls⟩
        rw [others k notMem, has] at isLink
        cases isLink
      · exact fun l other => others l (List.not_mem_of_not_mem_cons other)
    | some q =>
      rcases ih distinct (s := s.write a (setLink k none n)) cell_write_self with
        ⟨s', n', moved, root, stored', kept, nulls, others⟩
      have same : names.filterMap (link · (setLink k none n)) = names.filterMap (link · n) :=
        List.filterMap_congr fun l member =>
          Linked.link_setLink_ne fun eq => notMem (eq ▸ member)
      refine ⟨s', n', ?_, root, stored', ?_, ?_, ?_⟩
      · have taken : (k :: names).filterMap (link · n) = q :: names.filterMap (link · n) :=
          List.filterMap_cons_some has
        rw [taken, moveLinks, stored]
        simp only [Option.bind_eq_bind, Option.bind_some, has, move_field stored has, moved, same]
        rfl
      · exact fun b other => (kept b other).trans (cell_write_ne other)
      · refine List.forall_mem_cons.mpr ⟨fun p isLink => ?_, nulls⟩
        rw [others k notMem, Linked.link_setLink has] at isLink
        exact (Option.some.inj isLink).symm
      · intro l other
        rw [others l (List.not_mem_of_not_mem_cons other),
          Linked.link_setLink_ne (List.ne_of_not_mem_cons other)]

variable (distinct : (Linked.names N).Nodup)

include distinct

theorem visit_spec (stored : s.cell a = some n) :
    ∃ s', s.visit a = some (links n, s') ∧ Visited s a s' := by
  rcases moveLinks_spec _ distinct stored with ⟨s', n', moved, root, stored', kept, nulls, -⟩
  refine ⟨s', ?_, root, ⟨n', stored', fun p member => ?_⟩, kept⟩
  · rw [visit, stored]
    exact moved
  · rcases List.mem_filterMap.mp member with ⟨k, isName, has⟩
    exact nulls k isName p has

omit distinct in
theorem dtorLoop_nulls {delete : Addr → Store N → Option (Store N)} {queue : List Ptr}
    (nulls : ∀ p ∈ queue, p = none) {fuel : Nat} (enough : queue.length ≤ fuel) :
    dtorLoop delete fuel queue s = some s := by
  induction queue generalizing fuel with
  | nil =>
    cases fuel with
    | zero => rfl
    | succ fuel => rfl
  | cons p queue ih =>
    rcases List.forall_mem_cons.mp nulls with ⟨rfl, others⟩
    cases fuel with
    | zero => cases enough
    | succ fuel => exact ih others (Nat.le_of_succ_le_succ enough)

omit distinct in
theorem length_links_le (n : N) : (links n).length ≤ (Linked.names N).length :=
  List.length_filterMap_le _ _

/-- A node that owns nothing is deleted with one call of the destructor. -/
theorem delete_bare (stored : s.cell a = some n) (bare : ∀ p ∈ links n, p = none) {fuel : Nat}
    (enough : (Linked.names N).length ≤ fuel) (depth : Nat) :
    ∃ s', delete fuel (depth + 1) a s = some s' ∧ Freed s [a] s' := by
  rcases visit_spec distinct stored with ⟨s', visits, visited⟩
  refine ⟨s'.free a, ?_, visited.free⟩
  rw [delete, dtor, visits]
  simp only [Option.bind_eq_bind, Option.bind_some]
  rw [dtorLoop_nulls bare ((length_links_le n).trans enough)]
  rfl

omit distinct in
/-- A loop whose deletions fail comes to no end where there is a node in the queue. -/
theorem dtorLoop_fails {queue : List Ptr} {b : Addr} (member : some b ∈ queue) (fuel : Nat) :
    dtorLoop (fun _ _ => none) fuel queue s = none := by
  induction queue generalizing fuel with
  | nil => cases member
  | cons p queue ih =>
    cases fuel with
    | zero => rfl
    | succ fuel =>
      cases p with
      | none => exact ih ((List.mem_cons.mp member).resolve_left nofun) fuel
      | some a =>
        rw [dtorLoop]
        cases s.visit a with
        | none => rfl
        | some visited => rfl

/-- A node that owns another needs a second call below the first. -/
theorem delete_one_iff (stored : s.cell a = some n) {fuel : Nat}
    (enough : (Linked.names N).length ≤ fuel) :
    (∃ s', delete fuel 1 a s = some s') ↔ ∀ p ∈ links n, p = none := by
  constructor
  · rintro ⟨s', deleted⟩ p member
    cases p with
    | none => rfl
    | some b =>
      rcases visit_spec distinct stored with ⟨s₁, visits, -⟩
      rw [delete, dtor, visits] at deleted
      simp only [Option.bind_eq_bind, Option.bind_some, dtor, Option.map_none,
        dtorLoop_fails member] at deleted
      cases deleted
  · intro bare
    rcases delete_bare distinct stored bare enough 0 with ⟨s', deleted, -⟩
    exact ⟨s', deleted⟩

end Nodes

/-! ## All nodes -/

section Forests

variable {s : Store N} {a : Addr} {n : N} {queue : List Ptr} {F : List Addr}
  (distinct : (Linked.names N).Nodup)

include distinct

/-- The loop destroys the trees in its queue, where the nodes it deletes are bare. -/
theorem dtorLoop_forest {delete : Addr → Store N → Option (Store N)}
    (deletes : ∀ s a n, s.cell a = some n → (∀ p ∈ links n, p = none) →
      ∃ s', delete a s = some s' ∧ Freed s [a] s')
    (forest : Forest s queue F) (apart : F.Nodup) {fuel : Nat}
    (enough : queue.length + (Linked.names N).length * F.length ≤ fuel) :
    ∃ s', dtorLoop delete fuel queue s = some s' ∧ Freed s F s' := by
  induction fuel generalizing s queue F with
  | zero =>
    cases forest with
    | nil => exact ⟨s, rfl, .refl s⟩
    | null rest => exact absurd enough (by simp)
    | node stored below rest => exact absurd enough (by simp)
  | succ fuel ih =>
    cases forest with
    | nil => exact ⟨s, rfl, .refl s⟩
    | null rest =>
      refine ih rest apart ?_
      rw [List.length_cons] at enough
      omega
    | @node a n queue F G stored below rest =>
      rcases List.nodup_cons.mp apart with ⟨notMem, apart⟩
      rcases visit_spec distinct stored with ⟨s₁, visits, visited⟩
      rcases visited.bare with ⟨n', stored', bare⟩
      rcases deletes s₁ a n' stored' bare with ⟨s₂, deleted, freed⟩
      -- what waits in the queue is not touched by the visit and the deletion
      have first : Freed s [a] s₂ :=
        ⟨freed.root.trans visited.root, freed.gone, fun b other =>
          (freed.kept b other).trans (visited.kept b (List.ne_of_not_mem_cons other))⟩
      have same : ∀ b ∈ F ++ G, s₂.cell b = s.cell b := fun b member =>
        first.kept b fun eq => notMem (List.mem_singleton.mp eq ▸ member)
      have waiting : Forest s₂ (queue ++ links n) (G ++ F) :=
        ((rest.append below).congr fun b member =>
          same b (List.perm_append_comm.mem_iff.mp member))
      have shorter : (queue ++ links n).length + (Linked.names N).length * (G ++ F).length ≤
          fuel := by
        have := length_links_le n
        simp only [List.length_append, List.length_cons, Nat.mul_add, Nat.mul_one] at enough ⊢
        omega
      rcases ih waiting (List.perm_append_comm.nodup_iff.mp apart) shorter with
        ⟨s₃, loops, others⟩
      refine ⟨s₃, ?_, (first.trans others).congr fun b => ?_⟩
      · rw [dtorLoop, visits]
        simp only [Option.bind_eq_bind, Option.bind_some, deleted]
        exact loops
      · rw [List.singleton_append, List.mem_cons, List.mem_cons,
          List.perm_append_comm.mem_iff]

/-- Two calls of the destructor below each other are enough for every tree. -/
theorem delete_tree (forest : Forest s [some a] F) (apart : F.Nodup) {fuel : Nat}
    (enough : (Linked.names N).length * (F.length + 1) ≤ fuel) (depth : Nat) :
    ∃ s', delete fuel (depth + 2) a s = some s' ∧ Freed s F s' := by
  cases forest with
  | @node _ n _ F G stored below rest =>
    cases rest
    rw [List.append_nil] at apart enough ⊢
    rcases List.nodup_cons.mp apart with ⟨notMem, apart⟩
    rcases visit_spec distinct stored with ⟨s₁, visits, visited⟩
    have width : (Linked.names N).length ≤ fuel :=
      (Nat.le_mul_of_pos_right _ (Nat.succ_pos _)).trans enough
    have kept : Forest s₁ (links n) F := below.congr fun b member =>
      visited.kept b fun eq => notMem (eq ▸ member)
    have turns : (links n).length + (Linked.names N).length * F.length ≤ fuel := by
      have := length_links_le n
      simp only [List.length_cons, Nat.mul_add, Nat.mul_one] at enough
      omega
    rcases dtorLoop_forest distinct (fun s a n stored bare =>
      delete_bare distinct stored bare width depth) kept apart turns with ⟨s₂, loops, freed⟩
    refine ⟨s₂.free a, ?_, freed.root.trans visited.root, ?_, fun b other => ?_⟩
    · rw [delete, dtor, visits]
      simp only [Option.bind_eq_bind, Option.bind_some]
      exact congrArg (Option.map _) loops
    · refine List.forall_mem_cons.mpr ⟨cell_free_self, fun b member => ?_⟩
      have ne : b ≠ a := fun eq => notMem (eq ▸ member)
      rw [cell_free_ne ne, freed.gone b member]
    · rw [List.mem_cons, not_or] at other
      rw [cell_free_ne other.1, freed.kept b other.2, visited.kept b other.1]

/-- One call is enough exactly for a single node. -/
theorem delete_one_iff_single (forest : Forest s [some a] F) {fuel : Nat}
    (enough : (Linked.names N).length ≤ fuel) :
    (∃ s', delete fuel 1 a s = some s') ↔ F = [a] := by
  cases forest with
  | node stored below rest =>
    cases rest
    refine (delete_one_iff distinct stored enough).trans (below.eq_nil_iff.symm.trans ?_)
    simp

/-- Owners that go out of scope destroy all their trees. -/
theorem deleteAll_forest (forest : Forest s queue F) (apart : F.Nodup) {fuel : Nat}
    (enough : (Linked.names N).length * (F.length + 1) ≤ fuel) (depth : Nat) :
    ∃ s', deleteAll fuel (depth + 2) queue s = some s' ∧ Freed s F s' := by
  induction queue generalizing s F with
  | nil =>
    cases forest
    exact ⟨s, rfl, .refl s⟩
  | cons p queue ih =>
    cases forest with
    | null rest => exact ih rest apart enough
    | @node a n _ F G stored below rest =>
      rw [← List.cons_append] at apart
      rcases List.nodup_append'.mp apart with ⟨apartTree, apartRest, disjoint⟩
      have tree : Forest s [some a] (a :: F) := by
        have lone := Forest.node stored below .nil
        rwa [List.append_nil] at lone
      have longer : (a :: F).length ≤ (a :: (F ++ G)).length ∧
          G.length ≤ (a :: (F ++ G)).length := by
        simp only [List.length_cons, List.length_append]
        omega
      rcases delete_tree distinct tree apartTree
        ((Nat.mul_le_mul_left _ (Nat.succ_le_succ longer.1)).trans enough) depth with
        ⟨s₁, deleted, freed⟩
      have waiting : Forest s₁ queue G := rest.congr fun b member =>
        freed.kept b fun inTree => disjoint inTree member
      rcases ih waiting apartRest
        ((Nat.mul_le_mul_left _ (Nat.succ_le_succ longer.2)).trans enough) with
        ⟨s₂, others, freedOthers⟩
      refine ⟨s₂, ?_, freed.trans freedOthers⟩
      rw [deleteAll, deleted]
      exact others

/-- `destroy` is such a loop, where the nodes are just freed. -/
theorem destroy_eq_dtorLoop (fuel : Nat) (queue : List Ptr) (s : Store N) :
    destroy fuel queue s = dtorLoop (fun a s => some (s.free a)) fuel queue s := by
  induction fuel generalizing queue s with
  | zero =>
    cases queue with
    | nil => rfl
    | cons p queue => rfl
  | succ fuel ih =>
    cases queue with
    | nil => rfl
    | cons p queue =>
      cases p with
      | none => exact ih queue s
      | some a =>
        cases stored : s.cell a with
        | none =>
          rw [destroy, dtorLoop, visit, stored]
          rfl
        | some n =>
          rcases visit_spec distinct stored with ⟨s₁, visits, visited⟩
          have same : s₁.free a = s.free a := visited.free.unique (freed_free s a)
          rw [destroy, dtorLoop, stored, visits]
          simp only [Option.bind_eq_bind, Option.bind_some, same]
          exact ih _ _

/-- What the destructors of a tree do is what `destroy` says. -/
theorem delete_eq_destroy (forest : Forest s [some a] F) (apart : F.Nodup) {fuel : Nat}
    (enough : (Linked.names N).length * (F.length + 1) + 1 ≤ fuel) (depth : Nat) :
    delete fuel (depth + 2) a s = destroy fuel [some a] s := by
  rcases delete_tree distinct forest apart ((Nat.le_succ _).trans enough) depth with
    ⟨s', deleted, freed⟩
  have turns : [some a].length + (Linked.names N).length * F.length ≤ fuel := by
    rw [Nat.mul_add] at enough
    rw [List.length_singleton]
    omega
  rcases dtorLoop_forest distinct (fun s a _ _ _ => ⟨_, rfl, freed_free s a⟩) forest apart turns
    with ⟨s'', looped, freed'⟩
  rw [deleted, destroy_eq_dtorLoop distinct, looped, freed.unique freed']

end Forests

end Lambcalc.Lib.Store
