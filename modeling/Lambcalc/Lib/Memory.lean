import Mathlib.Data.Finmap
import Mathlib.Data.Fintype.EquivFin
import Mathlib.Data.Nat.Find
import Mathlib.Tactic.Common

/-!
# Nodes that own one another

A store holds nodes at addresses and one variable, the root. A link is the root or a field of a
node, and owns the node it points to: overwriting a link destroys what it owned. `Replaced` says
how a piece of code that works below one link changes the store: the link gets a new value, the
cells below it become others, and everything else stays.
-/

namespace Lambcalc.Lib

abbrev Addr := Nat

/-- A link's value: null, or the node it owns. -/
abbrev Ptr := Option Addr

/-- Nodes `N` whose links are in fields named by `K`. -/
class Linked (N : Type) (K : outParam Type) where
  /-- The value of a field, where the node has it. -/
  link : K → N → Option Ptr
  setLink : K → Ptr → N → N
  names : List K
  link_setLink : ∀ {k p q n}, link k n = some q → link k (setLink k p n) = some p
  link_setLink_ne : ∀ {k l p n}, l ≠ k → link l (setLink k p n) = link l n
  setLink_link : ∀ {k p n}, link k n = some p → setLink k p n = n
  setLink_setLink : ∀ {k p q n}, setLink k q (setLink k p n) = setLink k q n

export Linked (link setLink)

abbrev Heap (N : Type) : Type := Finmap fun _ : Addr => N

/-- Which address a new node gets: one that is not in use. It may have been in use before. -/
structure Allocator (N : Type) where
  pick : Heap N → Addr
  unused : ∀ heap, pick heap ∉ heap

theorem exists_unused {N : Type} (heap : Heap N) : ∃ a, a ∉ heap := by
  rcases Infinite.exists_notMem_finset heap.keys with ⟨a, notMem⟩
  exact ⟨a, mt Finmap.mem_keys.mpr notMem⟩

/-- The least address that is not in use. -/
def Allocator.least (N : Type) : Allocator N where
  pick heap := Nat.find (exists_unused heap)
  unused heap := Nat.find_spec (exists_unused heap)

/-- A link: the variable, or a field of a node. -/
inductive Link (K : Type) where
  | root
  | field (node : Addr) (name : K)
  deriving DecidableEq, Repr

/-- The node a link is part of. -/
def Link.cell {K : Type} : Link K → Option Addr
  | root => none
  | field node _ => some node

/-- A link that is part of none of some nodes. -/
def Link.Outside {K : Type} (L : Link K) (cells : List Addr) : Prop :=
  ∀ a ∈ cells, L.cell ≠ some a

namespace Link.Outside

variable {K : Type} {L : Link K} {a : Addr} {F G : List Addr}

theorem root (outside : L.Outside (a :: F)) : L.Outside [a] := fun _ member =>
  outside _ (List.mem_cons.mpr (.inl (List.mem_singleton.mp member)))

theorem left (outside : L.Outside (a :: (F ++ G))) : L.Outside (a :: F) := fun _ member =>
  outside _ ((List.mem_cons.mp member).elim (fun same => same ▸ List.mem_cons_self)
    fun member => List.mem_cons_of_mem _ (List.mem_append_left _ member))

theorem right (outside : L.Outside (a :: (F ++ G))) : L.Outside (a :: G) := fun _ member =>
  outside _ ((List.mem_cons.mp member).elim (fun same => same ▸ List.mem_cons_self)
    fun member => List.mem_cons_of_mem _ (List.mem_append_right _ member))

/-- The root is part of no node. -/
theorem ofRoot : (Link.root : Link K).Outside F := by
  intro a _ owner
  cases owner

end Link.Outside

/-- The variable and the nodes. -/
structure Store (N : Type) where
  root : Ptr
  heap : Heap N

namespace Store

variable {N K : Type}

def cell (s : Store N) (a : Addr) : Option N := s.heap.lookup a

def write (s : Store N) (a : Addr) (n : N) : Store N := { s with heap := s.heap.insert a n }

def free (s : Store N) (a : Addr) : Store N := { s with heap := s.heap.erase a }

/-- A new node. -/
def make (alloc : Allocator N) (n : N) (s : Store N) : Addr × Store N :=
  (alloc.pick s.heap, s.write (alloc.pick s.heap) n)

section Links

variable [Linked N K]

/-- The value of a link; none if there is no such link. -/
def load (s : Store N) : Link K → Option Ptr
  | .root => some s.root
  | .field a k => (s.cell a).bind (link k)

/-- Overwrite a link that owns nothing. -/
def put (s : Store N) (p : Ptr) : Link K → Option (Store N)
  | .root => some { s with root := p }
  | .field a k => do
    let n ← s.cell a
    let _ ← link k n
    return s.write a (setLink k p n)

/-- Take the value out of a link, which is null then. -/
def move (s : Store N) (L : Link K) : Option (Ptr × Store N) := do
  let p ← s.load L
  let s ← s.put none L
  return (p, s)

/-- Destroy the nodes in a queue and all they own. -/
def destroy : Nat → List Ptr → Store N → Option (Store N)
  | _, [], s => some s
  | 0, _ :: _, _ => none
  | fuel + 1, none :: queue, s => destroy fuel queue s
  | fuel + 1, some a :: queue, s => do
    let n ← s.cell a
    destroy fuel (queue ++ (Linked.names N).filterMap (link · n)) (s.free a)

/-- Overwrite a link and destroy what it owned. -/
def assign (s : Store N) (p : Ptr) (L : Link K) : Option (Store N) := do
  let old ← s.load L
  let s ← s.put p L
  destroy ((Linked.names N).length * s.heap.keys.card + 2) [old] s

end Links

/-! ## Cells -/

section Cells

variable {s : Store N} {a b : Addr} {n : N}

@[simp] theorem cell_write_self : (s.write a n).cell a = some n :=
  Finmap.lookup_insert s.heap

theorem cell_write_ne (ne : b ≠ a) : (s.write a n).cell b = s.cell b :=
  Finmap.lookup_insert_of_ne s.heap ne

@[simp] theorem cell_free_self : (s.free a).cell a = none := Finmap.lookup_erase a s.heap

theorem cell_free_ne (ne : b ≠ a) : (s.free a).cell b = s.cell b := Finmap.lookup_erase_ne ne

@[simp] theorem root_write : (s.write a n).root = s.root := rfl

@[simp] theorem root_free : (s.free a).root = s.root := rfl

variable (alloc : Allocator N)

theorem cell_pick (s : Store N) : s.cell (alloc.pick s.heap) = none :=
  Finmap.lookup_eq_none.mpr (alloc.unused s.heap)

/-- A node in use is not where the next one will be. -/
theorem ne_pick (stored : s.cell a = some n) : a ≠ alloc.pick s.heap := by
  rintro rfl
  rw [cell_pick] at stored
  cases stored

end Cells

/-! ## Links -/

section Loads

variable [Linked N K] {s s' : Store N} {L : Link K} {a : Addr} {k : K} {n : N} {p q : Ptr}

theorem load_field (stored : s.cell a = some n) : s.load (.field a k) = link k n := by
  rw [load, stored, Option.bind_some]

theorem load_field_inv (loaded : s.load (.field a k) = some p) :
    ∃ n, s.cell a = some n ∧ link k n = some p := Option.bind_eq_some_iff.mp loaded

theorem put_field (stored : s.cell a = some n) (has : link k n = some q) :
    s.put p (.field a k) = some (s.write a (setLink k p n)) := by
  simp [put, stored, has]

theorem move_field (stored : s.cell a = some n) (has : link k n = some q) :
    s.move (.field a k) = some (q, s.write a (setLink k none n)) := by
  simp [move, load_field stored, put_field stored has, has]

/-- Destroying a node that owns nothing any more. -/
theorem destroy_bare {fuel : Nat} (stored : s.cell a = some n)
    (bare : ∀ k p, link k n = some p → p = none) (enough : (Linked.names N).length + 1 ≤ fuel) :
    destroy fuel [some a] s = some (s.free a) := by
  have skip : ∀ (queue : List Ptr) (fuel : Nat) (s : Store N), queue.length ≤ fuel →
      (∀ p ∈ queue, p = none) → destroy fuel queue s = some s := by
    intro queue
    induction queue with
    | nil => intro fuel s _ _; cases fuel <;> rfl
    | cons p queue ih =>
      intro fuel s enough none
      cases none p List.mem_cons_self
      cases fuel with
      | zero => exact absurd enough (by simp)
      | succ fuel =>
        exact ih fuel s (Nat.le_of_succ_le_succ enough)
          fun p member => none p (List.mem_cons_of_mem _ member)
  cases fuel with
  | zero => exact absurd enough (by omega)
  | succ fuel =>
    rw [destroy, stored, Option.bind_eq_bind, Option.bind_some]
    refine skip _ fuel _ ?_ ?_
    · have := List.length_filterMap_le (fun k => link k n) (Linked.names N)
      simp only [List.nil_append]
      omega
    · intro p member
      rcases List.mem_filterMap.mp member with ⟨k, -, has⟩
      exact bare k p has

end Loads

/-! ## Code that works below a link -/

section Replaced

variable [Linked N K]

/-- From `s` to `s'` the cells `F` below `L` have become `G`, and the link has become `p`. -/
structure Replaced (s : Store N) (L : Link K) (F : List Addr) (p : Ptr) (G : List Addr)
    (s' : Store N) : Prop where
  root : L ≠ .root → s'.root = s.root
  link_root : L = .root → s'.root = p
  link_field : ∀ b k n, L = .field b k → s.cell b = some n → s'.cell b = some (setLink k p n)
  elsewhere : ∀ a, a ∉ F → a ∉ G → L.cell ≠ some a → s'.cell a = s.cell a
  fresh : ∀ a ∈ G, a ∈ F ∨ s.cell a = none
  freed : ∀ a ∈ F, a ∉ G → s'.cell a = none

namespace Replaced

variable {s s' s'' : Store N} {L : Link K} {F G H : List Addr} {p q : Ptr} {a : Addr} {n : N}

/-- A cell in use that is not among the first ones is not among the second ones. -/
theorem notMem (replaced : Replaced s L F p G s') (stored : s.cell a = some n) (old : a ∉ F) :
    a ∉ G := by
  intro new
  rcases replaced.fresh a new with before | unused
  · exact old before
  · rw [unused] at stored
    cases stored

/-- The frame: a node outside keeps its value. -/
theorem cell_eq (replaced : Replaced s L F p G s') (stored : s.cell a = some n) (outside : a ∉ F)
    (owner : L.cell ≠ some a) : s'.cell a = some n :=
  (replaced.elsewhere a outside (replaced.notMem stored outside) owner).trans stored

/-- The frame: another link outside keeps its value. -/
theorem load_ne (replaced : Replaced s L F p G s') {M : Link K} (ne : M ≠ L)
    (outside : M.Outside F) (loaded : s.load M = some q) : s'.load M = some q := by
  cases M with
  | root =>
    have root : s'.root = s.root := replaced.root ne.symm
    rw [load, root]
    exact loaded
  | field b k =>
    rcases load_field_inv loaded with ⟨n, stored, has⟩
    have old : b ∉ F := fun member => outside b member rfl
    by_cases owner : L.cell = some b
    · cases L with
      | root => cases owner
      | field c l =>
        cases owner
        have other : k ≠ l := by
          rintro rfl
          exact ne rfl
        rw [load_field (replaced.link_field b l n rfl stored), Linked.link_setLink_ne other, has]
    · rw [load_field (replaced.cell_eq stored old owner), has]

/-- The link has the new value. -/
theorem load_self (replaced : Replaced s L F p G s') (loaded : s.load L = some q) :
    s'.load L = some p := by
  cases L with
  | root => exact congrArg some (replaced.link_root rfl)
  | field b k =>
    rcases load_field_inv loaded with ⟨n, stored, has⟩
    rw [load_field (replaced.link_field b k n rfl stored), Linked.link_setLink has]

/-- Nothing has happened yet. -/
theorem refl (F : List Addr) (loaded : s.load L = some q) : Replaced s L F q F s where
  root _ := rfl
  link_root same := by
    subst same
    exact Option.some.inj loaded
  link_field b k n same stored := by
    subst same
    rw [load_field stored] at loaded
    rw [stored, Linked.setLink_link loaded]
  elsewhere _ _ _ _ := rfl
  fresh _ member := .inl member
  freed _ member new := (new member).elim

/-- Cells that stay as they are may be counted among those below the link. -/
theorem frame (R : List Addr) (replaced : Replaced s L F p G s') :
    Replaced s L (F ++ R) p (G ++ R) s' where
  root := replaced.root
  link_root := replaced.link_root
  link_field := replaced.link_field
  elsewhere a old new := replaced.elsewhere a (fun member => old (List.mem_append_left _ member))
    fun member => new (List.mem_append_left _ member)
  fresh a member := by
    rcases List.mem_append.mp member with member | member
    · exact (replaced.fresh a member).imp_left (List.mem_append_left _)
    · exact .inl (List.mem_append_right _ member)
  freed a member new := by
    rcases List.mem_append.mp member with member | member
    · exact replaced.freed a member fun member => new (List.mem_append_left _ member)
    · exact (new (List.mem_append_right _ member)).elim

/-- The order of the cells does not matter. -/
theorem congr {F' G' : List Addr} (replaced : Replaced s L F p G s')
    (old : ∀ a, a ∈ F' ↔ a ∈ F) (new : ∀ a, a ∈ G' ↔ a ∈ G) : Replaced s L F' p G' s' where
  root := replaced.root
  link_root := replaced.link_root
  link_field := replaced.link_field
  elsewhere a before after := replaced.elsewhere a (mt (old a).mpr before) (mt (new a).mpr after)
  fresh a member := (replaced.fresh a ((new a).mp member)).imp_left (old a).mpr
  freed a member after := replaced.freed a ((old a).mp member) (mt (new a).mpr after)

/-- One piece of code after the other. -/
theorem trans (first : Replaced s L F p G s') (second : Replaced s' L G q H s'')
    (outside : L.Outside F) : Replaced s L F q H s'' where
  root ne := (second.root ne).trans (first.root ne)
  link_root := second.link_root
  link_field b k n same stored := by
    rw [second.link_field b k _ same (first.link_field b k n same stored),
      Linked.setLink_setLink]
  elsewhere a old new owner := by
    by_cases between : a ∈ G
    · have unused : s.cell a = none := (first.fresh a between).resolve_left old
      rw [unused, second.freed a between new]
    · rw [second.elsewhere a between new owner, first.elsewhere a old between owner]
  fresh a member := by
    by_cases old : a ∈ F
    · exact .inl old
    · right
      rcases second.fresh a member with between | unused
      · exact (first.fresh a between).resolve_left old
      · cases stored : s.cell a with
        | none => rfl
        | some n =>
          cases L with
          | root =>
            have kept := first.cell_eq stored old (by simp [Link.cell])
            cases kept.symm.trans unused
          | field b k =>
            by_cases owner : b = a
            · subst owner
              cases (first.link_field b k n rfl stored).symm.trans unused
            · have kept := first.cell_eq stored old (by simpa [Link.cell] using owner)
              cases kept.symm.trans unused
  freed a member new := by
    by_cases between : a ∈ G
    · exact second.freed a between new
    · rw [second.elsewhere a between new (outside a member), first.freed a member between]

/-- Code that works below a field of a node works below the link that owns the node. -/
theorem nest {k : K} (replaced : Replaced s (.field a k) F p G s') (loaded : s.load L = some q)
    (outside : L.Outside (a :: F)) : Replaced s L (a :: F) q (a :: G) s' where
  root _ := replaced.root nofun
  link_root same := by
    subst same
    exact (replaced.root nofun).trans (Option.some.inj loaded)
  link_field b l n same stored := by
    subst same
    have ne : b ≠ a := fun eq => outside a List.mem_cons_self (congrArg some eq)
    have old : b ∉ F := fun member => outside b (List.mem_cons_of_mem _ member) rfl
    rw [load_field stored] at loaded
    rw [Linked.setLink_link loaded]
    exact replaced.cell_eq stored old (by simpa [Link.cell] using ne.symm)
  elsewhere b old new _ := by
    rw [List.mem_cons, not_or] at old new
    exact replaced.elsewhere b old.2 new.2 (by simpa [Link.cell] using Ne.symm old.1)
  fresh b member := by
    rcases List.mem_cons.mp member with rfl | member
    · exact .inl List.mem_cons_self
    · exact (replaced.fresh b member).imp_left (List.mem_cons_of_mem _)
  freed b member new := by
    rw [List.mem_cons, not_or] at new
    rcases List.mem_cons.mp member with rfl | member
    · exact (new.1 rfl).elim
    · exact replaced.freed b member new.2

/-- A link outside of the first cells is outside of the second ones. -/
theorem outside (replaced : Replaced s L F p G s') {M : Link K} (loaded : s.load M = some q)
    (old : M.Outside F) : M.Outside G := by
  intro a new owner
  cases M with
  | root => cases owner
  | field b k =>
    cases owner
    rcases load_field_inv loaded with ⟨n, stored, -⟩
    exact replaced.notMem stored (fun member => old _ member rfl) new

/-- Code that works below two fields of a node, one after the other. -/
theorem nest_both {k l : K} {F' G' : List Addr} {p' : Ptr}
    (first : Replaced s (.field a k) F p G s') (second : Replaced s' (.field a l) F' p' G' s'')
    (loaded : s.load L = some q) (outside : L.Outside (a :: (F' ++ F))) :
    Replaced s L (a :: (F' ++ F)) q (a :: (G' ++ G)) s'' := by
  have here := first.nest loaded outside.right
  have there := second.nest (here.load_self loaded) outside.left
  have swap (F G : List Addr) (b : Addr) : b ∈ a :: (F ++ G) ↔ b ∈ a :: G ++ F := by
    simp only [List.mem_append, List.mem_cons]
    tauto
  have start : Replaced s L (a :: (F' ++ F)) q (a :: (F' ++ G)) s' :=
    (here.frame F').congr (swap F' F) (swap F' G)
  exact start.trans (there.frame G) outside

/-- Writing to one of the cells. -/
theorem write (n : N) (loaded : s.load L = some q) (outside : L.Outside [a]) :
    Replaced s L [a] q [a] (s.write a n) where
  root _ := rfl
  link_root same := by
    subst same
    exact Option.some.inj loaded
  link_field b k m same stored := by
    subst same
    have ne : b ≠ a := fun eq => outside a List.mem_cons_self (congrArg some eq)
    rw [load_field stored] at loaded
    rw [cell_write_ne ne, Linked.setLink_link loaded, stored]
  elsewhere b old _ _ := cell_write_ne (List.ne_of_not_mem_cons old)
  fresh _ member := .inl member
  freed _ member new := (new member).elim

/-- A new node. -/
theorem make (alloc : Allocator N) (n : N) (loaded : s.load L = some q) :
    Replaced s L [] q [(s.make alloc n).1] (s.make alloc n).2 where
  root _ := rfl
  link_root same := by
    subst same
    exact Option.some.inj loaded
  link_field b k m same stored := by
    subst same
    rw [load_field stored] at loaded
    rw [Linked.setLink_link loaded]
    exact (cell_write_ne (ne_pick alloc stored)).trans stored
  elsewhere b _ new _ := cell_write_ne (List.ne_of_not_mem_cons new)
  fresh b member := by
    rw [List.mem_singleton] at member
    subst member
    exact .inr (cell_pick alloc s)
  freed _ member := (List.not_mem_nil member).elim

/-- Writing to the root. -/
theorem putRoot (p : Ptr) : Replaced s (.root : Link K) [] p [] { s with root := p } where
  root ne := (ne rfl).elim
  link_root _ := rfl
  link_field _ _ _ same := by cases same
  elsewhere _ _ _ _ := rfl
  fresh _ member := (List.not_mem_nil member).elim
  freed _ member := (List.not_mem_nil member).elim

/-- Writing to the link. -/
theorem put (p : Ptr) (loaded : s.load L = some q) :
    ∃ s', s.put p L = some s' ∧ Replaced s L [] p [] s' := by
  cases L with
  | root => exact ⟨{ s with root := p }, rfl, putRoot p⟩
  | field b k =>
    rcases load_field_inv loaded with ⟨n, stored, has⟩
    refine ⟨_, put_field stored has, fun _ => rfl, nofun, ?_, ?_, ?_, ?_⟩
    · intro c l m same stored'
      cases same
      cases stored.symm.trans stored'
      exact cell_write_self
    · intro a _ _ owner
      exact cell_write_ne fun eq => owner (congrArg some eq.symm)
    · intro a member
      exact (List.not_mem_nil member).elim
    · intro a member
      exact (List.not_mem_nil member).elim

/-- A node is destroyed. -/
theorem free (loaded : s.load L = some q) (outside : L.Outside [a]) :
    Replaced s L [a] q [] (s.free a) where
  root _ := rfl
  link_root same := by
    subst same
    exact Option.some.inj loaded
  link_field b k m same stored := by
    subst same
    have ne : b ≠ a := fun eq => outside a List.mem_cons_self (congrArg some eq)
    rw [load_field stored] at loaded
    rw [cell_free_ne ne, Linked.setLink_link loaded, stored]
  elsewhere b old _ _ := cell_free_ne (List.ne_of_not_mem_cons old)
  fresh _ member := (List.not_mem_nil member).elim
  freed b member _ := by
    rw [List.mem_singleton] at member
    subst member
    exact cell_free_self

/-- Overwriting the link when it owns a node that owns nothing any more. -/
theorem assign (p : Ptr) (loaded : s.load L = some (some a)) (outside : L.Outside [a])
    (stored : s.cell a = some n) (bare : ∀ k p, link k n = some p → p = none) :
    ∃ s', s.assign p L = some s' ∧ Replaced s L [a] p [] s' := by
  rcases put p loaded with ⟨s₁, written, replaced⟩
  have kept : s₁.cell a = some n :=
    replaced.cell_eq stored List.not_mem_nil (outside a List.mem_cons_self)
  have member : a ∈ s₁.heap.keys := Finmap.mem_keys.mpr (Finmap.mem_of_lookup_eq_some kept)
  have positive : 0 < s₁.heap.keys.card := Finset.card_pos.mpr ⟨a, member⟩
  have enough : (Linked.names N).length + 1 ≤
      (Linked.names N).length * s₁.heap.keys.card + 2 := by
    have := Nat.le_mul_of_pos_right (Linked.names N).length positive
    omega
  refine ⟨s₁.free a, ?_, ?_⟩
  · simp only [Store.assign, loaded, written, Option.bind_eq_bind, Option.bind_some]
    exact destroy_bare kept bare enough
  · exact (replaced.frame [a]).trans (free (replaced.load_self loaded) outside) outside

end Replaced

end Replaced

end Store

/-! ## Where a tree lies -/

/-- The addresses of the nodes of a tree. -/
inductive Layout where
  | leaf (addr : Addr)
  | unary (addr : Addr) (child : Layout)
  | binary (addr : Addr) (left right : Layout)
  deriving DecidableEq, Repr

namespace Layout

/-- The address of the root node. -/
def addr : Layout → Addr
  | leaf a => a
  | unary a _ => a
  | binary a _ _ => a

@[simp] theorem addr_leaf (a : Addr) : (leaf a).addr = a := rfl

@[simp] theorem addr_unary (a : Addr) (child : Layout) : (unary a child).addr = a := rfl

@[simp] theorem addr_binary (a : Addr) (left right : Layout) : (binary a left right).addr = a :=
  rfl

/-- The addresses, the root node's first. -/
def cells : Layout → List Addr
  | leaf a => [a]
  | unary a child => a :: child.cells
  | binary a left right => a :: (left.cells ++ right.cells)

end Layout

end Lambcalc.Lib
