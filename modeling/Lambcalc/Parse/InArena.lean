import Lambcalc.Arena.Runs
import Lambcalc.Lib.Limited
import Lambcalc.Parse.Lexer

/-!
# The parser in an arena

`Parser<raw_ptr, arena::TypedAllocator<ast::Exp<raw_ptr>>>` of `src/parser.cpp`, the instance that
`main` uses: each node is allocated in the arena, which throws when it is full. Beside the parser
that returns trees, this one returns the address of a tree in memory.
-/

namespace Lambcalc

/-- The number of nodes. -/
def Ast.Exp.size : Ast.Exp → Nat
  | .intExp _ => 1
  | .varExp _ => 1
  | .lamExp _ body => body.size + 1
  | .appExp fn arg => fn.size + arg.size + 1
  | .bopExp _ arg1 arg2 => arg1.size + arg2.size + 1
  | .ifExp cond then_ els => cond.size + then_.size + els.size + 1

namespace Parse

open Ast Lib Arena
open Lib.Computation (aside)

/-! ## Memory -/

/-- `ast::Exp<raw_ptr>`: one node. -/
inductive Node where
  | intExp (value : Int)
  | varExp (name : String)
  | lamExp (param : String) (body : Address)
  | appExp (fn arg : Address)
  | bopExp (bop : Bop) (arg1 arg2 : Address)
  | ifExp (cond then_ els : Address)
  deriving DecidableEq

/-- The arena, and the nodes that have been constructed in it since the last `reset`. -/
structure Memory where
  state : Arena.State
  cells : Address → Option Node

namespace Memory

/-- The arena over a new buffer. -/
def start (buffer : Buffer) : Memory := ⟨.start buffer, fun _ => none⟩

/-- `reset`. No pointer into the arena is used after it. -/
def reset (m : Memory) : Memory := ⟨⟨m.state.arena.reset, []⟩, fun _ => none⟩

/-- A memory in which a node has been constructed at `ptr`. -/
def construct (m : Memory) (T : ElementType) (ptr : Address) (arena : Allocator) (exp : Node) :
    Memory :=
  ⟨⟨arena, ⟨T, 1, ptr⟩ :: m.state.blocks⟩, Function.update m.cells ptr (some exp)⟩

end Memory

@[simp] theorem Memory.construct_cells (m : Memory) (T : ElementType) (ptr : Address)
    (arena : Allocator) (exp : Node) :
    (m.construct T ptr arena exp).cells = Function.update m.cells ptr (some exp) := rfl

/-- Computations of a parser in an arena. -/
abbrev ArenaM (L : Type) : Type → Type := Computation (Parser L × Memory) (Failure ⊕ Arena.Failure)

namespace InArena

section Parser

-- `T` is `ast::Exp<raw_ptr>`
variable {L : Type} [Lexer L] (T : ElementType)

/-- What `make` goes on with after the call of `allocate`. -/
def placed (s : Parser L) (m : Memory) (exp : Node) :
    EStateM.Result Arena.Failure Allocator Address →
      Outcome (Parser L × Memory) (Failure ⊕ Arena.Failure) Address
  | .ok ptr arena => .returned ptr (s, m.construct T ptr arena exp)
  | .error e arena => .failed (.inr e) (s, { m with state := { m.state with arena := arena } })

/-- `make`. -/
def make (exp : Node) : ArenaM L Address := fun (s, m) =>
  placed T s m exp (Allocator.allocate T 1 m.state.arena)

variable {T} in
omit [Lexer L] in
/-- One call of `make`. -/
theorem make_eq {m : Memory} (valid : m.state.arena.Valid) (exp : Node) (s : Parser L) :
    make T exp (s, m) = if m.state.arena.needed T 2 ≤ m.state.arena.room then
        .returned (Arena.next m.state.arena T 1).ptr (s, m.construct T
          (Arena.next m.state.arena T 1).ptr (m.state.arena.take (m.state.arena.needed T 1)) exp)
      else .failed (.inr .badAlloc) (s, m) := by
  have one : Allocator.allocate T 1 m.state.arena =
      Allocator.allocate T ((1 : Nat) : Int) m.state.arena :=
    congrArg (fun n : Int => Allocator.allocate T n m.state.arena) Int.natCast_one.symm
  have call := one.trans (Allocator.allocate_eq valid)
  rw [make, call]
  split
  · rfl
  · rfl

section Productions

variable (make : Node → ArenaM L Address) (parseExpression : ArenaM L Address)

/-- `parseFn`. -/
def parseFn : ArenaM L Address := do
  aside nextToken
  aside (assertToken .identifier "Expected variable parameter")
  let param ← aside getIdentifier
  aside nextToken
  aside (assertToken .arrow "Expected arrow after function parameter")
  let body ← parseExpression
  make (.lamExp param body)

/-- `parseIf`. -/
def parseIf : ArenaM L Address := do
  let cond ← parseExpression
  aside nextToken
  aside (assertToken .then_ "Expected then after if condition")
  let then_ ← parseExpression
  aside nextToken
  aside (assertToken .else_ "Expected else after then expression")
  let els ← parseExpression
  make (.ifExp cond then_ els)

/-- `parseParens`. -/
def parseParens : ArenaM L Address := do
  let exp ← parseExpression
  aside nextToken
  aside (assertToken .rParen "Expected right parenthesis")
  return exp

/-- `parsePrimary`. -/
def parsePrimary : ArenaM L Address := do
  let token ← aside getCurrentToken
  match token with
  | .lParen => parseParens parseExpression
  | .number => do
    let value ← aside getNumber
    make (.intExp value)
  | .fn => parseFn make parseExpression
  | .if_ => parseIf make parseExpression
  | .identifier => do
    let name ← aside getIdentifier
    make (.varExp name)
  | _ => aside (.fail (.exception ⟨"Invalid token: " ++ toString token.toInt, token = .eof⟩))

end Productions

section Operators

variable (make : Node → ArenaM L Address)

mutual

/-- `parseBinOp`. -/
def parseBinOp (infixBp : InfixBp) : Nat → Int → ArenaM L Address
  | 0, _ => .unfinished
  | fuel + 1, minBP => do
    aside nextToken
    let lhs ← parsePrimary make (parseBinOp infixBp fuel baseBP)
    parseOperators infixBp fuel minBP lhs

/-- The loop of `parseBinOp`. -/
def parseOperators (infixBp : InfixBp) : Nat → Int → Address → ArenaM L Address
  | 0, _, _ => .unfinished
  | fuel + 1, minBP, lhs => do
    let token ← aside peekToken
    match parseOp token with
    | some bop =>
      match infixBp bop with
      | some (lbp, rbp) =>
        if lbp < minBP then return lhs
        aside nextToken
        let rhs ← parseBinOp infixBp fuel rbp
        let lhs ← make (.bopExp bop lhs rhs)
        parseOperators infixBp fuel minBP lhs
      | none => return lhs
    | none =>
      if token = .lParen ∨ token = .number ∨ token = .identifier then
        if appLbp < minBP then return lhs
        let rhs ← parseBinOp infixBp fuel appRbp
        let lhs ← make (.appExp lhs rhs)
        parseOperators infixBp fuel minBP lhs
      else return lhs

end

end Operators

/-- `parseExpression`. -/
def parseExpression (infixBp : InfixBp) (fuel : Nat) : ArenaM L Address :=
  parseBinOp (make T) infixBp fuel baseBP

end Parser

end InArena

/-! ## Trees in memory -/

/-- `ptr` points to the tree, and its nodes are at these addresses, each after its parts. -/
inductive TreeAt (cells : Address → Option Node) : Address → Exp → List Address → Prop where
  | intExp {ptr : Address} {value : Int} (node : cells ptr = some (.intExp value)) :
      TreeAt cells ptr (.intExp value) [ptr]
  | varExp {ptr : Address} {name : String} (node : cells ptr = some (.varExp name)) :
      TreeAt cells ptr (.varExp name) [ptr]
  | lamExp {ptr body : Address} {param : String} {e : Exp} {as : List Address}
      (node : cells ptr = some (.lamExp param body)) (tree : TreeAt cells body e as) :
      TreeAt cells ptr (.lamExp param e) (as ++ [ptr])
  | appExp {ptr fn arg : Address} {e1 e2 : Exp} {as1 as2 : List Address}
      (node : cells ptr = some (.appExp fn arg)) (tree1 : TreeAt cells fn e1 as1)
      (tree2 : TreeAt cells arg e2 as2) : TreeAt cells ptr (.appExp e1 e2) (as1 ++ as2 ++ [ptr])
  | bopExp {ptr arg1 arg2 : Address} {bop : Bop} {e1 e2 : Exp} {as1 as2 : List Address}
      (node : cells ptr = some (.bopExp bop arg1 arg2)) (tree1 : TreeAt cells arg1 e1 as1)
      (tree2 : TreeAt cells arg2 e2 as2) :
      TreeAt cells ptr (.bopExp bop e1 e2) (as1 ++ as2 ++ [ptr])
  | ifExp {ptr cond then_ els : Address} {e1 e2 e3 : Exp} {as1 as2 as3 : List Address}
      (node : cells ptr = some (.ifExp cond then_ els)) (tree1 : TreeAt cells cond e1 as1)
      (tree2 : TreeAt cells then_ e2 as2) (tree3 : TreeAt cells els e3 as3) :
      TreeAt cells ptr (.ifExp e1 e2 e3) (as1 ++ as2 ++ as3 ++ [ptr])

section Trees

variable {cells cells' : Address → Option Node} {ptr : Address} {e : Exp} {as : List Address}

theorem TreeAt.mono (tree : TreeAt cells ptr e as)
    (keeps : ∀ a node, cells a = some node → cells' a = some node) : TreeAt cells' ptr e as := by
  induction tree with
  | intExp node => exact .intExp (keeps _ _ node)
  | varExp node => exact .varExp (keeps _ _ node)
  | lamExp node _ ih => exact .lamExp (keeps _ _ node) ih
  | appExp node _ _ ih1 ih2 => exact .appExp (keeps _ _ node) ih1 ih2
  | bopExp node _ _ ih1 ih2 => exact .bopExp (keeps _ _ node) ih1 ih2
  | ifExp node _ _ _ ih1 ih2 ih3 => exact .ifExp (keeps _ _ node) ih1 ih2 ih3

end Trees

/-! ## What fits into the arena -/

namespace Memory

/-- How many nodes can still be made. -/
def slots (T : ElementType) (m : Memory) : Nat :=
  (m.state.arena.room - padding T.align m.state.arena.begin_.toNat) / T.size - 1

/-- The arena is sound, and the nodes are in blocks of it. -/
structure Good (buffer : Buffer) (T : ElementType) (m : Memory) : Prop where
  sound : Arena.Sound buffer m.state
  known : ∀ a node, m.cells a = some node → ⟨T, 1, a⟩ ∈ m.state.blocks

/-- New nodes have been made, at these addresses. -/
structure Grown (buffer : Buffer) (T : ElementType) (m m' : Memory) (as : List Address) : Prop where
  good : m'.Good buffer T
  keeps : ∀ a node, m.cells a = some node → m'.cells a = some node
  new : ∀ a ∈ as, m.cells a = none ∧ m'.cells a ≠ none
  nodup : as.Nodup

section Grown

variable {buffer : Buffer} {T : ElementType} {m m₁ m₂ : Memory} {as bs : List Address}

/-- What is made in two parts one after the other is made in both. -/
theorem Grown.trans (first : Grown buffer T m m₁ as) (second : Grown buffer T m₁ m₂ bs) :
    Grown buffer T m m₂ (as ++ bs) where
  good := second.good
  keeps a node found := second.keeps a node (first.keeps a node found)
  new := by
    refine List.forall_mem_append.mpr ⟨fun a member => ?_, fun b member => ?_⟩
    · rcases first.new a member with ⟨fresh, made⟩
      rcases Option.ne_none_iff_exists'.mp made with ⟨node, found⟩
      exact ⟨fresh, by rw [second.keeps a node found]; exact Option.some_ne_none _⟩
    · rcases second.new b member with ⟨fresh, made⟩
      refine ⟨?_, made⟩
      cases found : m.cells b with
      | none => rfl
      | some node => cases fresh.symm.trans (first.keeps b node found)
  nodup := by
    refine List.nodup_append'.mpr ⟨first.nodup, second.nodup, fun a inFirst inSecond => ?_⟩
    exact (first.new a inFirst).2 (second.new a inSecond).1

theorem good_start (buffer : Buffer) (T : ElementType) : (start buffer).Good buffer T where
  sound := sound_start buffer
  known _ _ found := by cases found

theorem Good.reset (good : m.Good buffer T) : m.reset.Good buffer T where
  sound := good.sound.reset
  known _ _ found := by cases found

/-- A node can be made exactly if a second one would fit as well. -/
theorem slots_pos_iff : 0 < m.slots T ↔ m.state.arena.needed T 2 ≤ m.state.arena.room := by
  have two : 2 ≤ (m.state.arena.room - padding T.align m.state.arena.begin_.toNat) / T.size ↔
      2 * T.size ≤ m.state.arena.room - padding T.align m.state.arena.begin_.toNat :=
    Nat.le_div_iff_mul_le T.pos
  have pos := T.pos
  unfold slots Allocator.needed
  omega

/-- The block that is handed out is a new one. -/
theorem Good.construct (good : m.Good buffer T) (free : 0 < m.slots T) (exp : Node) :
    Grown buffer T m (m.construct T (Arena.next m.state.arena T 1).ptr
      (m.state.arena.take (m.state.arena.needed T 1)) exp)
      [(Arena.next m.state.arena T 1).ptr] := by
  have fits : m.state.arena.needed T 1 ≤ m.state.arena.room := needed_le (slots_pos_iff.mp free)
  have sound := good.sound.allocate fits
  have fresh : m.cells (Arena.next m.state.arena T 1).ptr = none := by
    cases found : m.cells (Arena.next m.state.arena T 1).ptr with
    | none => rfl
    | some node =>
      have unused := good.sound.handedOut.disjoint (next_unused good.sound.valid fits) _
        (List.mem_map_of_mem (good.known _ node found))
      have inside : (Arena.next m.state.arena T 1).ptr.toNat ∈
          (Arena.next m.state.arena T 1).bytes :=
        ⟨le_rfl, Nat.lt_add_of_pos_right (Nat.mul_pos Nat.one_pos T.pos)⟩
      exact (Set.disjoint_left.mp unused inside inside).elim
  refine ⟨⟨sound, fun a node found => ?_⟩, fun a node found => ?_, ?_, List.nodup_singleton _⟩
  · by_cases eq : a = (Arena.next m.state.arena T 1).ptr
    · exact eq ▸ List.mem_cons_self
    · rw [construct_cells, Function.update_of_ne eq] at found
      exact List.mem_cons_of_mem _ (good.known a node found)
  · have other : a ≠ (Arena.next m.state.arena T 1).ptr := by
      rintro rfl
      cases fresh.symm.trans found
    exact (Function.update_of_ne other _ _).trans found
  · refine List.forall_mem_singleton.mpr ⟨fresh, ?_⟩
    rw [construct_cells, Function.update_self]
    exact Option.some_ne_none _

/-- It takes one of the slots, where sizes are multiples of the alignment. -/
theorem Good.slots_construct (good : m.Good buffer T) (whole : T.align ∣ T.size)
    (free : 0 < m.slots T) (ptr : Address) (exp : Node) :
    (m.construct T ptr (m.state.arena.take (m.state.arena.needed T 1)) exp).slots T + 1 =
      m.slots T := by
  have enough := slots_pos_iff.mp free
  have fits : m.state.arena.needed T 1 ≤ m.state.arena.room := needed_le enough
  have start := toNat_add good.sound.valid fits
  have upper := good.sound.valid.upper
  have one : m.state.arena.needed T 1 =
      padding T.align m.state.arena.begin_.toNat + T.size := by
    rw [Allocator.needed, Nat.one_mul]
  have positive := Allocator.ElementType.align_pos T
  have aligned : padding T.align
      (m.state.arena.begin_ + BitVec.ofNat 64 (m.state.arena.needed T 1)).toNat = 0 := by
    have dvd : T.align ∣ m.state.arena.begin_.toNat + m.state.arena.needed T 1 := by
      rw [one, ← Nat.add_assoc]
      exact Nat.dvd_add (dvd_add_padding positive _) whole
    exact Nat.le_zero.mp (padding_le positive (start ▸ dvd))
  have less : (m.state.arena.take (m.state.arena.needed T 1)).room =
      m.state.arena.room - padding T.align m.state.arena.begin_.toNat - T.size := by
    show m.state.arena.end_.toNat -
        (m.state.arena.begin_ + BitVec.ofNat 64 (m.state.arena.needed T 1)).toNat =
      m.state.arena.end_.toNat - m.state.arena.begin_.toNat - _ - _
    rw [start, one]
    omega
  have step := Nat.sub_mul_div
    (m.state.arena.room - padding T.align m.state.arena.begin_.toNat) T.size 1
  rw [Nat.mul_one] at step
  unfold slots at free ⊢
  show ((m.state.arena.take (m.state.arena.needed T 1)).room - padding T.align
    (m.state.arena.begin_ + BitVec.ofNat 64 (m.state.arena.needed T 1)).toNat) / T.size - 1 + 1 = _
  rw [aligned, less, Nat.sub_zero, step]
  omega

end Grown

end Memory

/-! ## The parser builds the trees it parses -/

/-- The tree is in memory, at new addresses. -/
def Holds (buffer : Buffer) (T : ElementType) (m : Memory) (e : Exp) (m' : Memory)
    (ptr : Address) : Prop := ∃ as, TreeAt m'.cells ptr e as ∧ m.Grown buffer T m' as

theorem Holds.good {buffer : Buffer} {T : ElementType} {m m' : Memory} {e : Exp} {ptr : Address}
    (held : Holds buffer T m e m' ptr) : m'.Good buffer T := by
  rcases held with ⟨as, -, grown⟩
  exact grown.good

open Lib.Computation (AtLeast Builds)

section Builds

variable {L : Type} [Lexer L] {buffer : Buffer} {T : ElementType} {m m₀ : Memory} {before : Nat}

omit [Lexer L] in
/-- One node takes one slot. -/
theorem builds_make {α : Type} {a : α} {total : α → Nat} {R : α → Memory → Address → Prop}
    (good : m.Good buffer T) (whole : T.align ∣ T.size) (exp : Node) (taken : total a = before + 1)
    (built : ∀ m' ptr, m.Grown buffer T m' [ptr] → m'.cells ptr = some exp → R a m' ptr) :
    Builds (Memory.slots T) Arena.Failure.badAlloc (Memory.Good buffer T) m before total R
      (pure a : ParserM L α) (InArena.make T exp) := by
  intro s
  rw [InArena.make_eq good.sound.valid]
  by_cases free : 0 < m.slots T
  · rw [if_pos (Memory.slots_pos_iff.mp free)]
    refine .returned (built _ _ (good.construct free exp) (Function.update_self ..)) ?_
    rw [taken, ← good.slots_construct whole free (Arena.next m.state.arena T 1).ptr exp]
    omega
  · rw [if_neg (mt Memory.slots_pos_iff.mpr free)]
    refine .full ?_
    rintro b s' ⟨⟩
    omega

/-- Run in the memory `m`, `y` builds what `x` returns, of nodes made since `m₀`. So far `taken`
slots are counted, and `before` of them are not for the tree. -/
abbrev BuildsFrom (buffer : Buffer) (T : ElementType) (m₀ m : Memory) (before taken : Nat)
    (x : ParserM L Exp) (y : ArenaM L Address) : Prop :=
  Builds (Memory.slots T) Arena.Failure.badAlloc (Memory.Good buffer T) m taken
    (fun e => before + e.size) (Holds buffer T m₀) x y

/-- In every good memory, the second parser builds what the first one parses. -/
def BuildsTrees (buffer : Buffer) (T : ElementType) (x : ParserM L Exp) (y : ArenaM L Address) :
    Prop := ∀ m before, m.Good buffer T → BuildsFrom buffer T m m before before x y

section Productions

variable {x : ParserM L Exp} {y : ArenaM L Address}

theorem builds_parseFn (whole : T.align ∣ T.size) (builds : BuildsTrees buffer T x y) :
    BuildsTrees buffer T (parseFn x) (InArena.parseFn (InArena.make T) y) := by
  intro m before good
  refine Builds.aside_bind good fun _ => Builds.aside_bind good fun _ => ?_
  refine Builds.aside_bind good fun param => Builds.aside_bind good fun _ => ?_
  refine Builds.aside_bind good fun _ => ?_
  refine (builds m before good).bind ?_ fun body => .pure (Nat.le_succ _)
  rintro body m₁ ptr ⟨as, tree, grown⟩
  refine builds_make grown.good whole _ rfl fun m' ptr' made node => ?_
  exact ⟨_, .lamExp node (tree.mono made.keeps), grown.trans made⟩

/-- An `if` makes its node after those of its three expressions. -/
theorem builds_parseIf (whole : T.align ∣ T.size) (builds : BuildsTrees buffer T x y) :
    BuildsTrees buffer T (parseIf x) (InArena.parseIf (InArena.make T) y) := by
  intro m before good
  refine (builds m before good).bind ?_ fun cond => .bind fun _ => .bind fun _ => .bind fun then_ =>
    .bind fun _ => .bind fun _ => .bind fun els => .pure ?_
  · rintro cond m₁ ptr₁ ⟨as₁, tree₁, grown₁⟩
    refine Builds.aside_bind grown₁.good fun _ => Builds.aside_bind grown₁.good fun _ => ?_
    refine (builds m₁ (before + cond.size) grown₁.good).bind ?_ fun then_ => .bind fun _ =>
      .bind fun _ => .bind fun els => .pure ?_
    · rintro then_ m₂ ptr₂ ⟨as₂, tree₂, grown₂⟩
      refine Builds.aside_bind grown₂.good fun _ => Builds.aside_bind grown₂.good fun _ => ?_
      refine (builds m₂ (before + cond.size + then_.size) grown₂.good).bind ?_ fun els => .pure ?_
      · rintro els m₃ ptr₃ ⟨as₃, tree₃, grown₃⟩
        refine builds_make grown₃.good whole _ ?_ fun m' ptr' made node => ?_
        · rw [Exp.size]
          omega
        · have grown := ((grown₁.trans grown₂).trans grown₃).trans made
          have keeps₂ := (grown₃.trans made).keeps
          refine ⟨_, .ifExp node (tree₁.mono ?_) (tree₂.mono keeps₂) (tree₃.mono made.keeps), grown⟩
          exact (grown₂.trans (grown₃.trans made)).keeps
      · rw [Exp.size]
        omega
    · rw [Exp.size]
      omega
  · rw [Exp.size]
    omega

theorem builds_parseParens (builds : BuildsTrees buffer T x y) :
    BuildsTrees buffer T (parseParens x) (InArena.parseParens y) := by
  intro m before good
  refine (builds m before good).bind (fun e m₁ ptr built => ?_) fun e =>
    .bind fun _ => .bind fun _ => .pure le_rfl
  exact Builds.aside_bind built.good fun _ => Builds.aside_bind built.good fun _ => .pure built rfl

theorem builds_parsePrimary (whole : T.align ∣ T.size) (builds : BuildsTrees buffer T x y) :
    BuildsTrees buffer T (parsePrimary x) (InArena.parsePrimary (InArena.make T) y) := by
  intro m before good
  refine Builds.aside_bind good fun token => ?_
  cases token with
  | lParen => exact builds_parseParens builds m before good
  | number =>
    refine Builds.aside_bind good fun value => ?_
    exact builds_make good whole _ rfl fun m' ptr made node => ⟨_, .intExp node, made⟩
  | fn => exact builds_parseFn whole builds m before good
  | if_ => exact builds_parseIf whole builds m before good
  | identifier =>
    refine Builds.aside_bind good fun name => ?_
    exact builds_make good whole _ rfl fun m' ptr made node => ⟨_, .varExp node, made⟩
  | _ => exact Builds.fail good _

end Productions

section Operators

variable {infixBp : InfixBp}

/-- What the loop returns has its left operand as a part. -/
theorem atLeast_parseOperators (before fuel : Nat) : ∀ minBP lhs n, n ≤ before + lhs.size →
    AtLeast n (fun e => before + e.size) (parseOperators (L := L) infixBp fuel minBP lhs) := by
  induction fuel with
  | zero => exact fun minBP lhs n le => .unfinished
  | succ fuel ih =>
    intro minBP lhs n le
    have done : AtLeast (σ := Parser L) (ε := Failure) n (fun e => before + e.size) (pure lhs) :=
      .pure le
    refine AtLeast.bind fun token => ?_
    cases parseOp token with
    | some bop =>
      dsimp only
      cases infixBp bop with
      | some powers =>
        dsimp only
        split
        · exact done
        · refine .bind fun _ => .bind fun rhs => ih _ _ n ?_
          rw [Exp.size]
          omega
      | none => exact done
    | none =>
      dsimp only
      split
      · split
        · exact done
        · refine .bind fun rhs => ih _ _ n ?_
          rw [Exp.size]
          omega
      · exact done

/-- The loop goes on from a left operand that is in memory. -/
def BuildsRest (buffer : Buffer) (T : ElementType) (x : Exp → ParserM L Exp)
    (y : Address → ArenaM L Address) : Prop := ∀ m₀ m before lhs ptr,
  Holds buffer T m₀ lhs m ptr →
    BuildsFrom buffer T m₀ m before (before + lhs.size) (x lhs) (y ptr)

omit [Lexer L] in
/-- After its right operand, an operation takes one more slot. -/
theorem builds_operation (whole : T.align ∣ T.size) (before : Nat) {x : Exp → ParserM L Exp}
    {y : Address → ArenaM L Address} (rest : BuildsRest buffer T x y) (op : Exp → Exp → Exp)
    (node : Address → Address → Node) (size : ∀ e1 e2, (op e1 e2).size = e1.size + e2.size + 1)
    (tree : ∀ {cells : Address → Option Node} {ptr ptr1 ptr2 : Address} {e1 e2 : Exp}
      {as1 as2 : List Address}, cells ptr = some (node ptr1 ptr2) → TreeAt cells ptr1 e1 as1 →
      TreeAt cells ptr2 e2 as2 → TreeAt cells ptr (op e1 e2) (as1 ++ as2 ++ [ptr]))
    {operand : ParserM L Exp} {operand' : ArenaM L Address}
    (builds : BuildsTrees buffer T operand operand')
    (more : ∀ lhs n, n ≤ before + lhs.size → AtLeast n (fun e => before + e.size) (x lhs))
    {lhs : Exp} {ptr : Address} (held : Holds buffer T m₀ lhs m ptr) :
    BuildsFrom buffer T m₀ m before (before + lhs.size)
      (do let rhs ← operand; x (op lhs rhs) : ParserM L Exp)
      (do
        let rhs ← operand'
        let lhs ← InArena.make T (node ptr rhs)
        y lhs : ArenaM L Address) := by
  rcases held with ⟨as1, tree1, grown1⟩
  refine (builds m (before + lhs.size) grown1.good).bind ?_ fun rhs => more _ _ ?_
  · rintro rhs m₁ ptr' ⟨as2, tree2, grown2⟩
    have made : BuildsFrom buffer T m₀ m₁ before (before + lhs.size + rhs.size)
        (pure (op lhs rhs) : ParserM L Exp) (InArena.make T (node ptr ptr')) := by
      refine builds_make grown2.good whole _ ?_ fun m' ptr'' made found => ?_
      · rw [size]
        omega
      · have grown := (grown1.trans grown2).trans made
        exact ⟨_, tree found (tree1.mono (grown2.trans made).keeps) (tree2.mono made.keeps), grown⟩
    exact made.bind (fun e m' ptr held => rest m₀ m' before e ptr held) fun e => more e _ le_rfl
  · rw [size]
    omega

/-- For any fuel, the two parsers agree. -/
theorem builds_parseBinOp (whole : T.align ∣ T.size) (fuel : Nat) :
    (∀ minBP, BuildsTrees (L := L) buffer T (parseBinOp infixBp fuel minBP)
      (InArena.parseBinOp (InArena.make T) infixBp fuel minBP)) ∧
    ∀ minBP, BuildsRest (L := L) buffer T (parseOperators infixBp fuel minBP)
      (InArena.parseOperators (InArena.make T) infixBp fuel minBP) := by
  induction fuel with
  | zero =>
    refine ⟨fun minBP m before _ => ?_, fun minBP m₀ m before lhs ptr _ => ?_⟩
    · rw [parseBinOp, InArena.parseBinOp]
      exact .unfinished
    · rw [parseOperators, InArena.parseOperators]
      exact .unfinished
  | succ fuel ih =>
    rcases ih with ⟨ihBinOp, ihRest⟩
    refine ⟨fun minBP m before good => ?_, fun minBP m₀ m before lhs ptr held => ?_⟩
    · rw [parseBinOp, InArena.parseBinOp]
      refine Builds.aside_bind good fun _ => ?_
      refine (builds_parsePrimary whole (ihBinOp baseBP) m before good).bind
        (fun lhs m₁ ptr held => ihRest minBP m m₁ before lhs ptr held) fun lhs => ?_
      exact atLeast_parseOperators before fuel minBP lhs _ le_rfl
    · have done : BuildsFrom buffer T m₀ m before (before + lhs.size) (pure lhs : ParserM L Exp)
          (pure ptr) := .pure held rfl
      rw [parseOperators, InArena.parseOperators]
      refine Builds.aside_bind held.good fun token => ?_
      cases parseOp token with
      | some bop =>
        dsimp only
        cases infixBp bop with
        | some powers =>
          dsimp only
          split
          · exact done
          · have operation := builds_operation whole before (ihRest minBP) (.bopExp bop)
              (.bopExp bop) (fun _ _ => rfl) .bopExp (ihBinOp powers.2)
              (atLeast_parseOperators before fuel minBP) held
            exact Builds.aside_bind held.good fun _ => operation
        | none => exact done
      | none =>
        dsimp only
        split
        · split
          · exact done
          · have application := builds_operation whole before (ihRest minBP) .appExp .appExp
              (fun _ _ => rfl) .appExp (ihBinOp appRbp) (atLeast_parseOperators before fuel minBP)
              held
            exact application
        · exact done

end Operators

theorem limited_parseExpression (whole : T.align ∣ T.size) (good : m.Good buffer T)
    (infixBp : InfixBp) (fuel : Nat) (s : Parser L) :
    Outcome.Limited (Memory.slots T) Arena.Failure.badAlloc (Memory.Good buffer T) m 0
      (fun e => 0 + e.size) (Holds buffer T m) (parseExpression infixBp fuel s)
      (InArena.parseExpression T infixBp fuel (s, m)) :=
  (builds_parseBinOp whole fuel).1 baseBP m 0 good s

/-- In an arena, what the parser returns is returned if and only if there is a slot for each node,
and then it is in memory, at new addresses; else `std::bad_alloc` is thrown. Where the parser fails,
it fails the same way, unless the arena is full before. -/
theorem parseExpression_inArena (whole : T.align ∣ T.size) (good : m.Good buffer T)
    (infixBp : InfixBp) (fuel : Nat) (s : Parser L) :
    (∀ e s', parseExpression infixBp fuel s = .returned e s' →
      (e.size ≤ m.slots T ∧ ∃ ptr m', Holds buffer T m e m' ptr ∧
        m'.slots T + e.size = m.slots T ∧
        InArena.parseExpression T infixBp fuel (s, m) = .returned ptr (s', m')) ∨
      m.slots T < e.size ∧
        ∃ t, InArena.parseExpression T infixBp fuel (s, m) = .failed (.inr .badAlloc) t) ∧
    (∀ e s', parseExpression infixBp fuel s = .failed e s' →
      (∃ m', InArena.parseExpression T infixBp fuel (s, m) = .failed (.inl e) (s', m')) ∨
      ∃ t, InArena.parseExpression T infixBp fuel (s, m) = .failed (.inr .badAlloc) t) := by
  have outcome := limited_parseExpression whole good infixBp fuel s
  generalize parseExpression infixBp fuel s = o at outcome ⊢
  generalize InArena.parseExpression T infixBp fuel (s, m) = o' at outcome ⊢
  constructor
  · rintro e s' rfl
    cases outcome with
    | @returned _ _ ptr m' held taken =>
      exact .inl ⟨by omega, ptr, m', held, by omega, rfl⟩
    | @full _ t short =>
      have large := short e s' rfl
      exact .inr ⟨by omega, t, rfl⟩
  · rintro e s' rfl
    cases outcome with
    | @failed _ _ m' _ => exact .inl ⟨m', rfl⟩
    | @full _ t _ => exact .inr ⟨t, rfl⟩

end Builds

/-- `ast::Exp<raw_ptr>`: a string and a pointer, and which alternative it is. -/
def expType : ElementType := ⟨48, 8, by decide, by decide, 3, by decide, rfl⟩

/-- `f x`, in a buffer for three nodes and in one for four. -/
theorem parseExpression_inArena_application :
    let s := Parser.new (CharLexer.new ['f', ' ', 'x', ';'])
    (∃ t, InArena.parseExpression expType defaultInfixBp 5
      (s, .start ⟨4096, 4240, by decide, by decide⟩) = .failed (.inr .badAlloc) t) ∧
    ∃ ptr t, InArena.parseExpression expType defaultInfixBp 5
      (s, .start ⟨4096, 4288, by decide, by decide⟩) = .returned ptr t := by
  have parsed : ∃ s', parseExpression defaultInfixBp 5
      (Parser.new (CharLexer.new ['f', ' ', 'x', ';'])) =
        .returned (.appExp (.varExp "f") (.varExp "x")) s' := ⟨_, rfl⟩
  rcases parsed with ⟨s', parsed⟩
  have whole : expType.align ∣ expType.size := by decide
  have small := Memory.good_start ⟨4096, 4240, by decide, by decide⟩ expType
  have large := Memory.good_start ⟨4096, 4288, by decide, by decide⟩ expType
  constructor
  · rcases (parseExpression_inArena whole small _ _ _).1 _ _ parsed with ⟨fits, -⟩ | ⟨-, full⟩
    · exact absurd fits (by decide)
    · exact full
  · rcases (parseExpression_inArena whole large _ _ _).1 _ _ parsed with
      ⟨-, ptr, m', -, -, ran⟩ | ⟨short, -⟩
    · exact ⟨ptr, _, ran⟩
    · exact absurd short (by decide)

end Parse

end Lambcalc
