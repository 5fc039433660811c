import Lambcalc.Anf.Defunc

/-!
# The two converters agree

A stack of `KFrame`s denotes the continuation the recursive converter would hold at that
point, a stack of `K2Frame`s what it would still do with the term it gets back. Every turn
of the loop keeps the denotation of the whole machine and decreases `Machine.work`, so the
loop stops with what `convert` computes.

The exceptions differ in text and in the moment they are thrown (the loop converts the
argument first), so the denotation forgets the error and the counter of a failed run.
-/

namespace Lambcalc.Anf

/-! ## Throwing conversions -/

/-- A computation that throws from every counter value. -/
def FreshM.Throws {α : Type} (x : FreshM α) : Prop := ∀ c, ∃ error, x c = .error error

theorem FreshM.Throws.bind {α β : Type} {x : FreshM α} (throws : x.Throws)
    (g : α → FreshM β) : (x >>= g).Throws := fun c =>
  let ⟨error, ran⟩ := throws c
  ⟨error, FreshM.bind_error ran⟩

theorem FreshM.Throws.bind_right {α β : Type} {x : FreshM α} {g : α → FreshM β}
    (throws : ∀ a, (g a).Throws) : (x >>= g).Throws := by
  intro c
  cases ran : x c with
  | error error => exact ⟨error, FreshM.bind_error ran⟩
  | ok result => exact (FreshM.bind_ok (g := g) ran).symm ▸ throws result.1 result.2

/-- The continuation of a conversion is always reached, so one that throws makes the
conversion throw. -/
theorem convertWith_throws {k : Cont} (throws : ∀ value, (k value).Throws) (e : Ast.Exp) :
    (convertWith e k).Throws := by
  induction e generalizing k with
  | intExp value => exact throws _
  | varExp name => exact throws _
  | lamExp param body =>
    exact .bind_right fun _ => .bind_right fun _ => (throws _).bind _
  | appExp fn arg ihFn ihArg =>
    exact ihFn fun _ => .bind_right fun _ => ihArg fun _ =>
      .bind_right fun _ => (throws _).bind _
  | bopExp bop arg1 arg2 ih1 ih2 =>
    exact ih1 fun _ => ih2 fun _ => .bind_right fun _ => (throws _).bind _
  | ifExp cond then_ els ihCond =>
    exact ihCond fun _ => .bind_right fun _ => .bind_right fun _ => (throws _).bind _

/-! ## What the stacks denote -/

/-- The continuation a stack of `KFrame`s stands for. -/
def denoteK : List KFrame → Cont
  | [] => haltCont
  | .app1 x :: k => fun fnValue => do
    let fnName ← stringValue "function" fnValue
    convertWith x fun argValue => do
      let name ← fresh
      let rest ← denoteK k (.varValue name)
      pure (.appExp name fnName [argValue] rest)
  | .app2 f :: k => fun argValue => do
    let fnName ← stringValue "function" f
    let name ← fresh
    let rest ← denoteK k (.varValue name)
    pure (.appExp name fnName [argValue] rest)
  | .bop1 y bop :: k => fun arg1Value =>
    convertWith y fun arg2Value => do
      let name ← fresh
      let rest ← denoteK k (.varValue name)
      pure (.bopExp name bop arg1Value arg2Value rest)
  | .bop2 x bop :: k => fun arg2Value => do
    let name ← fresh
    let rest ← denoteK k (.varValue name)
    pure (.bopExp name bop x arg2Value rest)
  | .if1 t f :: k => fun condValue => do
    let joinName ← fresh
    let slot ← fresh
    let body ← denoteK k (.varValue slot)
    let thenBranch ← convertWith t (jumpCont joinName)
    let elseBranch ← convertWith f (jumpCont joinName)
    pure (.joinExp joinName (some slot) body (.ifExp condValue thenBranch elseBranch))
  | .if2 j :: _ => jumpCont j

/-- What a stack of `K2Frame`s still does with the term it is given. -/
def denoteK2 : List K2Frame → Exp → FreshM Exp
  | [] => pure
  | .lam1 k v :: k2 => fun body => do
    let f ← fresh
    let rest ← denoteK k (.varValue f)
    denoteK2 k2 (.funExp f [v] body rest)
  | .lam2 f v body :: k2 => fun rest => denoteK2 k2 (.funExp f [v] body rest)
  | .app1 r f x :: k2 => fun rest => denoteK2 k2 (.appExp r f [x] rest)
  | .bop1 r bop x y :: k2 => fun rest => denoteK2 k2 (.bopExp r bop x y rest)
  | .if1 t f j p c :: k2 => fun rest => do
    let thenBranch ← convertWith t (jumpCont j)
    let elseBranch ← convertWith f (jumpCont j)
    denoteK2 k2 (.joinExp j (some p) rest (.ifExp c thenBranch elseBranch))
  | .if2 f j p c rest :: k2 => fun thenBranch => do
    let elseBranch ← convertWith f (jumpCont j)
    denoteK2 k2 (.joinExp j (some p) rest (.ifExp c thenBranch elseBranch))
  | .if3 t j p c rest :: k2 => fun elseBranch =>
    denoteK2 k2 (.joinExp j (some p) rest (.ifExp c t elseBranch))

/-- The computation a machine state still has to do. -/
def Machine.todo (m : Machine) : FreshM Exp :=
  match m.dispatch, m.k2Exp with
  | .applyK2, none => throw ⟨"null pointer"⟩
  | .applyK2, some k2Exp => denoteK2 m.k2 k2Exp
  | .applyK, _ => denoteK m.k m.value >>= denoteK2 m.k2
  | .go, _ => convertWith m.goExp (denoteK m.k) >>= denoteK2 m.k2

/-- The term and counter a state leads to, if it leads to any. -/
def Machine.denote (m : Machine) : Option (Option (Exp × Nat)) := some (m.todo m.counter).toOption

/-- The term and counter of an outcome; a null pointer denotes nothing. -/
def Outcome.denote : Outcome → Option (Option (Exp × Nat))
  | .returned exp counter => some (some (exp, counter))
  | .threw _ => some none
  | .nullPointer => none

/-! ## The invariant of the loop -/

/-- Only names of variables and integers are passed to continuations. -/
def Value.Plain : Value → Prop
  | .globValue _ => False
  | _ => True

def KFrame.Plain : KFrame → Prop
  | .app2 f => f.Plain
  | _ => True

def K2Frame.Plain : K2Frame → Prop
  | .lam1 k _ => ∀ frame ∈ k, frame.Plain
  | _ => True

/-- In mode `applyK2` the register `k2_exp` is set; in mode `applyK` the register `value`
holds no global, and no frame does. -/
structure Machine.Inv (m : Machine) : Prop where
  k2Exp : m.dispatch = .applyK2 → m.k2Exp ≠ none
  value : m.dispatch = .applyK → m.value.Plain
  k : ∀ frame ∈ m.k, frame.Plain
  k2 : ∀ frame ∈ m.k2, frame.Plain

/-- The invariant holds at the start. -/
theorem Machine.inv_start (root : Ast.Exp) (counter : Nat) : (start root counter).Inv where
  k2Exp mode := by cases mode
  value mode := by cases mode
  k _ member := by cases member
  k2 _ member := by cases member

/-! ## One turn of the loop -/

/-- What a turn from `m` to `next` has to establish. -/
structure Machine.Follows (m next : Machine) : Prop where
  inv : next.Inv
  work : next.work < m.work
  denote : next.denote = m.denote

/-- A turn that visits a node leaves less work, and the same to be computed. -/
theorem Machine.goStep_follows {m : Machine} (inv : m.Inv) (mode : m.dispatch = .go) :
    m.Follows (goStep m) := by
  obtain ⟨goExp, k2Exp, k, k2, value, dispatch, counter⟩ := m
  obtain ⟨-, -, invK, invK2⟩ := inv
  dsimp only at mode invK invK2
  subst mode
  cases goExp with
  | intExp value =>
    refine ⟨⟨Dispatch.noConfusion, fun _ => trivial, invK, invK2⟩, ?_, rfl⟩
    simp [work, goStep, workExp]; omega
  | varExp name =>
    refine ⟨⟨Dispatch.noConfusion, fun _ => trivial, invK, invK2⟩, ?_, rfl⟩
    simp [work, goStep, workExp]; omega
  | lamExp param body =>
    refine ⟨⟨Dispatch.noConfusion, Dispatch.noConfusion, List.forall_mem_nil _,
      List.forall_mem_cons.mpr ⟨invK, invK2⟩⟩, ?_, ?_⟩
    · simp [work, goStep, workExp, workK, workK2, workK2Frame]; omega
    · simp only [denote, todo, goStep, convertWith, denoteK, denoteK2, bind_assoc, pure_bind]
  | appExp fn arg =>
    refine ⟨⟨Dispatch.noConfusion, Dispatch.noConfusion, List.forall_mem_cons.mpr ⟨trivial, invK⟩,
      invK2⟩, ?_, rfl⟩
    simp [work, goStep, workExp, workK, workKFrame]; omega
  | bopExp bop arg1 arg2 =>
    refine ⟨⟨Dispatch.noConfusion, Dispatch.noConfusion, List.forall_mem_cons.mpr ⟨trivial, invK⟩,
      invK2⟩, ?_, rfl⟩
    simp [work, goStep, workExp, workK, workKFrame]; omega
  | ifExp cond then_ els =>
    refine ⟨⟨Dispatch.noConfusion, Dispatch.noConfusion, List.forall_mem_cons.mpr ⟨trivial, invK⟩,
      invK2⟩, ?_, rfl⟩
    simp [work, goStep, workExp, workK, workKFrame]; omega

/-- A bind whose continuation throws denotes no term, whatever it binds. -/
theorem FreshM.Throws.toOption {α : Type} {x : FreshM α} (throws : x.Throws) (c : Nat) :
    (x c).toOption = none := by
  obtain ⟨error, ran⟩ := throws c
  rw [ran]
  rfl

/-- A frame popped in mode `applyK` either throws, as its denotation does, or leads to a
state that follows. -/
theorem Machine.applyKFrame_follows {m : Machine} {frame : KFrame} {k : List KFrame}
    (inv : m.Inv) (mode : m.dispatch = .applyK) (top : m.k = frame :: k) :
    (∃ next, applyKFrame { m with k := k } frame = .inl next ∧ m.Follows next) ∨
      ∃ error, applyKFrame { m with k := k } frame = .inr (.threw error) ∧
        m.denote = some none := by
  obtain ⟨goExp, k2Exp, stack, k2, value, dispatch, counter⟩ := m
  obtain ⟨-, plain, invK, invK2⟩ := inv
  dsimp only at mode top plain invK invK2
  subst mode top
  obtain ⟨framePlain, tailPlain⟩ := List.forall_mem_cons.mp invK
  cases frame with
  | app1 x =>
    refine .inl ⟨_, rfl, ⟨nofun, nofun, List.forall_mem_cons.mpr ⟨plain rfl, tailPlain⟩, invK2⟩,
      ?_, ?_⟩
    · simp [work, workK, workKFrame]; omega
    · cases value with
      | varValue f => rfl
      | globValue f => exact (plain rfl).elim
      | intValue n =>
        -- the recursive converter throws before it converts the argument, the loop after
        have late : (convertWith x (denoteK (.app2 (.intValue n) :: k))).Throws :=
          convertWith_throws (fun _ => fun _ => ⟨_, rfl⟩) x
        have early : (denoteK (.app1 x :: k) (.intValue n)).Throws := fun _ => ⟨_, rfl⟩
        simp only [denote, todo]
        rw [(late.bind _).toOption, (early.bind _).toOption]
  | app2 f =>
    cases f with
    | varValue f =>
      refine .inl ⟨_, rfl, ⟨nofun, fun _ => trivial, tailPlain,
        List.forall_mem_cons.mpr ⟨trivial, invK2⟩⟩, ?_, ?_⟩
      · simp [work, workK, workKFrame, workK2, workK2Frame]; omega
      · simp only [denote, todo, denoteK, denoteK2, stringValue, pure_bind, bind_assoc,
          fresh_bind_apply]
    | globValue f => exact framePlain.elim
    | intValue n => exact .inr ⟨_, rfl, rfl⟩
  | bop1 y bop =>
    refine .inl ⟨_, rfl, ⟨nofun, nofun, List.forall_mem_cons.mpr ⟨trivial, tailPlain⟩, invK2⟩,
      ?_, rfl⟩
    simp [work, workK, workKFrame]; omega
  | bop2 x bop =>
    refine .inl ⟨_, rfl, ⟨nofun, fun _ => trivial, tailPlain,
      List.forall_mem_cons.mpr ⟨trivial, invK2⟩⟩, ?_, ?_⟩
    · simp [work, workK, workKFrame, workK2, workK2Frame]; omega
    · simp only [denote, todo, denoteK, denoteK2, pure_bind, bind_assoc, fresh_bind_apply]
  | if1 t f =>
    refine .inl ⟨_, rfl, ⟨nofun, fun _ => trivial, tailPlain,
      List.forall_mem_cons.mpr ⟨trivial, invK2⟩⟩, ?_, ?_⟩
    · simp [work, workK, workKFrame, workK2, workK2Frame]; omega
    · simp only [denote, todo, denoteK, denoteK2, pure_bind, bind_assoc, fresh_bind_apply]
  | if2 j =>
    refine .inl ⟨_, rfl, ⟨nofun, nofun, tailPlain, invK2⟩, ?_, ?_⟩
    · simp only [work, workK]
      omega
    · simp only [denote, todo, denoteK, jumpCont, pure_bind]

/-- So does a turn that applies a continuation to a finished term. -/
theorem Machine.applyK2Frame_follows {m : Machine} {frame : K2Frame} {k2 : List K2Frame}
    {k2Exp : Exp} (inv : m.Inv) (mode : m.dispatch = .applyK2) (register : m.k2Exp = some k2Exp)
    (top : m.k2 = frame :: k2) :
    m.Follows (applyK2Frame { m with k2 := k2, k2Exp := none } k2Exp frame) := by
  obtain ⟨goExp, k2Reg, k, stack, value, dispatch, counter⟩ := m
  obtain ⟨-, -, invK, invK2⟩ := inv
  dsimp only at mode register top invK invK2
  subst mode register top
  obtain ⟨framePlain, tailPlain⟩ := List.forall_mem_cons.mp invK2
  cases frame with
  | lam1 k v =>
    refine ⟨⟨nofun, fun _ => trivial, framePlain, List.forall_mem_cons.mpr ⟨trivial, tailPlain⟩⟩,
      ?_, ?_⟩
    · simp [work, applyK2Frame, workK2, workK2Frame]; omega
    · simp only [denote, todo, applyK2Frame, denoteK2, fresh_bind_apply]
  | lam2 f v body =>
    exact ⟨⟨nofun, nofun, invK, tailPlain⟩,
      by simp [work, applyK2Frame, workK2, workK2Frame], rfl⟩
  | app1 r f x =>
    exact ⟨⟨nofun, nofun, invK, tailPlain⟩,
      by simp [work, applyK2Frame, workK2, workK2Frame], rfl⟩
  | bop1 r bop x y =>
    exact ⟨⟨nofun, nofun, invK, tailPlain⟩,
      by simp [work, applyK2Frame, workK2, workK2Frame], rfl⟩
  | if1 t f j p c =>
    refine ⟨⟨nofun, nofun, by simp [applyK2Frame, KFrame.Plain],
      List.forall_mem_cons.mpr ⟨trivial, tailPlain⟩⟩, ?_, rfl⟩
    simp [work, applyK2Frame, workK, workKFrame, workK2, workK2Frame]; omega
  | if2 f j p c rest =>
    refine ⟨⟨nofun, nofun, by simp [applyK2Frame, KFrame.Plain],
      List.forall_mem_cons.mpr ⟨trivial, tailPlain⟩⟩, ?_, rfl⟩
    simp [work, applyK2Frame, workK, workKFrame, workK2, workK2Frame]; omega
  | if3 t j p c rest =>
    exact ⟨⟨nofun, nofun, invK, tailPlain⟩,
      by simp [work, applyK2Frame, workK2, workK2Frame], rfl⟩

/-- Every turn of the loop follows the state before it, or ends with what that state
denotes. -/
theorem Machine.step_follows {m : Machine} (inv : m.Inv) :
    (∃ next, m.step = .inl next ∧ m.Follows next) ∨
      ∃ outcome, m.step = .inr outcome ∧ outcome.denote = m.denote := by
  cases mode : m.dispatch with
  | go => exact .inl ⟨goStep m, by simp only [step, mode], goStep_follows inv mode⟩
  | applyK =>
    cases top : m.k with
    | nil =>
      refine .inl ⟨{ m with k2Exp := some (.haltExp m.value), dispatch := .applyK2 },
        by simp only [step, mode, top], ⟨nofun, nofun, inv.k, inv.k2⟩, ?_, ?_⟩
      · simp [work, mode, top, workK]
      · simp only [denote, todo, mode, top, denoteK, haltCont, pure_bind]
    | cons frame k =>
      have turn : m.step = applyKFrame { m with k := k } frame := by simp only [step, mode, top]
      rcases applyKFrame_follows inv mode top with ⟨next, pop, follows⟩ | ⟨error, pop, denotes⟩
      · exact .inl ⟨next, turn.trans pop, follows⟩
      · exact .inr ⟨_, turn.trans pop, denotes.symm⟩
  | applyK2 =>
    obtain ⟨k2Exp, register⟩ := Option.ne_none_iff_exists'.mp (inv.k2Exp mode)
    cases top : m.k2 with
    | nil =>
      refine .inr ⟨.returned k2Exp m.counter, by simp only [step, mode, register, top], ?_⟩
      simp only [denote, todo, mode, register, top]
      rfl
    | cons frame k2 =>
      exact .inl ⟨applyK2Frame { m with k2 := k2, k2Exp := none } k2Exp frame,
        by simp only [step, mode, register, top], applyK2Frame_follows inv mode register top⟩

/-- The loop as a refinement of the recursive conversion. -/
def Machine.refinement : Lib.StepRefinement Machine.step Machine.denote Outcome.denote where
  Inv := Machine.Inv
  measure := Machine.work
  inv_next inv turn := by
    rcases step_follows inv with ⟨next, turned, follows⟩ | ⟨outcome, turned, -⟩
    · cases turned.symm.trans turn
      exact follows.inv
    · cases turned.symm.trans turn
  decreases inv turn := by
    rcases step_follows inv with ⟨next, turned, follows⟩ | ⟨outcome, turned, -⟩
    · cases turned.symm.trans turn
      exact follows.work
    · cases turned.symm.trans turn
  den_next inv turn := by
    rcases step_follows inv with ⟨next, turned, follows⟩ | ⟨outcome, turned, -⟩
    · cases turned.symm.trans turn
      exact follows.denote
    · cases turned.symm.trans turn
  den_result inv turn := by
    rcases step_follows inv with ⟨next, turned, -⟩ | ⟨outcome, turned, denotes⟩
    · cases turned.symm.trans turn
    · cases turned.symm.trans turn
      exact denotes

/-- At the start the machine has the whole conversion to do. -/
theorem Machine.denote_start (root : Ast.Exp) (counter : Nat) :
    (start root counter).denote = some (convert root counter).toOption := by
  simp only [denote, todo, start, denoteK, denoteK2, convert, bind_pure]

/-- With the fuel `convertDefunc` gives it, the loop stops with what `convert` computes. -/
theorem Machine.iterate_start (root : Ast.Exp) (counter : Nat) :
    ∃ outcome, Lib.iterate step ((start root counter).work + 1) (start root counter) =
        some outcome ∧
      outcome.denote = some (convert root counter).toOption := by
  obtain ⟨outcome, stops, denotes⟩ :=
    refinement.iterate (inv_start root counter) (Nat.lt_succ_self _)
  exact ⟨outcome, stops, denotes.trans (denote_start root counter)⟩

/-! ## Outcomes and results -/

theorem Except.toOption_eq_some {ε α : Type} {x : Except ε α} {a : α} :
    x.toOption = some a ↔ x = .ok a := by
  cases x with
  | ok b => simp [Except.toOption]
  | error e => simp [Except.toOption]

theorem Except.toOption_eq_none {ε α : Type} {x : Except ε α} :
    x.toOption = none ↔ ∃ e, x = .error e := by
  cases x with
  | ok b => simp [Except.toOption]
  | error e => simp [Except.toOption]

/-- The machine returns what the conversion returns. -/
theorem Outcome.returned_iff {outcome : Outcome} {x : Except RuntimeError (Exp × Nat)}
    (denotes : outcome.denote = some x.toOption) {exp : Exp} {counter : Nat} :
    outcome = .returned exp counter ↔ x = .ok (exp, counter) := by
  rw [← Except.toOption_eq_some]
  cases outcome with
  | returned exp' counter' =>
    rw [← Option.some.inj denotes]
    simp
  | threw error => simp [← Option.some.inj denotes]
  | nullPointer => cases denotes

/-- The machine throws where the conversion does. -/
theorem Outcome.threw_iff {outcome : Outcome} {x : Except RuntimeError (Exp × Nat)}
    (denotes : outcome.denote = some x.toOption) :
    (∃ error, outcome = .threw error) ↔ ∃ error, x = .error error := by
  rw [← Except.toOption_eq_none]
  cases outcome with
  | returned exp counter => simp [← Option.some.inj denotes]
  | threw error => simp [← Option.some.inj denotes]
  | nullPointer => cases denotes

/-- `convertDefunc` returns a result exactly if `convert` does. -/
theorem convertDefunc_eq_ok {root : Ast.Exp} {counter : Nat} {result : Exp × Nat} :
    convertDefunc root counter = .ok result ↔ convert root counter = .ok result := by
  obtain ⟨outcome, stops, denotes⟩ := Machine.iterate_start root counter
  obtain ⟨exp, counter'⟩ := result
  rw [← Outcome.returned_iff denotes]
  simp only [convertDefunc, stops]
  cases outcome with
  | returned exp' counter'' => simp
  | threw error => simp
  | nullPointer => cases denotes

/-! ## When the conversion throws -/

/-- The values the conversion of `e` can pass to its continuation. -/
def Yields : Ast.Exp → Value → Prop
  | .intExp value, v => v = .intValue value
  | _, v => ∃ name, v = .varValue name

/-- A tree that applies a literal is not converted, whatever its continuation is. -/
theorem convertWith_throws_of_appliesInt {e : Ast.Exp} (applies : e.appliesInt = true)
    (k : Cont) : (convertWith e k).Throws := by
  induction e generalizing k with
  | intExp value => cases applies
  | varExp name => cases applies
  | lamExp param body ih => exact (ih applies haltCont).bind _
  | appExp fn arg ihFn ihArg =>
    simp only [Ast.Exp.appliesInt, Bool.or_eq_true] at applies
    rcases applies with (applies | applies) | applies
    · cases fn with
      | intExp value => exact fun _ => ⟨_, rfl⟩
      | _ => cases applies
    · exact ihFn applies _
    · exact convertWith_throws (fun _ => .bind_right fun _ => ihArg applies _) fn
  | bopExp bop arg1 arg2 ih1 ih2 =>
    simp only [Ast.Exp.appliesInt, Bool.or_eq_true] at applies
    rcases applies with applies | applies
    · exact ih1 applies _
    · exact convertWith_throws (fun _ => ih2 applies _) arg1
  | ifExp cond then_ els ihCond ihThen ihEls =>
    simp only [Ast.Exp.appliesInt, Bool.or_eq_true] at applies
    rcases applies with (applies | applies) | applies
    · exact ihCond applies _
    · exact convertWith_throws (fun _ => .bind_right fun _ => .bind_right fun _ =>
        .bind_right fun _ => (ihThen applies _).bind _) cond
    · exact convertWith_throws (fun _ => .bind_right fun _ => .bind_right fun _ =>
        .bind_right fun _ => .bind_right fun _ => (ihEls applies _).bind _) cond

/-- A computation that returns from every counter value. -/
def FreshM.Returns {α : Type} (x : FreshM α) : Prop := ∀ c, ∃ result, x c = .ok result

theorem FreshM.Returns.bind {α β : Type} {x : FreshM α} {g : α → FreshM β}
    (returns : x.Returns) (next : ∀ a, (g a).Returns) : (x >>= g).Returns := by
  intro c
  obtain ⟨⟨a, c'⟩, ran⟩ := returns c
  exact (FreshM.bind_ok (g := g) ran).symm ▸ next a c'

theorem FreshM.Returns.pure {α : Type} (a : α) : (pure a : FreshM α).Returns :=
  fun c => ⟨(a, c), rfl⟩

theorem fresh_returns : fresh.Returns := fun c => ⟨(tmp c, c + 1), rfl⟩

/-- A tree that applies no literal is converted, if the continuation returns on what the tree
yields. -/
theorem convertWith_returns {e : Ast.Exp} (applies : e.appliesInt = false) {k : Cont}
    (returns : ∀ value, Yields e value → (k value).Returns) : (convertWith e k).Returns := by
  induction e generalizing k with
  | intExp value => exact returns _ rfl
  | varExp name => exact returns _ ⟨name, rfl⟩
  | lamExp param body ih =>
    exact (ih applies fun _ _ => .pure _).bind fun _ => fresh_returns.bind fun name =>
      (returns _ ⟨name, rfl⟩).bind fun _ => .pure _
  | appExp fn arg ihFn ihArg =>
    simp only [Ast.Exp.appliesInt, Bool.or_eq_false_iff] at applies
    obtain ⟨⟨named, appliesFn⟩, appliesArg⟩ := applies
    refine ihFn appliesFn fun fnValue yields => ?_
    obtain ⟨name, rfl⟩ : ∃ name, fnValue = .varValue name := by
      cases fn with
      | intExp value => cases named
      | _ => exact yields
    exact ihArg appliesArg fun _ _ => fresh_returns.bind fun name =>
      (returns _ ⟨name, rfl⟩).bind fun _ => .pure _
  | bopExp bop arg1 arg2 ih1 ih2 =>
    simp only [Ast.Exp.appliesInt, Bool.or_eq_false_iff] at applies
    exact ih1 applies.1 fun _ _ => ih2 applies.2 fun _ _ => fresh_returns.bind fun name =>
      (returns _ ⟨name, rfl⟩).bind fun _ => .pure _
  | ifExp cond then_ els ihCond ihThen ihEls =>
    simp only [Ast.Exp.appliesInt, Bool.or_eq_false_iff] at applies
    exact ihCond applies.1.1 fun _ _ => fresh_returns.bind fun _ => fresh_returns.bind fun slot =>
      (returns _ ⟨slot, rfl⟩).bind fun _ =>
      (ihThen applies.1.2 fun _ _ => .pure _).bind fun _ =>
      (ihEls applies.2 fun _ _ => .pure _).bind fun _ => .pure _

/-- The conversion fails exactly on trees that apply a literal. -/
theorem convert_eq_error {root : Ast.Exp} {counter : Nat} :
    (∃ error, convert root counter = .error error) ↔ root.appliesInt = true := by
  constructor
  · rintro ⟨error, threw⟩
    by_contra applies
    obtain ⟨result, ran⟩ := convertWith_returns (k := haltCont) (by simpa using applies)
      (fun _ _ => .pure _) counter
    cases threw.symm.trans ran
  · exact fun applies => convertWith_throws_of_appliesInt applies haltCont counter

/-- The loop of `convertDefunc`, started on `root` with empty stacks, stops. It throws exactly
when `convert` does, which is when some application of the tree applies an integer literal,
and otherwise returns the term and leaves the counter `convert` does. -/
theorem convertDefunc_agrees_convert (root : Ast.Exp) (counter : Nat) :
    ∃ fuel outcome,
      Lib.iterate Machine.step fuel (Machine.start root counter) = some outcome ∧
      ((∃ error, outcome = .threw error) ↔ ∃ error, convert root counter = .error error) ∧
      ((∃ error, convert root counter = .error error) ↔ root.appliesInt = true) ∧
      ∀ exp counter', outcome = .returned exp counter' ↔
        convert root counter = .ok (exp, counter') := by
  obtain ⟨outcome, stops, denotes⟩ := Machine.iterate_start root counter
  exact ⟨_, outcome, stops, Outcome.threw_iff denotes, convert_eq_error,
    fun _ _ => Outcome.returned_iff denotes⟩

end Lambcalc.Anf
