import Lambcalc.Convert.Fresh

/-!
# Closure conversion closes every function

`Closes scope t u` says what the pass makes of each node: which parameter a function gains, which
record follows it, what its body projects, and what stands in front of a call. It is stated
without the pass, and `closes_close` shows that the pass leaves related terms. `scope` holds the
variables in scope in the output.
-/

namespace Lambcalc.Convert

open Anf

/-! ## Variables -/

/-- The variables an operand reads: code labels are none. -/
def readVars : Value → List Var
  | .varValue var => [var]
  | _ => []

/-- The variables that occur free in `t`, code labels aside. -/
def freeVariables : Exp → Finset Var
  | .haltExp value => (readVars value).toFinset
  | .funExp name params body rest =>
    (freeVariables body \ params.toFinset) ∪ (freeVariables rest \ {name})
  | .joinExp _ slot body rest => (freeVariables body \ slot.toList.toFinset) ∪ freeVariables rest
  | .jumpExp _ slotValue => (slotValue.toList.flatMap readVars).toFinset
  | .appExp name funName paramValues rest =>
    (funName :: paramValues.flatMap readVars).toFinset ∪ (freeVariables rest \ {name})
  | .bopExp name _ param1 param2 rest =>
    (readVars param1 ++ readVars param2).toFinset ∪ (freeVariables rest \ {name})
  | .ifExp cond thenBranch elseBranch =>
    (readVars cond).toFinset ∪ freeVariables thenBranch ∪ freeVariables elseBranch
  | .tupleExp name values rest =>
    (values.flatMap readVars).toFinset ∪ (freeVariables rest \ {name})
  | .projExp name tuple _ rest => {tuple} ∪ (freeVariables rest \ {name})

theorem readVars_subset (value : Value) : readVars value ⊆ value.names := by
  cases value with
  | varValue var => exact List.Subset.refl _
  | intValue value => exact List.nil_subset _
  | globValue glob => exact List.nil_subset _

theorem flatMap_readVars_subset (values : List Value) :
    values.flatMap readVars ⊆ values.flatMap Value.names := by
  intro x member
  obtain ⟨value, here, reads⟩ := List.mem_flatMap.mp member
  exact List.mem_flatMap.mpr ⟨value, here, readVars_subset value reads⟩

/-! ## What the pass makes of each node -/

/-- Projections from the record `tuple`: of index `i` to `x`, for each `(x, i)` in order. -/
def projections (tuple : Var) (binds : List (Var × Nat)) (body : Exp) : Exp :=
  binds.foldr (fun (x, i) rest => .projExp x tuple i rest) body

/-- The loop of the pass puts the projection of the last captured variable in front. -/
theorem captures_eq_projections (closureParam : Var) (vars : List Var) (i : Nat) (body : Exp) :
    captures closureParam vars i body =
      projections closureParam (vars.zipIdx i).reverse body := by
  induction vars generalizing i body with
  | nil => rfl
  | cons var vars ih => simp [captures, ih, projections]

/-- `u` is `t` with its functions closed, where the variables of `scope` are in scope. -/
inductive Closes : Finset Var → Exp → Exp → Prop where
  | haltExp {scope value} : Closes scope (.haltExp value) (.haltExp value)
  | funExp {scope : Finset Var} {name : Var} {params : List Var} {body rest body' rest' : Exp}
      (closureParam : Var) (vars : List Var)
      (extra : closureParam ∉ params ∧ closureParam ∉ vars)
      (once : vars.Nodup) (inScope : ∀ x ∈ vars, x ∈ scope)
      (closed : freeVariables (projections closureParam (vars.zipIdx 1).reverse body') ⊆
        (closureParam :: params).toFinset)
      (inBody : Closes ((closureParam :: params).toFinset ∪ vars.toFinset) body body')
      (inRest : Closes (scope ∪ {name}) rest rest') :
      Closes scope (.funExp name params body rest)
        (.funExp name (closureParam :: params)
          (projections closureParam (vars.zipIdx 1).reverse body')
          (.tupleExp name (.globValue name :: vars.map .varValue) rest'))
  | joinExp {scope : Finset Var} {name slot body rest body' rest'}
      (inBody : Closes (scope ∪ slot.toList.toFinset) body body')
      (inRest : Closes scope rest rest') :
      Closes scope (.joinExp name slot body rest) (.joinExp name slot body' rest')
  | jumpExp {scope joinName slotValue} :
      Closes scope (.jumpExp joinName slotValue) (.jumpExp joinName slotValue)
  | appExp {scope : Finset Var} {name g : Var} {values : List Value} {rest rest' : Exp}
      (proj : Var) (fresh : proj ∉ scope) (callee : g ∈ scope)
      (arguments : ∀ x ∈ values.flatMap readVars, x ∈ scope)
      (inRest : Closes (scope ∪ {proj} ∪ {name}) rest rest') :
      Closes scope (.appExp name g values rest)
        (.projExp proj g 0 (.appExp name proj (.varValue g :: values) rest'))
  | bopExp {scope : Finset Var} {name bop value1 value2 rest rest'}
      (inRest : Closes (scope ∪ {name}) rest rest') :
      Closes scope (.bopExp name bop value1 value2 rest) (.bopExp name bop value1 value2 rest')
  | ifExp {scope cond thenBranch elseBranch then' else'}
      (inThen : Closes scope thenBranch then') (inElse : Closes scope elseBranch else') :
      Closes scope (.ifExp cond thenBranch elseBranch) (.ifExp cond then' else')
  | tupleExp {scope : Finset Var} {name values rest rest'}
      (inRest : Closes (scope ∪ {name}) rest rest') :
      Closes scope (.tupleExp name values rest) (.tupleExp name values rest')
  | projExp {scope : Finset Var} {name tuple index rest rest'}
      (inRest : Closes (scope ∪ {name}) rest rest') :
      Closes scope (.projExp name tuple index rest) (.projExp name tuple index rest')

/-! ## The pass -/

theorem freeVariables_projections {tuple : Var} {binds : List (Var × Nat)} {body : Exp} {x : Var}
    (member : x ∈ freeVariables (projections tuple binds body)) :
    x = tuple ∨ (x ∈ freeVariables body ∧ x ∉ binds.map Prod.fst) := by
  induction binds with
  | nil => exact .inr ⟨member, List.not_mem_nil⟩
  | cons bind binds ih =>
    simp only [projections, List.foldr_cons, freeVariables, Finset.mem_union, Finset.mem_singleton,
      Finset.mem_sdiff] at member
    rcases member with isTuple | ⟨inside, ne⟩
    · exact .inl isTuple
    · rcases ih inside with isTuple | ⟨inBody, notBound⟩
      · exact .inl isTuple
      · exact .inr ⟨inBody, List.not_mem_cons_of_ne_of_not_mem ne notBound⟩

theorem map_fst_binds (vars : List Var) (i : Nat) :
    (vars.zipIdx i).reverse.map Prod.fst = vars.reverse := by
  rw [List.map_reverse, List.zipIdx_map_fst]

section Functions

variable {name : Var} {params : List Var} {body rest : Exp}

/-- The body of a converted function only reads its parameters. -/
theorem freeVariables_body (tidy : (Exp.funExp name params body rest).Tidy) (closureParam : Var)
    {body' : Exp} (sub : freeVariables body' ⊆ body.free) :
    freeVariables (projections closureParam
        ((freeVars (.funExp name params body rest)).toList.zipIdx 1).reverse body') ⊆
      (closureParam :: params).toFinset := by
  intro x member
  rcases freeVariables_projections member with rfl | ⟨inBody, notBound⟩
  · simp
  · have notCaptured : x ∉ freeVars (.funExp name params body rest) := by
      rwa [map_fst_binds, List.mem_reverse] at notBound
    rw [mem_freeVars tidy] at notCaptured
    by_contra notParam
    refine notCaptured
      (Finset.mem_union_left _ (Finset.mem_sdiff.mpr ⟨sub inBody, fun isParam => ?_⟩))
    exact notParam (List.mem_toFinset.mpr (List.mem_cons_of_mem _ (List.mem_toFinset.mp isParam)))

end Functions

/-- What a converted term reads, the term it comes from reads. -/
theorem freeVariables_close {t : Exp} (tidy : t.Tidy) (c : Nat) :
    freeVariables (t.close c).1 ⊆ t.free := by
  induction t generalizing c with
  | haltExp value =>
    exact fun x member => List.mem_toFinset.mpr
      (readVars_subset value (List.mem_toFinset.mp member))
  | funExp name params body rest ihBody ihRest =>
    intro x member
    rw [Exp.close_funExp, captures_eq_projections] at member
    have closed := freeVariables_body tidy (closureName c)
      (ihBody tidy.funBody (c + 1 + rest.closes))
    simp only [freeVariables, Finset.mem_union, Finset.mem_sdiff] at member
    rcases member with ⟨inBody, notParam⟩ | ⟨inTuple | ⟨inRest, ne⟩, -⟩
    · exact absurd (closed inBody) notParam
    · rw [← mem_freeVars tidy, ← Lib.OrdSet.mem_toList]
      simpa [readVars] using inTuple
    · exact Finset.mem_union_right _ (Finset.mem_sdiff.mpr ⟨ihRest tidy.funRest _ inRest, ne⟩)
  | joinExp name slot body rest ihBody ihRest =>
    rw [Exp.close_joinExp]
    exact Finset.union_subset_union
      (Finset.sdiff_subset_sdiff (ihBody tidy.joinBody _) le_rfl) (ihRest tidy.joinRest c)
  | jumpExp joinName slotValue =>
    exact fun x member => List.mem_toFinset.mpr
      (flatMap_readVars_subset _ (List.mem_toFinset.mp member))
  | appExp name funName paramValues rest ih =>
    intro x member
    have sub := ih tidy.appRest (c + 1)
    simp only [Exp.close, freeVariables, Finset.mem_union, Finset.mem_sdiff, List.mem_toFinset,
      Finset.mem_singleton, List.flatMap_cons, List.mem_cons, List.mem_append] at member
    simp only [Exp.free, Finset.mem_union, Finset.mem_sdiff, List.mem_toFinset, List.mem_cons,
      Finset.mem_singleton]
    rcases member with isFun | ⟨(isProj | (isFun | argument)) | ⟨inRest, ne⟩, notProj⟩
    · exact .inl (.inl isFun)
    · exact absurd isProj notProj
    · exact .inl (.inl (List.mem_singleton.mp isFun))
    · exact .inl (.inr (flatMap_readVars_subset _ argument))
    · exact .inr ⟨sub inRest, ne⟩
  | bopExp name bop param1 param2 rest ih =>
    refine Finset.union_subset_union (fun x member => ?_)
      (Finset.sdiff_subset_sdiff (ih tidy.bopRest c) le_rfl)
    rw [List.mem_toFinset, List.mem_append] at member ⊢
    exact member.imp (fun reads => readVars_subset _ reads) fun reads => readVars_subset _ reads
  | ifExp cond thenBranch elseBranch ihThen ihElse =>
    rw [Exp.close_ifExp]
    refine Finset.union_subset_union (Finset.union_subset_union (fun x member => ?_)
      (ihThen tidy.thenBranch _)) (ihElse tidy.elseBranch c)
    exact List.mem_toFinset.mpr (readVars_subset cond (List.mem_toFinset.mp member))
  | tupleExp name values rest ih =>
    refine Finset.union_subset_union (fun x member => ?_)
      (Finset.sdiff_subset_sdiff (ih tidy.tupleRest c) le_rfl)
    exact List.mem_toFinset.mpr (flatMap_readVars_subset _ (List.mem_toFinset.mp member))
  | projExp name tuple index rest ih =>
    exact Finset.union_subset_union le_rfl
      (Finset.sdiff_subset_sdiff (ih tidy.projRest c) le_rfl)

/-! ## What is generated -/

theorem closureName_injective {i j : Nat} (eq : closureName i = closureName j) : i = j :=
  Lib.append_toString_injective eq

/-- Visits only generate names with numbers that are not taken yet. -/
theorem generated_later {t : Exp} {c : Nat} {x : Var} (made : x ∈ t.generated c) :
    ∃ i, c ≤ i ∧ (x = closureName i ∨ x = projName i) := by
  induction t generalizing c with
  | haltExp value => cases made
  | funExp name params body rest ihBody ihRest =>
    rcases List.mem_cons.mp made with eq | made
    · exact ⟨c, le_rfl, .inl eq⟩
    · rcases List.mem_append.mp made with inRest | inBody
      · obtain ⟨i, later, eq⟩ := ihRest inRest
        exact ⟨i, by omega, eq⟩
      · obtain ⟨i, later, eq⟩ := ihBody inBody
        exact ⟨i, by omega, eq⟩
  | joinExp name slot body rest ihBody ihRest =>
    rcases List.mem_append.mp made with inRest | inBody
    · exact ihRest inRest
    · obtain ⟨i, later, eq⟩ := ihBody inBody
      exact ⟨i, by omega, eq⟩
  | jumpExp joinName slotValue => cases made
  | appExp name funName paramValues rest ih =>
    rcases List.mem_cons.mp made with eq | inRest
    · exact ⟨c, le_rfl, .inr eq⟩
    · obtain ⟨i, later, eq⟩ := ih inRest
      exact ⟨i, by omega, eq⟩
  | bopExp name bop param1 param2 rest ih => exact ih made
  | ifExp cond thenBranch elseBranch ihThen ihElse =>
    rcases List.mem_append.mp made with inElse | inThen
    · exact ihElse inElse
    · obtain ⟨i, later, eq⟩ := ihThen inThen
      exact ⟨i, by omega, eq⟩
  | tupleExp name values rest ih => exact ih made
  | projExp name tuple index rest ih => exact ih made

/-- What is known where `t` is visited with `counter_` at `c`: what `t` reads is in scope, and no
name in scope or bound in `t` is generated by the visits. -/
structure Settled (scope : Finset Var) (t : Exp) (c : Nat) : Prop where
  tidy : t.Tidy
  inScope : t.free ⊆ scope
  fresh : ∀ x, x ∈ scope ∨ x ∈ t.boundNames → x ∉ t.generated c

section Settled

variable {scope : Finset Var} {t part : Exp} {c d : Nat}

/-- A part of `t` is visited with the binders `names` over it in scope too. -/
theorem Settled.under (settled : Settled scope t c) (names : Finset Var) (tidy : part.Tidy)
    (bound : ∀ x, x ∈ names ∨ x ∈ part.boundNames → x ∈ t.boundNames)
    (free : part.free \ names ⊆ t.free) (made : part.generated d ⊆ t.generated c) :
    Settled (scope ∪ names) part d := by
  refine ⟨tidy, fun x occurs => ?_, fun x occurs isMade => settled.fresh x ?_ (made isMade)⟩
  · by_cases inNames : x ∈ names
    · exact Finset.mem_union_right _ inNames
    · exact Finset.mem_union_left _
        (settled.inScope (free (Finset.mem_sdiff.mpr ⟨occurs, inNames⟩)))
  · rcases occurs with inScope | binds
    · exact (Finset.mem_union.mp inScope).imp_right fun inNames => bound x (.inl inNames)
    · exact .inr (bound x (.inr binds))

/-- A part of `t` under no binder. -/
theorem Settled.branch (settled : Settled scope t c) (tidy : part.Tidy)
    (bound : part.boundNames ⊆ t.boundNames) (free : part.free ⊆ t.free)
    (made : part.generated d ⊆ t.generated c) : Settled scope part d :=
  ⟨tidy, free.trans settled.inScope, fun x occurs isMade =>
    settled.fresh x (occurs.imp_right fun binds => bound binds) (made isMade)⟩

/-- The rest of a let-like node that binds `name`. -/
theorem Settled.letRest {name : Var} (settled : Settled scope t c) (tidy : part.Tidy)
    (bound : t.boundNames = name :: part.boundNames) (free : part.free \ {name} ⊆ t.free)
    (made : part.generated d ⊆ t.generated c) : Settled (scope ∪ {name}) part d :=
  settled.under {name} tidy
    (fun _ binds => bound ▸ List.mem_cons.mpr (binds.imp_left Finset.mem_singleton.mp)) free made

/-- A projection that is inserted takes a number. -/
theorem Settled.appRest {name funName : Var} {paramValues : List Value} {rest : Exp}
    (settled : Settled scope (.appExp name funName paramValues rest) c) :
    Settled (scope ∪ {projName c} ∪ {name}) rest (c + 1) := by
  obtain ⟨tidy, inScope, fresh⟩ := settled.letRest settled.tidy.appRest rfl
    Finset.subset_union_right (List.subset_cons_self ..)
  refine ⟨tidy, inScope.trans ?_, fun x occurs isMade => ?_⟩
  · exact Finset.union_subset_union Finset.subset_union_left le_rfl
  · by_cases isProj : x = projName c
    · obtain ⟨i, later, isClosure | eq⟩ := generated_later isMade
      · exact closureName_ne_projName i c (isClosure.symm.trans isProj)
      · exact absurd (projName_injective (isProj.symm.trans eq)) (by omega)
    · exact fresh x (by simpa [isProj] using occurs) isMade

/-- A body is visited with the parameters and the captured variables in scope. -/
theorem Settled.funBody {name : Var} {params : List Var} {body rest : Exp}
    (settled : Settled scope (.funExp name params body rest) c) :
    Settled ((closureName c :: params).toFinset ∪
        (freeVars (.funExp name params body rest)).toList.toFinset) body
      (c + 1 + rest.closes) := by
  refine ⟨settled.tidy.funBody, fun x occurs => ?_, fun x occurs isMade => ?_⟩
  · simp only [Finset.mem_union, List.mem_toFinset, List.mem_cons, Lib.OrdSet.mem_toList,
      mem_freeVars settled.tidy, Exp.free, Finset.mem_sdiff]
    tauto
  · have made : x ∈ (Exp.funExp name params body rest).generated c :=
      List.mem_cons_of_mem _ (List.mem_append_right _ isMade)
    simp only [Finset.mem_union, List.mem_toFinset, List.mem_cons, Lib.OrdSet.mem_toList,
      mem_freeVars settled.tidy] at occurs
    rcases occurs with ((rfl | isParam) | isVar) | binds
    · obtain ⟨i, later, eq | isProj⟩ := generated_later isMade
      · exact absurd (closureName_injective eq) (by omega)
      · exact closureName_ne_projName c i isProj
    · exact settled.fresh x (.inr (List.mem_cons_of_mem _ (by simp [isParam]))) made
    · exact settled.fresh x (.inl (settled.inScope isVar)) made
    · exact settled.fresh x (.inr (List.mem_cons_of_mem _ (by simp [binds]))) made

theorem Settled.funRest {name : Var} {params : List Var} {body rest : Exp}
    (settled : Settled scope (.funExp name params body rest) c) :
    Settled (scope ∪ {name}) rest (c + 1) := by
  refine settled.under {name} settled.tidy.funRest (fun x binds => ?_)
    Finset.subset_union_right fun x inRest => ?_
  · simp only [Exp.boundNames, List.mem_cons, List.mem_append, Finset.mem_singleton] at binds ⊢
    tauto
  · exact List.mem_cons_of_mem _ (List.mem_append_left _ inRest)

theorem Settled.joinBody {name : Var} {slot : Option Var} {body rest : Exp}
    (settled : Settled scope (.joinExp name slot body rest) c) :
    Settled (scope ∪ slot.toList.toFinset) body (c + rest.closes) := by
  refine settled.under _ settled.tidy.joinBody (fun x binds => ?_) Finset.subset_union_left
    (List.subset_append_right ..)
  simp only [Exp.boundNames, List.mem_cons, List.mem_append, List.mem_toFinset] at binds ⊢
  tauto

theorem Settled.joinRest {name : Var} {slot : Option Var} {body rest : Exp}
    (settled : Settled scope (.joinExp name slot body rest) c) : Settled scope rest c :=
  settled.branch settled.tidy.joinRest
    (fun _ binds => List.mem_cons_of_mem _ (List.mem_append_right _ binds))
    Finset.subset_union_right (List.subset_append_left ..)

theorem Settled.bopRest {name : Var} {bop : Ast.Bop} {value1 value2 : Value} {rest : Exp}
    (settled : Settled scope (.bopExp name bop value1 value2 rest) c) :
    Settled (scope ∪ {name}) rest c :=
  settled.letRest settled.tidy.bopRest rfl Finset.subset_union_right (List.Subset.refl _)

theorem Settled.thenBranch {cond : Value} {thenBranch elseBranch : Exp}
    (settled : Settled scope (.ifExp cond thenBranch elseBranch) c) :
    Settled scope thenBranch (c + elseBranch.closes) :=
  settled.branch settled.tidy.thenBranch (List.subset_append_left ..)
    (Finset.subset_union_right.trans Finset.subset_union_left) (List.subset_append_right ..)

theorem Settled.elseBranch {cond : Value} {thenBranch elseBranch : Exp}
    (settled : Settled scope (.ifExp cond thenBranch elseBranch) c) :
    Settled scope elseBranch c :=
  settled.branch settled.tidy.elseBranch (List.subset_append_right ..)
    Finset.subset_union_right (List.subset_append_left ..)

theorem Settled.tupleRest {name : Var} {values : List Value} {rest : Exp}
    (settled : Settled scope (.tupleExp name values rest) c) :
    Settled (scope ∪ {name}) rest c :=
  settled.letRest settled.tidy.tupleRest rfl Finset.subset_union_right (List.Subset.refl _)

theorem Settled.projRest {name tuple : Var} {index : Nat} {rest : Exp}
    (settled : Settled scope (.projExp name tuple index rest) c) :
    Settled (scope ∪ {name}) rest c :=
  settled.letRest settled.tidy.projRest rfl Finset.subset_union_right (List.Subset.refl _)

end Settled

/-- The pass leaves what `Closes` says. -/
theorem closes_close {scope : Finset Var} {t : Exp} {c : Nat} (settled : Settled scope t c) :
    Closes scope t (t.close c).1 := by
  induction t generalizing scope c with
  | haltExp value => exact .haltExp
  | funExp name params body rest ihBody ihRest =>
    have made : closureName c ∈ (Exp.funExp name params body rest).generated c :=
      List.mem_cons_self
    rw [Exp.close_funExp, captures_eq_projections]
    refine .funExp (closureName c) _ ⟨fun member => ?_, fun member => ?_⟩ (Lib.OrdSet.nodup _)
      (fun x member => settled.inScope ((mem_freeVars settled.tidy).mp member)) ?_
      (ihBody settled.funBody) (ihRest settled.funRest)
    · exact settled.fresh _ (.inr (List.mem_cons_of_mem _ (by simp [member]))) made
    · exact settled.fresh _ (.inl (settled.inScope ((mem_freeVars settled.tidy).mp member))) made
    · exact freeVariables_body settled.tidy _ (freeVariables_close settled.tidy.funBody _)
  | joinExp name slot body rest ihBody ihRest =>
    rw [Exp.close_joinExp]
    exact .joinExp (ihBody settled.joinBody) (ihRest settled.joinRest)
  | jumpExp joinName slotValue => exact .jumpExp
  | appExp name funName paramValues rest ih =>
    have reads : ∀ x, x = funName ∨ x ∈ paramValues.flatMap Value.names → x ∈ scope :=
      fun x occurs => settled.inScope (Finset.mem_union_left _ (by simpa using occurs))
    exact .appExp (projName c) (fun member => settled.fresh _ (.inl member) List.mem_cons_self)
      (reads _ (.inl rfl)) (fun x member => reads x (.inr (flatMap_readVars_subset _ member)))
      (ih settled.appRest)
  | bopExp name bop param1 param2 rest ih => exact .bopExp (ih settled.bopRest)
  | ifExp cond thenBranch elseBranch ihThen ihElse =>
    rw [Exp.close_ifExp]
    exact .ifExp (ihThen settled.thenBranch) (ihElse settled.elseBranch)
  | tupleExp name values rest ih => exact .tupleExp (ih settled.tupleRest)
  | projExp name tuple index rest ih => exact .projExp (ih settled.projRest)

/-! ## Bound variables -/

/-- Every variable that `t` reads outside the functions it contains is one of `vars`, or a slot or
let-bound name before it. -/
def ReadsBound : Finset Var → Exp → Prop
  | vars, .haltExp value => ∀ x ∈ readVars value, x ∈ vars
  | vars, .funExp _ _ _ rest => ReadsBound vars rest
  | vars, .joinExp _ slot body rest =>
    ReadsBound (vars ∪ slot.toList.toFinset) body ∧ ReadsBound vars rest
  | vars, .jumpExp _ slotValue => ∀ x ∈ slotValue.toList.flatMap readVars, x ∈ vars
  | vars, .appExp name funName paramValues rest =>
    funName ∈ vars ∧ (∀ x ∈ paramValues.flatMap readVars, x ∈ vars) ∧
      ReadsBound (vars ∪ {name}) rest
  | vars, .bopExp name _ param1 param2 rest =>
    (∀ x ∈ readVars param1 ++ readVars param2, x ∈ vars) ∧ ReadsBound (vars ∪ {name}) rest
  | vars, .ifExp cond thenBranch elseBranch =>
    (∀ x ∈ readVars cond, x ∈ vars) ∧ ReadsBound vars thenBranch ∧ ReadsBound vars elseBranch
  | vars, .tupleExp name values rest =>
    (∀ x ∈ values.flatMap readVars, x ∈ vars) ∧ ReadsBound (vars ∪ {name}) rest
  | vars, .projExp name tuple _ rest => tuple ∈ vars ∧ ReadsBound (vars ∪ {name}) rest

instance decidableReadsBound : (vars : Finset Var) → (t : Exp) → Decidable (ReadsBound vars t)
  | vars, .haltExp value => inferInstanceAs (Decidable (∀ x ∈ readVars value, x ∈ vars))
  | vars, .funExp _ _ _ rest => decidableReadsBound vars rest
  | vars, .joinExp _ slot body rest =>
    have := decidableReadsBound (vars ∪ slot.toList.toFinset) body
    have := decidableReadsBound vars rest
    inferInstanceAs (Decidable (_ ∧ _))
  | vars, .jumpExp _ slotValue =>
    inferInstanceAs (Decidable (∀ x ∈ slotValue.toList.flatMap readVars, x ∈ vars))
  | vars, .appExp name funName paramValues rest =>
    have := decidableReadsBound (vars ∪ {name}) rest
    inferInstanceAs
      (Decidable (funName ∈ vars ∧ (∀ x ∈ paramValues.flatMap readVars, x ∈ vars) ∧ _))
  | vars, .bopExp name _ param1 param2 rest =>
    have := decidableReadsBound (vars ∪ {name}) rest
    inferInstanceAs (Decidable ((∀ x ∈ readVars param1 ++ readVars param2, x ∈ vars) ∧ _))
  | vars, .ifExp cond thenBranch elseBranch =>
    have := decidableReadsBound vars thenBranch
    have := decidableReadsBound vars elseBranch
    inferInstanceAs (Decidable ((∀ x ∈ readVars cond, x ∈ vars) ∧ _ ∧ _))
  | vars, .tupleExp name values rest =>
    have := decidableReadsBound (vars ∪ {name}) rest
    inferInstanceAs (Decidable ((∀ x ∈ values.flatMap readVars, x ∈ vars) ∧ _))
  | vars, .projExp name tuple _ rest =>
    have := decidableReadsBound (vars ∪ {name}) rest
    inferInstanceAs (Decidable (tuple ∈ vars ∧ _))

/-- More variables in scope do no harm. -/
theorem ReadsBound.mono {vars vars' : Finset Var} {t : Exp} (reads : ReadsBound vars t)
    (sub : vars ⊆ vars') : ReadsBound vars' t := by
  induction t generalizing vars vars' with
  | haltExp value => exact fun x member => sub (reads x member)
  | funExp name params body rest ihBody ihRest => exact ihRest reads sub
  | joinExp name slot body rest ihBody ihRest =>
    exact ⟨ihBody reads.1 (Finset.union_subset_union sub le_rfl), ihRest reads.2 sub⟩
  | jumpExp joinName slotValue => exact fun x member => sub (reads x member)
  | appExp name funName paramValues rest ih =>
    obtain ⟨callee, arguments, reads⟩ := reads
    exact ⟨sub callee, fun x member => sub (arguments x member),
      ih reads (Finset.union_subset_union sub le_rfl)⟩
  | bopExp name bop param1 param2 rest ih =>
    exact ⟨fun x member => sub (reads.1 x member),
      ih reads.2 (Finset.union_subset_union sub le_rfl)⟩
  | ifExp cond thenBranch elseBranch ihThen ihElse =>
    exact ⟨fun x member => sub (reads.1 x member), ihThen reads.2.1 sub, ihElse reads.2.2 sub⟩
  | tupleExp name values rest ih =>
    exact ⟨fun x member => sub (reads.1 x member),
      ih reads.2 (Finset.union_subset_union sub le_rfl)⟩
  | projExp name tuple index rest ih =>
    exact ⟨sub reads.1, ih reads.2 (Finset.union_subset_union sub le_rfl)⟩

theorem readsBound_captures {closureParam : Var} {scope : Finset Var} (param : closureParam ∈ scope)
    {vars : List Var} {i : Nat} {body : Exp}
    (reads : ReadsBound (scope ∪ vars.toFinset) body) :
    ReadsBound scope (captures closureParam vars i body) := by
  induction vars generalizing i body with
  | nil =>
    refine reads.mono fun x member => ?_
    simpa using member
  | cons var vars ih =>
    refine ih ⟨Finset.mem_union_left _ param, reads.mono fun x member => ?_⟩
    simp only [Finset.mem_union, List.mem_toFinset, List.mem_cons, Finset.mem_singleton] at member ⊢
    tauto

/-- A converted term reads what is in scope, its functions read their parameters, and a captured
variable is bound before the record is made that captures it. -/
theorem readsBound_close {scope : Finset Var} {t : Exp} {c : Nat} (settled : Settled scope t c) :
    ReadsBound scope (t.close c).1 ∧
      ∀ f ∈ functions (t.close c).1, ReadsBound f.2.1.toFinset f.2.2 := by
  induction t generalizing scope c with
  | haltExp value =>
    refine ⟨fun x member => settled.inScope ?_, fun _ member => (List.not_mem_nil member).elim⟩
    exact List.mem_toFinset.mpr (readVars_subset value member)
  | funExp name params body rest ihBody ihRest =>
    obtain ⟨body', inBody⟩ := ihBody settled.funBody
    obtain ⟨rest', inRest⟩ := ihRest settled.funRest
    rw [Exp.close_funExp]
    refine ⟨⟨fun x member => settled.inScope ?_, rest'⟩, fun f member => ?_⟩
    · rw [← mem_freeVars settled.tidy, ← Lib.OrdSet.mem_toList]
      simpa [readVars] using member
    · simp only [functions, functions_captures, List.mem_cons, List.mem_append] at member
      rcases member with rfl | nested | later
      · exact readsBound_captures (List.mem_toFinset.mpr List.mem_cons_self) body'
      · exact inBody f nested
      · exact inRest f later
  | joinExp name slot body rest ihBody ihRest =>
    obtain ⟨body', inBody⟩ := ihBody settled.joinBody
    obtain ⟨rest', inRest⟩ := ihRest settled.joinRest
    rw [Exp.close_joinExp]
    exact ⟨⟨body', rest'⟩, fun f member => (List.mem_append.mp member).elim (inBody f) (inRest f)⟩
  | jumpExp joinName slotValue =>
    refine ⟨fun x member => settled.inScope ?_, fun _ member => (List.not_mem_nil member).elim⟩
    exact List.mem_toFinset.mpr (flatMap_readVars_subset _ member)
  | appExp name funName paramValues rest ih =>
    obtain ⟨rest', inRest⟩ := ih settled.appRest
    have reads : ∀ x, x = funName ∨ x ∈ paramValues.flatMap Value.names →
        x ∈ scope ∪ {projName c} := fun x occurs =>
      Finset.mem_union_left _ (settled.inScope (Finset.mem_union_left _ (by simpa using occurs)))
    refine ⟨⟨?_, ?_, fun x member => ?_, rest'⟩, inRest⟩
    · exact settled.inScope (Finset.mem_union_left _ (by simp))
    · exact Finset.mem_union_right _ (Finset.mem_singleton_self _)
    · rcases List.mem_cons.mp member with eq | argument
      · exact reads x (.inl eq)
      · exact reads x (.inr (flatMap_readVars_subset _ argument))
  | bopExp name bop param1 param2 rest ih =>
    obtain ⟨rest', inRest⟩ := ih settled.bopRest
    refine ⟨⟨fun x member => settled.inScope (Finset.mem_union_left _ ?_), rest'⟩, inRest⟩
    rw [List.mem_toFinset, List.mem_append]
    exact (List.mem_append.mp member).imp (fun reads => readVars_subset _ reads)
      fun reads => readVars_subset _ reads
  | ifExp cond thenBranch elseBranch ihThen ihElse =>
    obtain ⟨then', inThen⟩ := ihThen settled.thenBranch
    obtain ⟨else', inElse⟩ := ihElse settled.elseBranch
    rw [Exp.close_ifExp]
    refine ⟨⟨fun x member => settled.inScope ?_, then', else'⟩,
      fun f member => (List.mem_append.mp member).elim (inThen f) (inElse f)⟩
    exact Finset.mem_union_left _ (Finset.mem_union_left _
      (List.mem_toFinset.mpr (readVars_subset cond member)))
  | tupleExp name values rest ih =>
    obtain ⟨rest', inRest⟩ := ih settled.tupleRest
    refine ⟨⟨fun x member => settled.inScope (Finset.mem_union_left _ ?_), rest'⟩, inRest⟩
    exact List.mem_toFinset.mpr (flatMap_readVars_subset _ member)
  | projExp name tuple index rest ih =>
    obtain ⟨rest', inRest⟩ := ih settled.projRest
    exact ⟨⟨settled.inScope (Finset.mem_union_left _ (Finset.mem_singleton_self _)), rest'⟩, inRest⟩

/-! ## Whole programs -/

theorem settled_of_closed {t : Exp} (closed : t.free = ∅) (distinct : t.boundNames.Nodup)
    (fresh : ∀ x ∈ t.boundNames, x ∉ t.generated 0) : Settled ∅ t 0 :=
  ⟨⟨distinct, fun x occurs => absurd occurs (closed ▸ Finset.notMem_empty x)⟩, closed.subset,
    fun x occurs => fresh x (occurs.resolve_left (Finset.notMem_empty x))⟩

/-- Closure conversion closes every function: each gets a first parameter for its record, reads
its captured variables from it at the indices the record has them at, and otherwise reads only its
parameters; each call is made through index 0 of the record it passes. -/
theorem closureConvert_closes (t : Exp) (closed : t.free = ∅) (distinct : t.boundNames.Nodup)
    (fresh : ∀ x ∈ t.boundNames, x ∉ t.generated 0) :
    Closes ∅ t (closureConvert t) ∧ freeVariables (closureConvert t) = ∅ := by
  have settled := settled_of_closed closed distinct fresh
  refine ⟨closes_close settled, Finset.subset_empty.mp ?_⟩
  exact closed ▸ freeVariables_close settled.tidy 0

/-- The A-normal form of `(fn x => fn y => x) 1`. -/
theorem closureConvert_closes_constant :
    Closes ∅ (.funExp "tmp1" ["x"] (.funExp "tmp0" ["y"] (.haltExp (.varValue "x"))
        (.haltExp (.varValue "tmp0"))) (.appExp "tmp2" "tmp1" [.intValue 1]
        (.haltExp (.varValue "tmp2"))))
      (closureConvert (.funExp "tmp1" ["x"] (.funExp "tmp0" ["y"] (.haltExp (.varValue "x"))
        (.haltExp (.varValue "tmp0"))) (.appExp "tmp2" "tmp1" [.intValue 1]
        (.haltExp (.varValue "tmp2"))))) ∧
    freeVariables (closureConvert (.funExp "tmp1" ["x"] (.funExp "tmp0" ["y"]
        (.haltExp (.varValue "x")) (.haltExp (.varValue "tmp0"))) (.appExp "tmp2" "tmp1"
        [.intValue 1] (.haltExp (.varValue "tmp2"))))) = ∅ :=
  closureConvert_closes _ (by decide) (by decide) (by decide)

end Lambcalc.Convert
