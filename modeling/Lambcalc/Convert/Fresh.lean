import Lambcalc.Anf.Capture
import Lambcalc.Anf.DefuncCorrect
import Lambcalc.Anf.Draws
import Lambcalc.Ast.Alpha
import Lambcalc.Convert.Correct
import Lambcalc.Lib.Numbered

/-!
# The names closure conversion inserts

A converted function has one inserted parameter and, for every application of its body, one
inserted projection of index 0; projections of a later index read captured variables back.
Numbers keep the inserted names apart from each other, and the prefixes from the temporaries
of the ANF pass. They can still meet a renamed parameter of the source.
-/

namespace Lambcalc.Convert

open Anf

/-! ## Names of one function -/

/-- The names of the call targets `t` projects, outside the functions it contains. -/
def targets : Exp → List Var
  | .haltExp _ => []
  | .funExp _ _ _ rest => targets rest
  | .joinExp _ _ body rest => targets body ++ targets rest
  | .jumpExp _ _ => []
  | .appExp _ _ _ rest => targets rest
  | .bopExp _ _ _ _ rest => targets rest
  | .ifExp _ thenBranch elseBranch => targets thenBranch ++ targets elseBranch
  | .tupleExp _ _ rest => targets rest
  | .projExp name _ index rest => if index = 0 then name :: targets rest else targets rest

/-- The other values `t` binds, outside the functions it contains: let-bound results, slots,
functions and captured variables. -/
def locals : Exp → List Var
  | .haltExp _ => []
  | .funExp name _ _ rest => name :: locals rest
  | .joinExp _ slot body rest => slot.toList ++ locals body ++ locals rest
  | .jumpExp _ _ => []
  | .appExp name _ _ rest => name :: locals rest
  | .bopExp name _ _ _ rest => name :: locals rest
  | .ifExp _ thenBranch elseBranch => locals thenBranch ++ locals elseBranch
  | .tupleExp name _ rest => name :: locals rest
  | .projExp name _ index rest => if index = 0 then locals rest else name :: locals rest

/-- The inserted parameter and call targets of a converted function are pairwise distinct,
and none of them is another parameter, a captured variable or a let-bound name. -/
def FreshFunction (params : List Var) (body : Exp) : Prop :=
  match params with
  | [] => False
  | closureParam :: params =>
    (closureParam :: targets body).Nodup ∧
      ∀ x ∈ closureParam :: targets body, x ∉ params ∧ x ∉ locals body

/-! ## The condition on the input -/

/-- The numbers the applications of `t` take, outside the functions `t` contains, if `t` is
visited with `counter_` at `c`. -/
def callNumbers : Exp → Nat → List Nat
  | .haltExp _, _ => []
  | .funExp _ _ _ rest, c => callNumbers rest (c + 1)
  | .joinExp _ _ body rest, c => callNumbers body (c + rest.closes) ++ callNumbers rest c
  | .jumpExp _ _, _ => []
  | .appExp _ _ _ rest, c => c :: callNumbers rest (c + 1)
  | .bopExp _ _ _ _ rest, c => callNumbers rest c
  | .ifExp _ thenBranch elseBranch, c =>
    callNumbers thenBranch (c + elseBranch.closes) ++ callNumbers elseBranch c
  | .tupleExp _ _ rest, c => callNumbers rest c
  | .projExp _ _ _ rest, c => callNumbers rest c

/-- What is inserted into a function with number `c` whose body is visited from `d` on. -/
def insertedNames (c : Nat) (body : Exp) (d : Nat) : List Var :=
  closureName c :: (callNumbers body d).map projName

/-- No function of `t`, at any depth, has among its parameters or the variables `freeVars`
returns for it the parameter or a projection that is inserted into it. -/
def InsertsFresh : Exp → Nat → Prop
  | .haltExp _, _ => True
  | .funExp name params body rest, c =>
    (∀ x ∈ insertedNames c body (c + 1 + rest.closes),
      x ∉ params ∧ x ∉ (freeVars (.funExp name params body rest)).toList) ∧
    InsertsFresh body (c + 1 + rest.closes) ∧ InsertsFresh rest (c + 1)
  | .joinExp _ _ body rest, c => InsertsFresh body (c + rest.closes) ∧ InsertsFresh rest c
  | .jumpExp _ _, _ => True
  | .appExp _ _ _ rest, c => InsertsFresh rest (c + 1)
  | .bopExp _ _ _ _ rest, c => InsertsFresh rest c
  | .ifExp _ thenBranch elseBranch, c =>
    InsertsFresh thenBranch (c + elseBranch.closes) ∧ InsertsFresh elseBranch c
  | .tupleExp _ _ rest, c => InsertsFresh rest c
  | .projExp _ _ _ rest, c => InsertsFresh rest c

/-! ## Inserted names -/

theorem projName_injective {i j : Nat} (eq : projName i = projName j) : i = j :=
  Lib.append_toString_injective eq

theorem closureName_ne_projName (i j : Nat) : closureName i ≠ projName j := by
  intro eq
  have heads := congrArg (fun s : String => s.toList.head?) eq
  simp [closureName, projName] at heads

/-- Some closure parameter or call target. -/
def Inserted (x : Var) : Prop := ∃ i, x = closureName i ∨ x = projName i

theorem not_inserted_tmp (j : Nat) : ¬ Inserted (tmp j) := by
  rintro ⟨i, eq | eq⟩ <;> have heads := congrArg (fun s : String => s.toList.head?) eq <;>
    simp [closureName, projName, tmp] at heads

/-- The applications of a term take different numbers, all of them in the range of the term. -/
theorem callNumbers_spec (t : Exp) (c : Nat) :
    (callNumbers t c).Nodup ∧ ∀ i ∈ callNumbers t c, c ≤ i ∧ i < c + t.closes := by
  induction t generalizing c with
  | haltExp value => exact ⟨.nil, fun _ member => nomatch member⟩
  | jumpExp joinName slotValue => exact ⟨.nil, fun _ member => nomatch member⟩
  | funExp name params body rest ihBody ihRest =>
    obtain ⟨nodup, range⟩ := ihRest (c + 1)
    refine ⟨nodup, fun i member => ?_⟩
    have := range i member
    simp only [Exp.closes]
    omega
  | joinExp name slot body rest ihBody ihRest =>
    obtain ⟨nodupBody, rangeBody⟩ := ihBody (c + rest.closes)
    obtain ⟨nodupRest, rangeRest⟩ := ihRest c
    refine ⟨List.nodup_append'.mpr ⟨nodupBody, nodupRest, fun i left right => ?_⟩,
      fun i member => ?_⟩
    · have := rangeBody i left
      have := rangeRest i right
      omega
    · simp only [Exp.closes]
      rcases List.mem_append.mp member with member | member
      · have := rangeBody i member
        omega
      · have := rangeRest i member
        omega
  | appExp name funName paramValues rest ih =>
    obtain ⟨nodup, range⟩ := ih (c + 1)
    refine ⟨List.nodup_cons.mpr ⟨fun member => ?_, nodup⟩, fun i member => ?_⟩
    · have := range c member
      omega
    · simp only [Exp.closes]
      rcases List.mem_cons.mp member with rfl | member
      · omega
      · have := range i member
        omega
  | bopExp name bop param1 param2 rest ih => exact ih c
  | ifExp cond thenBranch elseBranch ihThen ihElse =>
    obtain ⟨nodupThen, rangeThen⟩ := ihThen (c + elseBranch.closes)
    obtain ⟨nodupElse, rangeElse⟩ := ihElse c
    refine ⟨List.nodup_append'.mpr ⟨nodupThen, nodupElse, fun i left right => ?_⟩,
      fun i member => ?_⟩
    · have := rangeThen i left
      have := rangeElse i right
      omega
    · simp only [Exp.closes]
      rcases List.mem_append.mp member with member | member
      · have := rangeThen i member
        omega
      · have := rangeElse i member
        omega
  | tupleExp name values rest ih => exact ih c
  | projExp name tuple index rest ih => exact ih c

/-- What is inserted into one function is pairwise distinct. -/
theorem insertedNames_nodup (c : Nat) (body : Exp) (d : Nat) : (insertedNames c body d).Nodup := by
  refine List.nodup_cons.mpr ⟨fun member => ?_, ?_⟩
  · obtain ⟨i, -, eq⟩ := List.mem_map.mp member
    exact closureName_ne_projName c i eq.symm
  · exact (callNumbers_spec body d).1.map fun _ _ => projName_injective

theorem inserted_of_mem {c d : Nat} {body : Exp} {x : Var} (member : x ∈ insertedNames c body d) :
    Inserted x := by
  rcases List.mem_cons.mp member with rfl | member
  · exact ⟨c, .inl rfl⟩
  · obtain ⟨i, -, rfl⟩ := List.mem_map.mp member
    exact ⟨i, .inr rfl⟩

/-! ## What a conversion leaves -/

theorem targets_captures (closureParam : Var) (vars : List Var) (i : Nat) (body : Exp) :
    targets (captures closureParam vars (i + 1) body) = targets body := by
  induction vars generalizing i body with
  | nil => rfl
  | cons var vars ih => rw [captures, ih, targets, if_neg (Nat.succ_ne_zero i)]

theorem mem_locals_captures {closureParam x : Var} {vars : List Var} {i : Nat} {body : Exp} :
    x ∈ locals (captures closureParam vars (i + 1) body) ↔ x ∈ vars ∨ x ∈ locals body := by
  induction vars generalizing i body with
  | nil => simp [captures]
  | cons var vars ih =>
    rw [captures, ih, locals, if_neg (Nat.succ_ne_zero i), List.mem_cons, List.mem_cons]
    tauto

/-- The projections that conversion inserts are named after the numbers of the applications. -/
theorem targets_close {t : Exp} (anf : isAnf t = true) (c : Nat) :
    targets (t.close c).1 = (callNumbers t c).map projName := by
  induction t generalizing c with
  | haltExp value => rfl
  | jumpExp joinName slotValue => rfl
  | funExp name params body rest ihBody ihRest =>
    rw [Exp.close_funExp]
    exact ihRest (Bool.and_eq_true_iff.mp anf).2 _
  | joinExp name slot body rest ihBody ihRest =>
    obtain ⟨anfBody, anfRest⟩ := Bool.and_eq_true_iff.mp anf
    rw [Exp.close_joinExp, targets, ihBody anfBody, ihRest anfRest, callNumbers, List.map_append]
  | appExp name funName paramValues rest ih =>
    exact congrArg (projName c :: ·) (ih (Bool.and_eq_true_iff.mp anf).2 _)
  | bopExp name bop param1 param2 rest ih => exact ih (Bool.and_eq_true_iff.mp anf).2 _
  | ifExp cond thenBranch elseBranch ihThen ihElse =>
    obtain ⟨anf, anfElse⟩ := Bool.and_eq_true_iff.mp anf
    rw [Exp.close_ifExp, targets, ihThen (Bool.and_eq_true_iff.mp anf).2, ihElse anfElse,
      callNumbers, List.map_append]
  | tupleExp name values rest => cases anf
  | projExp name tuple index rest => cases anf

/-- Conversion does not change what a function binds itself. -/
theorem mem_locals_close {t : Exp} (anf : isAnf t = true) (c : Nat) {x : Var} :
    x ∈ locals (t.close c).1 ↔ x ∈ locals t := by
  induction t generalizing c with
  | haltExp value => rfl
  | jumpExp joinName slotValue => rfl
  | funExp name params body rest ihBody ihRest =>
    rw [Exp.close_funExp, locals, locals, locals, List.mem_cons, List.mem_cons, List.mem_cons,
      ihRest (Bool.and_eq_true_iff.mp anf).2, or_self_left]
  | joinExp name slot body rest ihBody ihRest =>
    obtain ⟨anfBody, anfRest⟩ := Bool.and_eq_true_iff.mp anf
    rw [Exp.close_joinExp, locals, locals, List.mem_append, List.mem_append, List.mem_append,
      List.mem_append, ihBody anfBody, ihRest anfRest]
  | appExp name funName paramValues rest ih =>
    exact (List.mem_cons.trans (or_congr_right (ih (Bool.and_eq_true_iff.mp anf).2 _))).trans
      List.mem_cons.symm
  | bopExp name bop param1 param2 rest ih =>
    exact (List.mem_cons.trans (or_congr_right (ih (Bool.and_eq_true_iff.mp anf).2 _))).trans
      List.mem_cons.symm
  | ifExp cond thenBranch elseBranch ihThen ihElse =>
    obtain ⟨anf, anfElse⟩ := Bool.and_eq_true_iff.mp anf
    rw [Exp.close_ifExp, locals, locals, List.mem_append, List.mem_append,
      ihThen (Bool.and_eq_true_iff.mp anf).2, ihElse anfElse]
  | tupleExp name values rest => cases anf
  | projExp name tuple index rest => cases anf

/-- What a function binds outside the functions it contains is among its value names. -/
theorem locals_subset_valueNames {t : Exp} (anf : isAnf t = true) {x : Var}
    (member : x ∈ locals t) : x ∈ t.valueNames := by
  induction t with
  | haltExp value => exact member
  | jumpExp joinName slotValue => exact member
  | funExp name params body rest ihBody ihRest =>
    rcases List.mem_cons.mp member with rfl | member
    · exact List.mem_cons_self
    · exact List.mem_cons_of_mem _ (List.mem_append_right _
        (ihRest (Bool.and_eq_true_iff.mp anf).2 member))
  | joinExp name slot body rest ihBody ihRest =>
    obtain ⟨anfBody, anfRest⟩ := Bool.and_eq_true_iff.mp anf
    simp only [locals, Exp.valueNames, List.mem_append] at member ⊢
    exact member.imp (Or.imp_right (ihBody anfBody)) (ihRest anfRest)
  | appExp name funName paramValues rest ih =>
    exact List.mem_cons.mpr ((List.mem_cons.mp member).imp_right
      (ih (Bool.and_eq_true_iff.mp anf).2))
  | bopExp name bop param1 param2 rest ih =>
    exact List.mem_cons.mpr ((List.mem_cons.mp member).imp_right
      (ih (Bool.and_eq_true_iff.mp anf).2))
  | ifExp cond thenBranch elseBranch ihThen ihElse =>
    obtain ⟨anf, anfElse⟩ := Bool.and_eq_true_iff.mp anf
    exact List.mem_append.mpr ((List.mem_append.mp member).imp
      (ihThen (Bool.and_eq_true_iff.mp anf).2) (ihElse anfElse))
  | tupleExp name values rest => cases anf
  | projExp name tuple index rest => cases anf

/-- All functions of the output keep their names apart exactly if the input's parameters and
captured variables miss what is inserted. -/
theorem freshFunctions_iff {t : Exp} (anf : isAnf t = true)
    (named : ∀ x ∈ t.valueNames, ¬ Inserted x) (c : Nat) :
    (∀ entry ∈ functions (t.close c).1, FreshFunction entry.2.1 entry.2.2) ↔ InsertsFresh t c := by
  induction t generalizing c with
  | haltExp value => exact iff_of_true (fun _ member => nomatch member) trivial
  | jumpExp joinName slotValue => exact iff_of_true (fun _ member => nomatch member) trivial
  | funExp name params body rest ihBody ihRest =>
    obtain ⟨anfBody, anfRest⟩ := Bool.and_eq_true_iff.mp anf
    have namedBody : ∀ x ∈ body.valueNames, ¬ Inserted x := fun x member =>
      named x (List.mem_cons_of_mem _ (List.mem_append_left _ member))
    have namedRest : ∀ x ∈ rest.valueNames, ¬ Inserted x := fun x member =>
      named x (List.mem_cons_of_mem _ (List.mem_append_right _ member))
    rw [Exp.close_funExp, functions, functions_captures, functions, List.forall_mem_cons,
      List.forall_mem_append, ihBody anfBody namedBody, ihRest anfRest namedRest, InsertsFresh]
    refine and_congr_left fun _ => ?_
    rw [FreshFunction, targets_captures, targets_close anfBody]
    refine (and_iff_right (insertedNames_nodup c body _)).trans (forall₂_congr fun x member => ?_)
    refine and_congr_right fun _ => not_congr ?_
    rw [mem_locals_captures, mem_locals_close anfBody]
    refine or_iff_left fun bound => ?_
    exact namedBody x (locals_subset_valueNames anfBody bound) (inserted_of_mem member)
  | joinExp name slot body rest ihBody ihRest =>
    obtain ⟨anfBody, anfRest⟩ := Bool.and_eq_true_iff.mp anf
    rw [Exp.close_joinExp, functions, List.forall_mem_append, InsertsFresh,
      ihBody anfBody fun x member => named x (by simp [Exp.valueNames, member]),
      ihRest anfRest fun x member => named x (by simp [Exp.valueNames, member])]
  | appExp name funName paramValues rest ih =>
    exact ih (Bool.and_eq_true_iff.mp anf).2
      (fun x member => named x (List.mem_cons_of_mem _ member)) _
  | bopExp name bop param1 param2 rest ih =>
    exact ih (Bool.and_eq_true_iff.mp anf).2
      (fun x member => named x (List.mem_cons_of_mem _ member)) _
  | ifExp cond thenBranch elseBranch ihThen ihElse =>
    obtain ⟨anf, anfElse⟩ := Bool.and_eq_true_iff.mp anf
    rw [Exp.close_ifExp, functions, List.forall_mem_append, InsertsFresh,
      ihThen (Bool.and_eq_true_iff.mp anf).2 fun x member =>
        named x (List.mem_append_left _ member),
      ihElse anfElse fun x member => named x (List.mem_append_right _ member)]
  | tupleExp name values rest => cases anf
  | projExp name tuple index rest => cases anf

/-! ## From the source -/

/-- The ANF pass produces no record operations and no globals. -/
theorem isAnf_convertWith (e : Ast.Exp) {k : Cont} {c c' : Nat} {t : Exp}
    (ran : convertWith e k c = .ok (t, c'))
    (conts : ∀ value m tk m', isAnfValue value = true → k value m = .ok (tk, m') →
      isAnf tk = true) : isAnf t = true := by
  induction e generalizing k c c' t with
  | intExp value => exact conts _ _ _ _ rfl ran
  | varExp name => exact conts _ _ _ _ rfl ran
  | lamExp param body ih =>
    obtain ⟨code, m, rest, ranBody, ranRest, rfl⟩ := convertWith_lamExp.mp ran
    refine Bool.and_eq_true_iff.mpr ⟨ih ranBody ?_, conts _ _ _ _ rfl ranRest⟩
    rintro value m tk m' anf ⟨⟩
    exact anf
  | appExp fn arg ihFn ihArg =>
    rw [convertWith_appExp] at ran
    refine ihFn ran fun fnValue m tk m' _ ran => ?_
    obtain ⟨fnName, -, ran⟩ := stringValue_bind_ok ran
    refine ihArg ran fun argValue m tk m' anf ran => ?_
    obtain ⟨rest, ranRest, rfl⟩ := buildApp_ok.mp ran
    exact Bool.and_eq_true_iff.mpr ⟨by simpa using anf, conts _ _ _ _ rfl ranRest⟩
  | bopExp bop arg1 arg2 ih1 ih2 =>
    rw [convertWith_bopExp] at ran
    refine ih1 ran fun arg1Value m tk m' anf1 ran => ih2 ran fun arg2Value m tk m' anf2 ran => ?_
    obtain ⟨rest, ranRest, rfl⟩ := buildBop_ok.mp ran
    exact Bool.and_eq_true_iff.mpr ⟨Bool.and_eq_true_iff.mpr ⟨anf1, anf2⟩,
      conts _ _ _ _ rfl ranRest⟩
  | ifExp cond then_ els ihCond ihThen ihEls =>
    rw [convertWith_ifExp] at ran
    refine ihCond ran fun condValue m tk m' anf ran => ?_
    obtain ⟨body, _, thenBranch, _, elseBranch, ranBody, ranThen, ranElse, rfl⟩ :=
      buildIf_ok.mp ran
    have jumps : ∀ joinName value m tk m', isAnfValue value = true →
        jumpCont joinName value m = .ok (tk, m') → isAnf tk = true := by
      rintro joinName value m tk m' anf ⟨⟩
      simpa [isAnf] using anf
    have branches := Bool.and_eq_true_iff.mpr ⟨Bool.and_eq_true_iff.mpr
      ⟨anf, ihThen ranThen (jumps _)⟩, ihEls ranElse (jumps _)⟩
    exact Bool.and_eq_true_iff.mpr ⟨conts _ _ _ _ rfl ranBody, branches⟩

theorem isAnf_convert {e : Ast.Exp} {c c' : Nat} {t : Exp} (ran : convert e c = .ok (t, c')) :
    isAnf t = true := by
  refine isAnf_convertWith e ran ?_
  rintro value m tk m' anf ⟨⟩
  exact anf

/-- The values an A-normal form binds are temporaries, which closure conversion never makes. -/
theorem not_inserted_valueNames {e : Ast.Exp} {c c' : Nat} {t : Exp}
    (ran : convert e c = .ok (t, c')) : ∀ x ∈ t.valueNames, ¬ Inserted x := by
  intro x member
  obtain ⟨value, tk, m, ranHalt, names⟩ := convertWith_lands e ran (fun _ => .pure _)
  cases ranHalt
  obtain ⟨i, -, rfl⟩ := List.mem_map.mp (by simpa [Exp.valueNames] using names.mem_iff.mp member)
  exact not_inserted_tmp i

/-- Every parameter of `t` and every name it reads, at any depth, is a `P`. -/
def Mentions (P : Var → Prop) : Exp → Prop
  | .haltExp value => ∀ x ∈ value.names, P x
  | .funExp _ params body rest => (∀ x ∈ params, P x) ∧ Mentions P body ∧ Mentions P rest
  | .joinExp _ _ body rest => Mentions P body ∧ Mentions P rest
  | .jumpExp _ slotValue => ∀ x ∈ slotValue.toList.flatMap Value.names, P x
  | .appExp _ funName paramValues rest =>
    P funName ∧ (∀ x ∈ paramValues.flatMap Value.names, P x) ∧ Mentions P rest
  | .bopExp _ _ param1 param2 rest =>
    (∀ x ∈ param1.names, P x) ∧ (∀ x ∈ param2.names, P x) ∧ Mentions P rest
  | .ifExp cond thenBranch elseBranch =>
    (∀ x ∈ cond.names, P x) ∧ Mentions P thenBranch ∧ Mentions P elseBranch
  | .tupleExp _ values rest => (∀ x ∈ values.flatMap Value.names, P x) ∧ Mentions P rest
  | .projExp _ tuple _ rest => P tuple ∧ Mentions P rest

/-- A walk for free variables only finds names that are read. -/
theorem Mentions.collect {P : Var → Prop} {t : Exp} (mentions : Mentions P t)
    {s : Lib.OrdSet Var} (before : ∀ x ∈ s, P x) : ∀ x ∈ t.collect s, P x := by
  have visited : ∀ {s : Lib.OrdSet Var} (values : List Value), (∀ x ∈ s, P x) →
      (∀ x ∈ values.flatMap Value.names, P x) → ∀ x ∈ values.foldl visitValue s, P x := by
    intro s values before reads x member
    exact (mem_foldl_visitValue.mp member).elim (before x) (reads x)
  have erased : ∀ {s : Lib.OrdSet Var} (names : List Var), (∀ x ∈ s, P x) →
      ∀ x ∈ names.foldl Lib.OrdSet.erase s, P x := by
    intro s names before x member
    exact before x (Lib.OrdSet.mem_foldl_erase.mp member).1
  induction t generalizing s with
  | haltExp value => exact visited [value] before (by simpa [Mentions] using mentions)
  | funExp name params body rest ihBody ihRest =>
    obtain ⟨-, body, rest⟩ := mentions
    exact erased _ (ihBody body (erased [name] (ihRest rest before)))
  | joinExp name slot body rest ihBody ihRest =>
    obtain ⟨body, rest⟩ := mentions
    exact erased _ (ihBody body (erased [name] (ihRest rest before)))
  | jumpExp joinName slotValue => exact visited _ before mentions
  | appExp name funName paramValues rest ih =>
    obtain ⟨fn, args, rest⟩ := mentions
    refine erased [name] (ih rest (visited _ (fun x member => ?_) args))
    rcases Lib.OrdSet.mem_insert.mp member with rfl | member
    · exact fn
    · exact before x member
  | bopExp name bop param1 param2 rest ih =>
    obtain ⟨left, right, rest⟩ := mentions
    refine erased [name] (ih rest (visited [param1, param2] before ?_))
    simpa [or_imp, forall_and] using ⟨left, right⟩
  | ifExp cond thenBranch elseBranch ihThen ihElse =>
    obtain ⟨cond, thens, elses⟩ := mentions
    exact ihThen thens (ihElse elses (visited [_] before (by simpa using cond)))
  | tupleExp name values rest ih =>
    obtain ⟨values, rest⟩ := mentions
    exact erased [name] (ih rest (visited _ before values))
  | projExp name tuple index rest ih =>
    obtain ⟨tuple, rest⟩ := mentions
    refine erased [name] (ih rest fun x member => ?_)
    rcases Lib.OrdSet.mem_insert.mp member with rfl | member
    · exact tuple
    · exact before x member

/-- A term that mentions nothing that could be inserted is converted with fresh names. -/
theorem Mentions.insertsFresh {t : Exp} (mentions : Mentions (¬ Inserted ·) t) (c : Nat) :
    InsertsFresh t c := by
  induction t generalizing c with
  | haltExp value => trivial
  | jumpExp joinName slotValue => trivial
  | funExp name params body rest ihBody ihRest =>
    have all := mentions
    obtain ⟨params, bodies, rests⟩ := mentions
    refine ⟨fun x member => ⟨fun param => ?_, fun captured => ?_⟩, ihBody bodies _, ihRest rests _⟩
    · exact params x param (inserted_of_mem member)
    · have found : x ∈ freeVars (.funExp name _ body rest) := captured
      rw [freeVars_eq_collect] at found
      exact all.collect (fun x absent => absurd absent (Lib.OrdSet.not_mem_empty x)) x found
        (inserted_of_mem member)
  | joinExp name slot body rest ihBody ihRest => exact ⟨ihBody mentions.1 _, ihRest mentions.2 _⟩
  | appExp name funName paramValues rest ih => exact ih mentions.2.2 _
  | bopExp name bop param1 param2 rest ih => exact ih mentions.2.2 _
  | ifExp cond thenBranch elseBranch ihThen ihElse =>
    exact ⟨ihThen mentions.2.1 _, ihElse mentions.2.2 _⟩
  | tupleExp name values rest ih => exact ih mentions.2 _
  | projExp name tuple index rest ih => exact ih mentions.2 _

/-- An A-normal form mentions names of the source and temporaries. -/
theorem mentions_convertWith {P : Var → Prop} (temps : ∀ i, P (tmp i)) (e : Ast.Exp)
    (names : ∀ x ∈ e.names, P x) {k : Cont} {c c' : Nat} {t : Exp}
    (ran : convertWith e k c = .ok (t, c'))
    (conts : ∀ value m tk m', (∀ x ∈ value.names, P x) → k value m = .ok (tk, m') →
      Mentions P tk) : Mentions P t := by
  have temp : ∀ i, ∀ x ∈ (Value.varValue (tmp i)).names, P x := by
    intro i x member
    exact List.mem_singleton.mp member ▸ temps i
  induction e generalizing k c c' t with
  | intExp value => exact conts (.intValue value) _ _ _ (by simp [Value.names]) ran
  | varExp name => exact conts (.varValue name) _ _ _ names ran
  | lamExp param body ih =>
    obtain ⟨code, m, rest, ranBody, ranRest, rfl⟩ := convertWith_lamExp.mp ran
    obtain ⟨param, names⟩ := List.forall_mem_cons.mp names
    refine ⟨List.forall_mem_singleton.mpr param, ih names ranBody ?_,
      conts _ _ _ _ (temp m) ranRest⟩
    rintro value m tk m' value ⟨⟩
    exact value
  | appExp fn arg ihFn ihArg =>
    obtain ⟨namesFn, namesArg⟩ := List.forall_mem_append.mp names
    rw [convertWith_appExp] at ran
    refine ihFn namesFn ran fun fnValue m tk m' fnNames ran => ?_
    obtain ⟨fnName, operand, ran⟩ := stringValue_bind_ok ran
    have fnMentioned : P fnName := by
      rcases operand with rfl | rfl
      · exact fnNames _ (List.mem_singleton_self _)
      · exact fnNames _ (List.mem_singleton_self _)
    refine ihArg namesArg ran fun argValue m tk m' argNames ran => ?_
    obtain ⟨rest, ranRest, rfl⟩ := buildApp_ok.mp ran
    exact ⟨fnMentioned, by simpa using argNames, conts _ _ _ _ (temp m) ranRest⟩
  | bopExp bop arg1 arg2 ih1 ih2 =>
    obtain ⟨names1, names2⟩ := List.forall_mem_append.mp names
    rw [convertWith_bopExp] at ran
    refine ih1 names1 ran fun arg1Value m tk m' arg1Names ran =>
      ih2 names2 ran fun arg2Value m tk m' arg2Names ran => ?_
    obtain ⟨rest, ranRest, rfl⟩ := buildBop_ok.mp ran
    exact ⟨arg1Names, arg2Names, conts _ _ _ _ (temp m) ranRest⟩
  | ifExp cond then_ els ihCond ihThen ihEls =>
    obtain ⟨names, namesEls⟩ := List.forall_mem_append.mp names
    obtain ⟨namesCond, namesThen⟩ := List.forall_mem_append.mp names
    rw [convertWith_ifExp] at ran
    refine ihCond namesCond ran fun condValue m tk m' condNames ran => ?_
    obtain ⟨body, _, thenBranch, _, elseBranch, ranBody, ranThen, ranElse, rfl⟩ :=
      buildIf_ok.mp ran
    have jumps : ∀ joinName value m tk m', (∀ x ∈ value.names, P x) →
        jumpCont joinName value m = .ok (tk, m') → Mentions P tk := by
      rintro joinName value m tk m' value ⟨⟩
      simpa [Mentions] using value
    exact ⟨conts _ _ _ _ (temp _) ranBody, condNames, ihThen namesThen ranThen (jumps _),
      ihEls namesEls ranElse (jumps _)⟩

/-- The names of a relabelled tree are labels of its lambdas, or come from the renaming of its
free variables. -/
theorem names_relabel {P : String → Prop} {label : String → Nat → String} (e : Ast.Exp)
    (labels : ∀ p ∈ e.params, ∀ i, P (label p i)) {σ : String → String} {i : Nat}
    (free : ∀ x ∈ e.free, P (σ x)) : ∀ x ∈ (e.relabel label σ i).names, P x := by
  induction e generalizing σ i with
  | intExp value => exact fun _ member => nomatch member
  | varExp name => exact List.forall_mem_singleton.mpr (free name (Finset.mem_singleton_self name))
  | lamExp param body ih =>
    obtain ⟨labelled, labels⟩ := List.forall_mem_cons.mp labels
    refine List.forall_mem_cons.mpr ⟨labelled i, ih labels fun x occurs => ?_⟩
    by_cases eq : x = param
    · rw [eq, Function.update_self]
      exact labelled i
    · rw [Function.update_of_ne eq]
      exact free x (Finset.mem_erase.mpr ⟨eq, occurs⟩)
  | appExp fn arg ihFn ihArg =>
    obtain ⟨labelsFn, labelsArg⟩ := List.forall_mem_append.mp labels
    exact List.forall_mem_append.mpr ⟨ihFn labelsFn fun x occurs =>
      free x (Finset.mem_union_left _ occurs), ihArg labelsArg fun x occurs =>
      free x (Finset.mem_union_right _ occurs)⟩
  | bopExp bop arg1 arg2 ih1 ih2 =>
    obtain ⟨labels1, labels2⟩ := List.forall_mem_append.mp labels
    exact List.forall_mem_append.mpr ⟨ih1 labels1 fun x occurs =>
      free x (Finset.mem_union_left _ occurs), ih2 labels2 fun x occurs =>
      free x (Finset.mem_union_right _ occurs)⟩
  | ifExp cond then_ els ihCond ihThen ihEls =>
    obtain ⟨labels, labelsEls⟩ := List.forall_mem_append.mp labels
    obtain ⟨labelsCond, labelsThen⟩ := List.forall_mem_append.mp labels
    refine List.forall_mem_append.mpr ⟨List.forall_mem_append.mpr ⟨?_, ?_⟩, ?_⟩
    · exact ihCond labelsCond fun x occurs =>
        free x (Finset.mem_union_left _ (Finset.mem_union_left _ occurs))
    · exact ihThen labelsThen fun x occurs =>
        free x (Finset.mem_union_left _ (Finset.mem_union_right _ occurs))
    · exact ihEls labelsEls fun x occurs => free x (Finset.mem_union_right _ occurs)

/-- A parameter that renaming can turn into an inserted name: up to a NUL in it, one of the two
prefixes followed by digits. -/
def Reserved (param : String) : Prop :=
  ∃ i j, Lib.Overlap (Ast.data param) i "closure" j ∨ Lib.Overlap (Ast.data param) i "proj" j

theorem inserted_suffixed {param : String} {i : Nat} (inserted : Inserted (Ast.suffixed param i)) :
    Reserved param := by
  obtain ⟨j, eq | eq⟩ := inserted
  · exact ⟨i, j, .inl ((Lib.append_toString_eq_iff_of_last (c := 'e') (by decide)
      (by decide)).mp eq)⟩
  · exact ⟨i, j, .inr ((Lib.append_toString_eq_iff_of_last (c := 'j') (by decide)
      (by decide)).mp eq)⟩

theorem not_reserved_of_letters {param : String}
    (letters : ∀ c ∈ (Ast.data param).toList, c.isDigit = false)
    (others : Ast.data param ≠ "closure" ∧ Ast.data param ≠ "proj") : ¬ Reserved param := by
  rintro ⟨i, j, overlap | overlap⟩
  · exact others.1 (overlap.of_letters letters).1
  · exact others.2 (overlap.of_letters letters).1

/-- A program without `Reserved` parameters is converted to a term that mentions no inserted
name. -/
theorem mentions_convert {e : Ast.Exp} {n n' : Nat} {t : Exp} (closed : e.Closed)
    (apart : ∀ p ∈ e.params, ¬ Reserved p)
    (ran : convert (e.relabel Ast.suffixed id 0) n = .ok (t, n')) :
    Mentions (¬ Inserted ·) t := by
  have names : ∀ x ∈ (e.relabel Ast.suffixed id 0).names, ¬ Inserted x := by
    refine names_relabel e (fun p member i inserted => ?_) fun x occurs => ?_
    · exact apart p member (inserted_suffixed inserted)
    · rw [closed] at occurs
      cases occurs
  refine mentions_convertWith not_inserted_tmp _ names ran ?_
  intro value m tk m' named eq
  cases eq
  exact named

/-- After renaming and the ANF pass, the parameter and the projections that closure conversion
inserts into each function are apart from each other and from everything else the function
binds, exactly if no function of the A-normal form has one of them among its parameters and
captured variables. No program without a `Reserved` parameter has such a function. -/
theorem inserted_names_fresh_iff (e : Ast.Exp) (n n' : Nat) (closed : e.Closed) (e' : Ast.Exp)
    (ρ : Ast.RenameMap) (renamed : Ast.rename e = some (.returned e' ρ)) (t : Exp)
    (ran : convertDefunc e' n = .ok (t, n')) :
    ((∀ entry ∈ functions (closureConvert t), FreshFunction entry.2.1 entry.2.2) ↔
      InsertsFresh t 0) ∧
    ((∀ p ∈ e.params, ¬ Reserved p) → InsertsFresh t 0) := by
  rw [convertDefunc_eq_ok] at ran
  refine ⟨freshFunctions_iff (isAnf_convert ran) (not_inserted_valueNames ran) 0, fun apart => ?_⟩
  cases (Ast.rename_eq_relabel closed).symm.trans renamed
  exact (mentions_convert closed apart ran).insertsFresh 0

theorem inserted_names_fresh_iff_nested : InsertsFresh nestedTerm 0 ∧
    ∀ entry ∈ functions (closureConvert nestedTerm), FreshFunction entry.2.1 entry.2.2 := by
  rcases inserted_names_fresh_iff Ast.nested 0 6 (by decide) _ _
    (Ast.rename_eq_relabel (by decide)) _ convertDefunc_nested with ⟨fresh, apart⟩
  have others : ∀ p ∈ Ast.nested.params, Ast.data p ≠ "closure" ∧ Ast.data p ≠ "proj" := by decide
  have inserts : InsertsFresh nestedTerm 0 := apart fun p isParam =>
    not_reserved_of_letters (Ast.letters_data Ast.nested_letters isParam) (others p isParam)
  exact ⟨inserts, fresh.mpr inserts⟩

/-- `fn closure => closure`: the parameter is renamed to `closure0`, the name of the parameter
that is inserted before it. -/
theorem closureParam_twice : ∃ e' t, (Ast.Exp.lamExp "closure" (.varExp "closure")).Closed ∧
    Ast.isIdentifier "closure" ∧
    Ast.rename (.lamExp "closure" (.varExp "closure")) = some (.returned e' fun _ => none) ∧
    convertDefunc e' 0 = .ok (t, 1) ∧
    closureConvert t = .funExp "tmp0" ["closure0", "closure0"] (.haltExp (.varValue "closure0"))
      (.tupleExp "tmp0" [.globValue "tmp0"] (.haltExp (.varValue "tmp0"))) ∧
    ¬ ∀ entry ∈ functions (closureConvert t), FreshFunction entry.2.1 entry.2.2 := by
  refine ⟨_, .funExp "tmp0" ["closure0"] (.haltExp (.varValue "closure0"))
    (.haltExp (.varValue "tmp0")), by decide, by decide, Ast.rename_eq_relabel (by decide),
    by decide, by decide, fun fresh => ?_⟩
  obtain ⟨-, apart⟩ := fresh ("tmp0", ["closure0", "closure0"], .haltExp (.varValue "closure0"))
    (by decide)
  exact (apart "closure0" List.mem_cons_self).1 (by decide)

end Lambcalc.Convert
