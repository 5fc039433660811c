import Lambcalc.Parse.Parser

/-!
# The grammar

What the parser is for: the concrete syntax, as derivations of trees from tokens with their
lexemes.

```
atom         number | identifier | ( expression )
application  atom | application atom
product      application | product * application
sum          product | sum + product | sum - product
```

`fn x => expression` and `if expression then expression else expression` may stand, without
parentheses, in the place of an expression or of a last operand. An expression is a sum that may
end like this.
-/

namespace Lambcalc.Parse

open Ast

/-- A token, and what `getIdentifier` and `getNumber` return when it has just been lexed. -/
structure Lexeme where
  token : Token
  identifier : String
  number : Int
  deriving DecidableEq, Repr

/-- The levels of the grammar, the loosest first. -/
inductive Level where
  | sum
  | product
  | application
  | atom
  deriving DecidableEq, Repr

namespace Level

/-- How tightly a level binds. -/
def rank : Level → Nat
  | sum => 1
  | product => 2
  | application => 3
  | atom => 4

/-- The level of the right operands of a left-associative level. -/
def next : Level → Level
  | sum => product
  | product => application
  | application => atom
  | atom => atom

end Level

/-- The token of an operator. -/
def opToken : Bop → Token
  | .plus => .plus
  | .minus => .minus
  | .times => .times

/-- The level of an operator. -/
def opLevel : Bop → Level
  | .plus => .sum
  | .minus => .sum
  | .times => .product

/-- Whether a phrase may end in an unparenthesised `fn` or `if`. -/
inductive Shape where
  | closed
  | ending
  deriving DecidableEq, Repr

/-- The tokens derive the tree at this level. -/
inductive Derives : Shape → Level → List Lexeme → Exp → Prop
  | number {n : Lexeme} :
    n.token = .number → Derives .closed .atom [n] (.intExp n.number)
  | identifier {x : Lexeme} :
    x.token = .identifier → Derives .closed .atom [x] (.varExp x.identifier)
  | parens {left right : Lexeme} {p : List Lexeme} {e : Exp} :
    left.token = .lParen → Derives .ending .sum p e → right.token = .rParen →
    Derives .closed .atom (left :: (p ++ [right])) e
  | looser {shape : Shape} {tight loose : Level} {p : List Lexeme} {e : Exp} :
    loose.rank ≤ tight.rank → Derives shape tight p e → Derives shape loose p e
  | app {p q : List Lexeme} {fn arg : Exp} :
    Derives .closed .application p fn → Derives .closed .atom q arg →
    Derives .closed .application (p ++ q) (.appExp fn arg)
  | bop {shape : Shape} {bop : Bop} {op : Lexeme} {p q : List Lexeme} {arg1 arg2 : Exp} :
    Derives .closed (opLevel bop) p arg1 → op.token = opToken bop →
    Derives shape (opLevel bop).next q arg2 →
    Derives shape (opLevel bop) (p ++ op :: q) (.bopExp bop arg1 arg2)
  | closed {level : Level} {p : List Lexeme} {e : Exp} :
    Derives .closed level p e → Derives .ending level p e
  | fn {level : Level} {fn x arrow : Lexeme} {p : List Lexeme} {body : Exp} :
    fn.token = .fn → x.token = .identifier → arrow.token = .arrow → Derives .ending .sum p body →
    Derives .ending level (fn :: x :: arrow :: p) (.lamExp x.identifier body)
  | ite {level : Level} {if_ then_ else_ : Lexeme} {p q r : List Lexeme} {e1 e2 e3 : Exp} :
    if_.token = .if_ → Derives .ending .sum p e1 → then_.token = .then_ →
    Derives .ending .sum q e2 → else_.token = .else_ → Derives .ending .sum r e3 →
    Derives .ending level (if_ :: (p ++ then_ :: (q ++ else_ :: r))) (.ifExp e1 e2 e3)

/-- How tightly a token binds to an operand before it: operators by their level, and the first
token of an argument by that of application. No other token continues an expression. -/
def Token.rank : Token → Nat
  | plus => 1
  | minus => 1
  | times => 2
  | lParen => 3
  | number => 3
  | identifier => 3
  | _ => 0

theorem Token.rank_opToken (bop : Bop) : (opToken bop).rank = (opLevel bop).rank := by
  cases bop <;> rfl

theorem opLevel_ne_atom (bop : Bop) : opLevel bop ≠ .atom := by
  cases bop <;> exact Level.noConfusion

theorem Level.rank_next (bop : Bop) : (opLevel bop).next.rank = (opLevel bop).rank + 1 := by
  cases bop <;> rfl

theorem Level.rank_le (level : Level) : level.rank ≤ 4 := by
  cases level <;> decide

theorem Level.eq_atom {level : Level} (le : Level.atom.rank ≤ level.rank) : level = .atom := by
  cases level with
  | sum => exact absurd le (by decide)
  | product => exact absurd le (by decide)
  | application => exact absurd le (by decide)
  | atom => rfl

theorem Token.rank_le (token : Token) : token.rank ≤ 3 := by
  cases token <;> first | exact Nat.zero_le 3 | decide

theorem Derives.ne_nil {shape : Shape} {level : Level} {p : List Lexeme} {e : Exp}
    (derives : Derives shape level p e) : p ≠ [] := by
  induction derives with
  | number _ => exact List.cons_ne_nil _ _
  | identifier _ => exact List.cons_ne_nil _ _
  | parens _ _ _ _ => exact List.cons_ne_nil _ _
  | looser _ _ ih => exact ih
  | app _ _ ih _ => exact List.append_ne_nil_of_left_ne_nil ih _
  | bop _ _ _ ih _ => exact List.append_ne_nil_of_left_ne_nil ih _
  | closed _ ih => exact ih
  | fn _ _ _ _ _ => exact List.cons_ne_nil _ _
  | ite _ _ _ _ _ _ _ _ _ => exact List.cons_ne_nil _ _

/-- An atom starts with a number, an identifier or a parenthesis. -/
theorem Derives.atom_head {shape : Shape} {level : Level} {p : List Lexeme} {e : Exp}
    (derives : Derives shape level p e) (isClosed : shape = .closed) (isAtom : level = .atom) :
    ∃ l rest, p = l :: rest ∧ l.token.rank = 3 := by
  induction derives with
  | number isNumber => exact ⟨_, [], rfl, by rw [isNumber]; rfl⟩
  | identifier isIdentifier => exact ⟨_, [], rfl, by rw [isIdentifier]; rfl⟩
  | parens isLeft _ _ _ => exact ⟨_, _, rfl, by rw [isLeft]; rfl⟩
  | looser le _ ih =>
    subst isAtom
    exact ih isClosed (Level.eq_atom le)
  | app _ _ _ _ => cases isAtom
  | bop _ _ _ _ _ => exact absurd isAtom (opLevel_ne_atom _)
  | closed _ _ => cases isClosed
  | fn _ _ _ _ _ => cases isClosed
  | ite _ _ _ _ _ _ _ _ _ => cases isClosed

/-- An atom that starts like an argument does not end in an unparenthesised `fn` or `if`. -/
theorem Derives.argument {shape : Shape} {level : Level} {p : List Lexeme} {e : Exp}
    (derives : Derives shape level p e) (isAtom : level = .atom) {l : Lexeme}
    {rest : List Lexeme} (head : p = l :: rest) (starts : l.token.rank = 3) :
    Derives .closed .atom p e := by
  induction derives generalizing l rest with
  | number isNumber => exact .number isNumber
  | identifier isIdentifier => exact .identifier isIdentifier
  | parens isLeft inner isRight _ => exact .parens isLeft inner isRight
  | looser le _ ih =>
    subst isAtom
    exact ih (Level.eq_atom le) head starts
  | app _ _ _ _ => cases isAtom
  | bop _ _ _ _ _ => exact absurd isAtom (opLevel_ne_atom _)
  | closed inner _ => exact isAtom ▸ inner
  | fn isFn _ _ _ _ =>
    cases head
    rw [isFn] at starts
    cases starts
  | ite isIf _ _ _ _ _ _ _ _ =>
    cases head
    rw [isIf] at starts
    cases starts

end Lambcalc.Parse
