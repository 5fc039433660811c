import Lambcalc.Ast.Exp
import Lambcalc.Lib.Computation

/-!
# The parser

`Token` of `include/lexer.h` and `Parser` of `include/parser.h` and `src/parser.cpp`, over any
lexer. The recursion of the source need not end on an endless input, so the functions take fuel;
the functions that `parseExpression` calls back through take it as an argument.
-/

namespace Lambcalc.Parse

open Ast Lib

/-! ## Tokens -/

/-- `Token`. A character that is no token of the language is cast to one. -/
inductive Token where
  | eof
  | number
  | identifier
  | fn
  | arrow
  | if_
  | then_
  | else_
  | lParen
  | rParen
  | plus
  | minus
  | times
  | semicolon
  | other (char : Char)
  deriving DecidableEq, Repr

/-- `static_cast<int>`. -/
def Token.toInt : Token → Int
  | eof => -1
  | number => -2
  | identifier => -3
  | fn => -4
  | arrow => -5
  | if_ => -6
  | then_ => -7
  | else_ => -8
  | lParen => '('.toNat
  | rParen => ')'.toNat
  | plus => '+'.toNat
  | minus => '-'.toNat
  | times => '*'.toNat
  | semicolon => ';'.toNat
  | other char => char.toNat

/-- The interface of `Lexer`: the next token, and the last identifier and number. -/
class Lexer (L : Type) where
  getToken : L → Token × L
  getIdentifier : L → String
  getNumber : L → Int

/-! ## The token buffer -/

/-- The fields of `Parser` that change. -/
structure Parser (L : Type) where
  lexer : L
  currentToken : Token
  peekToken : Option Token
  deriving DecidableEq, Repr

/-- A new parser. -/
def Parser.new {L : Type} (lexer : L) : Parser L := ⟨lexer, .eof, none⟩

/-- `ParserException`. -/
structure ParserException where
  reason : String
  abort : Bool
  deriving DecidableEq, Repr

/-- The ways in which parsing ends without a tree: an exception, or a failed `assert`. -/
inductive Failure where
  | exception (e : ParserException)
  | assertion (message : String)
  deriving DecidableEq, Repr

/-- Computations of a parser. -/
abbrev ParserM (L : Type) : Type → Type := Computation (Parser L) Failure

section Parser

variable {L : Type} [Lexer L]

/-- The effect of `nextToken`. -/
def Parser.advance (s : Parser L) : Parser L :=
  match s.peekToken with
  | some token => { s with currentToken := token, peekToken := none }
  | none =>
    let (token, lexer) := Lexer.getToken s.lexer
    { s with lexer := lexer, currentToken := token }

/-- The effect of `peekToken`, and its result. -/
def Parser.peek (s : Parser L) : Token × Parser L :=
  match s.peekToken with
  | some token => (token, s)
  | none =>
    let (token, lexer) := Lexer.getToken s.lexer
    (token, { s with lexer := lexer, peekToken := some token })

/-- `nextToken`. -/
def nextToken : ParserM L Unit := .update fun s => ((), s.advance)

/-- `peekToken`. -/
def peekToken : ParserM L Token := .update Parser.peek

/-- `getCurrentToken`. -/
def getCurrentToken : ParserM L Token := .update fun s => (s.currentToken, s)

/-- `lexer_.getIdentifier`. -/
def getIdentifier : ParserM L String := .update fun s => (Lexer.getIdentifier s.lexer, s)

/-- `lexer_.getNumber`. -/
def getNumber : ParserM L Int := .update fun s => (Lexer.getNumber s.lexer, s)

/-- `assert(getCurrentToken() == token && message)`. -/
def assertToken (token : Token) (message : String) : ParserM L Unit := do
  if (← getCurrentToken) = token then pure () else .fail (.assertion message)

/-! ## The grammar's functions -/

/-- `parseOp`. -/
def parseOp : Token → Option Bop
  | .plus => some .plus
  | .minus => some .minus
  | .times => some .times
  | _ => none

/-- `infixBp_`: the binding powers to the left and to the right. -/
abbrev InfixBp := Bop → Option (Int × Int)

/-- `defaultInfixBp` of `src/main.cpp`. -/
def defaultInfixBp : InfixBp
  | .plus => some (1, 2)
  | .minus => some (1, 2)
  | .times => some (3, 4)

section Productions

variable (parseExpression : ParserM L Exp)

/-- `parseFn`, with `Fn` as the current token. -/
def parseFn : ParserM L Exp := do
  nextToken
  assertToken .identifier "Expected variable parameter"
  let param ← getIdentifier
  nextToken
  assertToken .arrow "Expected arrow after function parameter"
  let body ← parseExpression
  return .lamExp param body

/-- `parseIf`, with `If` as the current token. -/
def parseIf : ParserM L Exp := do
  let cond ← parseExpression
  nextToken
  assertToken .then_ "Expected then after if condition"
  let then_ ← parseExpression
  nextToken
  assertToken .else_ "Expected else after then expression"
  let els ← parseExpression
  return .ifExp cond then_ els

/-- `parseParens`, with `LParen` as the current token. -/
def parseParens : ParserM L Exp := do
  let exp ← parseExpression
  nextToken
  assertToken .rParen "Expected right parenthesis"
  return exp

/-- `parsePrimary`. -/
def parsePrimary : ParserM L Exp := do
  let token ← getCurrentToken
  match token with
  | .lParen => parseParens parseExpression
  | .number => return .intExp (← getNumber)
  | .fn => parseFn parseExpression
  | .if_ => parseIf parseExpression
  | .identifier => return .varExp (← getIdentifier)
  | _ => .fail (.exception ⟨"Invalid token: " ++ toString token.toInt, token = .eof⟩)

end Productions

/-- `baseBP`. -/
def baseBP : Int := 0

/-- `appLbp`. -/
def appLbp : Int := 100

/-- `appRbp`. -/
def appRbp : Int := 101

mutual

/-- `parseBinOp`. -/
def parseBinOp (infixBp : InfixBp) : Nat → Int → ParserM L Exp
  | 0, _ => .unfinished
  | fuel + 1, minBP => do
    nextToken
    let lhs ← parsePrimary (parseBinOp infixBp fuel baseBP)
    parseOperators infixBp fuel minBP lhs

/-- The loop of `parseBinOp`. -/
def parseOperators (infixBp : InfixBp) : Nat → Int → Exp → ParserM L Exp
  | 0, _, _ => .unfinished
  | fuel + 1, minBP, lhs => do
    let token ← peekToken
    match parseOp token with
    | some bop =>
      match infixBp bop with
      | some (lbp, rbp) =>
        if lbp < minBP then return lhs
        nextToken
        let rhs ← parseBinOp infixBp fuel rbp
        parseOperators infixBp fuel minBP (.bopExp bop lhs rhs)
      | none => return lhs
    | none =>
      if token = .lParen ∨ token = .number ∨ token = .identifier then
        if appLbp < minBP then return lhs
        let rhs ← parseBinOp infixBp fuel appRbp
        parseOperators infixBp fuel minBP (.appExp lhs rhs)
      else return lhs

end

/-- `parseExpression`. -/
def parseExpression (infixBp : InfixBp) (fuel : Nat) : ParserM L Exp :=
  parseBinOp infixBp fuel baseBP

end Parser

end Lambcalc.Parse
