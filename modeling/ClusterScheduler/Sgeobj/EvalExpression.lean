import ClusterScheduler.Sgeobj.CentryRsmap

/-!
# Evaluating expressions over patterns

An expression combines patterns with `!`, `|`, `&` and parentheses. It is read
with one token of lookahead and evaluated at once. Where the result is known
already the rest is read in skip mode. `0` stands for true, `1` for false and `-1`
for an error.

* `Token`, `nextToken` — the state of an evaluation and how it reads on.
* `orExpression`, `andExpression`, `simpleExpression` — reading and evaluating.
* `sgeEvalExpression` — evaluating a string.
-/

namespace ClusterScheduler.Sgeobj

inductive TokenType where
  | not | or | and | braceOpen | braceClose | endOfExpression | exp | error
  deriving DecidableEq

/-- What an evaluation may report. -/
inductive ExpressionError where
  | longValue
  | longExpression
  | parseError (pos : ℕ)
  deriving DecidableEq

/-- The comparisons; `0` is a match. -/
structure Comparison where
  fnmatch : List Char → List Char → ℤ
  strcmp : List Char → List Char → ℤ
  strcasecmp : List Char → List Char → ℤ
  hostmatch : List Char → List Char → ℤ
  hostcmp : List Char → List Char → ℤ

/-- The state of an evaluation; `s` is what is left of the expression. -/
structure Token where
  type : CEntryType
  value : List Char
  expr : List Char
  s : List Char
  pattern : List Char
  hasPatterns : Bool
  tt : TokenType
  et : TokenType
  answerList : List ExpressionError

/-! ## Reading -/

def peek : List Char → Char
  | [] => '\x00'
  | c :: _ => c

def indexOfTerminal : Char → Option TokenType
  | '!' => some .not
  | '|' => some .or
  | '&' => some .and
  | '(' => some .braceOpen
  | ')' => some .braceClose
  | ' ' => some .endOfExpression
  | '\x00' => some .endOfExpression
  | _ => none

def isPattern : Char → Bool
  | '*' | '?' | '[' | ']' => true
  | _ => false

/-- Patterns for these types are compared in lower case. -/
def foldCase (type : CEntryType) (s : List Char) : List Char :=
  match type with
  | .cstr | .host => s.map Char.toLower
  | _ => s

def isAtomChar (c : Char) : Bool := (indexOfTerminal c).isNone

def parseTerminal (t : Token) : Option Token :=
  (indexOfTerminal (peek t.s)).map fun tt => { t with tt := tt, s := t.s.tail }

/-- The first character was tested already. In skip mode the pattern is not kept. -/
def parseNonTerminal (t : Token) (skip : Bool) : Token :=
  if skip then { t with tt := .exp, s := t.s.dropWhile isAtomChar }
  else
    let atom := t.s.take 1 ++ t.s.tail.takeWhile isAtomChar
    { t with
      tt := .exp
      pattern := foldCase t.type atom
      hasPatterns := atom.any isPattern
      s := t.s.tail.dropWhile isAtomChar }

/-- An error stays. -/
def nextToken (t : Token) (skip : Bool) : Token :=
  let t := { t with et := t.tt, s := t.s.dropWhile (· = ' ') }
  if t.tt = .error then t
  else if peek t.s = '\x00' then { t with tt := .endOfExpression }
  else (parseTerminal t).getD (parseNonTerminal t skip)

/-- Only the first error is reported. -/
def raiseError (t : Token) (expected : TokenType) : ℤ × Token :=
  if t.tt ≠ .error then
    let answer := .parseError (t.expr.length - t.s.length)
    (-1, { t with answerList := t.answerList ++ [answer], et := expected, tt := .error })
  else (-1, t)

/-! ## Evaluating -/

/-- How a value is compared depends on the type and on whether there are wildcards. -/
def compareValue (C : Comparison) (type : CEntryType) (pattern value : List Char)
    (hasPatterns : Bool) : ℤ :=
  if hasPatterns then
    match type with
    | .str | .cstr | .restr => C.fnmatch pattern value
    | .host => C.hostmatch pattern value
    | _ => -1
  else
    match type with
    | .str | .restr => C.strcmp pattern value
    | .cstr => C.strcasecmp pattern value
    | .host => C.hostcmp pattern value
    | _ => -1

def matchPattern (C : Comparison) (t : Token) (skip : Bool) : ℤ :=
  if skip then -1
  else if compareValue C t.type t.pattern t.value t.hasPatterns = 0 then 0 else 1

mutual

/-- `fuel` bounds the depth of the calls. -/
def orExpression (C : Comparison) : ℕ → Token → Bool → Option (ℤ × Token)
  | 0, _, _ => none
  | fuel + 1, t, skip =>
    (andExpression C fuel (nextToken t skip) skip).bind fun res =>
      orLoop C fuel res.1 res.2 skip

def orLoop (C : Comparison) : ℕ → ℤ → Token → Bool → Option (ℤ × Token)
  | 0, _, _, _ => none
  | fuel + 1, m, t, skip =>
    if t.tt = .or then
      let t := nextToken t skip
      if m = 0 then
        (andExpression C fuel t true).bind fun res => orLoop C fuel m res.2 skip
      else
        (andExpression C fuel t skip).bind fun res => orLoop C fuel res.1 res.2 skip
    else some (m, t)

def andExpression (C : Comparison) : ℕ → Token → Bool → Option (ℤ × Token)
  | 0, _, _ => none
  | fuel + 1, t, skip =>
    (simpleExpression C fuel t skip).bind fun res => andLoop C fuel res.1 res.2 skip

def andLoop (C : Comparison) : ℕ → ℤ → Token → Bool → Option (ℤ × Token)
  | 0, _, _, _ => none
  | fuel + 1, m, t, skip =>
    if t.tt = .and then
      let t := nextToken t skip
      if m ≠ 0 then
        (simpleExpression C fuel t true).bind fun res => andLoop C fuel m res.2 skip
      else
        (simpleExpression C fuel t skip).bind fun res => andLoop C fuel res.1 res.2 skip
    else some (m, t)

def simpleExpression (C : Comparison) : ℕ → Token → Bool → Option (ℤ × Token)
  | 0, _, _ => none
  | fuel + 1, t, skip =>
    match t.tt with
    | .error => some (-1, t)
    | .braceOpen =>
      (orExpression C fuel t skip).map fun res =>
        if res.2.tt ≠ .braceClose then raiseError res.2 .braceClose
        else (res.1, nextToken res.2 skip)
    | .exp => some (matchPattern C t skip, nextToken t skip)
    | .not =>
      (simpleExpression C fuel (nextToken t skip) skip).map fun res =>
        (if res.1 = 0 then 1 else 0, res.2)
    | _ => some (raiseError t t.et)

end

def maxStringSize : ℕ := 2048

def isExpression (s : List Char) : Bool := s.any fun c => "*?[]&|!()".toList.contains c

def uncaseValue (t : Token) : Token := { t with value := foldCase t.type t.value }

/-- Evaluating on the expression path. After it nothing may be left. -/
def evalOnPath (C : Comparison) (t : Token) : Option (ℤ × List ExpressionError) :=
  (orExpression C (3 * t.expr.length + 3) (uncaseValue t) false).map fun res =>
    if res.2.tt ≠ .endOfExpression then
      ((raiseError res.2 .endOfExpression).1, (raiseError res.2 .endOfExpression).2.answerList)
    else if peek res.2.s ≠ '\x00' then
      ((raiseError res.2 res.2.et).1, (raiseError res.2 res.2.et).2.answerList)
    else (res.1, res.2.answerList)

/-- The caller may say whether the string is an expression. -/
def sgeEvalExpression (C : Comparison) (type : CEntryType) (expr value : Option (List Char))
    (useIsExpression isExpr : Bool) : Option (ℤ × List ExpressionError) :=
  match expr, value with
  | none, some _ => some (-1, [])
  | some _, none => some (1, [])
  | none, none => some (0, [])
  | some expr, some value =>
    if maxStringSize ≤ value.length then some (-1, [.longValue])
    else if maxStringSize ≤ expr.length then some (-1, [.longExpression])
    else
      let hasPatterns := if useIsExpression then isExpr else isExpression expr
      let t : Token :=
        { type := type, value := value, expr := expr, s := expr, pattern := []
          hasPatterns := hasPatterns, tt := .endOfExpression, et := .exp
          answerList := [] }
      if hasPatterns then evalOnPath C t
      else some (matchPattern C { t with pattern := expr } false, [])

end ClusterScheduler.Sgeobj
