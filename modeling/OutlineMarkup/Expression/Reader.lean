import OutlineMarkup.Expression.Arithmetic
import OutlineMarkup.Expression.Token

/-!
# Reading expressions

Expressions as trees, and how tokens are read as a tree: operators bind by level, from `or` up
to `**`, those of one level from the left.
-/

namespace OutlineMarkup

namespace Expression

inductive Expr where
  | value (v : Value)
  | name (n : Text)
  | list (items : List Expr)
  | tuple (items : List Expr)
  /-- A collection in braces: its parts are computed, but it has no operations. -/
  | braces (parts : List Expr)
  | unary (op : UnaryOp) (e : Expr)
  | binary (op : BinaryOp) (a b : Expr)
  | compare (op : CompareOp) (a b : Expr)
  | both (a b : Expr)
  | either (a b : Expr)
  | negation (e : Expr)
  | choice (yes condition no : Expr)
  /-- The last arguments are named by the keywords. -/
  | call (f : Expr) (args : List Expr) (keywords : List Text)
  | member (e : Expr) (name : Text)
  | item (e i : Expr)
  /-- Bounds and step left out are `None`. -/
  | part (e start stop step : Expr)

/-- Words that cannot be names. -/
def keywords : List String :=
  ["and", "as", "assert", "break", "class", "continue", "def", "del", "elif", "else", "except",
   "exec", "finally", "for", "from", "global", "if", "import", "in", "is", "lambda", "not", "or",
   "pass", "print", "raise", "return", "try", "while", "with", "yield"]

def isKeyword (word : Text) : Bool := keywords.contains (String.ofList word)

abbrev Tokens := List Token

namespace Expr

abbrev absent : Expr := .value .none

/-- Levels at which operators bind; a higher level binds tighter. -/
def orLevel : Nat := 1
def andLevel : Nat := 2
def notLevel : Nat := 3
def compareLevel : Nat := 4
def unaryLevel : Nat := 11
def powLevel : Nat := 12

def binaryOp? (s : Text) : Option (BinaryOp × Nat) :=
  match s with
  | ['+'] => some (.add, 9)
  | ['-'] => some (.sub, 9)
  | ['*'] => some (.mul, 10)
  | ['/'] => some (.div, 10)
  | ['%'] => some (.mod, 10)
  | ['/', '/'] => some (.floorDiv, 10)
  | ['|'] => some (.bitOr, 5)
  | ['^'] => some (.bitXor, 6)
  | ['&'] => some (.bitAnd, 7)
  | ['<', '<'] => some (.shiftLeft, 8)
  | ['>', '>'] => some (.shiftRight, 8)
  | _ => none

def unaryOp? (s : Text) : Option UnaryOp :=
  match s with
  | ['-'] => some .minus
  | ['+'] => some .plus
  | ['~'] => some .invert
  | _ => none

/-- A comparison sign or word at the start of the tokens, with the tokens after it. -/
def compareOp? : Tokens → Option (CompareOp × Tokens)
  | .sign ['<'] :: ts => some (.lt, ts)
  | .sign ['>'] :: ts => some (.gt, ts)
  | .sign ['<', '='] :: ts => some (.le, ts)
  | .sign ['>', '='] :: ts => some (.ge, ts)
  | .sign ['=', '='] :: ts => some (.eq, ts)
  | .sign ['!', '='] :: ts => some (.ne, ts)
  | .sign ['<', '>'] :: ts => some (.ne, ts)
  | .name ['i', 'n'] :: ts => some (.isIn, ts)
  | .name ['n', 'o', 't'] :: .name ['i', 'n'] :: ts => some (.notIn, ts)
  | _ => none

def joinTexts : Text → Tokens → Text × Tokens
  | s, .text t :: ts => joinTexts (s ++ t) ts
  | s, ts => (s, ts)

def expect (c : Char) : Tokens → Except Fault Tokens
  | .sign [d] :: ts => if c = d then .ok ts else .error .malformed
  | _ => .error .malformed

def startsWithSign (cs : Text) : Tokens → Bool
  | .sign [d] :: _ => cs.hasChar d
  | _ => false

/-- An operator before an expression. A minus sign belongs to a number that stands alone behind it: the
least number of the word is not long. -/
def signed (op : UnaryOp) (before after : Tokens) (e : Expr) : Expr :=
  match op, before with
  | .minus, .int n :: rest => if rest.length = after.length then .value (.whole (-n)) else .unary op e
  | _, _ => .unary op e

mutual

/-- A complete expression, with `if` and `else` at the lowest level. -/
def readFull : Nat → Tokens → Except Fault (Expr × Tokens)
  | 0, _ => .error .malformed
  | fuel + 1, ts => do
    let (e, ts) ← readLevel fuel orLevel ts
    match ts with
    | .name ['i', 'f'] :: ts =>
      let (condition, ts) ← readLevel fuel orLevel ts
      match ts with
      | .name ['e', 'l', 's', 'e'] :: ts =>
        let (no, ts) ← readFull fuel ts
        return (.choice e condition no, ts)
      | _ => .error .malformed
    | ts => return (e, ts)

/-- An expression whose operators bind at the level or tighter. -/
def readLevel : Nat → Nat → Tokens → Except Fault (Expr × Tokens)
  | 0, _, _ => .error .malformed
  | fuel + 1, level, ts =>
    match ts with
    | .name ['n', 'o', 't'] :: ts =>
      if level ≤ notLevel then do
        let (e, ts) ← readLevel fuel notLevel ts
        readRest fuel level (.negation e) ts
      else .error .malformed
    | .sign s :: rest =>
      match unaryOp? s with
      | some op => do
        let (e, ts) ← readLevel fuel unaryLevel rest
        readRest fuel level (signed op rest ts e) ts
      | none => do
        let (e, ts) ← readAtom fuel ts
        let (e, ts) ← readTrailers fuel e ts
        readRest fuel level e ts
    | ts => do
      let (e, ts) ← readAtom fuel ts
      let (e, ts) ← readTrailers fuel e ts
      readRest fuel level e ts

/-- Goes on after a left operand while operators of the level or tighter follow. -/
def readRest : Nat → Nat → Expr → Tokens → Except Fault (Expr × Tokens)
  | 0, _, _, _ => .error .malformed
  | fuel + 1, level, left, ts =>
    match ts with
    | .sign ['*', '*'] :: rest =>
      if level ≤ powLevel then do
        let (right, ts) ← readLevel fuel unaryLevel rest
        readRest fuel level (.binary .pow left right) ts
      else .ok (left, ts)
    | .name ['a', 'n', 'd'] :: rest =>
      if level ≤ andLevel then do
        let (right, ts) ← readLevel fuel (andLevel + 1) rest
        readRest fuel level (.both left right) ts
      else .ok (left, ts)
    | .name ['o', 'r'] :: rest =>
      if level ≤ orLevel then do
        let (right, ts) ← readLevel fuel (orLevel + 1) rest
        readRest fuel level (.either left right) ts
      else .ok (left, ts)
    | ts =>
      match compareOp? ts with
      | some (op, rest) =>
        if level ≤ compareLevel then do
          let (right, ts) ← readLevel fuel (compareLevel + 1) rest
          readChain fuel level (.compare op left right) right ts
        else .ok (left, ts)
      | none =>
        match ts with
        | .sign s :: rest =>
          match binaryOp? s with
          | some (op, l) =>
            if level ≤ l then do
              let (right, ts) ← readLevel fuel (l + 1) rest
              readRest fuel level (.binary op left right) ts
            else .ok (left, ts)
          | none => .ok (left, ts)
        | ts => .ok (left, ts)

/-- Comparisons in a row hold if each of them does. -/
def readChain : Nat → Nat → Expr → Expr → Tokens → Except Fault (Expr × Tokens)
  | 0, _, _, _, _ => .error .malformed
  | fuel + 1, level, e, left, ts =>
    match compareOp? ts with
    | some (op, rest) => do
      let (right, ts) ← readLevel fuel (compareLevel + 1) rest
      readChain fuel level (.both e (.compare op left right)) right ts
    | none => readRest fuel level e ts

def readAtom : Nat → Tokens → Except Fault (Expr × Tokens)
  | 0, _ => .error .malformed
  | fuel + 1, ts =>
    match ts with
    | .int n :: ts => .ok (.value (.whole n), ts)
    | .long n :: ts => .ok (.value (.long n), ts)
    | .float x :: ts => .ok (.value (.float x), ts)
    | .text s :: ts =>
      let (s, ts) := joinTexts s ts
      .ok (.value (.text s), ts)
    | .name n :: ts => if isKeyword n then .error .malformed else .ok (.name n, ts)
    | .sign ['('] :: ts =>
      if startsWithSign [')'] ts then .ok (.tuple [], ts.drop 1)
      else do
        let (e, ts) ← readFull fuel ts
        if startsWithSign [','] ts then
          let (items, ts) ← readItems fuel [')'] (ts.drop 1)
          return (.tuple (e :: items), ← expect ')' ts)
        else return (e, ← expect ')' ts)
    | .sign ['['] :: ts => do
      let (items, ts) ← readItems fuel [']'] ts
      return (.list items, ← expect ']' ts)
    | .sign ['\x7b'] :: ts => do
      let (parts, ts) ← readParts fuel ts
      return (.braces parts, ← expect '\x7d' ts)
    | _ => .error .malformed

/-- Expressions between commas, a last comma allowed, up to a closing sign or the end. -/
def readItems : Nat → Text → Tokens → Except Fault (List Expr × Tokens)
  | 0, _, _ => .error .malformed
  | fuel + 1, closing, ts =>
    if ts.isEmpty || startsWithSign closing ts then .ok ([], ts)
    else do
      let (e, ts) ← readFull fuel ts
      if startsWithSign [','] ts then
        let (items, ts) ← readItems fuel closing (ts.drop 1)
        return (e :: items, ts)
      else return ([e], ts)

/-- Members or pairs in braces; of a pair the second part is computed first. -/
def readParts : Nat → Tokens → Except Fault (List Expr × Tokens)
  | 0, _ => .error .malformed
  | fuel + 1, ts =>
    if startsWithSign ['\x7d'] ts then .ok ([], ts)
    else do
      let (e, ts) ← readFull fuel ts
      let (parts, ts) ←
        if startsWithSign [':'] ts then do
          let (w, ts) ← readFull fuel (ts.drop 1)
          pure ([w, e], ts)
        else pure ([e], ts)
      if startsWithSign [','] ts then
        let (more, ts) ← readParts fuel (ts.drop 1)
        return (parts ++ more, ts)
      else return (parts, ts)

/-- Arguments of a call, those with a keyword last. -/
def readArguments : Nat → Tokens → Except Fault (List Expr × List Text × Tokens)
  | 0, _ => .error .malformed
  | fuel + 1, ts =>
    if startsWithSign [')'] ts then .ok ([], [], ts)
    else do
      let (keyword, ts) : Option Text × Tokens :=
        match ts with
        | .name n :: .sign ['='] :: rest => (some n, rest)
        | ts => (none, ts)
      let (e, ts) ← readFull fuel ts
      let (args, words, ts) ←
        if startsWithSign [','] ts then readArguments fuel (ts.drop 1)
        else pure ([], [], ts)
      match keyword with
      | some n =>
        if args.length = words.length then return (e :: args, n :: words, ts)
        else .error .malformed
      | none => return (e :: args, words, ts)

/-- Calls, attributes, items and parts that follow an expression. -/
def readTrailers : Nat → Expr → Tokens → Except Fault (Expr × Tokens)
  | 0, _, _ => .error .malformed
  | fuel + 1, e, ts =>
    match ts with
    | .sign ['('] :: ts => do
      let (args, words, ts) ← readArguments fuel ts
      readTrailers fuel (.call e args words) (← expect ')' ts)
    | .sign ['.'] :: .name n :: ts =>
      if isKeyword n then .error .malformed
      else readTrailers fuel (.member e n) ts
    | .sign ['['] :: ts => do
      let (start, ts) ← readBound fuel ts
      if startsWithSign [':'] ts then
        let (stop, ts) ← readBound fuel (ts.drop 1)
        let (step, ts) ←
          if startsWithSign [':'] ts then readBound fuel (ts.drop 1) else pure (none, ts)
        readTrailers fuel
          (.part e (start.getD absent) (stop.getD absent) (step.getD absent)) (← expect ']' ts)
      else
        match start with
        | none => .error .malformed
        | some i =>
          if startsWithSign [','] ts then
            let (items, ts) ← readItems fuel [']'] (ts.drop 1)
            readTrailers fuel (.item e (.tuple (i :: items))) (← expect ']' ts)
          else readTrailers fuel (.item e i) (← expect ']' ts)
    | ts => .ok (e, ts)

def readBound : Nat → Tokens → Except Fault (Option Expr × Tokens)
  | 0, _ => .error .malformed
  | fuel + 1, ts =>
    if startsWithSign [':', ']'] ts then .ok (none, ts)
    else do
      let (e, ts) ← readFull fuel ts
      return (some e, ts)

end

/-- Reads the whole text as one expression; commas outside brackets make a tuple. The bound on
the nesting exceeds what that many tokens can need. -/
def read (s : Text) : Except Fault Expr := do
  let ts ← tokens s
  let fuel := 4 * ts.length + 4
  let (e, ts) ← readFull fuel ts
  if startsWithSign [','] ts then
    let (items, ts) ← readItems fuel [] (ts.drop 1)
    if ts.isEmpty then return .tuple (e :: items) else .error .malformed
  else if ts.isEmpty then return e
  else .error .malformed

end Expr
end Expression
end OutlineMarkup
