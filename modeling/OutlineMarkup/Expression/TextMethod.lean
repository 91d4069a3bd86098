import OutlineMarkup.Expression.Arithmetic

/-!
# Methods of texts

What each method of a text does with its arguments. Too many or too few arguments, and arguments
of the wrong type, are type errors.
-/

namespace OutlineMarkup

namespace Expression

def wantText : Value → Except Fault Text
  | .text s => .ok s
  | _ => .error .wrongType

def wantInt (v : Value) : Except Fault Int :=
  match v.int? with
  | some n => .ok n
  | none => .error .wrongType

namespace TextMethod

/-! ## Letter case -/

def capitalized : Text → Text
  | [] => []
  | c :: s => c.toUpper :: s.map Char.toLower

def swapChar (c : Char) : Char := if c.isUpper then c.toLower else c.toUpper

/-- A letter that follows a letter is small, any other letter is a capital. -/
def titled (afterLetter : Bool) : Text → Text
  | [] => []
  | c :: s => (if afterLetter then c.toLower else c.toUpper) :: titled c.isAlpha s

def isTitled (s : Text) : Bool := s.any Char.isAlpha && titled false s == s

/-! ## Splitting -/

def splitMost (s sep : Text) : Nat → List Text
  | 0 => [s]
  | n + 1 =>
    match s.cut? sep with
    | some (a, b) => a :: splitMost b sep n
    | none => [s]

def splitMostRight (s sep : Text) : Nat → List Text
  | 0 => [s]
  | n + 1 =>
    match s.cutLast? sep with
    | some (a, b) => splitMostRight a sep n ++ [b]
    | none => [s]

def wordsMost (s : Text) : Nat → List Text
  | 0 => if s.trimLeft.isEmpty then [] else [s.trimLeft]
  | n + 1 =>
    let t := s.trimLeft
    if t.isEmpty then []
    else t.takeWhile (!Text.isBlank ·) :: wordsMost (t.dropWhile (!Text.isBlank ·)) n

def wordsMostRight (s : Text) (n : Nat) : List Text :=
  ((wordsMost s.reverse n).map List.reverse).reverse

/-- Lines end at a line feed, a carriage return, or both in that order reversed. -/
def splitLines (keep : Bool) : Text → List Text
  | [] => []
  | '\r' :: '\n' :: s => (if keep then ['\r', '\n'] else []) :: splitLines keep s
  | c :: s =>
    if c == '\n' || c == '\r' then (if keep then [c] else []) :: splitLines keep s
    else Text.consHead c (splitLines keep s)

/-- Puts `new` in place of the first `n` occurrences of `old`; an empty `old` stands before every
character and at the end. -/
def replaceMost (s old new : Text) : Nat → Text
  | 0 => s
  | n + 1 =>
    if old.isEmpty then
      match s with
      | [] => new
      | c :: t => new ++ c :: replaceMost t old new n
    else
      match s.cut? old with
      | some (a, b) => a ++ new ++ replaceMost b old new n
      | none => s

def expandTabsFrom (size column : Nat) : Text → Text
  | [] => []
  | c :: s =>
    if c == '\t' then
      if size = 0 then expandTabsFrom size column s
      else
        let n := size - column % size
        List.replicate n ' ' ++ expandTabsFrom size (column + n) s
    else if c == '\n' || c == '\r' then c :: expandTabsFrom size 0 s
    else c :: expandTabsFrom size (column + 1) s

def zeroFill (s : Text) (width : Nat) : Text :=
  match s with
  | '-' :: t => '-' :: Text.padLeft t (width - 1) '0'
  | '+' :: t => '+' :: Text.padLeft t (width - 1) '0'
  | t => t.padLeft width '0'

/-! ## Arguments -/

def stripClass : List Value → Except Fault (Char → Bool)
  | [] => .ok Text.isBlank
  | [.none] => .ok Text.isBlank
  | [.text t] => .ok fun c => t.hasChar c
  | _ => .error .wrongType

def widthAndFill : List Value → Except Fault (Nat × Char)
  | [w] => do return ((← wantInt w).toNat, ' ')
  | [w, .text [c]] => do return ((← wantInt w).toNat, c)
  | _ => .error .wrongType

def splitArguments : List Value → Except Fault (Option Text × Option Nat)
  | [] => .ok (none, none)
  | [v] => do return (← separator v, none)
  | [v, n] => do
    let sep ← separator v
    let n ← wantInt n
    return (sep, if n < 0 then none else some n.toNat)
  | _ => .error .wrongType
where
  separator : Value → Except Fault (Option Text)
    | .none => .ok none
    | .text [] => .error .badValue
    | .text t => .ok (some t)
    | _ => .error .wrongType

/-- The text searched for, with the region in which to search. -/
def searchArguments (s : Text) : List Value → Except Fault (Value × Nat × Text)
  | v :: bounds => do
    let (start, stop) ← match bounds with
      | [] => pure (none, none)
      | [a] => do pure (← bound? a, none)
      | [a, b] => do pure (← bound? a, ← bound? b)
      | _ => .error .wrongType
    let a := Text.clampIndex s.length (start.getD 0)
    let b := Text.clampIndex s.length (stop.getD s.length)
    return (v, a, (s.take b).drop a)
  | [] => .error .wrongType

def locate (last : Bool) (s : Text) (args : List Value) : Except Fault (Option Nat) := do
  let (v, start, region) ← searchArguments s args
  let t ← wantText v
  let found := if last then region.cutLast? t else region.cut? t
  return found.map fun (a, _) => start + a.length

def noArguments (args : List Value) (v : Value) : Except Fault Value :=
  if args.isEmpty then .ok v else .error .wrongType

def ends (test : Text → Text → Bool) (s : Text) (args : List Value) : Except Fault Value := do
  let (v, _, region) ← searchArguments s args
  match v with
  | .text t => return .bool (test t region)
  | .tuple ts => return .bool (← ts.anyM fun t => do return test (← wantText t) region)
  | _ => .error .wrongType

def texts (parts : List Text) : List Value := parts.map .text

def apply (m : TextMethod) (s : Text) (args : List Value) : Except Fault Value :=
  match m with
  | capitalize => noArguments args (.text (capitalized s))
  | lower => noArguments args (.text s.toLower)
  | upper => noArguments args (.text s.toUpper)
  | swapcase => noArguments args (.text (s.map swapChar))
  | title => noArguments args (.text (titled false s))
  | isalnum => noArguments args (.bool (!s.isEmpty && s.all Char.isAlphanum))
  | isalpha => noArguments args (.bool (!s.isEmpty && s.all Char.isAlpha))
  | isdigit => noArguments args (.bool (!s.isEmpty && s.all Char.isDigit))
  | isspace => noArguments args (.bool (!s.isEmpty && s.all Text.isBlank))
  | islower => noArguments args (.bool (s.any Char.isLower && !s.any Char.isUpper))
  | isupper => noArguments args (.bool (s.any Char.isUpper && !s.any Char.isLower))
  | istitle => noArguments args (.bool (isTitled s))
  | strip => do return .text (s.trimOf (← stripClass args))
  | lstrip => do return .text (s.dropWhile (← stripClass args))
  | rstrip => do return .text (s.dropRightWhile (← stripClass args))
  | ljust => do
    let (w, c) ← widthAndFill args
    return .text (s.padRight w c)
  | rjust => do
    let (w, c) ← widthAndFill args
    return .text (s.padLeft w c)
  | center => do
    let (w, c) ← widthAndFill args
    let missing := w - s.length
    let left := missing / 2 + (if missing % 2 = 1 && w % 2 = 1 then 1 else 0)
    return .text (List.replicate left c ++ s ++ List.replicate (missing - left) c)
  | zfill =>
    match args with
    | [w] => do return .text (zeroFill s (← wantInt w).toNat)
    | _ => .error .wrongType
  | expandtabs =>
    match args with
    | [] => .ok (.text (expandTabsFrom 8 0 s))
    | [n] => do return .text (expandTabsFrom (← wantInt n).toNat 0 s)
    | _ => .error .wrongType
  | join =>
    match args with
    | [v] =>
      match v.items? with
      | some items => do return .text (Text.join s (← items.mapM wantText))
      | .none => .error .wrongType
    | _ => .error .wrongType
  | replace =>
    match args with
    | [old, new] => do
      return .text (replaceMost s (← wantText old) (← wantText new) (s.length + 1))
    | [old, new, n] => do
      let (old, new, n) := (← wantText old, ← wantText new, ← wantInt n)
      return .text (replaceMost s old new (if n < 0 then s.length + 1 else n.toNat))
    | _ => .error .wrongType
  | split => do
    let (sep, n) ← splitArguments args
    let n := n.getD s.length
    match sep with
    | some sep => return .list (texts (splitMost s sep n))
    | .none => return .list (texts (wordsMost s n))
  | rsplit => do
    let (sep, n) ← splitArguments args
    let n := n.getD s.length
    match sep with
    | some sep => return .list (texts (splitMostRight s sep n))
    | .none => return .list (texts (wordsMostRight s n))
  | splitlines =>
    match args with
    | [] => .ok (.list (texts (splitLines false s)))
    | [v] => .ok (.list (texts (splitLines v.isTrue s)))
    | _ => .error .wrongType
  | partition =>
    match args with
    | [.text []] => .error .badValue
    | [.text sep] =>
      match s.cut? sep with
      | some (a, b) => .ok (.tuple (texts [a, sep, b]))
      | .none => .ok (.tuple (texts [s, [], []]))
    | _ => .error .wrongType
  | rpartition =>
    match args with
    | [.text []] => .error .badValue
    | [.text sep] =>
      match s.cutLast? sep with
      | some (a, b) => .ok (.tuple (texts [a, sep, b]))
      | .none => .ok (.tuple (texts [[], [], s]))
    | _ => .error .wrongType
  | find => do
    return .int (((← locate false s args).map Int.ofNat).getD (-1))
  | rfind => do
    return .int (((← locate true s args).map Int.ofNat).getD (-1))
  | index => do
    match ← locate false s args with
    | some k => return .int k
    | .none => .error .badValue
  | rindex => do
    match ← locate true s args with
    | some k => return .int k
    | .none => .error .badValue
  | count => do
    let (v, _, region) ← searchArguments s args
    let t ← wantText v
    return .int (if t.isEmpty then region.length + 1 else Text.occurrences region t)
  | startswith => ends (fun t region => t.isPrefixOf region) s args
  | endswith => ends (fun t region => t.isSuffixOf region) s args

end TextMethod
end Expression
end OutlineMarkup
