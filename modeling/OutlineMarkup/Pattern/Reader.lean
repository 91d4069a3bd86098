import OutlineMarkup.Fault
import OutlineMarkup.Pattern

/-!
# Reading patterns

The written form of patterns: sets in square brackets, groups in parentheses, the signs `*`, `+`,
`?` and counts in braces for repetition, `|` between alternatives, and escapes with a backslash.
A backslash before any other character stands for that character.
-/

namespace OutlineMarkup

namespace Pattern

def isSpecial (c : Char) : Bool :=
  c == '.' || c == '^' || c == '$' || c == '*' || c == '+' || c == '?' || c == '\x7b'
    || c == '[' || c == ']' || c == '\\' || c == '|' || c == '(' || c == ')' || c == '\x7d'

def isLiteral (s : Text) : Bool := !s.any isSpecial

/-- The rest of the pattern text, the number of the next group, and the groups still open. -/
structure Source where
  rest : Text
  nextGroup : Nat
  openGroups : List Nat

private def isOctalDigit (c : Char) : Bool := '0' ≤ c && c ≤ '7'

private def isHexDigit (c : Char) : Bool := (Text.digitValue? c).any (· < 16)

def controlEscape? : Char → Option Char
  | 'a' => some '\x07'
  | 'f' => some '\x0c'
  | 'n' => some '\n'
  | 'r' => some '\r'
  | 't' => some '\t'
  | 'v' => some '\x0b'
  | '\\' => some '\\'
  | _ => none

def classEscape? : Char → Option CharClass
  | 'd' => some (.digit false)
  | 'D' => some (.digit true)
  | 's' => some (.blank false)
  | 'S' => some (.blank true)
  | 'w' => some (.word false)
  | 'W' => some (.word true)
  | _ => none

def octalChar (digits : Text) : Char := Char.ofNat ((Text.digitsFrom? 8 0 digits).getD 0 % 256)

def hexChar? (s : Text) : Option (Char × Text) :=
  let digits := (s.take 2).takeWhile isHexDigit
  if digits.length = 2 then
    (Text.readNat? 16 digits).map fun n => (Char.ofNat n, s.drop 2)
  else none

def readSetEscape (s : Text) : Option (CharClass × Text) :=
  match s with
  | [] => none
  | c :: r =>
    match classEscape? c, controlEscape? c with
    | some k, _ => some (k, r)
    | none, some d => some (.single d, r)
    | none, none =>
      if c == 'b' then some (.single '\x08', r)
      else if c == 'x' then
        match hexChar? r with
        | some (d, r) => some (.single d, r)
        | none => none
      else if isOctalDigit c then
        let digits := (s.take 3).takeWhile isOctalDigit
        some (.single (octalChar digits), s.drop digits.length)
      else if c.isDigit then none
      else some (.single c, r)

def readMember (s : Text) : Option (CharClass × Text) :=
  match s with
  | [] => none
  | '\\' :: r => readSetEscape r
  | c :: r => some (.single c, r)

/-- The members of a set up to its closing bracket, which as the first member means itself. -/
def readMembers : (fuel : Nat) → (first : Bool) → Text → Option (List CharClass × Text)
  | 0, _, _ => none
  | fuel + 1, first, s =>
    if !first && s.head? == some ']' then some ([], s.drop 1)
    else do
      let (k, s) ← readMember s
      match s with
      | '-' :: ']' :: r => return ([k, .single '-'], r)
      | '-' :: r =>
        let (k', s) ← readMember r
        match k, k' with
        | .single low, .single high =>
          if high < low then none
          else
            let (members, s) ← readMembers fuel false s
            return (.range low high :: members, s)
        | _, _ => none
      | s =>
        let (members, s) ← readMembers fuel false s
        return (k :: members, s)

def readEscape (src : Source) : Option (Pattern × Source) :=
  match src.rest with
  | [] => none
  | c :: r =>
    let ok (p : Pattern) (rest : Text) : Option (Pattern × Source) :=
      some (p, { src with rest })
    match classEscape? c, controlEscape? c with
    | some k, _ => ok (.set false [k]) r
    | none, some d => ok (.char d) r
    | none, none =>
      if c == 'A' then ok .start r
      else if c == 'Z' then ok .strictFinish r
      else if c == 'b' then ok (.wordEdge false) r
      else if c == 'B' then ok (.wordEdge true) r
      else if c == 'x' then
        match hexChar? r with
        | some (d, r) => ok (.char d) r
        | none => none
      else if c == '0' then
        let digits := (src.rest.take 3).takeWhile isOctalDigit
        ok (.char (octalChar digits)) (src.rest.drop digits.length)
      else if c.isDigit then
        let octal := (src.rest.take 3).takeWhile isOctalDigit
        if octal.length = 3 then ok (.char (octalChar octal)) (src.rest.drop 3)
        else
          let digits := (src.rest.take 2).takeWhile Char.isDigit
          let n := Text.digitsValue digits
          if n < src.nextGroup && !src.openGroups.contains n then
            ok (.again n) (src.rest.drop digits.length)
          else none
      else ok (.char c) r

/-- The least and the greatest number of repetitions, where the text starts with such a sign.
Braces that hold no count stand for themselves. -/
def readCount? (s : Text) : Option (Option (Nat × Option Nat × Text)) :=
  match s with
  | '*' :: r => some (some (0, none, r))
  | '+' :: r => some (some (1, none, r))
  | '?' :: r => some (some (0, some 1, r))
  | '\x7b' :: '\x7d' :: _ => some none
  | '\x7b' :: r =>
    let low := r.takeWhile Char.isDigit
    let r := r.dropWhile Char.isDigit
    let (high, r) :=
      match r with
      | ',' :: r => (r.takeWhile Char.isDigit, r.dropWhile Char.isDigit)
      | r => (low, r)
    match r with
    | '\x7d' :: r =>
      let least := Text.digitsValue low
      let most := if high.isEmpty then none else some (Text.digitsValue high)
      if most.any (· < least) then none else some (some (least, most, r))
    | _ => some none
  | _ => some none

/-- Places cannot be repeated, and a repetition cannot be repeated again. -/
def repeatable : Pattern → Bool
  | .start | .finish | .strictFinish | .wordEdge _ | .many .. => false
  | _ => true

def readRepetition (p : Pattern) (src : Source) : Option (Pattern × Source) := do
  match ← readCount? src.rest with
  | none => return (p, src)
  | some (least, most, rest) =>
    if repeatable p then
      match rest with
      | '?' :: rest => return (.many p least most false, { src with rest })
      | rest => return (.many p least most true, { src with rest })
    else none

def skipComment (src : Source) : Option Source :=
  match src.rest.dropWhile (· != ')') with
  | [] => none
  | _ :: rest => some { src with rest }

mutual

def readAlternatives : (fuel : Nat) → Source → Option (Pattern × Source)
  | 0, _ => none
  | fuel + 1, src => do
    let (p, src) ← readSequence fuel src
    match src.rest with
    | '|' :: rest =>
      let (q, src) ← readAlternatives fuel { src with rest }
      return (.alt p q, src)
    | _ => return (p, src)

def readSequence : (fuel : Nat) → Source → Option (Pattern × Source)
  | 0, _ => none
  | fuel + 1, src =>
    match src.rest with
    | [] => some (.empty, src)
    | '|' :: _ => some (.empty, src)
    | ')' :: _ => some (.empty, src)
    | _ => do
      let (p, src) ← readPart fuel src
      let (p, src) ← readRepetition p src
      let (q, src) ← readFollowing fuel p src
      return (q, src)

def readFollowing : (fuel : Nat) → Pattern → Source → Option (Pattern × Source)
  | 0, _, _ => none
  | fuel + 1, p, src => do
    match ← readCount? src.rest with
    | some _ => none
    | none =>
      let (q, src) ← readSequence fuel src
      return (.seq p q, src)

def readPart : (fuel : Nat) → Source → Option (Pattern × Source)
  | 0, _ => none
  | fuel + 1, src =>
    match src.rest with
    | [] => none
    | '.' :: rest => some (.any, { src with rest })
    | '^' :: rest => some (.start, { src with rest })
    | '$' :: rest => some (.finish, { src with rest })
    | '\\' :: rest => readEscape { src with rest }
    | '[' :: '^' :: rest => do
      let (members, rest) ← readMembers rest.length.succ true rest
      return (.set true members, { src with rest })
    | '[' :: rest => do
      let (members, rest) ← readMembers rest.length.succ true rest
      return (.set false members, { src with rest })
    | '(' :: '?' :: ':' :: rest => do
      let (p, src) ← readGroup fuel { src with rest }
      return (.seq p .empty, src)
    | '(' :: '?' :: '=' :: rest => do
      let (p, src) ← readGroup fuel { src with rest }
      return (.ahead false p, src)
    | '(' :: '?' :: '!' :: rest => do
      let (p, src) ← readGroup fuel { src with rest }
      return (.ahead true p, src)
    | '(' :: '?' :: '#' :: rest => do
      return (.empty, ← skipComment { src with rest })
    | '(' :: '?' :: _ => none
    | '(' :: rest => do
      let n := src.nextGroup
      let (p, src') ← readGroup fuel ⟨rest, n + 1, n :: src.openGroups⟩
      return (.group n p, { src' with openGroups := src.openGroups })
    | c :: rest => do
      match ← readCount? src.rest with
      | some _ => none
      | none => return (.char c, { src with rest })

def readGroup : (fuel : Nat) → Source → Option (Pattern × Source)
  | 0, _ => none
  | fuel + 1, src => do
    let (p, src) ← readAlternatives fuel src
    match src.rest with
    | ')' :: rest => return (p, { src with rest })
    | _ => none

end

def read (s : Text) : Except Fault (Pattern × Nat) :=
  match readAlternatives (4 * s.length + 4) ⟨s, 1, []⟩ with
  | some (p, src) => if src.rest.isEmpty then .ok (p, src.nextGroup - 1) else .error .badPattern
  | none => .error .badPattern

end Pattern
end OutlineMarkup
