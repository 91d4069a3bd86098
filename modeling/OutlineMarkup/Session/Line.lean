import OutlineMarkup.Session.Engines
import OutlineMarkup.Session.Source
import OutlineMarkup.Shorthand

/-!
# Lines

What a line of a document does. A line belongs to a verbatim block, a loop or a method that is
being collected, or it declares something, or it stands for markup. Handling a line may lead to
other lines, those of a method it calls for instance, so the handling of lines is first written
with the handling of these as an argument, and then closed up to a depth.
-/

namespace OutlineMarkup

namespace Compile

/-! ## Markup -/

/-- Writes a line of markup at a level: closes what the level closes, and opens a line with its
closing text. -/
def writeLine (depth : Nat) (space opening : Text) (closing element : Option Text) :
    Compile Unit := do
  enter depth (some closing)
  modify fun s => { s with lastElement := element }
  write (space ++ opening)

def checkElement (tags : TagTable) (d : Definition) : Except Fault Unit :=
  match tags.key? d.name with
  | none => .error (.rejected (.unknownTag d.name))
  | some key =>
    match (Table.get? tags key).bind (·.attributes) with
    | none => .ok ()
    | some allowed =>
      d.attributes.forM fun a =>
        let name := a.before "="
        if allowed.contains name then .ok ()
        else .error (.rejected (.forbiddenAttribute name key))

/-- A definition is the call of a method or an element. -/
def definitionLine (handle : Text → Compile Unit) (depth : Nat) (space : Text) (d : Definition) :
    Compile Unit := do
  match (← get).methods.get? d.name with
  | some m =>
    enter depth (some none)
    runMethod handle m d.attributes space
  | none =>
    checkElement (← get).tags d
    let (opening, closing) := d.tags
    writeLine depth space opening (some (space ++ closing)) (some d.name)

def markupLine (handle : Text → Compile Unit) (depth : Nat) (space tag : Text) :
    Compile Unit := do
  let tag ← resolve tag []
  match tag.head? with
  | none => throw .outOfRange
  | some c =>
    if Text.isQuote c then writeLine depth space (tag.inner ++ ['\n']) none none
    else definitionLine handle depth space (← Definition.read tag)

/-! ## Calls of template engines -/

def engineOf (call : Text) : Text := call.before "."

/-- Puts the text of a call in its place, if it is the call of an engine and stands outside
quotes. -/
def substituteCall (tag call : Text) : Compile Text := do
  if (← Call.isOutsideQuotes call tag) && (← get).engines.has (engineOf call) then
    return tag.replace call ((← callEngine call none).trimOf (· == '\n'))
  else return tag

/-- Whether a line is a single call. The test is that the line starts with the second character of
the call. -/
def isSingleCall (tag : Text) (calls : List Text) : Bool :=
  match calls with
  | [_ :: c :: _] => tag.head? == some c
  | _ => false

/-- Carries out the calls of template engines in a line. -/
def engineLine (depth : Nat) (tag : Text) : Compile Text := do
  let calls := Call.engineCalls tag
  if isSingleCall tag calls then
    discard (callEngine tag (some depth))
    return tag
  else calls.foldlM substituteCall tag

/-! ## Declarations -/

def declaresVerbatim (tag : Text) : Bool :=
  (Text.pieces (!Text.isWordChar ·) tag).any fun w =>
    w == "verbatim" || w == "verbatim_line" || w == "code_block"

/-- Carries out a line with a point in it: expressions, and declarations and calls of template
engines. Gives back what is left as markup, if anything is. -/
def dottedLine (depth : Nat) (line : Text) : Compile (Option Text) := do
  let tag ←
    if line.trim.has Call.expressionMark then do
      let line ← Call.computeExpressions line
      pure line.trim
    else pure line.trim
  if tag.has ".append(" || tag.has "create(" then
    defineEngineMethod tag
    return none
  else return some (← engineLine depth tag)

/-- Carries out assignments, imports and what concerns template engines. Gives back what is left as
markup, if anything is. -/
def declarationLine (handle : Text → Compile Unit) (depth : Nat) (line : Text) :
    Compile (Option Text) := do
  let tag := line.trim
  if tag.has Assignment.sign then
    assign tag
    return none
  else if Assignment.isCompound line then
    let target ← assignCompound line
    return (← get).globals.get? target
  else if "import ".toList.isPrefixOf line then
    importLine handle line
    return none
  else if line.has "TemplateEngine" then
    declareEngine tag
    return none
  else if tag.hasChar '.' then dottedLine depth line
  else if line == endMark then return none
  else return some tag

/-! ## Lines -/

/-- Handles a line outside verbatim blocks: it belongs to a loop or a method, or is carried out. -/
def plainLine (handle : Text → Compile Unit) (depth : Nat) (space line : Text) :
    Compile Unit := do
  let s ← get
  if declaresVerbatim line.trim then declareVerbatim line.trim
  else if !s.isDefining && (!s.loops.isEmpty || isLoopStart line.trim) then loopLine handle line
  else
    if s.isDefining || isMethodStart line then
      if !(← methodLine handle line) then return
    match ← declarationLine handle depth line with
    | none => return
    | some tag => markupLine handle depth space tag

/-- The name that a line may have in common with a verbatim block. -/
def blockName (tag : Text) : Text := (tag.before "(").trimOf (· == ':')

/-- Handles a line; lines that it leads to are handled by `handle`. -/
def line (handle : Text → Compile Unit) (source : Text) : Compile Unit := do
  let depth ← depthOf source
  let space ← blanks depth
  let tag := source.trim
  let s ← get
  let named := s.verbatims.has (blockName tag)
  if s.block.isSome || named then
    if !s.loops.isEmpty && named then loopLine handle source
    else
      let ended ← verbatimLine handle source
      if ended || !(← get).isDefining then return
      plainLine handle depth space (← Shorthand.expand source)
  else if tag.isEmpty || tag.head? == some '#' then return
  else plainLine handle depth space (← Shorthand.expand source)

/-- Handles a line where lines lead to lines at most `n` deep. -/
def lineTo : (n : Nat) → Text → Compile Unit
  | 0, _ => throw .tooDeep
  | n + 1, source => line (lineTo n) source

def handleLine (source : Text) : Compile Unit := do
  lineTo (← get).depthBound source

end Compile
end OutlineMarkup
