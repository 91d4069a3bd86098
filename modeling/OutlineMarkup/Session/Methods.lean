import OutlineMarkup.Session

/-!
# Methods and loops in a session

Collecting the lines of methods and loops, unrolling loops, and running methods. Functions that go
on with other lines take the handling of a line as an argument.
-/

namespace OutlineMarkup

namespace Compile

def defineMethod (m : Method) : Compile Unit :=
  modify fun s =>
    { s with methods := s.methods.set m.name { m with serial := s.serials },
             serials := s.serials + 1 }

def updateMethod (name : Text) (f : Method → Method) : Compile Unit := do
  let s ← get
  match s.methods.get? name with
  | none => throw .unknownKey
  | some m => set { s with methods := s.methods.set name (f m) }

/-! ## Loops -/

/-- Ends the innermost loop: calls its method for each item, or adds the calls to the method that
is being defined. -/
def unrollLoop (handle : Text → Compile Unit) : Compile Unit := do
  let s ← get
  match s.loops with
  | [] => throw .outOfRange
  | loop :: rest =>
    set { s with loops := rest }
    setLevel loop.level
    loop.items.forM fun item => do
      let call := (← blanks loop.level) ++ loop.name ++ '(' :: item ++ [')']
      match (← get).defining with
      | some m => updateMethod m (·.addLine call [])
      | none => handle call

def loopName (n : Nat) : Text := "rapydml_loop_def_".toList ++ Text.ofNat n

def loopItems (line : Text) : Except Fault (List Text) :=
  match line.cut? "[" with
  | none => .error .outOfRange
  | some (_, rest) => do
    let inside := ((rest.cutLast? "]").map (·.1)).getD rest
    return (← Attributes.read ('(' :: inside ++ [')'])).map Text.trim

def startLoop (tag : Text) (depth : Nat) : Compile Unit := do
  enter depth (some none)
  let iterator := (tag.words[1]?).getD []
  if (← get).globals.has iterator then throw (.rejected (.reusedIterator iterator))
  let items ← loopItems (← resolve tag [iterator])
  let name := loopName (← get).loopCount
  modify fun s => { s with loops := ⟨name, depth, items⟩ :: s.loops }
  defineMethod { name, parameters := [iterator], ownVariables := false }
  modify fun s => { s with loopCount := s.loopCount + 1 }

def isLoopStart (tag : Text) : Bool := "for ".toList.isPrefixOf tag

/-- Handles a line that starts a loop, belongs to the innermost loop, or ends it. -/
def loopLine (handle : Text → Compile Unit) (line : Text) : Compile Unit := do
  let tag := line.trim
  let depth ← depthOf line
  if isLoopStart tag then startLoop tag depth
  else
    match (← get).loops with
    | [] => throw .outOfRange
    | loop :: _ =>
      if depth - loop.level < 1 then
        unrollLoop handle
        handle line
      else
        setLevel depth
        let outer ← blanks (loop.level + 1)
        updateMethod loop.name (·.addLine (line.drop outer.length) [])

/-! ## Defining methods -/

def isMethodStart (line : Text) : Bool := "def ".toList.isPrefixOf line

def startMethod (line : Text) (depth : Nat) : Compile Unit := do
  setLevel depth
  let d ← Definition.read (line.drop 4)
  match d.name with
  | [] => throw .outOfRange
  | c :: _ =>
    if !Text.isNameStart c || !Text.isAlphanumeric (d.name.filter (· != '_')) then
      throw (.rejected .methodName)
    if (← get).tags.has d.name then throw (.rejected (.reservedName d.name))
    modify fun s => { s with defining := some d.name }
    defineMethod { name := d.name, parameters := d.attributes, ownVariables := true }

/-- Adds a line to the method that is being defined. The line that opens a verbatim block loses the
variables that only the method knows. -/
def addMethodLine (line : Text) (depth : Nat) : Compile Unit := do
  let s ← get
  let line ←
    if s.dropMarks then do
      set { s with dropMarks := false }
      let space ← blanks depth
      pure (space ++ s.block.getD "None" ++ '(' :: Text.join ", " s.globalMarks ++ [')'])
    else pure line
  match s.indentation.unit, s.defining with
  | some unit, some name =>
    let body : Text := line.drop unit.length
    updateMethod name fun m =>
      if s.block.isSome then m.addVerbatim body s.methodMarks else m.addLine body s.methodMarks
  | _, none => throw .unknownKey
  | none, _ => throw .wrongType

/-- Handles a line that starts a method or belongs to one. A line at the left edge ends the method;
the result says whether it did. -/
def methodLine (handle : Text → Compile Unit) (line : Text) : Compile Bool := do
  let depth ← depthOf line
  if isMethodStart line then
    startMethod line depth
    return false
  else if depth = 0 then
    modify fun s => { s with defining := none }
    return true
  else
    let s ← get
    if s.block.all (·.isEmpty) && (!s.loops.isEmpty || isLoopStart line.trim) then
      match s.indentation.unit with
      | some unit => loopLine handle (line.drop unit.length)
      | none => throw .wrongType
    else addMethodLine line depth
    return false

/-! ## Running methods -/

def frame (m : Method) : Compile Variables := do
  let s ← get
  if m.ownVariables then return (s.frames.lookup m.serial).getD []
  else return s.globals

def setFrame (m : Method) (vars : Variables) : Compile Unit :=
  modify fun s =>
    if m.ownVariables then
      { s with frames := (m.serial, vars) :: s.frames.filter (·.1 != m.serial) }
    else { s with globals := vars }

def runLine (handle : Text → Compile Unit) (m : Method) (space : Text) (l : BodyLine) :
    Compile Unit := do
  let (yielded, vars) ← Method.runLine (← frame m) l
  setFrame m vars
  match yielded with
  | some line => handle (space ++ line)
  | none => pure ()

/-- Runs a method: each line that it yields is handled, indented as the call, before the next one
is run. -/
def runMethod (handle : Text → Compile Unit) (m : Method) (arguments : List Text) (space : Text) :
    Compile Unit := do
  let (bound, vars) := m.bindArguments arguments (← get).globals
  setFrame m vars
  bound
  m.lines.forM (runLine handle m space)

end Compile
end OutlineMarkup
