import OutlineMarkup.Session

/-!
# Template engines in a session

Declaring an engine, adding methods and branches to it, and calling its methods.
-/

namespace OutlineMarkup

namespace Compile

def withEngine {α : Type} (name : Text) (x : Action Engine α) : Compile α := do
  match (← get).engines.get? name with
  | none => throw .unknownKey
  | some e =>
    let (r, e) := x.runFrom e
    modify fun s => { s with engines := s.engines.set name e }
    r

/-- A name made of letters and digits has to be a part of the alphabet, small letters before
capitals. -/
def alphabet : Text := "abcdefghijklmnopqrstuvwxyzABCDEFGHIJKLMNOPQRSTUVWXYZ"

def positionOr (found : Option Nat) : Int := (found.map Int.ofNat).getD (-1)

def engineFormat (value : Text) : Text :=
  let start := positionOr (value.find? "(") + 1
  let stop := positionOr ((value.cutLast? ")").map (·.1.length)) - 1
  ((value.slice start stop).trim.trimOf (· == '\'')).trimOf (· == '"')

def declareEngine (line : Text) : Compile Unit := do
  match line.splitAtChar '=' with
  | [name, value] =>
    if name.isAlphanumeric && !alphabet.has name then throw (.rejected .engineName)
    let e := Engine.ofFormat (engineFormat value)
    modify fun s => { s with engines := s.engines.set name.trimRight e }
  | _ => throw (.rejected .engineForm)

def quotedAttribute (attributes : List Text) (i : Nat) : Compile Text :=
  match attributes[i]? with
  | some a => return a.inner
  | none => throw .outOfRange

def addEngineMethod (engine method : Text) (opening : Compile Text)
    (closing : Compile (Option Text)) : Compile Unit := do
  if !(← get).engines.has engine then throw (.rejected .undeclaredEngine)
  let opening ← opening
  let closing ← closing
  withEngine engine (modify fun e => e.addMethod method opening closing)

def createEngineMethod (d : EngineDeclaration) : Compile Unit :=
  let attributes := d.source.attributes
  addEngineMethod d.engine d.method (quotedAttribute attributes 0)
    (if attributes.length = 1 then return none else return some (← quotedAttribute attributes 1))

def appendEngineMethod (d : EngineDeclaration) : Compile Unit := do
  match d.source.name.splitAtChar '.' with
  | [owner, method, _] =>
    match (← get).engines.get? owner with
    | none => throw (.rejected .branchOwner)
    | some e =>
      match e.addBranch method d.method with
      | .error _ => throw (.rejected .branchOwner)
      | .ok e => modify fun s => { s with engines := s.engines.set owner e }
    addEngineMethod d.engine d.method (quotedAttribute d.source.attributes 0) (return none)
  | _ => throw (.rejected .branchForm)

/-- Carries out a line that declares a method of an engine. Such a line may be an assignment as
well. -/
def defineEngineMethod (line : Text) : Compile Unit := do
  if Text.has (line.filter (· != ' ')) "create(" then
    createEngineMethod (← EngineDeclaration.read line)
  else
    appendEngineMethod (← EngineDeclaration.read line)
  if line.has Assignment.sign then assign line
  else if Assignment.isCompound line then discard (assignCompound line)

def calledNames (line : Text) : Text × Option Text :=
  let names := (line.before "(").trimRight
  match names.cutLast? "." with
  | some (engine, method) => (engine, some method)
  | none => (names, none)

/-- Calls a method of an engine: on a line of its own the call has a level and opens a line there,
inside a line it has none and has to do without closing text. -/
def callEngineMethod (line : Text) (level : Option Int) : Compile Text := do
  let space ← match level with
    | some l => blanks l
    | none => pure []
  let (engine, method) := calledNames line
  if !(← get).engines.has engine then throw .unknownKey
  let method ← match method with
    | some m => pure m
    | none => throw .outOfRange
  let closing ← withEngine engine (Engine.finish method true)
  match level with
  | some l => enter l (some ((closing.filter (!·.isEmpty)).map (space ++ ·)))
  | none => pure ()
  if !(← withEngine engine (do (← get).isBranch method level)) then
    match closing, level with
    | none, some l => setLevel l
    | none, none => pure ()
    | some _, some _ => pure ()
    | some _, none => throw (.rejected (.closingNeeded method))
  else
    match level with
    | none => throw (.rejected (.branchInline method))
    | some l =>
      match ← withEngine engine (Engine.finish method false) with
      | none =>
        enter (l + 1) (some none)
        let s ← get
        match s.elements with
        | [] => throw .outOfRange
        | _ :: rest => set { s with elements := rest }
      | some closing => enter (l + 1) (some (some (space ++ closing)))
  let attributes ← Attributes.read line
  return space ++ (← withEngine engine (Engine.call method attributes level))

/-- Calls a method of an engine. Whatever is rejected on the way, the call is what is rejected. -/
def callEngine (line : Text) (level : Option Int) : Compile Text :=
  tryCatch (callEngineMethod line level) fun
    | .rejected _ => throw (.rejected .engineCall)
    | .complaint .. => throw (.rejected .engineCall)
    | f => throw f

end Compile
end OutlineMarkup
