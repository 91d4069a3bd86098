import OutlineMarkup.Session.Line

/-!
# Documents

A document is a source file together with the files that it may import. Compiling it gives the
markup written, the messages to the user, and the fault that ended it, if one did.
-/

namespace OutlineMarkup

structure Compiled where
  output : Text
  messages : Text
  /-- Files that were looked up and are not there. -/
  missing : List Text
  fault : Option Fault

/-- The fault of a result, if it is one. -/
def faultOf? {α : Type} : Except Fault α → Option Fault
  | .ok _ => none
  | .error f => some f

namespace Document

def compileIn (directory : List Text) (tags : TagTable) (files : Files) (path : Text) : Compiled :=
  let start : Session := { tags, files, place := .project directory }
  let (r, s) := (Compile.compileFile (Compile.lineTo start.depthBound) path).runFrom start
  { output := s.output, messages := s.messages, missing := s.missing, fault := faultOf? r }

def compile (tags : TagTable) (files : Files) (path : Text) : Compiled :=
  compileIn (Library.directoryOf path) tags files path

end Document
end OutlineMarkup
