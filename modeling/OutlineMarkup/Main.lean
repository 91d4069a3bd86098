import OutlineMarkup.CommandLine

/-!
# The program

Reads the input and the files that it turns out to import, writes the output, and prints the
messages. Everything else is decided by `CommandLine.run`.
-/

namespace OutlineMarkup

namespace Program

def textOfBytes (b : ByteArray) : Text := b.toList.map fun x => Char.ofNat x.toNat

def bytesOfText (s : Text) : ByteArray := ⟨(s.map fun c => c.toNat.toUInt8).toArray⟩

def nameOfText (s : Text) : String := (String.fromUTF8? (bytesOfText s)).getD (String.ofList s)

def readFile (name : Text) : IO Files :=
  try
    let b ← IO.FS.readBinFile (nameOfText name)
    return [(Library.normal name, textOfBytes b)]
  catch _ => return []

def readFiles (names : List Text) : IO Files := do
  return (← names.mapM readFile).flatten

/-- Runs on the files read so far, and once more whenever a file that was missing can be read. -/
partial def runOn (args : List Text) (files : Files) : IO (Files × CommandLine.Outcome) := do
  let o := CommandLine.run files args
  let found ← readFiles (o.missing.filter fun name => !Table.has files name)
  if found.isEmpty then return (files, o) else runOn args (files ++ found)

def usage : String :=
  "usage: outlinemarkup [--help] [--no-acknowledgement] [--any | --html | --html5] INPUT"

/-- What the program answers to its caller. -/
def exitCode : Option Fault → UInt32
  | none | some .stopped | some .help => 0
  | some .usage => 2
  | some _ => 1

end Program
end OutlineMarkup

open OutlineMarkup in
def main (arguments : List String) : IO UInt32 := do
  let args := arguments.map fun a => Program.textOfBytes a.toUTF8
  let (files, o) ← Program.runOn args (← Program.readFiles args)
  for (name, text) in o.files do
    if Table.get? files name != some text then
      IO.FS.writeBinFile (Program.nameOfText name) (Program.bytesOfText text)
  let out ← IO.getStdout
  out.write (Program.bytesOfText o.messages)
  match o.fault with
  | some .help => out.putStrLn Program.usage
  | some .usage => IO.eprintln Program.usage
  | some .stopped | none => pure ()
  | some f => IO.eprintln (reprStr f)
  return Program.exitCode o.fault
