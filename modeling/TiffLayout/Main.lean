import TiffLayout.Segment.Read
import TiffLayout.Segment.Dump
import TiffLayout.Rebuild
/-! The command line: `dump FILE` prints the structure of a segment, and
`rebuild INPUT OUTPUT [--compact]` writes a segment's structure out again, reusing its
layout unless asked to write it compactly. -/
namespace TiffLayout.Cli

/-- The usage line of the command line. -/
def usage : String :=
  "usage: tifflayout dump FILE | tifflayout rebuild INPUT OUTPUT [--compact]"

/-- The text of a failed rebuild. -/
def RebuildError.text : RebuildError → String
  | .read e => e.message
  | .layout e => e.message

/-- Prints the structure of the segment in a file. -/
def dump (path : String) : IO UInt32 := do
  let data ← IO.FS.readBinFile path
  match Segment.read data with
  | .ok s =>
    IO.println s.dump
    pure 0
  | .error e =>
    IO.eprintln e.message
    pure 1

/-- Writes the structure of the segment in one file to another. -/
def rebuildFile (input output : String) (compact : Bool) : IO UInt32 := do
  let data ← IO.FS.readBinFile input
  match rebuild data compact with
  | .ok out =>
    IO.FS.writeBinFile output out
    pure 0
  | .error e =>
    IO.eprintln (RebuildError.text e)
    pure 1

end TiffLayout.Cli

/-- Runs the command line. -/
def main (args : List String) : IO UInt32 :=
  match args with
  | ["dump", path] => TiffLayout.Cli.dump path
  | ["rebuild", input, output] => TiffLayout.Cli.rebuildFile input output false
  | ["rebuild", input, output, "--compact"] => TiffLayout.Cli.rebuildFile input output true
  | _ => do
    IO.eprintln TiffLayout.Cli.usage
    pure 2
