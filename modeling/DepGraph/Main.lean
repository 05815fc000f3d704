import DepGraph.CommandLine

/-!
# The program

The program: arguments, one environment variable and one file in, two streams and a code out.
-/

namespace DepGraph

def usageText : String :=
  "usage: depgraph [--format pretty|text|json] <resolve|cycle|prune> [options] <manifest>\n"

def readBytes (path : String) : IO (Option ByteArray) := do
  try return some (← IO.FS.readBinFile path) catch _ => return none

end DepGraph

open DepGraph in
def main (args : List String) : IO UInt32 := do
  match CommandLine.parse? args with
  | none =>
    (← IO.getStderr).putStr usageText
    return Exit.usage.code.toUInt32
  | some i =>
    let exit := i.run (← IO.getEnv "FORMAT") (← readBytes i.path)
    (← IO.getStdout).putStr exit.stdout
    (← IO.getStderr).putStr exit.stderr
    return exit.code.toUInt32
