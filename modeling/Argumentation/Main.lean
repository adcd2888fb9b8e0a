import Argumentation.CommandLine.Run

open Argumentation

def readFiles (paths : List String) : IO (List (String × String)) :=
  paths.filterMapM fun (path : String) ↦ do
    try
      let text ← IO.FS.readFile path
      return some (path, text)
    catch _ =>
      return none

def main (words : List String) : IO UInt32 := do
  let request := CommandLine.Request.ofWords words
  let contents ← readFiles request.paths
  let reply := CommandLine.run (fun path ↦ contents.lookup path) request
  let out ← IO.getStdout
  out.putStr reply.output
  out.flush
  let err ← IO.getStderr
  err.putStr reply.complaint
  return reply.exitCode.toUInt32
