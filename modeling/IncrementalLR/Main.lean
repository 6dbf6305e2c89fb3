import IncrementalLR.Automaton.ConflictReport
import IncrementalLR.CommandLine.Arguments
import IncrementalLR.Export.Dot
import IncrementalLR.Export.Json
import IncrementalLR.Export.Report
import IncrementalLR.Export.TreeDot
import IncrementalLR.Replay.Run

namespace IncrementalLR.CommandLine

def stop {α : Type} (message : String) : IO α := throw (IO.userError message)

-- Ample for every parse that ends.
def parseFuel : Nat := 1000000000

def emit (output : Option String) (content : String) : IO Unit :=
  match output with
  | some path => do
      IO.FS.writeFile path content
      IO.eprintln ("wrote " ++ path)
  | none => IO.println content

-- The document of a file, parsed without reuse.
def parseFile (source : GrammarSource) (table : SyntaxTable) (path : String) : IO Replay := do
  match Replay.ofText source table (← IO.FS.readFile path) with
  | .error error => stop error.message
  | .ok replay =>
      match replay.parse parseFuel true with
      | some (replay, .ok _) => return replay
      | some (_, .error error) => stop ("internal parser fault: " ++ error.message)
      | none => stop "the parse does not end"

def replayFile (source : GrammarSource) (table : SyntaxTable) (path : String) : IO Unit := do
  let script ← IO.FS.readFile path
  match Replay.readScript script, Replay.start source table with
  | .error error, _ => stop error.message
  | .ok _, .error error => stop error.message
  | .ok commands, .ok replay =>
      match replay.runAll parseFuel commands with
      | some (_, .ok output) => IO.print output
      | some (_, .error error) => stop error.message
      | none => stop "a parse does not end"

def runJob (source : GrammarSource) (table : SyntaxTable) : Job → IO UInt32
  | .table states => do
      IO.print (table.report states)
      for conflict in table.unresolved do
        IO.eprintln (conflict.display table.grammar.toRules)
      return 0
  | .dot none output => do
      emit output table.dot
      return 0
  | .dot (some input) output => do
      let replay ← parseFile source table input
      emit output (replay.store.dot replay.document.root)
      return 0
  | .json output => do
      emit output table.json.render
      return 0
  | .parse input changed => do
      let replay ← parseFile source table input
      match replay.parser.error with
      | some error =>
          IO.eprintln (error.report (replay.document.text replay.store) (some input))
          return 1
      | none =>
          let style : RenderStyle := { (default : RenderStyle) with changed := changed }
          IO.print (replay.store.render style replay.document.root)
          return 0
  | .replay script => do
      replayFile source table script
      return 0

def runRequest (request : Request) : IO UInt32 := do
  let text ← IO.FS.readFile request.grammar
  match GrammarSource.parse text request.whitespace with
  | .error error => stop error.message
  | .ok source => runJob source (.ofGrammar source.grammar request.mode) request.job

end IncrementalLR.CommandLine

open IncrementalLR.CommandLine in
def main (arguments : List String) : IO UInt32 :=
  match readRequest arguments with
  | .error error => do
      IO.eprintln ("error: " ++ error.message)
      return 2
  | .ok request => runRequest request
