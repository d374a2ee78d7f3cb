/-
  SeaOfNodes.Description.Load

  Descriptions from files.  The files are read one after the other, and the graphs
  of each in order; a graph has to have a name of its own.
-/
import SeaOfNodes.Document.Draft
import SeaOfNodes.Document.Lexer
import SeaOfNodes.Document.Parser
import SeaOfNodes.Files.Collect
import SeaOfNodes.Text.Quoted

namespace SeaOfNodes.Description

open Document (Body GraphDraft NodeDraft)

/-- What is wrong with the body of a node. -/
inductive BodyFault where
  /-- The first block of a node has to be an input. -/
  | misplacedBlock
  | wrongProperty (name : String)
deriving DecidableEq

/-- Why descriptions cannot be loaded. -/
inductive LoadError where
  | files (cause : Files.CollectError)
  /-- The file does not follow the grammar. -/
  | unreadable (file : String)
  /-- The blocks of the file do not have the form of graphs. -/
  | misshapen (file : String)
  | definedTwice (graph file first : String)
  | wrongNode (graph node : String) (fault : BodyFault)
deriving DecidableEq

/-- How descriptions that cannot be loaded are reported.  What is said about a
    place in a file is only the beginning: the fault itself is left open. -/
def LoadError.message : LoadError → String
  | .files cause => cause.message
  | .unreadable file => "failed to parse HCL file " ++ file ++ ": "
  | .misshapen file => "failed to decode HCL file " ++ file ++ ": "
  | .definedTwice graph file first =>
    "graph " ++ Text.quote graph ++ " in " ++ file ++ " is already defined in " ++ first
  | .wrongNode graph node fault =>
    "graph " ++ Text.quote graph ++ ": node " ++ Text.quote node ++ ": " ++
      match fault with
      | .misplacedBlock => ""
      | .wrongProperty name => "property " ++ Text.quote name ++ ": "

/-- Evaluate the properties of a node. -/
def completeNode (d : NodeDraft) : Except BodyFault NodeSpec := do
  match d.body.blocks with
  | first :: _ => if first.type ≠ "input" then throw .misplacedBlock
  | [] => pure ()
  let props ← d.body.attributes.mapM fun (name, e) =>
    match Document.constant? e with
    | some v => .ok (name, v)
    | none => .error (.wrongProperty name)
  return ⟨d.op, d.name, props, d.inputs⟩

/-- Add the graphs of a file to those read before. -/
def addGraphs (file : String) (graphs : List GraphSpec) (drafts : List GraphDraft) :
    Except LoadError (List GraphSpec) :=
  drafts.foldlM (fun graphs d => do
    if let some other := lookup graphs d.name then
      throw (.definedTwice d.name file other.source)
    let nodes ← d.nodes.mapM fun node =>
      (completeNode node).mapError (.wrongNode d.name node.name)
    return graphs ++ [⟨d.name, file, nodes⟩]) graphs

/-- The body that a text holds. -/
def bodyOf? (text : String) : Option Body := (Document.tokens? text).bind Document.parse?

/-- The text of a file. -/
def textOf? (disk : Files.Disk) (file : String) : Option String :=
  match disk.find file with
  | .ok (.file content) => Files.text? content
  | _ => none

/-- Read a file after others. -/
def readFile (disk : Files.Disk) (graphs : List GraphSpec) (file : String) :
    Except LoadError (List GraphSpec) :=
  match (textOf? disk file).bind bodyOf? with
  | none => .error (.unreadable file)
  | some body =>
    match Document.readGraphs? body with
    | none => .error (.misshapen file)
    | some drafts => addGraphs file graphs drafts

/-- The graphs of files. -/
def readFiles (disk : Files.Disk) (files : List String) : Except LoadError (List GraphSpec) :=
  files.foldlM (readFile disk) []

/-- The ending of the names of files with descriptions. -/
def fileEnding : String := ".hcl"

/-- The files with descriptions that paths stand for. -/
def findFiles (disk : Files.Disk) (paths : List String) : Except LoadError (List String) :=
  (Files.collect disk paths fileEnding).mapError .files

/-- The graphs of all files that paths stand for. -/
def load (disk : Files.Disk) (paths : List String) : Except LoadError (List GraphSpec) := do
  readFiles disk (← findFiles disk paths)

end SeaOfNodes.Description
