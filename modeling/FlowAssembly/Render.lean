import FlowAssembly.Graph.Basic

/-!
# Rendering

A finished flow and an error as lines of text for a person, with or without
colours. Each line ends in a line feed.
-/

namespace FlowAssembly

namespace Render

def contextColor : String := "\x1b[32m"

def lineColor : String := "\x1b[35m"

def resetColor : String := "\x1b[0m"

/-- Which log events are shown when the environment does not say. -/
def defaultFilter : String := "warn,wireflow=info"

/-- Whether colours are written. -/
inductive Mode where
  | colored
  | plain
deriving DecidableEq, Repr

/-- Whether a mode writes colours. -/
def Mode.isColored : Mode → Bool
  | .colored => true
  | .plain => false

/-- A colour, where colours are written. -/
def Mode.paint (mode : Mode) (color : String) : String :=
  if mode.isColored then color else ""

end Render

/-- Lines of text and what they are about. -/
structure Rendering where
  context : String
  lines : List String
deriving DecidableEq, Repr

/-- The lines as one text. -/
def Rendering.text (r : Rendering) : String :=
  String.join r.lines

namespace FlowGraph

/-- A target as it stands in a rendering; a reference is marked. -/
def shownTarget (g : FlowGraph) : Target → String
  | .channel c => (g.nameOf? c.key).getD c.label
  | .named name => "@" ++ name

/-- What a rendering says of a component behind its name. -/
def shownDetail (g : FlowGraph) (taps : Interceptions) : Component → String
  | .channel c =>
      match (taps c.key).length with
      | 0 => ""
      | n => " [" ++ toString n ++ " interceptor(s)]"
  | .endpoint e =>
      " " ++ g.shownTarget e.input ++ " ->" ++
        match e.output with
        | some output => " " ++ g.shownTarget output
        | none => " (end)"
  | .source s =>
      match s.output with
      | some output => " -> " ++ g.shownTarget output
      | none => " -> (unbound)"

/-- The rendering of a flow: a heading, a line for each component, and the
number of routes and taps if there are any. -/
def render (g : FlowGraph) (taps : Interceptions) (mode : Render.Mode) :
    Rendering :=
  let heading := mode.paint Render.contextColor ++ "flow " ++ g.flowId ++
    mode.paint Render.resetColor ++ " (" ++ toString g.entries.length ++
    " components)\n"
  let entryLines := g.entries.zipIdx.map fun (e, i) =>
    mode.paint Render.lineColor ++ "[" ++ toString i ++ "] " ++
      e.component.category.name ++ " " ++ e.name ++
      g.shownDetail taps e.component ++ mode.paint Render.resetColor ++ "\n"
  let byItself := (g.edges taps).countP fun e => e.kind = .route || e.kind = .tap
  let footing :=
    if byItself = 0 then []
    else ["  routes and taps: " ++ toString byItself ++ "\n"]
  { context := g.flowId, lines := heading :: entryLines ++ footing }

end FlowGraph

/-- The rendering of an error: its code, its text, and its advice if there is
any. -/
def FlowError.render (e : FlowError) (mode : Render.Mode) : Rendering :=
  let code :=
    mode.paint Render.contextColor ++ e.code ++ mode.paint Render.resetColor ++ "\n"
  let text := mode.paint Render.lineColor ++ "  error: " ++ e.message ++
    mode.paint Render.resetColor ++ "\n"
  let advice := e.help?.toList.map fun help => "  help: " ++ help ++ "\n"
  { context := e.code, lines := code :: text :: advice }

end FlowAssembly
