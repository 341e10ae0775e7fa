import EqSat.EGraph.Basic

/-!
# Listings of e-graphs

A listing shows every class with its constant, and below it the nodes of the class with the
classes their children belong to.
-/

namespace EqSat

/-- The class as a record: its id, the number of its nodes, and its constant. -/
def EClass.record (c : EClass) : String :=
  "EClass(id=" ++ toString c.id ++ ", nodes=" ++ toString c.nodes.size ++ ", data=" ++
    (c.data.map Constant.record).getD "None" ++ ")"

namespace EGraph

def className (id : ClassId) : String := "e" ++ toString id

/-- A node in a listing, without blanks at the end. -/
def nodeLine (g : EGraph) (n : ENode) : String :=
  let args := n.children.map fun c => className (g.find c)
  String.ofList (Text.stripRight ("    " ++ n.label ++ " " ++ " ".intercalate args).toList)

def classLines (g : EGraph) (c : EClass) : List String :=
  let data := match c.data with
    | some k => " = " ++ k.text
    | none => ""
  (className c.id ++ data ++ ":") :: c.nodes.toList.map g.nodeLine

/-- All classes in the order of their ids. -/
def listing (g : EGraph) : String := "\n".intercalate (g.classList.flatMap g.classLines)

def record (g : EGraph) : String :=
  "EGraph(classes=" ++ toString g.numClasses ++ ", nodes=" ++ toString g.numNodes ++ ")"

end EGraph

end EqSat
