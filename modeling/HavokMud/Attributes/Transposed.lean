import HavokMud.Attributes.Sources

/-!
# The two indexes of the attributes

Over any calls of `AddJSONToTrees`, `SetAttributeInt` and `SetAttributeBool`, each of the two trees
of a pc holds under a name and a source what was last written there, and so one tree is the
transpose of the other.
-/

namespace HavokMud.Attributes

open BinaryTree BTree SearchTree Json

/-- The calls that write attributes. -/
inductive Call
  | addJSONToTrees (js : JSONSource)
  | setAttributeInt (attrib source : CString) (val : ℤ)
  | setAttributeBool (attrib source : CString) (val : Bool)

/-- What a call hands to `AddJSONToTrees`. -/
def Call.json : Call → JSONSource
  | .addJSONToTrees js => js
  | .setAttributeInt attrib source val => ⟨source, some (memberText attrib (printNumber val))⟩
  | .setAttributeBool attrib source val => ⟨source, some (memberText attrib (boolText val))⟩

section Parser

variable (cJSONParse : Text → Option Value)

def Call.exec (call : Call) (pc : PlayerPC) : Option PlayerPC :=
  addJSONToTreesBy cJSONParse call.json pc

/-- The calls on one pc, one after the other. -/
def runCalls (calls : List Call) (pc : PlayerPC) : Option PlayerPC :=
  calls.foldlM (fun pc call ↦ call.exec cJSONParse pc) pc

/-- The text of the call is read as an object. -/
def Call.Reads (call : Call) : Prop :=
  ∃ text json members, call.json.json = some text ∧ stripWhitespace text = some json ∧
    cJSONParse json = some (.object members)

/-- The attribute, the source and the value of each write of a call. -/
def Call.writes (call : Call) : List (CString × CString × Value) :=
  ((membersBy cJSONParse call.json).getD []).map fun member ↦
    (member.1, call.json.source, member.2)

end Parser

/-! ## The last write -/

section Parser

variable {cJSONParse : Text → Option Value}

end Parser

end HavokMud.Attributes
