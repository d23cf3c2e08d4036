import HavokMud.BTree.Keys
import HavokMud.Json.Values
import HavokMud.SearchTree.Dictionary
import Mathlib.Data.List.DropRight

/-!
# The attributes of a pc

A pc holds its attributes twice: by attribute and then source, and by source and then attribute.
`json_attribs.c` fills the two trees from JSON texts, writes the sources as such texts, and combines
the texts of all sources into one and splits them again.
-/

namespace HavokMud.Attributes

open BinaryTree BTree SearchTree Json

/-- `KeyCompareString` on the strings of the trees. -/
def compareKeys (k l : CString) : ℤ :=
  keyCompareString k.val l.val

/-- What the trees see of a key. -/
def rank (k : CString) : List ℕ :=
  fold k.val

theorem ranks_compareKeys : Ranks compareKeys rank :=
  ⟨fun k l ↦ keyCompareString_neg_iff k.property l.property,
    fun k l ↦ keyCompareString_pos_iff k.property l.property⟩

/-- The inner trees, which hold copies of the values. -/
abbrev Tree :=
  BinaryTree (CString × Value)

/-- `pc->attribs` and `pc->sources`. -/
abbrev Trees :=
  BinaryTree (CString × Tree)

/-- The two trees of a `PlayerPC_t`, which may be NULL. -/
structure PlayerPC where
  attribs : Option Trees
  sources : Option Trees

/-- `JSONSource_t`, with a text that may be NULL. -/
structure JSONSource where
  source : CString
  json : Option Text

/-- A pc without attributes. -/
def PlayerPC.fresh : PlayerPC :=
  ⟨none, none⟩

/-! ## Filling the trees -/

def isBlank (c : UInt8) : Bool :=
  c = 32 ∨ c = 9 ∨ c = 13 ∨ c = 10

/-- `strip_whitespace`, which returns NULL for a blank text. -/
def stripWhitespace (string : Text) : Option Text :=
  let string := string.dropWhile isBlank
  if string = [] then none else some (string.rdropWhile isBlank)

/-- The children of a value with their names.  The items of an array have none. -/
def named : Value → Option (List (CString × Value))
  | .object members => some members
  | .array (_ :: _) => none
  | _ => some []

/-- The loop of `AddJSONToTrees`: a member goes to the tree of its attribute and to that of the
source. -/
def addMember (source : CString) (trees : Trees × Tree) (member : CString × Value) : Trees × Tree :=
  let subTree := (Dictionary.lookup compareKeys member.1 trees.1).getD .nil
  let value := member.2.clone
  (Dictionary.put compareKeys false member.1
      (Dictionary.put compareKeys true source value subTree) trees.1,
    Dictionary.put compareKeys false member.1 value trees.2)

/-- `AddJSONToTrees`.  There is no result when the text cannot be parsed, as the result of
`cJSON_Parse` is not checked. -/
def addJSONToTrees (js : JSONSource) (pc : PlayerPC) : Option PlayerPC :=
  match js.json with
  | none => some pc
  | some json =>
      let attribs := pc.attribs.getD .nil
      let sources := pc.sources.getD .nil
      match stripWhitespace json with
      | none => some ⟨some attribs, some sources⟩
      | some json =>
          ((parse json).bind named).map fun members ↦
            let sources := if (Dictionary.lookup compareKeys js.source sources).isSome then sources
              else Dictionary.add compareKeys true js.source .nil sources
            let srcSubTree := (Dictionary.lookup compareKeys js.source sources).getD .nil
            let trees := members.foldl (addMember js.source) (attribs, srcSubTree)
            ⟨some (balance trees.1),
              some (Dictionary.assign compareKeys js.source (balance trees.2) sources)⟩

/-- `AddJSONToTrees` over any `cJSON_Parse`, such as one that also reads the numbers `parse` leaves
out. -/
def addJSONToTreesBy (cJSONParse : Text → Option Value) (js : JSONSource) (pc : PlayerPC) :
    Option PlayerPC :=
  match js.json with
  | none => some pc
  | some json =>
      let attribs := pc.attribs.getD .nil
      let sources := pc.sources.getD .nil
      match stripWhitespace json with
      | none => some ⟨some attribs, some sources⟩
      | some json =>
          ((cJSONParse json).bind named).map fun members ↦
            let sources := if (Dictionary.lookup compareKeys js.source sources).isSome then sources
              else Dictionary.add compareKeys true js.source .nil sources
            let srcSubTree := (Dictionary.lookup compareKeys js.source sources).getD .nil
            let trees := members.foldl (addMember js.source) (attribs, srcSubTree)
            ⟨some (balance trees.1),
              some (Dictionary.assign compareKeys js.source (balance trees.2) sources)⟩

theorem addJSONToTreesBy_parse : addJSONToTreesBy parse = addJSONToTrees :=
  rfl

/-- `AddAttribute`. -/
def addAttribute (json : Text) (source : CString) (pc : PlayerPC) : Option PlayerPC :=
  addJSONToTrees ⟨source, some json⟩ pc

/-- The text that the `SetAttribute*` functions make of a name and a printed value. -/
def memberText (attrib : CString) (value : Text) : Text :=
  [123, 32, 34] ++ attrib.val ++ [34, 58, 32] ++ value ++ [32, 125]

/-- `SetAttributeInt`. -/
def setAttributeInt (pc : PlayerPC) (attrib source : CString) (val : ℤ) : Option PlayerPC :=
  addAttribute (memberText attrib (printNumber val)) source pc

/-- The words `true` and `false`. -/
def boolText (val : Bool) : Text :=
  if val then [116, 114, 117, 101] else [102, 97, 108, 115, 101]

/-- `SetAttributeBool`. -/
def setAttributeBool (pc : PlayerPC) (attrib source : CString) (val : Bool) : Option PlayerPC :=
  addAttribute (memberText attrib (boolText val)) source pc

/-! ## Writing the trees -/

/-- `AppendAttribToJSON` on a whole tree. -/
def appendAttribToJSON (tree : Tree) : Value :=
  .object ((inorder tree).map fun member ↦ (member.1, member.2.clone))

/-- `ExtractJSONFromTree`: the sources from left to right. -/
def extractJSONFromTree (pc : PlayerPC) : Option (List JSONSource) :=
  pc.sources.map fun sources ↦
    (inorder sources).map fun source ↦ ⟨source.1, print (appendAttribToJSON source.2)⟩

/-- `CombineJSON`.  `cJSON_AddItemToObject` ignores a text that cannot be parsed. -/
def combineJSON (js : List JSONSource) : Option Text :=
  print (.object (js.filterMap fun part ↦
    (part.json.bind parse).map fun value ↦ (part.source, value)))

/-- The children up to the first without a name, which ends the list of `SplitJSON`. -/
def members : Value → List (CString × Value)
  | .object members => members
  | _ => []

/-- `SplitJSON`.  There is no result when the text is NULL or cannot be parsed, as the result of
`cJSON_Parse` is not checked. -/
def splitJSON (json : Option Text) : Option (List JSONSource) :=
  (json.bind parse).map fun jsonTree ↦ (members jsonTree).map fun part ↦ ⟨part.1, print part.2⟩

/-- The loop of `pb_load_pc`. -/
def addParts (parts : List JSONSource) (pc : PlayerPC) : Option PlayerPC :=
  parts.foldlM (fun pc part ↦ addJSONToTrees part pc) pc

/-- The way of the attributes through `pb_save_pc` and `pb_load_pc`.  `CombineJSON` follows the NULL
that `ExtractJSONFromTree` returns for a pc without trees. -/
def roundTrip (pc : PlayerPC) : Option PlayerPC :=
  (extractJSONFromTree pc).bind fun js ↦ (splitJSON (combineJSON js)).bind fun parts ↦
    addParts parts .fresh

/-! ## Meaning -/

/-- The value at two keys of a tree of trees: its type, its integer and its string. -/
def held (trees : Option Trees) (outer inner : List ℕ) : Option (JsonType × ℤ × Option CString) :=
  (trees.bind fun trees ↦ (Dictionary.value rank trees outer).bind fun tree ↦
    Dictionary.value rank tree inner).map fun value ↦
      (value.type, value.valueint, value.valuestring)

end HavokMud.Attributes
