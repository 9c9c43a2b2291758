import AiMidi.Lib.Bytes

/-!
# `AiMidi.Lib.ValueTree`: trees of typed nodes with properties, and XML elements

A valid `juce::ValueTree` is a node with a type, properties and children. `v` are the values of
properties. `childrenWithName` are the children that `getChildWithName` chooses among.

An `XmlElement` is a tag with attributes and children. A `TreeCodec` turns trees into elements
and back. `IsTreeCodec` says what is expected of it: the tag is the type, and reading inverts
writing. `plainCodec` is one.
-/

set_option autoImplicit false

namespace AiMidi.Lib

/-- A valid tree. -/
inductive ValueTree (v : Type) where
  | node (type : Bytes) (properties : List (Bytes × v)) (children : List (ValueTree v))

namespace ValueTree

variable {v : Type}

/-- `getType`. -/
def type : ValueTree v → Bytes
  | .node type _ _ => type

/-- The properties, in the order of the tree. -/
def properties : ValueTree v → List (Bytes × v)
  | .node _ properties _ => properties

/-- The children, in their order. -/
def children : ValueTree v → List (ValueTree v)
  | .node _ _ children => children

/-- `addChild` at the end. -/
def addChild : ValueTree v → ValueTree v → ValueTree v
  | .node type properties children, child => .node type properties (children ++ [child])

/-- The children of a type. -/
def childrenWithName (t : ValueTree v) (name : Bytes) : List (ValueTree v) :=
  t.children.filter fun child => child.type == name

/-- `getChildWithName`: the first child of a type. -/
def getChildWithName (t : ValueTree v) (name : Bytes) : Option (ValueTree v) :=
  t.children.find? fun child => child.type == name

/-- A child is added behind the others. -/
@[simp] theorem children_addChild (t child : ValueTree v) :
    (t.addChild child).children = t.children ++ [child] := by
  cases t
  rfl

/-- It is found under its own type only. -/
theorem childrenWithName_addChild (t child : ValueTree v) (name : Bytes) :
    (t.addChild child).childrenWithName name
      = t.childrenWithName name ++ if child.type = name then [child] else [] := by
  rw [childrenWithName, children_addChild, List.filter_append]
  by_cases h : child.type = name
  · simp [childrenWithName, h]
  · simp [childrenWithName, h]

/-- The child that is found is the first of its type. -/
theorem getChildWithName_eq_head? (t : ValueTree v) (name : Bytes) :
    t.getChildWithName name = (t.childrenWithName name).head? :=
  List.head?_filter.symm

/-- A child that is found has the type that was asked for. -/
theorem type_of_getChildWithName {t child : ValueTree v} {name : Bytes}
    (h : t.getChildWithName name = some child) : child.type = name := by
  have hfound := List.find?_some h
  simpa using hfound

end ValueTree

/-! ### XML elements

A tree becomes an element with the type as its tag. What the properties become is left to the codec,
which only has to be inverted by its reader. -/

/-- An element without text. -/
inductive XmlElement where
  | element (tagName : Bytes) (attributes : List (Bytes × Bytes)) (children : List XmlElement)

namespace XmlElement

/-- `getTagName`. -/
def tagName : XmlElement → Bytes
  | .element tagName _ _ => tagName

/-- The child elements, in their order. -/
def children : XmlElement → List XmlElement
  | .element _ _ children => children

/-- `getStringAttribute`, with the default for an attribute that is missing. -/
def getStringAttribute (xml : XmlElement) (name : Bytes) (default : Bytes) : Bytes :=
  match xml with
  | .element _ attributes _ => (attributes.lookup name).getD default

/-- `getChildByName`: the first child with a tag, or null. -/
def getChildByName (xml : XmlElement) (name : Bytes) : Option XmlElement :=
  xml.children.find? fun child => child.tagName == name

end XmlElement

/-- `createXml` and `fromXml`. The latter gives no tree for an element that is none. -/
structure TreeCodec (v : Type) where
  createXml : ValueTree v → XmlElement
  fromXml : XmlElement → Option (ValueTree v)

/-- The tag of an element is the type of its tree, and `fromXml` inverts `createXml`. -/
structure IsTreeCodec {v : Type} (codec : TreeCodec v) : Prop where
  tagName : ∀ t, (codec.createXml t).tagName = t.type
  fromXml : ∀ t, codec.fromXml (codec.createXml t) = some t

section Plain

mutual

/-- The properties as attributes. -/
def plainXml : ValueTree Bytes → XmlElement
  | .node type properties children => .element type properties (plainXmls children)

/-- The XML forms of the children. -/
def plainXmls : List (ValueTree Bytes) → List XmlElement
  | []               => []
  | child :: children => plainXml child :: plainXmls children

end

mutual

/-- The tree of an element, with the tag as its type. -/
def plainTree : XmlElement → ValueTree Bytes
  | .element tagName attributes children => .node tagName attributes (plainTrees children)

/-- The trees of the child elements. -/
def plainTrees : List XmlElement → List (ValueTree Bytes)
  | []               => []
  | child :: children => plainTree child :: plainTrees children

end

mutual

/-- A tree comes back from its XML form. -/
theorem plainTree_plainXml : ∀ t, plainTree (plainXml t) = t
  | .node type properties children => by
    rw [plainXml, plainTree, plainTrees_plainXmls children]

/-- So do its children. The induction is mutual, as the two definitions are. -/
theorem plainTrees_plainXmls : ∀ ts, plainTrees (plainXmls ts) = ts
  | []               => by rw [plainXmls, plainTrees]
  | child :: children => by
    rw [plainXmls, plainTrees, plainTree_plainXml child, plainTrees_plainXmls children]

end

/-- The codec of trees whose values are texts. -/
def plainCodec : TreeCodec Bytes where
  createXml := plainXml
  fromXml xml := some (plainTree xml)

/-- The plain codec keeps what `TreeCodec` promises. -/
theorem plainCodec_isTreeCodec : IsTreeCodec plainCodec where
  tagName t := by
    cases t
    show (plainXml _).tagName = _
    rw [plainXml]
    rfl
  fromXml t := congrArg some (plainTree_plainXml t)

end Plain

end AiMidi.Lib
