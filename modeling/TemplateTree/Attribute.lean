/-
Attributes.

The value of an attribute is a row of fragments, literal text and expressions in
turn.  Literal text that meets literal text becomes one fragment; an expression
never merges with anything.  An attribute without a value has no fragments, which
is also what an empty quoted value leaves.
-/
import TemplateTree.Expression.Basic

namespace TemplateTree

/-- A piece of the value of an attribute. -/
inductive Fragment
  | text (content : String)
  | mustache (mustache : Mustache)
  deriving DecidableEq, Repr

/-- A name with a value. -/
structure Attribute where
  name : String
  value : List Fragment := []
  deriving DecidableEq, Repr

namespace Fragment

/-- The literal text of a fragment. -/
def text? : Fragment → Option String
  | .text content => some content
  | .mustache _ => none

/-- Does the fragment wait for a value? -/
def isMustache : Fragment → Bool
  | .text _ => false
  | .mustache _ => true

/-- Puts literal text at the end of a value. -/
def join (text : String) : List Fragment → List Fragment
  | [] => [.text text]
  | [.text last] => [.text (last ++ text)]
  | first :: rest => first :: join text rest

/-- A fragment as JSON. -/
def toJson : Fragment → Json
  | .text content => .object [("Text", .string content)]
  | .mustache m => .object [("Mustache", m.toJson)]

end Fragment

namespace Attribute

/-- Adds literal text to the value; an empty text adds nothing, not even a fragment. -/
def pushText (a : Attribute) (text : String) : Attribute :=
  if text = "" then a else { a with value := Fragment.join text a.value }

/-- Adds a literal character to the value. -/
def pushChar (a : Attribute) (c : Char) : Attribute :=
  a.pushText c.toString

/-- Adds an expression to the value. -/
def pushMustache (a : Attribute) (m : Mustache) : Attribute :=
  { a with value := a.value ++ [.mustache m] }

/-- An attribute with a literal value. -/
def ofText (name text : String) : Attribute :=
  (Attribute.mk name []).pushText text

/-- Does the value depend on an expression? -/
def isDynamic (a : Attribute) : Bool :=
  a.value.any Fragment.isMustache

/-- The value as one text, if it depends on no expression. -/
def staticValue? (a : Attribute) : Option String :=
  if a.isDynamic then none else some (String.join (a.value.filterMap Fragment.text?))

/-- An attribute as JSON. -/
def toJson (a : Attribute) : Json :=
  .object [("name", .string a.name), ("value", .array (a.value.map Fragment.toJson))]

/-! ### Small facts -/

@[simp] theorem name_pushText (a : Attribute) (text : String) : (a.pushText text).name = a.name := by
  unfold pushText
  split <;> rfl

@[simp] theorem pushText_empty (a : Attribute) : a.pushText "" = a := by
  simp [pushText]

end Attribute

/-- Only the last fragment is touched. -/
theorem Fragment.join_cons_cons (text : String) (first second : Fragment) (rest : List Fragment) :
    Fragment.join text (first :: second :: rest) = first :: Fragment.join text (second :: rest) := by
  cases first <;> rfl

/-- Joining twice is joining once. -/
theorem Fragment.join_join (first second : String) (value : List Fragment) :
    Fragment.join second (Fragment.join first value) = Fragment.join (first ++ second) value := by
  induction value with
  | nil => rfl
  | cons f rest ih =>
    cases rest with
    | nil => cases f <;> simp [Fragment.join, String.append_assoc]
    | cons g rest =>
      rw [join_cons_cons, join_cons_cons, ← ih]
      cases hj : Fragment.join first (g :: rest) with
      | nil =>
        cases rest <;> cases g <;> simp [Fragment.join] at hj
      | cons h tail => rw [join_cons_cons]

end TemplateTree
