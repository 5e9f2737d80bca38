import PluginHost.Json.Token

/-! # The structure of a JSON text

A payload is read from its start, and what is wrong with it is reported at the
first place where something is wrong.  So a text that breaks off has a structure
as well: a `JsonTree` says of every array and every object whether it was closed,
and holds what was read before the text broke off.

`JsonTree.ofTokens` builds the tree with a stack of unfinished containers, one
token after the other. -/
namespace PluginHost

/-- The structure of a text, as far as it goes. -/
inductive JsonTree where
  | scalar (s : JsonScalar)
  | array (items : List JsonTree) (closed : Bool)
  /-- Members are named by a token, which is a string in a well-formed text. -/
  | object (members : List (JsonToken × JsonTree)) (closed : Bool)
  /-- A place where a value is due and none starts. -/
  | broken

namespace JsonTree

/-! ## Building a tree -/

/-- A container that waits for a value.  What it holds already is in reverse. -/
inductive Frame where
  | array (items : List JsonTree)
  | object (members : List (JsonToken × JsonTree)) (name : JsonToken)

/-- A container that holds what was read so far, in reverse. -/
inductive Container where
  | array (items : List JsonTree)
  | object (members : List (JsonToken × JsonTree))

/-- What is due next. -/
inductive State where
  /-- A value, or the end of the array when `mayClose`. -/
  | value (stack : List Frame) (mayClose : Bool)
  /-- The name of a member, or the end of the object when `mayClose`. -/
  | member (stack : List Frame) (members : List (JsonToken × JsonTree)) (mayClose : Bool)
  /-- The colon behind a name. -/
  | colon (stack : List Frame) (members : List (JsonToken × JsonTree)) (name : JsonToken)
  /-- A comma or the end of the container. -/
  | comma (stack : List Frame) (container : Container)
  /-- Nothing: the tree is finished, and `ended` says whether the text is too. -/
  | done (tree : JsonTree) (ended : Bool)

/-- The container with a value in it. -/
def Frame.fill (value : JsonTree) : Frame → Container
  | .array items => .array (value :: items)
  | .object members name => .object ((name, value) :: members)

/-- The tree of a container. -/
def Container.tree (closed : Bool) : Container → JsonTree
  | .array items => .array items.reverse closed
  | .object members => .object members.reverse closed

/-- The tree of a text that breaks off behind `tree`. -/
def abandon (tree : JsonTree) : List Frame → JsonTree
  | [] => tree
  | frame :: stack => abandon ((frame.fill tree).tree false) stack

/-- What is due after a value. -/
def State.after (tree : JsonTree) : List Frame → State
  | [] => .done tree true
  | frame :: stack => .comma stack (frame.fill tree)

/-- Reads a token that starts a value, or breaks off. -/
def State.start (stack : List Frame) : JsonToken → State
  | .scalar s => .after (.scalar s) stack
  | .openArray => .value (.array [] :: stack) true
  | .openObject => .member stack [] true
  | _ => .done (abandon .broken stack) false

/-- Reads a token. -/
def State.step : State → JsonToken → State
  | .value (.array [] :: stack) true, .closeArray => .after (.array [] true) stack
  | .value stack _, token => .start stack token
  | .member stack members true, .closeObject => .after (.object members.reverse true) stack
  -- Behind a comma a member is due, so the object cannot end.
  | .member stack members _, .closeObject =>
    .done (abandon (.object members.reverse false) stack) false
  | .member stack members _, token => .colon stack members token
  | .colon stack members name, .colon => .value (.object members name :: stack) false
  | .colon stack members name, _ =>
    .done (abandon .broken (.object members name :: stack)) false
  | .comma stack (.array items), .comma => .value (.array items :: stack) false
  | .comma stack (.object members), .comma => .member stack members false
  | .comma stack (.array items), .closeArray => .after (.array items.reverse true) stack
  | .comma stack (.object members), .closeObject => .after (.object members.reverse true) stack
  | .comma stack container, _ => .done (abandon (container.tree false) stack) false
  | .done tree _, _ => .done tree false

/-- The tree of a text that ends here. -/
def State.finish : State → JsonTree × Bool
  | .value stack _ => (abandon .broken stack, false)
  | .member stack members _ => (abandon (.object members.reverse false) stack, false)
  | .colon stack members name => (abandon .broken (.object members name :: stack), false)
  | .comma stack container => (abandon (container.tree false) stack, false)
  | .done tree ended => (tree, ended)

/-- The tree of a text, and whether the text ends where the tree ends. -/
def ofTokens (tokens : List JsonToken) : JsonTree × Bool :=
  (tokens.foldl State.step (.value [] false)).finish

/-! ## Looking at a tree -/

/-- Whether a token is a string. -/
def isName : JsonToken → Bool
  | .scalar (.string _) => true
  | _ => false

mutual
/-- Whether the tree is all of a well-formed text. -/
def intact : JsonTree → Bool
  | .scalar _ => true
  | .array items closed => closed && allIntact items
  | .object members closed => closed && membersIntact members
  | .broken => false

/-- Whether the items are intact. -/
def allIntact : List JsonTree → Bool
  | [] => true
  | item :: items => item.intact && allIntact items

/-- Whether the members are intact. -/
def membersIntact : List (JsonToken × JsonTree) → Bool
  | [] => true
  | (name, value) :: members => isName name && value.intact && membersIntact members
end

end JsonTree
end PluginHost
