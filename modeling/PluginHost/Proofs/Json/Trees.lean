import PluginHost.Proofs.Json.Structure

/-! # The tree of a written value

`Json.tree` is the structure of a value, all of it closed (`Json.intact_tree`), and its tokens
are those of the value (`Json.tokens_tree`).  So a written payload has the tree of its value, and
ends where the tree ends (`Json.ofTokens_ofPayload`). -/
namespace PluginHost
namespace Json
open JsonTree

mutual
/-- The structure of a value. -/
def tree : Json → JsonTree
  | .null => .scalar .null
  | .boolean b => .scalar (.boolean b)
  | .string s => .scalar (.string (some s))
  | .array items => .array (itemTrees items) true
  | .object members => .object (memberTrees members) true

/-- The structure of the items of an array. -/
def itemTrees : List Json → List JsonTree
  | [] => []
  | item :: items => tree item :: itemTrees items

/-- The structure of the members of an object. -/
def memberTrees : List (String × Json) → List (JsonToken × JsonTree)
  | [] => []
  | (name, value) :: members => (textToken name, tree value) :: memberTrees members
end

mutual
/-- All of it is closed. -/
theorem intact_tree (v : Json) : v.tree.intact = true := by
  match v with
  | .null | .boolean _ | .string _ => rfl
  | .array items => exact allIntact_itemTrees items
  | .object members => exact membersIntact_memberTrees members

theorem allIntact_itemTrees (items : List Json) : allIntact (itemTrees items) = true := by
  match items with
  | [] => rfl
  | item :: items =>
    exact Bool.and_eq_true_iff.mpr ⟨intact_tree item, allIntact_itemTrees items⟩

theorem membersIntact_memberTrees (members : List (String × Json)) :
    membersIntact (memberTrees members) = true := by
  match members with
  | [] => rfl
  | (_, value) :: members =>
    exact Bool.and_eq_true_iff.mpr ⟨intact_tree value, membersIntact_memberTrees members⟩
end

mutual
/-- **The tokens of a value are those of its tree.** -/
theorem tokens_tree (v : Json) : v.tree.tokens = v.tokens := by
  match v with
  | .null | .boolean _ | .string _ => rfl
  | .array [] | .object [] => rfl
  | .array (item :: items) =>
    rw [tree, itemTrees, JsonTree.tokens, JsonTree.itemTokens, separated_cons, List.append_assoc,
      tokens_tree item, itemTokens_itemTrees items, tokens]
  | .object ((name, value) :: members) =>
    rw [tree, memberTrees, JsonTree.tokens, JsonTree.memberTokens, separated_cons,
      List.append_assoc, tokens_tree value, memberTokens_memberTrees members, tokens]
    rfl

theorem itemTokens_itemTrees (items : List Json) :
    preceded (JsonTree.itemTokens (itemTrees items)) ++ [.closeArray] = itemTokens items := by
  match items with
  | [] => rfl
  | item :: items =>
    rw [itemTrees, JsonTree.itemTokens, preceded_cons, List.cons_append, List.append_assoc,
      tokens_tree item, itemTokens_itemTrees items, itemTokens]

theorem memberTokens_memberTrees (members : List (String × Json)) :
    preceded (JsonTree.memberTokens (memberTrees members)) ++ [.closeObject] =
      memberTokens members := by
  match members with
  | [] => rfl
  | (name, value) :: members =>
    rw [memberTrees, JsonTree.memberTokens, preceded_cons, List.cons_append, List.append_assoc,
      tokens_tree value, memberTokens_memberTrees members, memberTokens]
    rfl
end

/-- A written payload has the tree of its value, and nothing follows. -/
theorem ofTokens_ofPayload (v : Json) :
    ofTokens (JsonToken.ofPayload (Utf8.encode v.compact)) = (v.tree, true) := by
  rw [ofPayload_compact, ← tokens_tree]
  exact ofTokens_tokens (intact_tree v)

end Json
end PluginHost
