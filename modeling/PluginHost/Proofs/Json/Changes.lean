import Mathlib.Logic.Relation
import PluginHost.Json.Record
import PluginHost.Proofs.Json.Tokens
import PluginHost.Proofs.Results

/-! # Changes that do not count

A `Shape` says which values of a text stand for records, and what their fields are called.
`Change shape t t'` is one change of a text of that shape that a reader should not notice: the
members of a record trade places, a member is added whose name is no field, or an absent field
that may be absent is given as `null`.  All other constructors lead to where the change is.

`Tolerates shape read` says that a reader that succeeds has seen a text to its end, and that it
gives the same answer behind each change.  It passes from the parts of a value to values that may
be absent (`Tolerates.option`) and to lists (`Tolerates.list`). -/
namespace PluginHost
namespace JsonTree

/-- What is expected where a value stands. -/
inductive Shape where
  /-- A text, a truth value, or one of several names. -/
  | leaf
  /-- What may be `null` instead. -/
  | option (value : Shape)
  | list (item : Shape)
  /-- A record, by the names of its fields in their order. -/
  | record (fields : List (String × Shape))

/-- One change that does not count. -/
inductive Change : Shape → JsonTree → JsonTree → Prop
  /-- The members of a record trade places. -/
  | permute {fields : List (String × Shape)} {members members' : List (JsonToken × JsonTree)}
      {closed : Bool} (h : members.Perm members') :
      Change (.record fields) (.object members closed) (.object members' closed)
  /-- A record gets a member that is no field, with any value. -/
  | add {fields : List (String × Shape)} {name : String} {value : JsonTree}
      {members : List (JsonToken × JsonTree)} {closed : Bool} (hname : name ∉ fields.map Prod.fst)
      (hvalue : value.intact = true) :
      Change (.record fields) (.object members closed)
        (.object ((Json.textToken name, value) :: members) closed)
  /-- A record gets `null` for a field that may be absent and is. -/
  | absent {fields : List (String × Shape)} {name : String} {shape : Shape}
      {members : List (JsonToken × JsonTree)} {closed : Bool}
      (hfield : (name, .option shape) ∈ fields)
      (habsent : ∀ member ∈ members, member.1 ≠ Json.textToken name) :
      Change (.record fields) (.object members closed)
        (.object ((Json.textToken name, .scalar .null) :: members) closed)
  /-- A change in a field of a record. -/
  | field {fields : List (String × Shape)} {name : String} {shape : Shape} {value value' : JsonTree}
      {front back : List (JsonToken × JsonTree)} {closed : Bool} (hfield : (name, shape) ∈ fields)
      (h : Change shape value value') :
      Change (.record fields) (.object (front ++ (Json.textToken name, value) :: back) closed)
        (.object (front ++ (Json.textToken name, value') :: back) closed)
  /-- A change in a field of a record that is given as an array. -/
  | place {before behind : List (String × Shape)} {name : String} {shape : Shape}
      {value value' : JsonTree} {front back : List JsonTree} {closed : Bool}
      (hplace : before.length = front.length) (h : Change shape value value') :
      Change (.record (before ++ (name, shape) :: behind)) (.array (front ++ value :: back) closed)
        (.array (front ++ value' :: back) closed)
  /-- A change in an item of a list. -/
  | item {shape : Shape} {value value' : JsonTree} {front back : List JsonTree} {closed : Bool}
      (h : Change shape value value') :
      Change (.list shape) (.array (front ++ value :: back) closed)
        (.array (front ++ value' :: back) closed)
  /-- A change in a value that might have been absent. -/
  | present {shape : Shape} {value value' : JsonTree} (h : Change shape value value') :
      Change (.option shape) value value'

/-- A reader that succeeds has seen the whole text, and no change that does not count changes its
answer. -/
structure Tolerates {α : Type} (shape : Shape) (read : JsonTree → Except JsonFault α) : Prop where
  intact {t : JsonTree} {a : α} (h : read t = .ok a) : t.intact = true
  kept {t t' : JsonTree} {a : α} (hchange : Change shape t t') (h : read t = .ok a) :
    read t' = .ok a

variable {α β : Type} {shape : Shape} {read : JsonTree → Except JsonFault α}

/-- Any number of changes is tolerated if one is. -/
theorem Tolerates.kept_of_changes (h : Tolerates shape read) {t t' : JsonTree} {a : α}
    (hchanges : Relation.ReflTransGen (Change shape) t t') (hread : read t = .ok a) :
    read t' = .ok a := by
  induction hchanges with
  | refl => exact hread
  | tail _ hchange ih => exact h.kept hchange ih

theorem eq_true_of_requireClosed {closed : Bool} {u : Unit} (h : requireClosed closed = .ok u) :
    closed = true := by
  unfold requireClosed at h
  split at h
  · assumption
  · cases h

theorem tolerates_leaf (h : ∀ {t a}, read t = .ok a → t.intact = true) :
    Tolerates .leaf read where
  intact := h
  kept hchange := by cases hchange

theorem Tolerates.map (h : Tolerates shape read) (f : α → β) :
    Tolerates shape fun t => (read t).map f where
  intact hread := by
    obtain ⟨a, ha, -⟩ := map_eq_ok_iff.mp hread
    exact h.intact ha
  kept hchange hread := by
    obtain ⟨a, ha, rfl⟩ := map_eq_ok_iff.mp hread
    exact map_eq_ok_iff.mpr ⟨a, h.kept hchange ha, rfl⟩

theorem tolerates_text : Tolerates .leaf readText := by
  refine tolerates_leaf fun {t a} h => ?_
  unfold readText at h
  split at h
  · rfl
  · cases h

theorem tolerates_flag : Tolerates .leaf readFlag := by
  refine tolerates_leaf fun {t a} h => ?_
  unfold readFlag at h
  split at h
  · rfl
  · cases h

/-- One of several names is a text, or an object with nothing else in it. -/
theorem tolerates_variant (variants : List (String × α)) :
    Tolerates .leaf (readVariant variants) := by
  refine tolerates_leaf fun {t a} h => ?_
  unfold readVariant at h
  split at h
  · rfl
  · rename_i value members closed
    obtain ⟨_, -, h⟩ := bind_eq_ok h
    obtain ⟨_, hunit, h⟩ := bind_eq_ok h
    obtain ⟨_, hclosed, -⟩ := bind_eq_ok h
    obtain ⟨rfl, hempty⟩ := Bool.and_eq_true_iff.mp (eq_true_of_requireClosed hclosed)
    unfold readUnit at hunit
    split at hunit
    · rw [List.isEmpty_iff.mp hempty]
      rfl
    · cases hunit
  · cases h

/-- `null` has no parts to be changed. -/
theorem not_change_null {t : JsonTree} : ¬Change shape (.scalar .null) t := by
  intro h
  generalize hnull : JsonTree.scalar .null = start at h
  induction h with
  | present _ ih => exact ih hnull
  | _ => cases hnull

/-- No change leads to `null`. -/
theorem not_change_to_null {t : JsonTree} : ¬Change shape t (.scalar .null) := by
  intro h
  generalize hnull : JsonTree.scalar .null = finish at h
  induction h with
  | present _ ih => exact ih hnull
  | _ => cases hnull

theorem Tolerates.option (h : Tolerates shape read) :
    Tolerates (.option shape) (readOption read) where
  intact {t a} hread := by
    unfold readOption at hread
    split at hread
    · rfl
    · obtain ⟨b, hb, -⟩ := map_eq_ok_iff.mp hread
      exact h.intact hb
  kept {t t' a} hchange hread := by
    cases hchange with
    | present hchange =>
      unfold readOption at hread ⊢
      split at hread
      · exact absurd hchange not_change_null
      · obtain ⟨b, hb, rfl⟩ := map_eq_ok_iff.mp hread
        split
        · exact absurd hchange not_change_to_null
        · exact map_eq_ok_iff.mpr ⟨b, h.kept hchange hb, rfl⟩

theorem allIntact_iff {items : List JsonTree} :
    allIntact items = true ↔ ∀ item ∈ items, item.intact = true := by
  induction items with
  | nil => simp [allIntact]
  | cons item items ih => simp [allIntact, ih]

theorem Tolerates.list (h : Tolerates shape read) : Tolerates (.list shape) (readList read) where
  intact {t a} hread := by
    unfold readList at hread
    split at hread
    · rename_i items closed
      obtain ⟨values, hvalues, hread⟩ := bind_eq_ok hread
      obtain ⟨_, hclosed, -⟩ := bind_eq_ok hread
      refine Bool.and_eq_true_iff.mpr
        ⟨eq_true_of_requireClosed hclosed, allIntact_iff.mpr fun item hitem => ?_⟩
      obtain ⟨b, hb⟩ := exists_ok_of_mapM hvalues hitem
      exact h.intact hb
    · cases hread
  kept {t t' a} hchange hread := by
    cases hchange with
    | item hchange =>
      rw [readList] at hread ⊢
      obtain ⟨values, hvalues, hread⟩ := bind_eq_ok hread
      rw [mapM_replace (fun _ hitem => h.kept hchange hitem) hvalues]
      exact hread

end JsonTree
end PluginHost
