import PluginHost.Metadata

/-! # How types are related

A type implements some types and may be derived from one.  `TypeGraph.ancestry`
lists a type and all types that its relations lead to, the nearer ones first.

The names of types wait in a queue.  A name may wait there several times, and is
passed over when its type was listed before.  Each type is listed once and then
puts the names of its relations at the end of the queue, so cycles do no harm: in
every step a name leaves the queue, and only the types that were not listed yet
can still bring names into it. -/
namespace PluginHost

/-- What a type implements and what it is derived from. -/
structure Relations where
  implements : List TypeName := []
  base : Option TypeName := none
deriving DecidableEq, Repr

/-- The types that the relations name, implemented ones first. -/
def Relations.targets (r : Relations) : List TypeName := r.implements ++ r.base.toList

/-- The relations of the declared types, in the order of declaration. -/
structure TypeGraph where
  declared : List (TypeName × Relations) := []
deriving DecidableEq, Repr

namespace TypeGraph

/-- The relations of a type, if it is declared. -/
def relations? (g : TypeGraph) (name : TypeName) : Option Relations := g.declared.lookup name

/-- Declares a type: its first declaration counts. -/
def declare (name : TypeName) (r : Relations) (g : TypeGraph) : TypeGraph :=
  if (g.relations? name).isSome then g else ⟨g.declared ++ [(name, r)]⟩

/-- Declares the types of a module. -/
def merge (m : Metadata) (g : TypeGraph) : TypeGraph :=
  m.types.foldl (fun g type => g.declare type.name ⟨type.implements, type.base⟩) g

/-- The types that the relations of a type name.  A type that is not declared has
none. -/
def targets (g : TypeGraph) (name : TypeName) : List TypeName :=
  match g.relations? name with
  | some r => r.targets
  | none => []

/-- How many names the relations of the declared types that are not in `seen` have. -/
def openNames (seen : List TypeName) : List (TypeName × Relations) → Nat
  | [] => 0
  | d :: declared =>
    (if seen.contains d.1 then 0 else d.2.targets.length) + openNames seen declared

theorem openNames_cons_le (name : TypeName) (seen : List TypeName)
    (declared : List (TypeName × Relations)) :
    openNames (name :: seen) declared ≤ openNames seen declared := by
  induction declared with
  | nil => exact Nat.le_refl 0
  | cons d declared ih =>
    rw [openNames, openNames, List.contains_cons]
    cases d.1 == name <;> cases seen.contains d.1 <;> simp <;> omega

/-- The relations of a type that becomes seen are no longer open. -/
theorem openNames_cons_of_lookup {name : TypeName} {seen : List TypeName} {r : Relations}
    {declared : List (TypeName × Relations)} (hseen : seen.contains name = false)
    (h : declared.lookup name = some r) :
    r.targets.length + openNames (name :: seen) declared ≤ openNames seen declared := by
  induction declared with
  | nil => cases h
  | cons d declared ih =>
    rw [openNames, openNames, List.contains_cons]
    by_cases hname : d.1 = name
    · -- This is the declaration that counts.
      subst hname
      have hle := openNames_cons_le d.1 seen declared
      rw [List.lookup_cons, beq_self_eq_true] at h
      cases h
      rw [hseen, beq_self_eq_true, Bool.true_or, if_pos rfl, if_neg Bool.false_ne_true]
      omega
    · rw [List.lookup_cons, beq_eq_false_iff_ne.mpr (Ne.symm hname)] at h
      rw [beq_eq_false_iff_ne.mpr hname, Bool.false_or]
      have hrest := ih h
      omega

/-- A type puts as many names into a queue as its relations have, and no more are open
then. -/
theorem length_targets_add_openNames {name : TypeName} {seen : List TypeName}
    (g : TypeGraph) (hseen : seen.contains name = false) :
    (g.targets name).length + openNames (name :: seen) g.declared ≤
      openNames seen g.declared := by
  unfold targets
  cases h : g.relations? name with
  | none => simpa using openNames_cons_le name seen g.declared
  | some r => exact openNames_cons_of_lookup hseen h

/-- The types that a queue of names leads to and that were not `seen`, in the order in
which they come to the front of the queue. -/
def follow (g : TypeGraph) (seen : List TypeName) : List TypeName → List TypeName
  | [] => []
  | name :: queue =>
    if seen.contains name then follow g seen queue
    else name :: follow g (name :: seen) (queue ++ g.targets name)
termination_by queue => queue.length + openNames seen g.declared
decreasing_by
  · simp only [List.length_cons]
    omega
  · rename_i h
    have := g.length_targets_add_openNames (Bool.eq_false_iff.mpr h)
    simp only [List.length_cons, List.length_append]
    omega

/-- A type and all types that its relations lead to, the nearer ones first; at
one distance, in the order in which the types before them name them. -/
def ancestry (g : TypeGraph) (start : TypeName) : List TypeName := g.follow [] [start]

end TypeGraph
end PluginHost
