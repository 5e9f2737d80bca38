import PluginHost.TypeGraph

/-! # Ancestries depend on the relations only

`TypeGraph.follow` asks a graph for the relations of the types that it lists, and for nothing
else.  So the ancestry of a type is the same in all graphs that say the same of the types in
it (`TypeGraph.ancestry_congr_of_mem`), in whatever order the types were declared. -/
namespace PluginHost
namespace TypeGraph

variable {g g' : TypeGraph}

/-- The names that the relations of a type have depend on these relations. -/
theorem targets_congr {name : TypeName} (h : g.relations? name = g'.relations? name) :
    g.targets name = g'.targets name := by
  rw [targets, targets, h]

/-- What a queue leads to depends on the relations of the types that are listed. -/
theorem follow_congr {seen queue : List TypeName}
    (h : ∀ name ∈ g.follow seen queue, g.relations? name = g'.relations? name) :
    g.follow seen queue = g'.follow seen queue := by
  fun_induction follow g seen queue with
  | case1 seen => rw [follow]
  | case2 seen name queue hseen ih =>
    rw [follow, if_pos hseen]
    exact ih h
  | case3 seen name queue hseen ih =>
    obtain ⟨hname, hrest⟩ := List.forall_mem_cons.mp h
    rw [follow, if_neg hseen, ih hrest, targets_congr hname]

/-- **The ancestry of a type depends on the relations of the types in it only**: what a graph
says of other types does not matter. -/
theorem ancestry_congr_of_mem {start : TypeName}
    (h : ∀ name ∈ g.ancestry start, g.relations? name = g'.relations? name) :
    g.ancestry start = g'.ancestry start :=
  follow_congr h

/-- Ancestries do not depend on the order in which types were declared. -/
theorem ancestry_congr (h : ∀ name, g.relations? name = g'.relations? name) :
    g.ancestry = g'.ancestry :=
  funext fun _ => ancestry_congr_of_mem fun name _ => h name

end TypeGraph
end PluginHost
