import PluginHost.Proofs.PathPattern.Parts

/-! # Patterns put together

A pattern in two parts is resolved by resolving the first part and then the second from each
directory that the first leads to.  The directories come in the same order as when the pattern is
resolved at once, although repetitions are left out after each step there: what is left out is
never what comes first (`Lists.foldl_eraseDups_flatMap`).  And a directory that a pattern leads to
is spelled by its path as it is, so that nothing changes when the second part is resolved from
there (`startPlace_of_grounded`).

The main statement is `resolves_in_two_parts`. -/
namespace PluginHost
namespace PathPattern

variable {fs : FileSystem} {start : Path} {p q : String} {places others : List Place}

/-- Steps from several places lead where they lead from each. -/
theorem foldl_advance_eq_flatMap (steps : List PathStep) (h : places.Nodup) :
    steps.foldl (advance fs) places = (places.flatMap (reached fs steps)).eraseDups :=
  Lists.foldl_eraseDups_flatMap (fun step : PathStep => step.expand fs) steps h

/-- A place that a pattern leads to is the origin of a pattern that does not start at the root. -/
theorem origin_of_grounded {place : Place} {home : Location} (h : place.Grounded fs home)
    (hroot : startsAtRoot q = false) : origin fs place.path q = place := by
  rw [origin, hroot, if_neg Bool.false_ne_true, startPlace_of_grounded h]

theorem text_ne_empty_of_grounded {place : Place} {home : Location}
    (h : place.Grounded fs home) : place.path.text ≠ "" := by
  obtain ⟨names, rfl, -⟩ := h.exists_names
  exact Path.text_ofLocation_ne_empty names

/-- **A pattern is resolved in two parts.**  What `p` and then `q` lead to is what `q` leads to
from each directory that `p` leads to, one after the other, without later repetitions. -/
theorem resolves_in_two_parts (hroot : startsAtRoot q = false) (hp : startsAtDrive p = false)
    (hq : startsAtDrive q = false) (hpq : startsAtDrive (p ++ "/" ++ q) = false)
    (hplaces : directories fs start p = .ok places)
    (hothers : directories fs start q = .ok others) :
    ∃ found : Place → List Place,
      (∀ d ∈ places, directories fs d.path q = .ok (found d)) ∧
      directories fs start (p ++ "/" ++ q) = .ok (places.flatMap found).eraseDups := by
  obtain ⟨hpne, hstart, steps, hsteps, hreached⟩ := (directories_eq_ok_iff hp).mp hplaces
  obtain ⟨hqne, -, more, hmore, -⟩ := (directories_eq_ok_iff hq).mp hothers
  refine ⟨reached fs more, fun d hd => ?_, ?_⟩
  · have hground := grounded_of_mem_directories (grounded_startPlace fs start) hp hplaces d hd
    refine (directories_eq_ok_iff hq).mpr
      ⟨hqne, text_ne_empty_of_grounded hground, more, hmore, ?_⟩
    rw [origin_of_grounded hground hroot]
  · have hne : p ++ "/" ++ q ≠ "" := by simp
    have hparts : (parts (p ++ "/" ++ q)).mapM PathStep.ofChars = .ok (steps ++ more) := by
      rw [parts_append_slash, List.mapM_append, hsteps, hmore]
      rfl
    have horigin : origin fs start (p ++ "/" ++ q) = origin fs start p := by
      refine origin_congr hne hpne ?_
      rw [parts_append_slash, List.head?_append_of_ne_nil _ (parts_ne_nil p)]
    have hnodup : places.Nodup := by
      rw [← hreached]
      exact nodup_foldl_advance steps (List.pairwise_singleton _ _)
    refine (directories_eq_ok_iff hpq).mpr ⟨hne, hstart, steps ++ more, hparts, ?_⟩
    rw [horigin, reached, List.foldl_append]
    show more.foldl (advance fs) (reached fs steps (origin fs start p)) = _
    rw [hreached, foldl_advance_eq_flatMap more hnodup]

/-- A tree with a link from `n` to `m`, seen from `n`. -/
def linkedTree : FileSystem where
  entries := [("m", .directory [("x", .directory []), ("y", .directory [])]),
    ("n", .directory [("up", .link ⟨"../m"⟩)])]
  wellFormed := by
    simp only [Node.AllWellFormed, Node.WellFormed, List.forall_mem_cons]
    decide +kernel
  workingDirectory := ["n"]
  isEntryName_here := by decide +kernel

/-- The steps up from the five directories of the tree meet, and so do the steps down again. -/
theorem resolves_in_two_parts_of_linkedTree :
    directories linkedTree ⟨".."⟩ "**" = .ok
      [.absolute [], .absolute ["m"], .absolute ["m", "x"], .absolute ["m", "y"], .absolute ["n"]] ∧
    directories linkedTree ⟨".."⟩ ("**" ++ "/" ++ "../*") = .ok
      [.absolute ["m"], .absolute ["n"], .absolute ["m", "x"], .absolute ["m", "y"]] := by
  have hplaces : directories linkedTree ⟨".."⟩ "**" = .ok
      [.absolute [], .absolute ["m"], .absolute ["m", "x"], .absolute ["m", "y"],
        .absolute ["n"]] :=
    eq_ok_of_toOption (by decide +kernel)
  have hothers : directories linkedTree ⟨".."⟩ "../*" = .ok [] :=
    eq_ok_of_toOption (by decide +kernel)
  obtain ⟨found, heach, hall⟩ := resolves_in_two_parts (by decide +kernel) (by decide +kernel)
    (by decide +kernel) (by decide +kernel) hplaces hothers
  have hfound {d : Place} {ds : List Place} (hd : d ∈ _)
      (hds : (directories linkedTree d.path "../*").toOption = some ds) : found d = ds :=
    Except.ok.inj ((heach d hd).symm.trans (eq_ok_of_toOption hds))
  have htop : found (.absolute []) = [] := hfound (by simp) (by decide +kernel)
  have hm : found (.absolute ["m"]) = [.absolute ["m"], .absolute ["n"]] :=
    hfound (by simp) (by decide +kernel)
  have hx : found (.absolute ["m", "x"]) = [.absolute ["m", "x"], .absolute ["m", "y"]] :=
    hfound (by simp) (by decide +kernel)
  have hy : found (.absolute ["m", "y"]) = [.absolute ["m", "x"], .absolute ["m", "y"]] :=
    hfound (by simp) (by decide +kernel)
  have hn : found (.absolute ["n"]) = [.absolute ["m"], .absolute ["n"]] :=
    hfound (by simp) (by decide +kernel)
  refine ⟨hplaces, hall.trans (congrArg Except.ok ?_)⟩
  simp only [List.flatMap_cons, List.flatMap_nil, htop, hm, hx, hy, hn]
  decide +kernel

end PathPattern
end PluginHost
