import Mathlib.Logic.Relation
import PluginHost.Proofs.FileSystem.Preorder
import PluginHost.Proofs.PathPattern.Parts

/-! # Parts that lead nowhere else

A part that stays can be put anywhere into a pattern but in front of it, and a second `**` beside a
first: the pattern leads to the same directories in the same order (`directories_of_padded`).
`Padding` is one such part, and a pattern may be padded with any number of them.

For a part that stays nothing has to be shown but that no place occurs twice before it.  The second
`**` lists what is below every directory that the first one lists, and the places before the first
may be nested or lie behind links.  It lists nothing new, as the directories below a directory that
is listed are listed with it (`expand_deep_subset`), and so it moves nothing to another position
(`Lists.eraseDups_flatMap_twice`).  Here it matters that `**` enters no links below a place. -/
namespace PluginHost
namespace PathPattern

variable {fs : FileSystem} {start : Path} {pattern : String} {frontier next : List Place}
  {ps qs : List (List Char)}

/-- One more part in a pattern: a second `**` beside a first, or a part that stays, but not in
front of all others. -/
inductive Padding : List (List Char) → List (List Char) → Prop
  | deep (front back : List (List Char)) :
      Padding (front ++ ['*', '*'] :: back) (front ++ ['*', '*'] :: ['*', '*'] :: back)
  | stay (first : List Char) (front back : List (List Char)) {part : List Char}
      (hpart : part = [] ∨ part = ['.']) :
      Padding (first :: front ++ back) (first :: front ++ part :: back)

theorem Padding.head?_eq (h : Padding ps qs) : qs.head? = ps.head? := by
  cases h with
  | deep front back => cases front <;> rfl
  | stay first front back hpart => rfl

theorem Padding.two_le_length (h : Padding ps qs) : 2 ≤ qs.length := by
  cases h with
  | deep front back =>
    simp only [List.length_append, List.length_cons]
    omega
  | stay first front back hpart =>
    simp only [List.length_append, List.length_cons]
    omega

/-! ## The places before a part -/

/-- The places before a part of a pattern without a drive. -/
structure IsFrontier (frontier : List Place) : Prop where
  nodup : frontier.Nodup
  absolute : ∀ d ∈ frontier, ∃ names, d = .absolute names

theorem isFrontier_origin : IsFrontier [origin fs start pattern] where
  nodup := List.pairwise_singleton _ _
  absolute d hd := by
    rw [List.mem_singleton.mp hd, origin, startPlace]
    split
    · exact ⟨_, rfl⟩
    · exact ⟨_, rfl⟩

theorem exists_absolute_of_mem_expand {step : PathStep} {names : List String} {d : Place}
    (h : d ∈ step.expand fs (.absolute names)) : ∃ names, d = .absolute names := by
  cases step with
  | stay => exact ⟨names, List.mem_singleton.mp h⟩
  | up =>
    rw [PathStep.expand, Option.mem_toList] at h
    obtain rfl | ⟨front, name, rfl⟩ := List.eq_nil_or_concat names
    · cases h
    · rw [List.concat_eq_append, Place.parent?_concat] at h
      exact ⟨front, (Option.some.inj h).symm⟩
  | deep =>
    obtain rfl | h := List.mem_cons.mp h
    · exact ⟨names, rfl⟩
    · obtain ⟨more, -, rfl⟩ := List.mem_map.mp h
      exact ⟨names ++ more, Place.descendant_absolute names more⟩
  | wild glob =>
    obtain ⟨name, -, rfl⟩ := List.mem_map.mp (List.mem_filter.mp h).1
    exact ⟨names ++ [name], rfl⟩

theorem IsFrontier.expandPart (h : IsFrontier frontier) {part : List Char}
    (hnext : expandPart fs frontier part = .ok next) : IsFrontier next := by
  obtain ⟨step, -, rfl⟩ := map_eq_ok_iff.mp hnext
  refine ⟨Lists.nodup_eraseDups _, fun e he => ?_⟩
  rw [advance, List.mem_eraseDups] at he
  obtain ⟨d, hd, he⟩ := List.mem_flatMap.mp he
  obtain ⟨names, rfl⟩ := h.absolute d hd
  exact exists_absolute_of_mem_expand he

theorem IsFrontier.foldlM (h : IsFrontier frontier)
    (hnext : ps.foldlM (PathPattern.expandPart fs) frontier = .ok next) : IsFrontier next :=
  foldlM_induction (P := fun _ => IsFrontier) h (fun _ _ _ _ _ hf hok => hf.expandPart hok) hnext

/-! ## `**` -/

theorem expand_deep_absolute (names : List String) :
    PathStep.deep.expand fs (.absolute names) = .absolute names ::
      (fs.below (.ofLocation names)).map fun more => .absolute (names ++ more) := by
  rw [PathStep.expand, funext (Place.descendant_absolute names)]
  rfl

/-- From what `**` lists it lists nothing new. -/
theorem expand_deep_subset {names : List String} {d : Place}
    (h : d ∈ PathStep.deep.expand fs (.absolute names)) :
    PathStep.deep.expand fs d ⊆ PathStep.deep.expand fs (.absolute names) := by
  rw [expand_deep_absolute] at h
  obtain rfl | h := List.mem_cons.mp h
  · exact List.Subset.refl _
  obtain ⟨more, hmore, rfl⟩ := List.mem_map.mp h
  obtain ⟨loc, hloc, hne, hdir⟩ := FileSystem.hasDirectory_of_mem_below hmore
  have htop := FileSystem.listsBelow_below hloc
  have hmid := FileSystem.listsBelow_below (FileSystem.locate_ofLocation_append hloc hdir)
  rw [expand_deep_absolute, expand_deep_absolute]
  intro e he
  obtain rfl | he := List.mem_cons.mp he
  · exact List.mem_cons_of_mem _ h
  · obtain ⟨rest, hrest, rfl⟩ := List.mem_map.mp he
    have hlisted : more ++ rest ∈ fs.below (.ofLocation names) := by
      refine (htop.mem_iff _).mpr ⟨by simp [hne], ?_⟩
      rw [← List.append_assoc]
      exact ((hmid.mem_iff rest).mp hrest).2
    refine List.mem_cons_of_mem _ (List.mem_map.mpr ⟨more ++ rest, hlisted, ?_⟩)
    rw [List.append_assoc]

/-- A second `**` leads nowhere else. -/
theorem advance_deep_twice (h : IsFrontier frontier) :
    advance fs (advance fs frontier .deep) .deep = advance fs frontier .deep := by
  refine Lists.eraseDups_flatMap_twice (fun d _ => ⟨_, rfl⟩) fun d hd e he => ?_
  obtain ⟨names, rfl⟩ := h.absolute d hd
  exact expand_deep_subset he

/-! ## Padded patterns -/

/-- One part more leads nowhere else, and it cannot fail. -/
theorem Padding.foldlM_eq (h : Padding ps qs) (hf : IsFrontier frontier) :
    qs.foldlM (expandPart fs) frontier = ps.foldlM (expandPart fs) frontier := by
  cases h with
  | deep front back =>
    rw [List.foldlM_append, List.foldlM_append]
    cases hfront : front.foldlM (expandPart fs) frontier with
    | error e => rfl
    | ok mid =>
      show back.foldlM (expandPart fs) (advance fs (advance fs mid .deep) .deep) =
        back.foldlM (expandPart fs) (advance fs mid .deep)
      rw [advance_deep_twice (hf.foldlM hfront)]
  | @stay first front back part hpart =>
    rw [List.foldlM_append, List.foldlM_append]
    cases hfront : (first :: front).foldlM (expandPart fs) frontier with
    | error e => rfl
    | ok mid =>
      show (part :: back).foldlM (expandPart fs) mid = back.foldlM (expandPart fs) mid
      rw [List.foldlM_cons, expandPart_of_stay hpart (hf.foldlM hfront).nodup]
      rfl

theorem head?_eq_of_padded (h : Relation.ReflTransGen Padding ps qs) : qs.head? = ps.head? := by
  induction h with
  | refl => rfl
  | tail _ hlast ih => exact hlast.head?_eq.trans ih

theorem foldlM_eq_of_padded (h : Relation.ReflTransGen Padding ps qs) (hf : IsFrontier frontier) :
    qs.foldlM (expandPart fs) frontier = ps.foldlM (expandPart fs) frontier := by
  induction h with
  | refl => rfl
  | tail _ hlast ih => exact (hlast.foldlM_eq hf).trans ih

/-- What is padded is not the empty pattern, which is an error. -/
theorem ne_empty_of_padded {p q : String} (hp : p ≠ "")
    (h : Relation.ReflTransGen Padding (parts p) (parts q)) : q ≠ "" := by
  rintro rfl
  obtain heq | ⟨mid, -, hlast⟩ := h.cases_tail
  · exact hp (parts_eq_singleton_nil_iff.mp heq.symm)
  · exact absurd hlast.two_le_length (by decide)

/-- **A padded pattern leads to the same directories in the same order**, or it cannot be read
either. -/
theorem directories_of_padded {p q : String} (hp : p ≠ "") (hdrive : startsAtDrive p = false)
    (hdrive' : startsAtDrive q = false)
    (h : Relation.ReflTransGen Padding (parts p) (parts q)) :
    directories fs start q = directories fs start p := by
  have hq := ne_empty_of_padded hp h
  have hcheck : check start q = check start p := by simp [check, hp, hq]
  rw [directories_eq_foldlM hdrive, directories_eq_foldlM hdrive', hcheck,
    origin_congr hq hp (head?_eq_of_padded h)]
  exact congrArg (check start p >>= ·) (funext fun _ => foldlM_eq_of_padded h isFrontier_origin)

end PathPattern
end PluginHost
