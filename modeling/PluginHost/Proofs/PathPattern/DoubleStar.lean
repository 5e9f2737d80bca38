import PluginHost.Proofs.PathPattern.Composing
import PluginHost.Proofs.PathPattern.Padding

/-! # What `**` leads to

From one directory `**` leads to the directory itself and to all directories below it, depth first
(`directories_double_star`).  So in any position of a pattern it leads at least to where the pattern
leads that stays there instead (`subset_of_deepened`), and to nowhere else when it is repeated.

The main statement is `double_star_repeats_and_includes`. -/
namespace PluginHost
namespace PathPattern

variable {fs : FileSystem} {start : Path} {found : List Place} {front back : List (List Char)}

/-! ## In place of a part that stays -/

/-- Where a sequence of parts with a part that stays leads, it leads with `**` for that part. -/
theorem Names.deepen {d e : Place} (h : Names fs (front ++ ['.'] :: back) d e) :
    Names fs (front ++ ['*', '*'] :: back) d e := by
  induction front generalizing d with
  | nil =>
    cases h with
    | next hpart hback =>
      obtain rfl := (leads_stay_iff (.inr rfl)).mp hpart
      exact .next (.self _) hback
  | cons part front ih =>
    cases h with
    | next hpart hmore => exact .next hpart (ih hmore)

/-- **A pattern leads to all that it led to** when `**` stands for a part that stays. -/
theorem subset_of_deepened {p q : String} (hp : parts p = front ++ ['.'] :: back)
    (hq : parts q = front ++ ['*', '*'] :: back) (hdrive : startsAtDrive p = false)
    (hdrive' : startsAtDrive q = false) (h : directories fs start p = .ok found) :
    ∃ all, directories fs start q = .ok all ∧ found ⊆ all := by
  obtain ⟨hpne, hstart, steps, hsteps, rfl⟩ := (directories_eq_ok_iff hdrive).mp h
  have hqne : q ≠ "" := by
    rintro rfl
    have hmem : ['*', '*'] ∈ parts "" := by simp [hq]
    exact absurd hmem (by decide)
  have hread : ∀ part ∈ parts q, ∃ step, PathStep.ofChars part = .ok step := by
    intro part hpart
    by_cases hdeep : part = ['*', '*']
    · exact ⟨.deep, by rw [hdeep]; rfl⟩
    · refine exists_ok_of_mapM hsteps ?_
      rw [hq] at hpart
      rw [hp]
      simp only [List.mem_append, List.mem_cons, hdeep, false_or] at hpart ⊢
      exact hpart.imp_right .inr
  obtain ⟨steps', hsteps'⟩ := mapM_ok_of_forall hread
  have horigin : origin fs start q = origin fs start p := by
    rw [origin, origin, startsAtRoot_eq hqne, startsAtRoot_eq hpne, hp, hq]
    cases front <;> rfl
  refine ⟨_, (directories_eq_ok_iff hdrive').mpr ⟨hqne, hstart, steps', hsteps', rfl⟩, ?_⟩
  intro e he
  rw [reached, mem_foldl_advance hsteps, hp] at he
  rw [reached, mem_foldl_advance hsteps', hq, horigin]
  obtain ⟨d, hd, hnames⟩ := he
  exact ⟨d, hd, hnames.deepen⟩

/-! ## From one directory -/

/-- **`**` leads to a directory and to all directories below it**, depth first. -/
theorem directories_double_star {names : List String} (hproper : ∀ name ∈ names, ProperName name)
    {loc : Location} (hloc : fs.locate (.ofLocation names) = .ok loc) :
    directories fs (.ofLocation names) "**" = .ok (.absolute names ::
      (fs.below (.ofLocation names)).map fun more => .absolute (names ++ more)) := by
  have horigin : origin fs (.ofLocation names) "**" = .absolute names :=
    startPlace_ofLocation hproper
  have hlists := FileSystem.listsBelow_below hloc
  refine (directories_eq_ok_iff (by decide)).mpr
    ⟨by decide, FileSystem.text_ne_empty_of_locate hloc, [.deep], rfl, ?_⟩
  rw [horigin, reached, List.foldl_cons, List.foldl_nil, advance, List.flatMap_singleton,
    expand_deep_absolute]
  refine Lists.eraseDups_of_nodup (List.nodup_cons.mpr ⟨fun hmem => ?_, ?_⟩)
  · obtain ⟨more, hmore, heq⟩ := List.mem_map.mp hmem
    exact ((hlists.mem_iff more).mp hmore).1
      (List.append_right_eq_self.mp (Place.absolute.inj heq))
  · refine List.Pairwise.map _ (fun _ _ hne heq => ?_) hlists.nodup
    exact hne (List.append_cancel_left (Place.absolute.inj heq))

/-- **`**` may be repeated, and includes where it stands.**  A pattern that is padded leads to the
same list, as long as it is a pattern at all and starts at no drive.  `**` leads to all that a part
that stays leads to in its position.  And from a directory, which may lie behind links, it leads to
the directory and then to those below it in order, and over no link. -/
theorem double_star_repeats_and_includes (fs : FileSystem) (start : Path) :
    (∀ p q : String, p ≠ "" → startsAtDrive p = false → startsAtDrive q = false →
      Relation.ReflTransGen Padding (parts p) (parts q) →
      directories fs start q = directories fs start p) ∧
    (∀ (p q : String) (front back : List (List Char)) (found : List Place),
      parts p = front ++ ['.'] :: back → parts q = front ++ ['*', '*'] :: back →
      startsAtDrive p = false → startsAtDrive q = false →
      directories fs start p = .ok found →
      ∃ all, directories fs start q = .ok all ∧ found ⊆ all) ∧
    (∀ names : List String, (∀ name ∈ names, ProperName name) →
      fs.isDirectory (.ofLocation names) = true →
      ∃ loc below, fs.locate (.ofLocation names) = .ok loc ∧ fs.ListsBelow loc below ∧
        (∀ link target more, fs.nodeAt (loc ++ link) = some (.link target) →
          link ++ more ∉ below) ∧
        directories fs (.ofLocation names) "**" = .ok (.absolute names ::
          below.map fun more => .absolute (names ++ more))) := by
  refine ⟨fun p q hp hdrive hdrive' hpadded => directories_of_padded hp hdrive hdrive' hpadded,
    fun p q front back found hp hq hdrive hdrive' h => subset_of_deepened hp hq hdrive hdrive' h,
    fun names hproper hdir => ?_⟩
  obtain ⟨loc, hloc, -⟩ := FileSystem.isDirectory_iff.mp hdir
  have hlists := FileSystem.listsBelow_below hloc
  exact ⟨loc, _, hloc, hlists, fun link target more hlink => hlists.not_mem_of_link hlink,
    directories_double_star hproper hloc⟩

/-- Below both directories of the tree `**` is repeated with parts that stay around it, and behind
the link it lists what is below the directory that the link leads to. -/
theorem double_star_repeats_and_includes_of_linkedTree :
    directories linkedTree ⟨".."⟩ "*/./**//**" = directories linkedTree ⟨".."⟩ "*/**" ∧
    (∃ all, directories linkedTree ⟨".."⟩ "*/**" = .ok all ∧
      [.absolute ["m"], .absolute ["n"]] ⊆ all) ∧
    ∃ below, linkedTree.ListsBelow ["m"] below ∧
      directories linkedTree (.ofLocation ["n", "up"]) "**" = .ok (.absolute ["n", "up"] ::
        below.map fun more => .absolute (["n", "up"] ++ more)) := by
  obtain ⟨hrepeats, hincludes, hlists⟩ := double_star_repeats_and_includes linkedTree ⟨".."⟩
  refine ⟨?_, ?_, ?_⟩
  · refine hrepeats "*/**" "*/./**//**" (by decide) (by decide +kernel) (by decide +kernel) ?_
    have hdot : Padding [['*'], ['*', '*']] [['*'], ['.'], ['*', '*']] :=
      .stay ['*'] [] [['*', '*']] (.inr rfl)
    have htwice : Padding [['*'], ['.'], ['*', '*']] [['*'], ['.'], ['*', '*'], ['*', '*']] :=
      .deep [['*'], ['.']] []
    have hempty : Padding [['*'], ['.'], ['*', '*'], ['*', '*']]
        [['*'], ['.'], ['*', '*'], [], ['*', '*']] :=
      .stay ['*'] [['.'], ['*', '*']] [['*', '*']] (.inl rfl)
    exact ((Relation.ReflTransGen.single hdot).tail htwice).tail hempty
  · exact hincludes "*/." "*/**" [['*']] [] _ (by decide +kernel) (by decide +kernel)
      (by decide +kernel) (by decide +kernel) (eq_ok_of_toOption (by decide +kernel))
  · have hproper : ∀ name ∈ ["n", "up"], ProperName name := fun name hname =>
      isEntryName_iff.mp (by revert name; decide +kernel)
    obtain ⟨loc, below, hloc, hbelow, -, hanswer⟩ :=
      hlists ["n", "up"] hproper (by decide +kernel)
    have hlink : linkedTree.locate (.ofLocation ["n", "up"]) = .ok ["m"] :=
      eq_ok_of_toOption (by decide +kernel)
    obtain rfl : loc = ["m"] := Except.ok.inj (hloc.symm.trans hlink)
    exact ⟨below, hbelow, hanswer⟩

end PathPattern
end PluginHost
