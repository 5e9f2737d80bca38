import PluginHost.Proofs.PathPattern.Composing

/-! # Steps up

A pattern is resolved from the normal form of its start, which is read off the path alone
(`isNormal_startPlace`).  Two ways lead up from there: `..` behind the start takes back the last
name that the start spells (`startPlace_up`), and `..` in front of the pattern goes to the parent of
the place that the pattern is resolved from (`directories_up`).  Neither looks at the file system,
so below the root they agree, also where the start goes over a link.  At the root they differ: the
start spells the root again (`startPlace_up_of_root`), and the pattern leads nowhere
(`directories_up_of_root`).

The main statement is `normal_form_agrees_with_up`. -/
namespace PluginHost
namespace PathPattern

variable {fs : FileSystem} {start : Path} {q : String}

/-! ## The normal form of a start -/

/-- A start is resolved from its normal form. -/
theorem isNormal_startPlace (fs : FileSystem) (start : Path) :
    (startPlace fs start).path.IsNormal :=
  ⟨_, properName_of_mem_spelled fs start, rfl⟩

/-- What is in normal form stays as it is. -/
theorem path_startPlace_of_isNormal (h : start.IsNormal) : (startPlace fs start).path = start := by
  obtain ⟨names, hproper, rfl⟩ := h
  rw [startPlace_ofLocation hproper]
  rfl

/-! ## `..` behind a start -/

theorem startPlace_up (hstart : start.text ≠ "") :
    startPlace fs (start.join ⟨".."⟩) =
      .absolute (start.lexical fs.workingDirectory).dropLast :=
  congrArg Place.absolute (Path.lexical_up hstart _)

theorem startPlace_up_of_root (hstart : start.text ≠ "")
    (hroot : startPlace fs start = .absolute []) :
    startPlace fs (start.join ⟨".."⟩) = .absolute [] := by
  rw [startPlace_up hstart, Place.absolute.inj hroot]
  rfl

/-- Below the root `..` behind a start spells the parent. -/
theorem parent?_startPlace (hstart : start.text ≠ "")
    (hroot : startPlace fs start ≠ .absolute []) :
    (startPlace fs start).parent? = some (startPlace fs (start.join ⟨".."⟩)) := by
  have hnames : start.lexical fs.workingDirectory ≠ [] := fun hnil =>
    hroot (congrArg Place.absolute hnil)
  rw [startPlace_up hstart]
  exact Place.parent?_of_ne_nil hnames

/-! ## `..` in front of a pattern -/

theorem expandPart_up (d : Place) :
    expandPart fs [d] ['.', '.'] = .ok d.parent?.toList := by
  have hadvance : advance fs [d] .up = d.parent?.toList := by
    rw [advance, List.flatMap_singleton, PathStep.expand]
    cases d.parent? <;> rfl
  exact congrArg Except.ok hadvance

/-- A pattern that is not empty and starts nowhere itself is resolved from the place of its
start. -/
theorem directories_of_relative (hstart : start.text ≠ "") (hq : q ≠ "")
    (hroot : startsAtRoot q = false) (hdrive : startsAtDrive q = false) :
    directories fs start q = (parts q).foldlM (expandPart fs) [startPlace fs start] := by
  rw [directories_eq_foldlM hdrive, check_eq_ok hstart hq, origin, hroot]
  rfl

/-- **`..` in front of a pattern goes to the parent first**, if there is one.  What stands behind
it is never read as the start of a pattern. -/
theorem directories_up (hstart : start.text ≠ "") (q : String) :
    directories fs start ("../" ++ q) =
      (parts q).foldlM (expandPart fs) (startPlace fs start).parent?.toList := by
  have htext : ("../" ++ q).toList = '.' :: '.' :: '/' :: q.toList := String.toList_append
  have hslashed : slashed ("../" ++ q).toList = '.' :: '.' :: '/' :: slashed q.toList := by
    rw [htext]
    rfl
  have hparts : parts ("../" ++ q) = ['.', '.'] :: parts q := parts_append_slash ".." q
  rw [directories_of_relative hstart, hparts, List.foldlM_cons, expandPart_up]
  · rfl
  · simp
  · rw [startsAtRoot, hslashed]
    rfl
  · rw [startsAtDrive, hslashed]
    rfl

/-- **No pattern leads above the root.**  It is read nevertheless, so a fault in it is told. -/
theorem directories_up_of_root (hstart : start.text ≠ "")
    (hroot : startPlace fs start = .absolute []) (q : String) :
    directories fs start ("../" ++ q) =
      ((parts q).mapM PathStep.ofChars).map fun _ => [] := by
  have hnowhere (steps : List PathStep) : steps.foldl (advance fs) [] = [] := by
    induction steps with
    | nil => rfl
    | cons step steps ih => exact ih
  rw [directories_up hstart, hroot, foldlM_expandPart]
  exact congrArg (Except.map · _) (funext hnowhere)

/-- From the root a step up in front of a pattern is lost, and one behind the start is not. -/
example : (directories linkedTree ⟨"/"⟩ "../m").toOption = some [] ∧
    (directories linkedTree ⟨"/.."⟩ "m").toOption = some [.absolute ["m"]] := by
  decide +kernel

/-! ## Both -/

/-- **A start is resolved from its normal form, and there it does not matter where `..` stands.**
The place of a start is a path from the root without `.` and `..`, the place of that path again,
and the start itself if that is in normal form.  `..` behind the start spells the parent of the
place, or the root again.  Below the root, a pattern that starts neither at the root nor at a drive
is resolved from there as the pattern with `../` in front is resolved from the start, faults
included. -/
theorem normal_form_agrees_with_up (fs : FileSystem) (start : Path) (hstart : start.text ≠ "") :
    ((startPlace fs start).path.isAbsolute = true ∧
      (∀ part ∈ (startPlace fs start).path.components, part ≠ "." ∧ part ≠ "..") ∧
      startPlace fs (startPlace fs start).path = startPlace fs start ∧
      (start.IsNormal → (startPlace fs start).path = start)) ∧
    (startPlace fs start = .absolute [] →
      startPlace fs (start.join ⟨".."⟩) = .absolute []) ∧
    (startPlace fs start ≠ .absolute [] →
      (startPlace fs start).parent? = some (startPlace fs (start.join ⟨".."⟩)) ∧
      ∀ q : String, q ≠ "" → startsAtRoot q = false → startsAtDrive q = false →
        directories fs start ("../" ++ q) = directories fs (start.join ⟨".."⟩) q) := by
  have hnormal := isNormal_startPlace fs start
  have hagain : startPlace fs (startPlace fs start).path = startPlace fs start :=
    startPlace_ofLocation (properName_of_mem_spelled fs start)
  refine ⟨⟨hnormal.isAbsolute, fun _ => hnormal.ne_of_mem_components, hagain,
    path_startPlace_of_isNormal⟩, startPlace_up_of_root hstart, fun hroot => ?_⟩
  have hparent := parent?_startPlace hstart hroot
  have hup : (start.join ⟨".."⟩).text ≠ "" := by
    rw [Path.join_up]
    exact Path.text_child_ne_empty (by decide) start
  refine ⟨hparent, fun q hq hrelative hdrive => ?_⟩
  rw [directories_up hstart, hparent, Option.toList_some,
    directories_of_relative hup hq hrelative hdrive]

/-- From `n` the start goes over a link, and one step up is spelled below the link and not below
the directory where the link leads.  Too many steps up end at the root. -/
theorem normal_form_agrees_with_up_of_linkedTree :
    (startPlace linkedTree (Path.join ⟨"./up//x"⟩ ⟨".."⟩) = .absolute ["n", "up"] ∧
      directories linkedTree (Path.join ⟨"./up//x"⟩ ⟨".."⟩) "*" =
        .ok [.absolute ["n", "up", "x"], .absolute ["n", "up", "y"]]) ∧
    startPlace linkedTree (Path.join ⟨"../.."⟩ ⟨".."⟩) = .absolute [] ∧
    (startPlace linkedTree (.ofLocation ["n", "up"])).path = .ofLocation ["n", "up"] := by
  obtain ⟨-, -, hbelow⟩ := normal_form_agrees_with_up linkedTree ⟨"./up//x"⟩ (by decide)
  obtain ⟨-, hroot, -⟩ := normal_form_agrees_with_up linkedTree ⟨"../.."⟩ (by decide)
  obtain ⟨⟨-, -, -, hkept⟩, -⟩ := normal_form_agrees_with_up linkedTree
    (.ofLocation ["n", "up"]) (Path.text_ofLocation_ne_empty _)
  have hproper : ∀ name ∈ ["n", "up"], ProperName name := fun name hname =>
    isEntryName_iff.mp (by revert name; decide +kernel)
  have hplace : startPlace linkedTree ⟨"./up//x"⟩ = .absolute ["n", "up", "x"] := by
    decide +kernel
  have hlisted : directories linkedTree ⟨"./up//x"⟩ "../*" =
      .ok [.absolute ["n", "up", "x"], .absolute ["n", "up", "y"]] :=
    eq_ok_of_toOption (by decide +kernel)
  rw [hplace] at hbelow
  obtain ⟨hparent, hagree⟩ := hbelow (by decide)
  refine ⟨⟨(Option.some.inj hparent).symm, ?_⟩, hroot (by decide +kernel),
    hkept ⟨["n", "up"], hproper, rfl⟩⟩
  rw [← hagree "*" (by decide) (by decide +kernel) (by decide +kernel)]
  exact hlisted

end PathPattern
end PluginHost
