import PluginHost.Proofs.FileSystem.Contents

/-! # File systems without links

Without links a path is followed one segment at a time (`LinkFree.follow_eq`), and it
leads to the location that it spells or nowhere (`LinkFree.lexical_eq`).  The path to
a location leads there (`LinkFree.locate_ofLocation`), and the path of an entry leads to
the entry (`LinkFree.locate_child`), whatever path the directory was found by. -/
namespace PluginHost

namespace Node

mutual
/-- Whether the entry is a link or has one below it. -/
def hasLink : Node → Bool
  | .link _ => true
  | .file _ => false
  | .directory entries => anyLink entries

/-- Whether one of the entries is a link or has one below it. -/
def anyLink : List (String × Node) → Bool
  | [] => false
  | (_, node) :: rest => node.hasLink || anyLink rest
end

theorem anyLink_of_mem {entries : Entries} {name : String} {node : Node}
    (hmem : (name, node) ∈ entries) (h : node.hasLink = true) : anyLink entries = true := by
  induction entries with
  | nil => cases hmem
  | cons e rest ih =>
    obtain ⟨first, other⟩ := e
    rw [anyLink, Bool.or_eq_true]
    rcases List.mem_cons.mp hmem with heq | hmem
    · obtain ⟨rfl, rfl⟩ := Prod.mk.inj heq
      exact .inl h
    · exact .inr (ih hmem)

/-- A link that is reached from an entry is below it. -/
theorem hasLink_of_descend? {loc : Location} {node : Node} {target : Path}
    (h : descend? loc node = some (.link target)) : node.hasLink = true := by
  induction loc generalizing node with
  | nil =>
    rw [Option.some.inj h]
    rfl
  | cons name loc ih =>
    cases node with
    | file content => cases h
    | link target => rfl
    | directory entries =>
      rw [descend?] at h
      obtain ⟨child, hc, hd⟩ := Option.bind_eq_some_iff.mp h
      exact anyLink_of_mem (mem_of_lookup hc) (ih hd)

end Node

namespace FileSystem

variable {fs : FileSystem}

/-- A file system in which nothing is a link. -/
def LinkFree (fs : FileSystem) : Prop := ∀ loc target, fs.nodeAt loc ≠ some (.link target)

theorem linkFree_of_hasLink (h : fs.root.hasLink = false) : fs.LinkFree := by
  intro loc target hlink
  rw [Node.hasLink_of_descend? hlink] at h
  cases h

/-- Where one segment leads, links not followed. -/
def stepTo (fs : FileSystem) (here : Location) (s : String) : Except FileError Location :=
  if !fs.hasDirectory here then .error .notDirectory
  else if s == ".." then .ok here.dropLast
  else if !Path.isStep s then .ok here
  else match fs.nodeAt (here ++ [s]) with
    | none => .error .notFound
    | some _ => .ok (here ++ [s])

/-- A segment leads where it spells, from a directory. -/
theorem stepTo_eq_ok {here loc : Location} {s : String} (h : fs.stepTo here s = .ok loc) :
    fs.hasDirectory here = true ∧ Path.fold here s = loc := by
  unfold stepTo at h
  split at h
  · cases h
  · rename_i hdir
    refine ⟨by simpa using hdir, ?_⟩
    unfold Path.fold
    split at h
    · rename_i hup
      rw [if_pos hup]
      exact Except.ok.inj h
    · rename_i hup
      rw [if_neg hup]
      split at h
      · rename_i hstay
        rw [if_neg (by simpa using hstay)]
        exact Except.ok.inj h
      · rename_i hstep
        rw [if_pos (by simpa using hstep)]
        split at h
        · cases h
        · exact Except.ok.inj h

/-- Names that lead to something from a location. -/
theorem foldlM_stepTo_of_nodeAt (here : Location) {names : List String} {node : Node}
    (h : fs.nodeAt (here ++ names) = some node) :
    names.foldlM fs.stepTo here = .ok (here ++ names) := by
  induction names generalizing here with
  | nil =>
    rw [List.append_nil]
    rfl
  | cons name names ih =>
    have hproper := properName_of_nodeAt h name (by simp)
    have hdir : fs.hasDirectory here = true := hasDirectory_of_nodeAt h
    rw [List.append_cons] at h
    have hstep : fs.stepTo here name = .ok (here ++ [name]) := by
      have hsome : ∃ node, fs.nodeAt (here ++ [name]) = some node := by
        rw [nodeAt_append] at h
        obtain ⟨node, hnode, -⟩ := Option.bind_eq_some_iff.mp h
        exact ⟨node, hnode⟩
      obtain ⟨node, hnode⟩ := hsome
      simp [stepTo, hdir, hproper.ne_up, hproper.isStep, hnode]
    rw [List.foldlM_cons, hstep, List.append_cons here name names]
    exact ih _ h

namespace LinkFree

/-- Without links each segment is one step. -/
theorem followWith_eq (hfree : fs.LinkFree)
    (jump : Location → Path → List String → Except FileError Location) (here : Location)
    (segments : List String) :
    fs.followWith jump here segments = segments.foldlM fs.stepTo here := by
  induction segments generalizing here with
  | nil => rw [followWith]; rfl
  | cons s rest ih =>
    rw [followWith, List.foldlM_cons, stepTo]
    split
    · rfl
    · split
      · exact ih _
      · split
        · exact ih _
        · split
          · rename_i hnone
            rw [hnone]
            rfl
          · rename_i target hlink
            exact absurd hlink (hfree _ _)
          · rename_i node _ hnode
            rw [hnode]
            exact ih _

theorem follow_eq (hfree : fs.LinkFree) (hops : Nat) (here : Location) (segments : List String) :
    fs.follow hops here segments = segments.foldlM fs.stepTo here := by
  cases hops with
  | zero => exact hfree.followWith_eq _ here segments
  | succ hops => exact hfree.followWith_eq _ here segments

theorem locate_eq (hfree : fs.LinkFree) {p : Path} (hp : p.text ≠ "") :
    fs.locate p =
      p.segments.foldlM fs.stepTo (if p.isAbsolute then [] else fs.workingDirectory) := by
  rw [locate, if_neg (by simpa using hp), hfree.follow_eq]

/-- **Without links a path leads where it spells**, if it leads anywhere. -/
theorem lexical_eq (hfree : fs.LinkFree) {p : Path} {loc : Location}
    (h : fs.locate p = .ok loc) : p.lexical fs.workingDirectory = loc := by
  have spelled : ∀ (segments : List String) (here loc : Location),
      segments.foldlM fs.stepTo here = .ok loc → segments.foldl Path.fold here = loc := by
    intro segments
    induction segments with
    | nil => exact fun here loc h => Except.ok.inj h
    | cons s rest ih =>
      intro here loc h
      rw [List.foldlM_cons] at h
      obtain ⟨next, hs, hrest⟩ := bind_eq_ok h
      rw [List.foldl_cons, (stepTo_eq_ok hs).2]
      exact ih next loc hrest
  rw [hfree.locate_eq (text_ne_empty_of_locate h)] at h
  exact spelled _ _ _ h

/-- The path to a location leads there. -/
theorem locate_ofLocation (hfree : fs.LinkFree) {loc : Location} {node : Node}
    (h : fs.nodeAt loc = some node) : fs.locate (.ofLocation loc) = .ok loc := by
  have hproper := properName_of_nodeAt h
  rw [hfree.locate_eq (Path.text_ofLocation_ne_empty loc), if_pos (Path.isAbsolute_ofLocation loc)]
  have hroot : fs.stepTo [] "" = .ok [] := rfl
  cases loc with
  | nil =>
    rw [Path.segments_root, List.foldlM_cons, hroot]
    exact hroot
  | cons name loc =>
    rw [Path.segments_ofLocation (fun n hn => (hproper n hn).no_slash) (List.cons_ne_nil _ _),
      List.foldlM_cons, hroot]
    exact foldlM_stepTo_of_nodeAt [] h

/-- Names that are joined lead below the working directory. -/
theorem locate_intercalate (hfree : fs.LinkFree) {names : List String} {node : Node}
    (hne : names ≠ []) (h : fs.nodeAt (fs.workingDirectory ++ names) = some node) :
    fs.locate ⟨"/".intercalate names⟩ = .ok (fs.workingDirectory ++ names) := by
  have hproper : ∀ name ∈ names, ProperName name := fun name hname =>
    properName_of_nodeAt h name (List.mem_append_right _ hname)
  obtain ⟨name, rest, rfl⟩ := List.exists_cons_of_ne_nil hne
  have habsolute := Path.isAbsolute_intercalate (hproper name List.mem_cons_self) rest
  have htext : "/".intercalate (name :: rest) ≠ "" := by
    intro he
    have hsegments := Path.segments_intercalate (fun n hn => (hproper n hn).no_slash) hne
    rw [he] at hsegments
    -- The empty text has one segment, which is no name.
    obtain ⟨rfl, -⟩ := List.cons.inj hsegments
    exact (hproper "" List.mem_cons_self).ne_empty rfl
  rw [hfree.locate_eq (p := ⟨"/".intercalate (name :: rest)⟩) htext, habsolute,
    Path.segments_intercalate (fun n hn => (hproper n hn).no_slash) hne]
  exact foldlM_stepTo_of_nodeAt _ h

/-- **The path of an entry leads to the entry.** -/
theorem locate_child (hfree : fs.LinkFree) {dir : Path} {loc : Location} {name : String}
    {node : Node} (hdir : fs.locate dir = .ok loc) (h : fs.nodeAt (loc ++ [name]) = some node) :
    fs.locate (dir.child name) = .ok (loc ++ [name]) := by
  have hproper := properName_of_nodeAt h name (by simp)
  have htext := text_ne_empty_of_locate hdir
  have hchild := Path.text_child_ne_empty hproper.ne_empty dir
  obtain ⟨front, hfront, hsegments⟩ := Path.segments_child htext name
  rw [Path.segments_of_no_slash hproper.no_slash] at hsegments
  rw [hfree.locate_eq hchild, Path.isAbsolute_child htext, hsegments, List.foldlM_append]
  rw [hfree.locate_eq htext] at hdir
  generalize (if dir.isAbsolute = true then [] else fs.workingDirectory) = base at hdir ⊢
  have hbase : front.foldlM fs.stepTo base = .ok loc := by
    rcases hfront with hfront | hfront
    · rw [hfront] at hdir
      exact hdir
    · -- An empty segment at the end leads nowhere else.
      rw [hfront, List.foldlM_append] at hdir
      obtain ⟨last, hlast, hempty⟩ := bind_eq_ok hdir
      obtain ⟨next, hnext, hdone⟩ := bind_eq_ok hempty
      obtain rfl := Except.ok.inj hdone
      obtain rfl : last = next := (stepTo_eq_ok hnext).2
      exact hlast
  rw [hbase]
  exact foldlM_stepTo_of_nodeAt loc h

end LinkFree
end FileSystem
end PluginHost
