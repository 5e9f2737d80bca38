import PluginHost.Proofs.FileSystem.Contents

/-! # Paths that lead over links

A path that is made of two parts is followed by following the first part and then, with
the links that may still be followed, the second (`follow_append`).  So what stands on
the way to a directory is a directory (`isDirectory_of_append`), and what lies below a
directory is found by the names that lead there (`isDirectory_of_mem_below`).  Both hold
for paths in normal form, whatever links they lead over; a path with `..` in it may
lead somewhere else than it spells. -/
namespace PluginHost
namespace FileSystem

variable {fs : FileSystem}

/-- Where the target of a link leads, over at most so many links, followed by segments. -/
def jump (fs : FileSystem) : Nat → Location → Path → List String → Except FileError Location
  | 0, _, _, _ => .error .tooManyLinks
  | hops + 1, here, target, rest =>
    if target.text.isEmpty then .error .notFound
    else fs.follow hops (if target.isAbsolute then [] else here) (target.segments ++ rest)

theorem follow_nil (hops : Nat) (here : Location) : fs.follow hops here [] = .ok here := by
  cases hops <;> rw [follow, followWith]

/-- How the first segment of a path is followed. -/
theorem follow_cons (hops : Nat) (here : Location) (s : String) (rest : List String) :
    fs.follow hops here (s :: rest) =
      if !fs.hasDirectory here then .error .notDirectory
      else if s == ".." then fs.follow hops here.dropLast rest
      else if !Path.isStep s then fs.follow hops here rest
      else match fs.nodeAt (here ++ [s]) with
        | none => .error .notFound
        | some (.link target) => fs.jump hops here target rest
        | some _ => fs.follow hops (here ++ [s]) rest := by
  cases hops with
  | zero => rw [follow, followWith]; rfl
  | succ hops => rw [follow, followWith]; rfl

/-- A path in two parts is followed one part after the other. -/
theorem follow_append (hops : Nat) (here : Location) (front : List String) :
    ∃ left, ∀ back, fs.follow hops here (front ++ back) =
      fs.follow hops here front >>= fun mid => fs.follow left mid back := by
  induction hops generalizing here front with
  | zero =>
    refine ⟨0, fun back => ?_⟩
    induction front generalizing here with
    | nil => rw [follow_nil]; rfl
    | cons s front ih =>
      rw [List.cons_append, follow_cons, follow_cons]
      split
      · rfl
      · split
        · exact ih _
        · split
          · exact ih _
          · split
            · rfl
            · rfl
            · exact ih _
  | succ hops ihops =>
    induction front generalizing here with
    | nil => exact ⟨hops + 1, fun back => by rw [follow_nil]; rfl⟩
    | cons s front ih =>
      simp only [List.cons_append, follow_cons]
      split
      · exact ⟨0, fun _ => rfl⟩
      · split
        · exact ih _
        · split
          · exact ih _
          · split
            · exact ⟨0, fun _ => rfl⟩
            · -- The target of a link comes in front of what is left of the first part.
              simp only [jump, ← List.append_assoc]
              split
              · exact ⟨0, fun _ => rfl⟩
              · exact ihops _ _
            · exact ih _

/-- Names lead to the directory that they spell. -/
theorem follow_of_hasDirectory (hops : Nat) {here : Location} {names : List String}
    (h : fs.hasDirectory (here ++ names) = true) :
    fs.follow hops here names = .ok (here ++ names) := by
  induction names generalizing here with
  | nil => rw [follow_nil, List.append_nil]
  | cons name names ih =>
    obtain ⟨entries, hnode⟩ := hasDirectory_iff.mp h
    have hhere : fs.hasDirectory here = true := hasDirectory_of_nodeAt hnode
    have hproper := properName_of_nodeAt hnode name (by simp)
    rw [List.append_cons] at h hnode ⊢
    have hnext : fs.hasDirectory (here ++ [name]) = true := by
      cases names with
      | nil => rwa [List.append_nil] at h
      | cons other names => exact hasDirectory_of_nodeAt hnode
    obtain ⟨below, hbelow⟩ := hasDirectory_iff.mp hnext
    rw [follow_cons]
    simp only [hhere, hproper.isStep, beq_iff_eq, hproper.ne_up, hbelow, Bool.not_true,
      Bool.false_eq_true, if_false]
    exact ih h

/-! ## Paths in normal form -/

/-- What is followed from somewhere is followed from a directory. -/
theorem hasDirectory_of_follow {hops : Nat} {here loc : Location} {s : String}
    {rest : List String} (h : fs.follow hops here (s :: rest) = .ok loc) :
    fs.hasDirectory here = true := by
  rw [follow_cons] at h
  split at h
  · cases h
  · rename_i hhere
    simpa using hhere

/-- A path of names is followed from the root. -/
theorem locate_eq_follow {names : List String} (hproper : ∀ name ∈ names, ProperName name) :
    fs.locate (.ofLocation names) = fs.follow maxHops [] names := by
  have htext := Path.text_ofLocation_ne_empty names
  -- The segment in front of the first slash leads nowhere else.
  have hempty : ∀ rest, fs.follow maxHops [] ("" :: rest) = fs.follow maxHops [] rest := by
    intro rest
    rw [follow_cons]
    simp [hasDirectory_root, Path.isStep]
  rw [locate, if_neg (by simpa using htext), if_pos (Path.isAbsolute_ofLocation names)]
  cases names with
  | nil => rw [Path.segments_root, hempty, hempty]
  | cons name names =>
    rw [Path.segments_ofLocation (fun n hn => (hproper n hn).no_slash) (List.cons_ne_nil _ _),
      hempty]

/-- What stands on the way to a directory is a directory. -/
theorem isDirectory_of_append {front back : List String}
    (hproper : ∀ name ∈ front ++ back, ProperName name)
    (h : fs.isDirectory (.ofLocation (front ++ back)) = true) :
    fs.isDirectory (.ofLocation front) = true := by
  obtain ⟨loc, hloc, hdir⟩ := isDirectory_iff.mp h
  obtain ⟨left, happend⟩ := fs.follow_append maxHops [] front
  rw [locate_eq_follow hproper, happend] at hloc
  obtain ⟨mid, hmid, hback⟩ := bind_eq_ok hloc
  rw [← locate_eq_follow fun name hname => hproper name (List.mem_append_left _ hname)] at hmid
  refine isDirectory_iff.mpr ⟨mid, hmid, ?_⟩
  cases back with
  | nil =>
    rw [follow_nil] at hback
    rw [Except.ok.inj hback]
    exact hdir
  | cons s rest => exact hasDirectory_of_follow hback

/-- A directory below where names lead is where they lead with its own names behind them.  The
first names may lead over links and need not be proper; the others lead over none. -/
theorem locate_ofLocation_append {names more : List String} {loc : Location}
    (hloc : fs.locate (.ofLocation names) = .ok loc) (hdir : fs.hasDirectory (loc ++ more) = true) :
    fs.locate (.ofLocation (names ++ more)) = .ok (loc ++ more) := by
  obtain ⟨entries, hnode⟩ := hasDirectory_iff.mp hdir
  have hproper : ∀ name ∈ more, ProperName name := fun name hname =>
    properName_of_nodeAt hnode name (List.mem_append_right _ hname)
  by_cases hmore : more = []
  · rw [hmore, List.append_nil, List.append_nil]
    exact hloc
  by_cases hnames : names = []
  · rw [hnames, locate_eq_follow fun _ h => absurd h List.not_mem_nil, follow_nil] at hloc
    rw [← Except.ok.inj hloc, List.nil_append] at hdir ⊢
    rw [hnames, List.nil_append, locate_eq_follow hproper]
    exact follow_of_hasDirectory maxHops hdir
  · have hsegments : (Path.ofLocation (names ++ more)).segments =
        (Path.ofLocation names).segments ++ more := by
      rw [Path.ofLocation, String.intercalate_append_of_ne_nil hnames hmore, ← String.append_assoc,
        ← String.append_assoc, Path.segments_append_slash,
        Path.segments_intercalate (fun name hname => (hproper name hname).no_slash) hmore]
      rfl
    have htext (names : List String) : (Path.ofLocation names).text.isEmpty = false := by
      simpa using Path.text_ofLocation_ne_empty names
    rw [locate, htext, Path.isAbsolute_ofLocation] at hloc ⊢
    obtain ⟨left, happend⟩ := fs.follow_append maxHops [] (Path.ofLocation names).segments
    rw [hsegments]
    simp only [Bool.false_eq_true, if_false, if_true] at hloc ⊢
    rw [happend, hloc]
    exact follow_of_hasDirectory left hdir

/-- What lies below a directory is found by the names that lead there. -/
theorem isDirectory_of_mem_below {names more : List String}
    (hproper : ∀ name ∈ names, ProperName name) (h : more ∈ fs.below (.ofLocation names)) :
    (∀ name ∈ names ++ more, ProperName name) ∧
      fs.isDirectory (.ofLocation (names ++ more)) = true := by
  obtain ⟨loc, hloc, -, hdir⟩ := hasDirectory_of_mem_below h
  obtain ⟨entries, hnode⟩ := hasDirectory_iff.mp hdir
  refine ⟨fun name hname => ?_, isDirectory_iff.mpr ⟨loc ++ more, ?_, hdir⟩⟩
  · obtain hname | hname := List.mem_append.mp hname
    · exact hproper name hname
    · exact properName_of_nodeAt hnode name (List.mem_append_right _ hname)
  · exact locate_ofLocation_append hloc hdir

end FileSystem
end PluginHost
