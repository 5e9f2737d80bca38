import PluginHost.FileSystem

/-! # The segments of a path

How the segments of a path follow from how the path was put together: of names
(`segments_intercalate`, `segments_ofLocation`), or of a directory and what stands behind
it (`segments_child`), and what it spells then (`lexical_join`).

A path that consists of the names of entries is in normal form (`Path.IsNormal`).  It spells those
names (`lexical_ofLocation`), and every path spells such names (`properName_of_mem_lexical`). -/
namespace PluginHost

/-- What the name of an entry is not. -/
structure ProperName (name : String) : Prop where
  ne_empty : name ≠ ""
  ne_dot : name ≠ "."
  ne_up : name ≠ ".."
  no_slash : '/' ∉ name.toList

theorem isEntryName_iff {name : String} : isEntryName name = true ↔ ProperName name := by
  constructor
  · intro h
    simp only [isEntryName, Bool.and_eq_true, bne_iff_ne, Bool.not_eq_true',
      List.contains_eq_mem, decide_eq_false_iff_not] at h
    exact ⟨h.1.1.1, h.1.1.2, h.1.2, h.2⟩
  · intro h
    simp only [isEntryName, Bool.and_eq_true, bne_iff_ne, Bool.not_eq_true',
      List.contains_eq_mem, decide_eq_false_iff_not]
    exact ⟨⟨⟨h.ne_empty, h.ne_dot⟩, h.ne_up⟩, h.no_slash⟩

/-- The name of an entry is a step on a path. -/
theorem ProperName.isStep {name : String} (h : ProperName name) : Path.isStep name = true := by
  simp [Path.isStep, h.ne_empty, h.ne_dot]

namespace Path

/-- A name leads to the entry of that name. -/
theorem fold_of_properName {name : String} (h : ProperName name) (loc : Location) :
    fold loc name = loc ++ [name] := by
  rw [fold, if_neg (by simpa using h.ne_up), if_pos h.isStep]

/-- A slash parts a path in two. -/
theorem segments_append_slash (front back : String) :
    segments ⟨front ++ "/" ++ back⟩ = segments ⟨front⟩ ++ segments ⟨back⟩ := by
  simp only [segments, String.toList_append, List.append_assoc]
  rw [show "/".toList = ['/'] from rfl, List.singleton_append, List.splitOn_append_cons_self,
    List.map_append]

/-- A text without slashes is one segment. -/
theorem segments_of_no_slash {text : String} (h : '/' ∉ text.toList) :
    segments ⟨text⟩ = [text] := by
  simp only [segments, List.splitOn_eq_singleton h, List.map_singleton, String.ofList_toList]

theorem segments_intercalate {names : List String} (h : ∀ name ∈ names, '/' ∉ name.toList)
    (hne : names ≠ []) : segments ⟨"/".intercalate names⟩ = names := by
  rw [segments, String.toList_intercalate, show "/".toList = ['/'] from rfl,
    List.splitOn_intercalate '/' (by simpa using h) (by simpa using hne), List.map_map]
  simp

/-- The parts of a text do not hold what parts it. -/
theorem not_mem_of_mem_splitOn {sep : Char} {cs part : List Char} (h : part ∈ cs.splitOn sep) :
    sep ∉ part := by
  induction cs generalizing part with
  | nil =>
    rw [List.splitOn_nil, List.mem_singleton] at h
    rw [h]
    exact List.not_mem_nil
  | cons c cs ih =>
    rw [List.splitOn_cons_eq_if_modifyHead] at h
    split at h
    · rcases List.mem_cons.mp h with rfl | h
      · exact List.not_mem_nil
      · exact ih h
    · rename_i hc
      cases hs : cs.splitOn sep with
      | nil => exact absurd hs (List.splitOn_ne_nil sep cs)
      | cons first parts =>
        rw [hs, List.modifyHead_cons] at h
        rcases List.mem_cons.mp h with rfl | h
        · have hfirst : sep ∉ first := ih (hs ▸ List.mem_cons_self)
          have hne : sep ≠ c := fun heq => hc (by simp [heq])
          exact fun hmem => (List.mem_cons.mp hmem).elim hne hfirst
        · exact ih (hs ▸ List.mem_cons_of_mem _ h)

/-- A segment that names an entry is a proper name. -/
theorem properName_of_mem_segments {p : Path} {s : String} (h : s ∈ p.segments)
    (hstep : isStep s = true) (hup : s ≠ "..") : ProperName s := by
  obtain ⟨part, hpart, rfl⟩ := List.mem_map.mp h
  simp only [isStep, Bool.and_eq_true, bne_iff_ne] at hstep
  exact ⟨hstep.1, hstep.2, hup, by simpa using not_mem_of_mem_splitOn hpart⟩

/-- A path spells proper names, if those are proper that it is seen from. -/
theorem properName_of_mem_lexical {base : Location} (hbase : ∀ name ∈ base, ProperName name)
    (p : Path) : ∀ name ∈ p.lexical base, ProperName name := by
  have hspelled : ∀ (segments : List String) (names : Location), segments ⊆ p.segments →
      (∀ name ∈ names, ProperName name) →
      ∀ name ∈ segments.foldl fold names, ProperName name := by
    intro segments
    induction segments with
    | nil => exact fun names _ h => h
    | cons s rest ih =>
      intro names hsub h
      obtain ⟨hs, hsub⟩ := List.cons_subset.mp hsub
      refine ih (fold names s) hsub fun name hname => ?_
      unfold fold at hname
      split at hname
      · exact h name (List.dropLast_subset _ hname)
      · rename_i hup
        split at hname
        · rename_i hstep
          rcases List.mem_append.mp hname with hname | hname
          · exact h name hname
          · rw [List.mem_singleton.mp hname]
            exact properName_of_mem_segments hs hstep (by simpa using hup)
        · exact h name hname
  refine hspelled p.segments _ (List.Subset.refl _) ?_
  split
  · exact fun _ h => absurd h List.not_mem_nil
  · exact hbase

/-- The path to a location has the names of the location behind its first slash. -/
theorem segments_ofLocation {loc : Location} (h : ∀ name ∈ loc, '/' ∉ name.toList)
    (hne : loc ≠ []) :
    (ofLocation loc).segments = "" :: loc := by
  have hslash := segments_append_slash "" ("/".intercalate loc)
  rw [String.empty_append] at hslash
  rw [ofLocation, hslash, segments_intercalate h hne]
  rfl

theorem segments_root : (ofLocation []).segments = ["", ""] := by
  decide +kernel

theorem text_ofLocation_ne_empty (loc : Location) : (ofLocation loc).text ≠ "" := by
  simp [ofLocation]

theorem isAbsolute_ofLocation (loc : Location) : (ofLocation loc).isAbsolute = true := by
  rw [isAbsolute, ofLocation, String.toList_append]
  rfl

/-- The path to a location spells the location. -/
theorem lexical_ofLocation {loc : Location} (h : ∀ name ∈ loc, ProperName name)
    (base : Location) : (ofLocation loc).lexical base = loc := by
  have hnames : ∀ (names front : Location), (∀ name ∈ names, ProperName name) →
      names.foldl fold front = front ++ names := by
    intro names
    induction names with
    | nil => exact fun front _ => (List.append_nil _).symm
    | cons name names ih =>
      intro front h
      rw [List.foldl_cons, fold_of_properName (h name List.mem_cons_self),
        ih _ fun n hn => h n (List.mem_cons_of_mem _ hn), List.append_assoc,
        List.singleton_append]
  rw [lexical, if_pos (isAbsolute_ofLocation loc)]
  cases loc with
  | nil => rw [segments_root]; rfl
  | cons name loc =>
    rw [segments_ofLocation (fun n hn => (h n hn).no_slash) (List.cons_ne_nil _ _)]
    exact hnames (name :: loc) [] h

/-- Names that are joined are seen from the working directory. -/
theorem isAbsolute_intercalate {name : String} (h : ProperName name) (names : List String) :
    isAbsolute ⟨"/".intercalate (name :: names)⟩ = false := by
  obtain ⟨c, cs, hcs⟩ : ∃ c cs, name.toList = c :: cs :=
    List.exists_cons_of_ne_nil fun hnil => h.ne_empty (String.toList_eq_nil_iff.mp hnil)
  have hc : c ≠ '/' := by
    rintro rfl
    exact h.no_slash (hcs ▸ List.mem_cons_self)
  rw [isAbsolute, String.toList_intercalate]
  cases names with
  | nil => simp [hcs, hc]
  | cons other names => simp [List.intercalate, hcs, hc]

/-- The path of an entry starts where the path of its directory starts. -/
theorem isAbsolute_child {p : Path} {name : String} (hp : p.text ≠ "") :
    (p.child name).isAbsolute = p.isAbsolute := by
  obtain ⟨c, cs, hcs⟩ : ∃ c cs, p.text.toList = c :: cs :=
    List.exists_cons_of_ne_nil fun hnil => hp (String.toList_eq_nil_iff.mp hnil)
  rw [isAbsolute, isAbsolute, child]
  split <;> simp [String.toList_append, hcs]

theorem text_child_ne_empty {name : String} (h : name ≠ "") (p : Path) :
    (p.child name).text ≠ "" := by
  rw [child]
  split <;> simp [h]

/-- The segments of a path behind a directory: those of the directory, without an empty one at
their end, and those of the path. -/
theorem segments_child {p : Path} (hp : p.text ≠ "") (text : String) :
    ∃ front, (p.segments = front ∨ p.segments = front ++ [""]) ∧
      (p.child text).segments = front ++ segments ⟨text⟩ := by
  cases hopen : p.endsOpen with
  | true =>
    refine ⟨p.segments, .inl rfl, ?_⟩
    rw [child, if_pos hopen, segments_append_slash]
  | false =>
    have hlast : p.text.toList.getLast? = some '/' := by
      unfold endsOpen at hopen
      split at hopen
      · rename_i hnone
        exact absurd (String.toList_eq_nil_iff.mp (List.getLast?_eq_none_iff.mp hnone)) hp
      · rename_i c hc
        rw [hc, show c = '/' by simpa using hopen]
    obtain ⟨front, hfront⟩ := List.getLast?_eq_some_iff.mp hlast
    have htext : p.text = String.ofList front ++ "/" := by
      rw [← String.toList_inj, String.toList_append, String.toList_ofList, hfront]
      rfl
    refine ⟨segments ⟨String.ofList front⟩, .inr ?_, ?_⟩
    · have hslash := segments_append_slash (String.ofList front) ""
      rw [String.append_empty, ← htext] at hslash
      exact hslash
    · rw [child, if_neg (by rw [hopen]; exact Bool.false_ne_true), htext, segments_append_slash]

/-- What a path behind a directory spells is spelled from what the directory spells. -/
theorem lexical_child {p : Path} (hp : p.text ≠ "") (text : String) (base : Location) :
    (p.child text).lexical base = (segments ⟨text⟩).foldl fold (p.lexical base) := by
  obtain ⟨front, hfront, hsegments⟩ := segments_child hp text
  rw [lexical, lexical, isAbsolute_child hp, hsegments, List.foldl_append]
  -- An empty segment at the end of the directory stays where it is.
  obtain rfl | hfront := hfront
  · rfl
  · rw [hfront, List.foldl_append]
    rfl

/-- A path as seen from a directory spells what it spells from where the directory is
spelled. -/
theorem lexical_join {p : Path} (hp : p.text ≠ "") (q : Path) (base : Location) :
    (p.join q).lexical base = q.lexical (p.lexical base) := by
  by_cases hq : q.isAbsolute = true
  · rw [join, if_pos hq, lexical, lexical, if_pos hq, if_pos hq]
  · rw [join, if_neg hq, lexical_child hp, lexical.eq_1 _ q, if_neg hq]

/-! ## Upwards -/

theorem join_up (p : Path) : p.join ⟨".."⟩ = p.child ".." :=
  if_neg (by decide)

/-- `..` behind a path takes back the last name that the path spells. -/
theorem lexical_up {p : Path} (hp : p.text ≠ "") (base : Location) :
    (p.join ⟨".."⟩).lexical base = (p.lexical base).dropLast := by
  rw [join_up, lexical_child hp, segments_of_no_slash (by decide)]
  rfl

/-! ## Normal form -/

/-- A path in normal form: it starts at the root and consists of the names of entries. -/
def IsNormal (p : Path) : Prop :=
  ∃ names : Location, (∀ name ∈ names, ProperName name) ∧ p = .ofLocation names

theorem IsNormal.isAbsolute {p : Path} (h : p.IsNormal) : p.isAbsolute = true := by
  obtain ⟨names, -, rfl⟩ := h
  exact isAbsolute_ofLocation names

/-- The components of the path to a location are the root and the names of the location. -/
theorem components_ofLocation {loc : Location} (h : ∀ name ∈ loc, ProperName name) :
    (ofLocation loc).components = "/" :: loc := by
  have hnames : (ofLocation loc).segments.filter isStep = loc := by
    cases loc with
    | nil => rw [segments_root]; rfl
    | cons name loc =>
      rw [segments_ofLocation (fun n hn => (h n hn).no_slash) (List.cons_ne_nil _ _)]
      exact List.filter_eq_self.mpr fun n hn => (h n hn).isStep
  simp only [components, hnames, isAbsolute_ofLocation, if_true]

/-- **In normal form** no component is `.` or `..`. -/
theorem IsNormal.ne_of_mem_components {p : Path} (h : p.IsNormal) {part : String}
    (hpart : part ∈ p.components) : part ≠ "." ∧ part ≠ ".." := by
  obtain ⟨names, hproper, rfl⟩ := h
  rw [components_ofLocation hproper] at hpart
  obtain rfl | hpart := List.mem_cons.mp hpart
  · decide
  · exact ⟨(hproper part hpart).ne_dot, (hproper part hpart).ne_up⟩

end Path
end PluginHost
