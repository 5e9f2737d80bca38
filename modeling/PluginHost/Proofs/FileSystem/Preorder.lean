import Mathlib.Data.List.Sort
import PluginHost.Proofs.FileSystem.Contents
import PluginHost.Proofs.Text.ByteOrder

/-! # The order in which directories are listed

`Location.Before` compares two locations without looking at a tree: a location comes before what
is below it, and of two siblings the one whose name has the lesser bytes comes first, with all
that is below it.  `FileSystem.ListsBelow` says that a list holds the directories below a location
in this order.  There is one such list only (`ListsBelow.unique`), and it is the one that a file
system answers with (`listsBelow_below`).  All directories of a file system are in this order as
well (`pairwise_before_directories`), so none is listed twice. -/
namespace PluginHost

/-- The order of locations in which a tree is listed depth first. -/
inductive Location.Before : Location → Location → Prop
  /-- A location stands before what is below it. -/
  | above (loc : Location) {more : Location} (hne : more ≠ []) : Before loc (loc ++ more)
  /-- Of two siblings the one whose name has the lesser bytes stands first, and so does what is
  below it. -/
  | beside (top : Location) {a b : String} (front back : Location)
      (hlt : Utf8.encode a < Utf8.encode b) : Before (top ++ a :: front) (top ++ b :: back)

namespace Location

variable {loc other : Location}

theorem Before.cons (h : Before loc other) (name : String) :
    Before (name :: loc) (name :: other) := by
  cases h with
  | above _ hne => exact .above (name :: loc) hne
  | beside top front back hlt => exact .beside (name :: top) front back hlt

/-- The order is the one of dictionaries, with names for letters. -/
theorem Before.lex (h : Before loc other) :
    List.Lex (fun a b => Utf8.encode a < Utf8.encode b) loc other := by
  cases h with
  | @above _ more hne =>
    obtain ⟨name, more, rfl⟩ := List.exists_cons_of_ne_nil hne
    induction loc with
    | nil => exact .nil
    | cons first loc ih => exact .cons ih
  | beside top front back hlt =>
    induction top with
    | nil => exact .rel hlt
    | cons first top ih => exact .cons ih

theorem Before.asymm (h : Before loc other) : ¬ Before other loc := fun h' =>
  List.lex_asymm (fun hlt hgt => List.lt_asymm hlt hgt) h.lex h'.lex

/-- Nothing is in order that occurs twice. -/
theorem nodup_of_pairwise_before {locs : List Location} (h : locs.Pairwise Before) :
    locs.Nodup := by
  refine h.imp fun hbefore heq => ?_
  rw [heq] at hbefore
  exact hbefore.asymm hbefore

end Location

namespace Node

mutual
/-- The directories below an entry are listed in order. -/
theorem pairwise_before_directoriesBelow {node : Node} (h : node.WellFormed) :
    node.directoriesBelow.Pairwise Location.Before := by
  cases node with
  | file content => exact .nil
  | link target => exact .nil
  | directory entries =>
    rw [WellFormed] at h
    exact pairwise_before_allDirectoriesBelow h

/-- The directories among entries and below them are listed in order, since the entries are. -/
theorem pairwise_before_allDirectoriesBelow {entries : Entries} (h : AllWellFormed entries) :
    (allDirectoriesBelow entries).Pairwise Location.Before := by
  cases entries with
  | nil => exact .nil
  | cons e rest =>
    obtain ⟨name, node⟩ := e
    rw [AllWellFormed] at h
    obtain ⟨-, hnode, hsmaller, hrest⟩ := h
    have hbelow : ((directoriesBelow node).map (name :: ·)).Pairwise Location.Before :=
      List.Pairwise.map _ (fun _ _ hbefore => hbefore.cons name)
        (pairwise_before_directoriesBelow hnode)
    have hself : (if node.isDirectory then [[name]] else []).Pairwise Location.Before := by
      split
      · exact List.pairwise_singleton _ _
      · exact .nil
    rw [allDirectoriesBelow, List.pairwise_append, List.pairwise_append]
    refine ⟨⟨hself, hbelow, ?_⟩, pairwise_before_allDirectoriesBelow hrest, ?_⟩
    · intro loc hloc other hother
      obtain ⟨back, hback, rfl⟩ := List.mem_map.mp hother
      split at hloc
      · rw [List.mem_singleton.mp hloc]
        exact .above [name] (descend?_of_mem_directoriesBelow hnode hback).1
      · cases hloc
    · intro loc hloc other hother
      obtain ⟨name', node', back, hmem, rfl, -⟩ := exists_of_mem_allDirectoriesBelow hrest hother
      obtain ⟨front, rfl⟩ : ∃ front, loc = name :: front := by
        obtain hloc | hloc := List.mem_append.mp hloc
        · split at hloc
          · exact ⟨[], List.mem_singleton.mp hloc⟩
          · cases hloc
        · obtain ⟨front, -, rfl⟩ := List.mem_map.mp hloc
          exact ⟨front, rfl⟩
      exact .beside [] front back (Utf8.encode_lt_encode (hsmaller _ hmem))
end

end Node

namespace FileSystem

variable {fs : FileSystem} {loc : Location} {below : List Location}

/-- A list holds the directories below a location in depth first order. -/
structure ListsBelow (fs : FileSystem) (loc : Location) (below : List Location) : Prop where
  mem_iff : ∀ more, more ∈ below ↔ more ≠ [] ∧ fs.hasDirectory (loc ++ more) = true
  order : below.Pairwise Location.Before

theorem ListsBelow.nodup (h : fs.ListsBelow loc below) : below.Nodup :=
  Location.nodup_of_pairwise_before h.order

theorem ListsBelow.unique {other : List Location} (h : fs.ListsBelow loc below)
    (ho : fs.ListsBelow loc other) : below = other := by
  have hirrefl : Std.Irrefl Location.Before := ⟨fun _ hself => hself.asymm hself⟩
  have hantisymm : Std.Antisymm Location.Before := ⟨fun _ _ hab hba => absurd hba hab.asymm⟩
  refine h.order.eq_of_mem_iff ho.order fun more => ?_
  rw [h.mem_iff, ho.mem_iff]

/-- A link below the location is not listed, nor is anything behind it. -/
theorem ListsBelow.not_mem_of_link (h : fs.ListsBelow loc below) {front back : Location}
    {target : Path} (hlink : fs.nodeAt (loc ++ front) = some (.link target)) :
    front ++ back ∉ below := by
  intro hmem
  obtain ⟨entries, hnode⟩ := hasDirectory_iff.mp ((h.mem_iff _).mp hmem).2
  rw [← List.append_assoc, nodeAt_append, hlink] at hnode
  cases back <;> cases hnode

/-- **What is listed below a path** are the directories below where it leads, in order. -/
theorem listsBelow_below {path : Path} (h : fs.locate path = .ok loc) :
    fs.ListsBelow loc (fs.below path) where
  mem_iff more := by
    constructor
    · intro hmem
      obtain ⟨loc', hloc', hmore⟩ := hasDirectory_of_mem_below hmem
      obtain rfl : loc = loc' := Except.ok.inj (h.symm.trans hloc')
      exact hmore
    · rintro ⟨hne, hdir⟩
      obtain ⟨entries, hmore⟩ := hasDirectory_iff.mp hdir
      rw [nodeAt_append] at hmore
      obtain ⟨node, hnode, hmore⟩ := Option.bind_eq_some_iff.mp hmore
      have htop : fs.node path = .ok node := by rw [node_of_locate h, hnode]
      exact mem_below_iff.mpr ⟨hne, node, entries, htop, hmore⟩
  order := by
    rw [below, node_of_locate h]
    cases hnode : fs.nodeAt loc with
    | none => exact .nil
    | some node => exact Node.pairwise_before_directoriesBelow (wellFormed_nodeAt hnode).1

/-- All directories of a file system are listed in order. -/
theorem pairwise_before_directories (fs : FileSystem) :
    fs.directories.Pairwise Location.Before := by
  refine List.pairwise_cons.mpr ⟨fun loc hloc => ?_,
    Node.pairwise_before_directoriesBelow (wellFormed_root fs)⟩
  exact .above [] (Node.descend?_of_mem_directoriesBelow (wellFormed_root fs) hloc).1

/-- No directory is listed twice. -/
theorem nodup_directories (fs : FileSystem) : fs.directories.Nodup :=
  Location.nodup_of_pairwise_before fs.pairwise_before_directories

end FileSystem
end PluginHost
